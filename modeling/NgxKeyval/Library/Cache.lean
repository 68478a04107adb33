import Mathlib.Logic.Function.Basic

/-!
# Evaluation through a cache

Nodes have values that are computed from those of other nodes, their references, and a cache
remembers what has been computed.  Nothing is ever recomputed while it is in the cache, so what is
found there may be out of date.

* `Cache.UpToDate` says of a node that asking for it through the cache yields its value: it is in
  the cache with that value, or it is not in the cache and all its references are up to date.
* `Cache.Fills` says that a cache was filled in further, with values; nothing goes out of date by
  this (`UpToDate.of_fills`).
* `UpToDate.of_rank` says that only nodes below matter, if references go down.
-/

set_option autoImplicit false

universe u v

namespace Cache

variable {ι : Type u} {α : Type v} (refs : ι → List ι) (value : ι → α)

/-- Asking for this node through the cache yields its value. -/
inductive UpToDate (cache : ι → Option α) : ι → Prop
  /-- It is remembered. -/
  | cached (i : ι) (h : cache i = some (value i)) : UpToDate cache i
  /-- It is not, and will be computed from nodes that are up to date. -/
  | computed (i : ι) (h : cache i = none) (hrefs : ∀ j ∈ refs i, UpToDate cache j) :
      UpToDate cache i

/-- Some entries were filled in, with values. -/
def Fills (cache cache' : ι → Option α) : Prop :=
  ∀ i, cache' i = cache i ∨ cache i = none ∧ cache' i = some (value i)

variable {refs value} {cache cache' cache'' : ι → Option α} {i : ι}

theorem Fills.refl (cache : ι → Option α) : Fills value cache cache := fun _ ↦ Or.inl rfl

theorem Fills.trans (h : Fills value cache cache') (h' : Fills value cache' cache'') :
    Fills value cache cache'' := by
  intro i
  rcases h i with heq | ⟨hnone, hsome⟩
  · rcases h' i with heq' | ⟨hnone', hsome'⟩
    · exact Or.inl (heq'.trans heq)
    · exact Or.inr ⟨heq.symm.trans hnone', hsome'⟩
  · rcases h' i with heq' | ⟨hnone', -⟩
    · exact Or.inr ⟨hnone, heq'.trans hsome⟩
    · rw [hsome] at hnone'
      cases hnone'

theorem Fills.eq_some (h : Fills value cache cache') {x : α} (hx : cache i = some x) :
    cache' i = some x := by
  rcases h i with heq | ⟨hnone, -⟩
  · exact heq.trans hx
  · rw [hnone] at hx
    cases hx

/-- **Filling in** keeps nodes up to date. -/
theorem UpToDate.of_fills (hi : UpToDate refs value cache i) (h : Fills value cache cache') :
    UpToDate refs value cache' i := by
  induction hi with
  | cached i hi => exact .cached i (h.eq_some hi)
  | computed i hi _ ih =>
    rcases h i with heq | ⟨-, hsome⟩
    · exact .computed i (heq.trans hi) ih
    · exact .cached i hsome

/-- **Only the nodes below matter.** -/
theorem UpToDate.of_rank {rank : ι → Nat} (hrank : ∀ i, ∀ j ∈ refs i, rank j < rank i)
    (hi : UpToDate refs value cache i) (h : ∀ j, rank j ≤ rank i → cache' j = cache j) :
    UpToDate refs value cache' i := by
  induction hi with
  | cached i hi => exact .cached i ((h i (Nat.le_refl _)).trans hi)
  | computed i hi _ ih =>
    refine .computed i ((h i (Nat.le_refl _)).trans hi) fun j hj ↦ ih j hj fun k hk ↦ h k ?_
    exact Nat.le_of_lt (Nat.lt_of_le_of_lt hk (hrank i j hj))

end Cache
