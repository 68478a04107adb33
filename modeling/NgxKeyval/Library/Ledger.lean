import Mathlib.Data.List.Induction

/-!
# Books of resources that are acquired, used and released

A program that handles resources by name leaves a list of deeds behind: it acquires a resource,
uses it, releases it.  The list is in order when every resource that is acquired is new, and every
one that is used or released is held at that moment.  Being in order is a condition on each deed and
what came before it, so it is proved step by step while the list grows.

What follows from it is about the list as a whole: no resource is released twice (`count_release`),
none is touched after its release (`id_ne_of_release`), and what is not held in the end has been
released (`mem_held_iff`).
-/

set_option autoImplicit false

namespace Ledger

universe u

/-- What is done with a resource. -/
inductive Deed (ι : Type u) where
  | acquire (i : ι)
  | use (i : ι)
  | release (i : ι)
  deriving DecidableEq, Repr

variable {ι : Type u}

/-- The resource a deed is about. -/
def Deed.id : Deed ι → ι
  | .acquire i => i
  | .use i => i
  | .release i => i

variable [DecidableEq ι]

/-- What is held after a deed. -/
def Deed.apply (held : List ι) : Deed ι → List ι
  | .acquire i => i :: held
  | .use _ => held
  | .release i => held.filter fun j ↦ decide (j ≠ i)

/-- What is held in the end. -/
def held (t : List (Deed ι)) : List ι := t.foldl Deed.apply []

/-- A deed may follow these. -/
def Deed.Allowed (t : List (Deed ι)) : Deed ι → Prop
  | .acquire i => ∀ d ∈ t, d.id ≠ i
  | .use i => i ∈ held t
  | .release i => i ∈ held t

/-- Every deed is allowed when it is done. -/
inductive Disciplined : List (Deed ι) → Prop
  | nil : Disciplined []
  | snoc {t : List (Deed ι)} {d : Deed ι} (h : Disciplined t) (hd : d.Allowed t) :
      Disciplined (t ++ [d])

variable {t t' new pre post : List (Deed ι)} {d : Deed ι} {i : ι}

@[simp] theorem held_nil : held ([] : List (Deed ι)) = [] := rfl

theorem held_append : held (t ++ t') = t'.foldl Deed.apply (held t) := List.foldl_append ..

@[simp] theorem held_snoc : held (t ++ [d]) = d.apply (held t) := held_append

theorem held_append_of_use (h : ∀ d ∈ t', ∃ i, d = .use i) : held (t ++ t') = held t := by
  rw [held_append]
  generalize held t = l
  induction t' with
  | nil => rfl
  | cons d t' ih =>
    obtain ⟨i, rfl⟩ := h d List.mem_cons_self
    exact ih fun e he ↦ h e (List.mem_cons_of_mem _ he)

/-- **What is held** has been acquired and not released. -/
theorem Disciplined.mem_held_iff (h : Disciplined t) :
    i ∈ held t ↔ .acquire i ∈ t ∧ .release i ∉ t := by
  induction h with
  | nil => simp
  | @snoc t d _ hd ih =>
    rw [held_snoc]
    cases d with
    | acquire j =>
      by_cases hij : i = j
      · subst hij
        have hrel : .release i ∉ t := fun hmem ↦ hd _ hmem rfl
        simp [Deed.apply, hrel]
      · simp [Deed.apply, ih, hij]
    | use j => simp [Deed.apply, ih]
    | release j =>
      by_cases hij : i = j
      · subst hij
        simp [Deed.apply]
      · simp [Deed.apply, ih, hij]

theorem Disciplined.split (h : Disciplined (pre ++ d :: post)) :
    Disciplined pre ∧ d.Allowed pre := by
  induction post using List.reverseRecOn with
  | nil =>
    generalize ht : pre ++ [d] = t at h
    cases h with
    | nil => simp at ht
    | snoc h hd =>
      obtain ⟨rfl, hdd⟩ := List.append_inj' ht rfl
      obtain rfl := List.singleton_inj.mp hdd
      exact ⟨h, hd⟩
  | append_singleton post e ih =>
    generalize ht : pre ++ d :: (post ++ [e]) = t at h
    cases h with
    | nil => simp at ht
    | snoc h hd =>
      rw [← List.cons_append, ← List.append_assoc] at ht
      obtain ⟨rfl, -⟩ := List.append_inj' ht rfl
      exact ih h

/-- What may be done with a resource that has been released: nothing. -/
theorem Disciplined.not_allowed (h : Disciplined t) (hrel : .release i ∈ t) (hid : d.id = i) :
    ¬ d.Allowed t := by
  cases d with
  | acquire j => exact fun hd ↦ hd _ hrel hid.symm
  | use j =>
    obtain rfl : j = i := hid
    exact fun hd ↦ (h.mem_held_iff.mp hd).2 hrel
  | release j =>
    obtain rfl : j = i := hid
    exact fun hd ↦ (h.mem_held_iff.mp hd).2 hrel

/-- **Nothing is touched after its release.** -/
theorem Disciplined.id_ne_of_release (h : Disciplined (pre ++ .release i :: post)) :
    ∀ d ∈ post, d.id ≠ i := by
  intro d hd hid
  obtain ⟨p, q, rfl⟩ := List.append_of_mem hd
  rw [← List.cons_append, ← List.append_assoc] at h
  obtain ⟨hp, hallowed⟩ := h.split
  exact hp.not_allowed (by simp) hid hallowed

theorem Disciplined.acquire_of_release (h : Disciplined (pre ++ .release i :: post)) :
    .acquire i ∈ pre := by
  obtain ⟨hp, hallowed⟩ := h.split
  exact (hp.mem_held_iff.mp hallowed).1

/-- **Nothing is released twice**, and what is not held in the end has been released. -/
theorem Disciplined.count_release (h : Disciplined t) (hi : .acquire i ∈ t) (hend : i ∉ held t) :
    t.count (.release i) = 1 := by
  have hrel : .release i ∈ t := by
    by_contra hno
    exact hend (h.mem_held_iff.mpr ⟨hi, hno⟩)
  obtain ⟨p, q, rfl⟩ := List.append_of_mem hrel
  have hp : (p.count (.release i)) = 0 := by
    refine List.count_eq_zero.mpr fun hmem ↦ ?_
    obtain ⟨hdp, hallowed⟩ := h.split
    exact hdp.not_allowed hmem rfl hallowed
  have hq : (q.count (.release i)) = 0 :=
    List.count_eq_zero.mpr fun hmem ↦ h.id_ne_of_release _ hmem rfl
  rw [List.count_append, List.count_cons_self, hp, hq]

/-! ## Growing the books -/

theorem Disciplined.use (h : Disciplined t) (hi : i ∈ held t) (n : Nat) :
    Disciplined (t ++ List.replicate n (.use i)) ∧
      held (t ++ List.replicate n (.use i)) = held t := by
  have hheld : ∀ n, held (t ++ List.replicate n (.use i)) = held t := fun n ↦
    held_append_of_use fun d hd ↦ ⟨i, List.eq_of_mem_replicate hd⟩
  refine ⟨?_, hheld n⟩
  induction n with
  | zero => simpa using h
  | succ n ih =>
    rw [List.replicate_succ', ← List.append_assoc]
    exact ih.snoc (show i ∈ held _ by rw [hheld n]; exact hi)

theorem Disciplined.acquire (h : Disciplined t) (hi : ∀ d ∈ t, d.id ≠ i) (n : Nat) :
    Disciplined (t ++ .acquire i :: List.replicate n (.use i)) ∧
      held (t ++ .acquire i :: List.replicate n (.use i)) = i :: held t := by
  have hacq : Disciplined (t ++ [.acquire i]) := h.snoc hi
  have hheld : held (t ++ [.acquire i]) = i :: held t := held_snoc
  obtain ⟨huse, hsame⟩ := hacq.use (i := i) (by rw [hheld]; exact List.mem_cons_self) n
  rw [List.append_assoc, List.singleton_append] at huse hsame
  exact ⟨huse, hsame.trans hheld⟩

theorem Disciplined.acquire_release (h : Disciplined t) (hi : ∀ d ∈ t, d.id ≠ i) (n : Nat) :
    Disciplined (t ++ .acquire i :: List.replicate n (.use i) ++ [.release i]) ∧
      held (t ++ .acquire i :: List.replicate n (.use i) ++ [.release i]) = held t := by
  obtain ⟨hacq, hheld⟩ := h.acquire hi n
  refine ⟨hacq.snoc (show i ∈ held _ by rw [hheld]; exact List.mem_cons_self), ?_⟩
  have hnot : i ∉ held t := fun hmem ↦ hi _ (h.mem_held_iff.mp hmem).1 rfl
  rw [held_snoc, hheld, Deed.apply, List.filter_cons_of_neg (by simp), List.filter_eq_self]
  exact fun j hj ↦ decide_eq_true fun hji ↦ hnot (hji ▸ hj)

end Ledger
