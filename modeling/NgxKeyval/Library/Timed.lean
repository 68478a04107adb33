import Mathlib.Logic.Function.Basic

/-!
# Maps whose bindings have deadlines

A binding may have a deadline, at and after which it is as good as gone.  An implementation may drop
such a binding or keep it, and may do so at any time; what it then holds is a *copy* of the map
(`Timed.Copy`), which answers every question like the map itself (`Copy.get_eq`).
-/

set_option autoImplicit false

namespace Timed

universe u v

/-- A map from keys to a value and, possibly, a deadline. -/
abbrev Map (κ : Type u) (α : Type v) := κ → Option (α × Option Nat)

variable {κ : Type u} {α : Type v}

/-- The value of a key, unless its deadline has passed. -/
def get (m : Map κ α) (now : Nat) (k : κ) : Option α :=
  match m k with
  | none => none
  | some (a, none) => some a
  | some (a, some deadline) => if now < deadline then some a else none

/-- The first map is the second one, but for bindings whose deadline has passed. -/
structure Copy (now : Nat) (c m : Map κ α) : Prop where
  bound : ∀ k b, c k = some b → m k = some b
  late : ∀ k a d, c k = none → m k = some (a, d) → ∃ n, d = some n ∧ n ≤ now

variable {c m : Map κ α} {now now' : Nat} {k : κ}

theorem get_of_eq_none (h : m k = none) : get m now k = none := by
  simp only [get, h]

theorem get_of_eq_some {a : α} {d : Option Nat} (h : m k = some (a, d)) :
    get m now k = if ∀ n, d = some n → now < n then some a else none := by
  rcases d with _ | n
  · simp only [get, h]
    exact (if_pos fun n hn ↦ nomatch hn).symm
  · simp only [get, h, Option.some.injEq, forall_eq']

/-- **A copy answers like the map.** -/
theorem Copy.get_eq (h : Copy now c m) (k : κ) : get c now k = get m now k := by
  rcases hc : c k with _ | b
  · rw [get_of_eq_none hc]
    rcases hm : m k with _ | ⟨a, d⟩
    · rw [get_of_eq_none hm]
    · obtain ⟨n, rfl, hle⟩ := h.late k a d hc hm
      rw [get_of_eq_some hm, if_neg fun hlt ↦ Nat.not_le_of_lt (hlt n rfl) hle]
  · simp only [get, hc, h.bound k b hc]

theorem Copy.mono (h : Copy now c m) (hle : now ≤ now') : Copy now' c m where
  bound := h.bound
  late k a d hc hm := by
    obtain ⟨n, hn, hlate⟩ := h.late k a d hc hm
    exact ⟨n, hn, Nat.le_trans hlate hle⟩

variable [DecidableEq κ]

/-- A binding without a deadline is there at all times. -/
theorem get_update (m : Map κ α) (now : Nat) (k : κ) (a : α) :
    get (Function.update m k (some (a, none))) now = Function.update (get m now) k (some a) := by
  funext j
  by_cases hj : j = k
  · subst hj
    rw [get, Function.update_self, Function.update_self]
  · rw [get, Function.update_of_ne hj, Function.update_of_ne hj, get]

theorem Copy.set (h : Copy now c m) (k : κ) (b : α × Option Nat) :
    Copy now (Function.update c k (some b)) (Function.update m k (some b)) where
  bound j b' hc := by
    by_cases hj : j = k
    · subst hj
      rw [Function.update_self] at hc ⊢
      exact hc
    · rw [Function.update_of_ne hj] at hc ⊢
      exact h.bound j b' hc
  late j a d hc hm := by
    by_cases hj : j = k
    · subst hj
      rw [Function.update_self] at hc
      exact absurd hc (Option.some_ne_none b)
    · rw [Function.update_of_ne hj] at hc hm
      exact h.late j a d hc hm

/-- A binding may be dropped once its deadline has passed. -/
theorem Copy.drop (h : Copy now c m) {a : α} {d : Option Nat} (hk : c k = some (a, d))
    (hlate : ¬ ∀ n, d = some n → now < n) : Copy now (Function.update c k none) m where
  bound j b hc := by
    by_cases hj : j = k
    · subst hj
      rw [Function.update_self] at hc
      exact absurd hc.symm (Option.some_ne_none b)
    · rw [Function.update_of_ne hj] at hc
      exact h.bound j b hc
  late j a' d' hc hm := by
    by_cases hj : j = k
    · subst hj
      obtain ⟨-, rfl⟩ := Prod.mk.inj (Option.some.inj ((h.bound j _ hk).symm.trans hm))
      rcases d with _ | n
      · exact absurd (fun n hn ↦ nomatch hn) hlate
      · exact ⟨n, rfl, Nat.le_of_not_lt fun hlt ↦ hlate fun m hm ↦ Option.some.inj hm ▸ hlt⟩
    · rw [Function.update_of_ne hj] at hc
      exact h.late j a' d' hc hm

end Timed
