import Mathlib.Data.List.Basic
import Mathlib.Logic.Function.Basic

/-!
# Lists read as finite maps

A list of entries with a key is a finite map once no two entries have the same key.  Here is the
map (`KeyedList.lookup`) and what the two ways of changing the list do to it: putting an entry
anywhere in the list binds its key (`lookup_insert`), and erasing an entry unbinds its key
(`lookup_erase`).  Both are stated with `Function.update`, so that everything else being unchanged
is part of the statement.
-/

set_option autoImplicit false

namespace KeyedList

universe u v

variable {α : Type u} {κ : Type v} [DecidableEq κ] (key : α → κ)

/-- The first entry with the given key. -/
def lookup (l : List α) (k : κ) : Option α := l.find? fun a ↦ decide (key a = k)

/-- No two entries have the same key. -/
def Distinct (l : List α) : Prop := l.Pairwise fun a b ↦ key a ≠ key b

variable {key}

theorem mem_of_lookup {l : List α} {k : κ} {a : α} (h : lookup key l k = some a) :
    a ∈ l ∧ key a = k :=
  ⟨List.mem_of_find?_eq_some h, by simpa using List.find?_some h⟩

theorem lookup_eq_none_iff {l : List α} {k : κ} :
    lookup key l k = none ↔ ∀ a ∈ l, key a ≠ k := by
  simp [lookup, List.find?_eq_none]

theorem lookup_of_mem {l : List α} (hl : Distinct key l) {a : α} (ha : a ∈ l) :
    lookup key l (key a) = some a := by
  obtain ⟨p, q, rfl⟩ := List.append_of_mem ha
  have hp : ∀ b ∈ p, ¬ decide (key b = key a) = true := fun b hb ↦
    decide_eq_true_iff.not.mpr (List.pairwise_append.mp hl |>.2.2 b hb a List.mem_cons_self)
  rw [lookup, List.find?_append, List.find?_eq_none.mpr hp, Option.none_or]
  exact List.find?_cons_of_pos (decide_eq_true (Eq.refl (key a)))

/-- **Putting an entry in** binds its key and nothing else. -/
theorem lookup_insert {p q : List α} {a : α} (h : ∀ b ∈ p ++ q, key b ≠ key a) :
    lookup key (p ++ a :: q) = Function.update (lookup key (p ++ q)) (key a) (some a) := by
  funext k
  by_cases hk : k = key a
  · subst hk
    have hp : p.find? (fun b ↦ decide (key b = key a)) = none := by
      rw [List.find?_eq_none]
      intro b hb
      simpa using h b (List.mem_append_left q hb)
    simp [lookup, List.find?_append, hp]
  · have hne : ¬ key a = k := Ne.symm hk
    simp [lookup, List.find?_append, hne, Function.update_of_ne hk]

/-- **Erasing an entry** unbinds its key and nothing else. -/
theorem lookup_erase [DecidableEq α] {l : List α} (hl : Distinct key l) {a : α} (ha : a ∈ l) :
    lookup key (l.erase a) = Function.update (lookup key l) (key a) none := by
  obtain ⟨p, q, -, rfl, her⟩ := List.exists_erase_eq ha
  have hne : ∀ b ∈ p ++ q, key b ≠ key a := by
    rw [Distinct, List.pairwise_append, List.pairwise_cons] at hl
    intro b hb
    rcases List.mem_append.mp hb with hb | hb
    · exact hl.2.2 b hb a List.mem_cons_self
    · exact (hl.2.1.1 b hb).symm
  have hnone : lookup key (p ++ q) (key a) = none := lookup_eq_none_iff.mpr hne
  rw [her, lookup_insert hne, Function.update_idem, ← hnone, Function.update_eq_self]

end KeyedList
