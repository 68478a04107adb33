import Mathlib.Data.List.Basic

/-!
# Pairs of words joined by a separator

`Separator.join sep a b` writes a name `a` and a word `b` behind one another, with a separator
between them.  Nothing is escaped, so the separator may occur in either part, and the pair can be
read back only if it is known which names there are.

* `Separator.Free sep names` says that no name, with a separator behind it, begins another name.
* `Separator.Free.join_inj` and `Separator.exists_collision` — this is exactly what makes the
  encoding injective on these names, for words of any kind.
-/

set_option autoImplicit false

universe u

namespace Separator

variable {α : Type u}

/-- A name and a word, with a separator between them. -/
def join (sep : α) (a b : List α) : List α := a ++ sep :: b

/-- No name, with a separator behind it, begins a name. -/
def Free (sep : α) (names : List α → Prop) : Prop :=
  ∀ a b, names a → names b → ¬ (a ++ [sep]) <+: b

variable {sep : α} {names : List α → Prop} {a b k l : List α}

theorem join_left_inj : join sep a k = join sep a l ↔ k = l := by
  simp [join]

/-- What stands before the separator of one pair either ends before that of the other, at it, or
behind it. -/
theorem join_eq_cases (h : join sep a k = join sep b l) :
    (a ++ [sep]) <+: b ∨ (b ++ [sep]) <+: a ∨ a = b := by
  rw [join, join] at h
  rcases List.append_eq_append_iff.mp h with ⟨rest, rfl, hrest⟩ | ⟨rest, rfl, hrest⟩
  · rcases rest with _ | ⟨c, rest⟩
    · exact Or.inr (Or.inr (List.append_nil a).symm)
    · obtain ⟨rfl, -⟩ := List.cons.inj hrest
      exact Or.inl ⟨rest, by simp⟩
  · rcases rest with _ | ⟨c, rest⟩
    · exact Or.inr (Or.inr (List.append_nil b))
    · obtain ⟨rfl, -⟩ := List.cons.inj hrest
      exact Or.inr (Or.inl ⟨rest, by simp⟩)

theorem ne_of_prefix (h : (a ++ [sep]) <+: b) : a ≠ b := by
  rintro rfl
  have hlen := h.length_le
  rw [List.length_append, List.length_singleton] at hlen
  omega

/-- If one name begins another one, there are two pairs with the same encoding. -/
theorem exists_collision (h : (a ++ [sep]) <+: b) :
    ∃ k, ∀ l, join sep a (join sep k l) = join sep b l := by
  obtain ⟨k, rfl⟩ := h
  exact ⟨k, fun l ↦ by simp [join]⟩

/-- **Separated names make different pairs different.** -/
theorem Free.join_inj (hfree : Free sep names) (ha : names a) (hb : names b)
    (h : join sep a k = join sep b l) : a = b ∧ k = l := by
  rcases join_eq_cases h with hpre | hpre | rfl
  · exact absurd hpre (hfree a b ha hb)
  · exact absurd hpre (hfree b a hb ha)
  · exact ⟨rfl, join_left_inj.mp h⟩

theorem free_of_notMem (sep : α) : Free sep fun a ↦ sep ∉ a := by
  rintro a b - hb ⟨rest, rfl⟩
  exact hb (by simp)

end Separator
