import Mathlib.Data.List.Induction

/-!
# The last event that matters

What a key is bound to after a run depends on the last event that bound it, and on none of the later
events having unbound it.  `Last P Q` says this of a list: some element is `P`, which may depend on
what came before, and all that follow are `Q`.  It is decided by the last element and the rest
(`last_snoc`), which is how it is proved along a run.
-/

set_option autoImplicit false

universe u

variable {α : Type u}

/-- Some element, with those before it, is `P`, and all that follow are `Q`. -/
def Last (P : List α → α → Prop) (Q : α → Prop) (l : List α) : Prop :=
  ∃ pre a post, l = pre ++ a :: post ∧ P pre a ∧ ∀ b ∈ post, Q b

variable {P : List α → α → Prop} {Q : α → Prop} {l : List α} {a : α}

theorem not_last_nil : ¬ Last P Q [] := by
  rintro ⟨pre, a, post, heq, -⟩
  exact List.append_ne_nil_of_right_ne_nil pre (List.cons_ne_nil a post) heq.symm

/-- The last element is `P`, or it is `Q` and the others were so already. -/
theorem last_snoc : Last P Q (l ++ [a]) ↔ P l a ∨ Last P Q l ∧ Q a := by
  constructor
  · rintro ⟨pre, b, post, heq, hP, hQ⟩
    rcases List.eq_nil_or_concat post with rfl | ⟨post, c, rfl⟩
    · obtain ⟨rfl, rfl⟩ := List.append_singleton_inj.mp heq
      exact .inl hP
    · rw [List.concat_eq_append, ← List.cons_append, ← List.append_assoc] at heq
      obtain ⟨rfl, rfl⟩ := List.append_singleton_inj.mp heq
      rw [List.concat_eq_append] at hQ
      refine .inr ⟨⟨pre, b, post, rfl, hP, fun c hc ↦ ?_⟩, ?_⟩
      · exact hQ c (List.mem_append_left _ hc)
      · exact hQ a (List.mem_append_right _ List.mem_cons_self)
  · rintro (hP | ⟨⟨pre, b, post, rfl, hP, hQ⟩, ha⟩)
    · exact ⟨l, a, [], rfl, hP, fun b hb ↦ absurd hb List.not_mem_nil⟩
    · refine ⟨pre, b, post ++ [a], by rw [List.append_assoc, List.cons_append], hP, fun c hc ↦ ?_⟩
      rcases List.mem_append.mp hc with hc | hc
      · exact hQ c hc
      · exact List.mem_singleton.mp hc ▸ ha

theorem getLast?_filterMap_eq_some_iff {β : Type u} {f : α → Option β} {b : β} :
    (l.filterMap f).getLast? = some b ↔ Last (fun _ a ↦ f a = some b) (fun a ↦ f a = none) l := by
  induction l using List.reverseRecOn with
  | nil => exact iff_of_false (Option.some_ne_none b).symm not_last_nil
  | append_singleton l a ih =>
    rw [last_snoc, List.filterMap_append, List.getLast?_append, ← ih]
    rcases ha : f a with _ | b'
    · simp [ha]
    · simp [ha]
