import Mathlib.Data.List.Nodup
import Mathlib.Logic.Function.Basic
import NgxKeyval.Library.Separator

/-!
# Forms

A form is a text with blanks in it, and filling it in puts a word at each blank.  Two ways to fill
it in may come to the same text, and this file says when that cannot happen.

* `fill` fills in a form; `blanks` are the names of its blanks.
* `Parted` says that between any two blanks there is a letter that is in none of the words.
* `Parted.fill_inj` — then the text says what the words are.
* `exists_collision` — otherwise there are words that cannot be told from others, if no name is that
  of two blanks.
-/

set_option autoImplicit false

universe u v

namespace Form

/-- A piece of a form. -/
inductive Piece (ν : Type u) (α : Type v) where
  | letter (a : α)
  | blank (name : ν)
  deriving DecidableEq, Repr

variable {ν : Type u} {α : Type v}

/-- Put words at the blanks. -/
def fill (val : ν → List α) : List (Piece ν α) → List α
  | [] => []
  | .letter a :: ps => a :: fill val ps
  | .blank n :: ps => val n ++ fill val ps

/-- The names of the blanks, in order. -/
def blanks : List (Piece ν α) → List ν
  | [] => []
  | .letter _ :: ps => blanks ps
  | .blank n :: ps => n :: blanks ps

/-- The letters up to the first blank. -/
def lead : List (Piece ν α) → List α
  | .letter a :: ps => a :: lead ps
  | _ => []

/-- Behind each blank but the last there is, before the next one, a letter that no word has. -/
def Parted (ok : α → Prop) : List (Piece ν α) → Prop
  | [] => True
  | .letter _ :: ps => Parted ok ps
  | .blank _ :: ps => (blanks ps = [] ∨ ∃ a ∈ lead ps, ¬ ok a) ∧ Parted ok ps

section

variable {ok : α → Prop} {val val' : ν → List α} {ps qs : List (Piece ν α)} {l : List α} {n : ν}

theorem fill_append : fill val (ps ++ qs) = fill val ps ++ fill val qs := by
  induction ps with
  | nil => rfl
  | cons p ps ih =>
    rcases p with a | n
    · exact congrArg (a :: ·) ih
    · rw [List.cons_append, fill, fill, ih, List.append_assoc]

theorem fill_letters (val : ν → List α) (l : List α) : fill val (l.map .letter) = l := by
  induction l with
  | nil => rfl
  | cons a l ih => exact congrArg (a :: ·) ih

theorem blanks_append : blanks (ps ++ qs) = blanks ps ++ blanks qs := by
  induction ps with
  | nil => rfl
  | cons p ps ih =>
    rcases p with a | n
    · exact ih
    · exact congrArg (n :: ·) ih

theorem blanks_letters (l : List α) : blanks (l.map .letter : List (Piece ν α)) = [] := by
  induction l with
  | nil => rfl
  | cons a l ih => exact ih

theorem fill_congr (h : ∀ n ∈ blanks ps, val n = val' n) : fill val ps = fill val' ps := by
  induction ps with
  | nil => rfl
  | cons p ps ih =>
    rcases p with a | n
    · exact congrArg (a :: ·) (ih h)
    · rw [fill, fill, h n List.mem_cons_self, ih fun m hm ↦ h m (List.mem_cons_of_mem _ hm)]

/-- A form begins with the letters up to its first blank. -/
theorem eq_lead_append (ps : List (Piece ν α)) :
    ∃ qs, ps = (lead ps).map .letter ++ qs ∧ (qs = [] ∨ ∃ n qs', qs = .blank n :: qs') := by
  induction ps with
  | nil => exact ⟨[], rfl, .inl rfl⟩
  | cons p ps ih =>
    rcases p with a | n
    · obtain ⟨qs, hps, hqs⟩ := ih
      exact ⟨qs, congrArg (.letter a :: ·) hps, hqs⟩
    · exact ⟨_, rfl, .inr ⟨n, ps, rfl⟩⟩

/-- The first letter, before the next blank, that no word has. -/
theorem exists_first (h : ∃ a ∈ lead ps, ¬ ok a) :
    ∃ (l : List α) (a : α) (qs : List (Piece ν α)),
      ps = l.map .letter ++ .letter a :: qs ∧ (∀ b ∈ l, ok b) ∧ ¬ ok a := by
  induction ps with
  | nil =>
    obtain ⟨a, ha, -⟩ := h
    exact absurd ha List.not_mem_nil
  | cons p ps ih =>
    obtain ⟨a, ha, hnot⟩ := h
    rcases p with b | n
    · by_cases hb : ok b
      · have hrest : a ∈ lead ps := by
          rcases List.mem_cons.mp ha with rfl | hrest
          · exact absurd hb hnot
          · exact hrest
        obtain ⟨l, a', qs, rfl, hl, ha'⟩ := ih ⟨a, hrest, hnot⟩
        refine ⟨b :: l, a', qs, rfl, fun c hc ↦ ?_, ha'⟩
        rcases List.mem_cons.mp hc with rfl | hc
        · exact hb
        · exact hl c hc
      · exact ⟨[], b, ps, rfl, fun _ hc ↦ absurd hc List.not_mem_nil, hb⟩
    · exact absurd ha List.not_mem_nil

theorem append_inj_of_first {u u' w w' : List α} {a : α} (hu : ∀ b ∈ u, ok b)
    (hu' : ∀ b ∈ u', ok b) (ha : ¬ ok a) (h : u ++ a :: w = u' ++ a :: w') : u = u' ∧ w = w' :=
  (Separator.free_of_notMem a).join_inj (fun hmem ↦ ha (hu a hmem)) (fun hmem ↦ ha (hu' a hmem)) h

/-- **A parted form** says what it was filled in with. -/
theorem Parted.fill_inj (h : Parted ok ps) (hval : ∀ n ∈ blanks ps, ∀ a ∈ val n, ok a)
    (hval' : ∀ n ∈ blanks ps, ∀ a ∈ val' n, ok a) (heq : fill val ps = fill val' ps) :
    ∀ n ∈ blanks ps, val n = val' n := by
  induction ps with
  | nil => exact fun n hn ↦ absurd hn List.not_mem_nil
  | cons p ps ih =>
    rcases p with a | n
    · exact ih h hval hval' (List.cons.inj heq).2
    · obtain ⟨hfirst, hrest⟩ := h
      -- the word at this blank, and what is filled in behind it
      have hsplit : val n = val' n ∧ fill val ps = fill val' ps := by
        rcases hfirst with hlast | hsep
        · have hsame : fill val ps = fill val' ps :=
            fill_congr fun m hm ↦ absurd (hlast ▸ hm) List.not_mem_nil
          rw [fill, fill, hsame] at heq
          exact ⟨List.append_cancel_right heq, hsame⟩
        · obtain ⟨l, a, qs, rfl, hl, ha⟩ := exists_first hsep
          have hok : ∀ val : ν → List α, (∀ b ∈ val n, ok b) → ∀ b ∈ val n ++ l, ok b :=
            fun val hval b hb ↦ (List.mem_append.mp hb).elim (hval b) (hl b)
          have htext : ∀ val : ν → List α,
              fill val (.blank n :: (l.map .letter ++ .letter a :: qs)) =
                (val n ++ l) ++ a :: fill val qs := by
            intro val
            rw [fill, fill_append, fill_letters, fill, List.append_assoc]
          rw [htext, htext] at heq
          obtain ⟨hword, hqs⟩ := append_inj_of_first (hok val (hval n List.mem_cons_self))
            (hok val' (hval' n List.mem_cons_self)) ha heq
          refine ⟨List.append_cancel_right hword, ?_⟩
          rw [fill_append, fill_append, fill_letters, fill_letters, fill, fill, hqs]
      intro m hm
      rcases List.mem_cons.mp hm with rfl | hm
      · exact hsplit.1
      · exact ih hrest (fun k hk ↦ hval k (List.mem_cons_of_mem _ hk))
          (fun k hk ↦ hval' k (List.mem_cons_of_mem _ hk)) hsplit.2 m hm

/-! ## Forms that are not parted -/

/-- Two blanks with nothing but letters of words between them: what is moved from one to the other
cannot be seen. -/
theorem fill_swap [DecidableEq ν] {m : ν} {c : α} (hnm : n ≠ m) (hn : n ∉ blanks qs)
    (hm : m ∉ blanks qs) :
    let w := if l = [] then [c] else l
    fill (Function.update (fun _ ↦ []) n w) (.blank n :: (l.map .letter ++ .blank m :: qs)) =
      fill (Function.update (fun _ ↦ []) m w) (.blank n :: (l.map .letter ++ .blank m :: qs)) := by
  intro w
  have hrest : fill (Function.update (fun _ ↦ []) n w) qs =
      fill (Function.update (fun _ ↦ []) m w) qs := by
    refine fill_congr fun k hk ↦ ?_
    have hkn : k ≠ n := fun h ↦ hn (h ▸ hk)
    have hkm : k ≠ m := fun h ↦ hm (h ▸ hk)
    rw [Function.update_of_ne hkn, Function.update_of_ne hkm]
  have hswap : w ++ l = l ++ w := by
    by_cases hl : l = []
    · rw [hl, List.append_nil, List.nil_append]
    · rw [show w = l from if_neg hl]
  rw [fill, fill, fill_append, fill_append, fill_letters, fill_letters, fill, fill, hrest,
    Function.update_self, Function.update_of_ne hnm.symm, Function.update_of_ne hnm,
    Function.update_self, List.nil_append, List.nil_append, ← List.append_assoc, hswap,
    List.append_assoc]

theorem forall_update [DecidableEq ν] {w : List α} (hval : ∀ k, ∀ a ∈ val k, ok a)
    (hw : ∀ a ∈ w, ok a) (n : ν) : ∀ k, ∀ a ∈ Function.update val n w k, ok a := by
  intro k a ha
  by_cases hk : k = n
  · rw [hk, Function.update_self] at ha
    exact hw a ha
  · rw [Function.update_of_ne hk] at ha
    exact hval k a ha

theorem fill_update_nil [DecidableEq ν] (hn : n ∉ blanks ps) (val : ν → List α) :
    fill (Function.update val n []) (.blank n :: ps) = fill val ps := by
  rw [fill, Function.update_self, List.nil_append]
  refine fill_congr fun k hk ↦ Function.update_of_ne ?_ ..
  rintro rfl
  exact hn hk

/-- Between two blanks with letters of words only in between, something can be moved that is not
seen. -/
theorem exists_swap [DecidableEq ν] {m : ν} {c : α} (hc : ok c) (hl : ∀ a ∈ l, ok a) (hnm : n ≠ m)
    (hn : n ∉ blanks qs) (hm : m ∉ blanks qs) :
    ∃ val val' : ν → List α, (∀ k, ∀ a ∈ val k, ok a) ∧ (∀ k, ∀ a ∈ val' k, ok a) ∧
      fill val (.blank n :: (l.map .letter ++ .blank m :: qs)) =
        fill val' (.blank n :: (l.map .letter ++ .blank m :: qs)) ∧ val n ≠ val' n := by
  have hempty : ∀ k : ν, ∀ a ∈ (fun _ ↦ ([] : List α)) k, ok a :=
    fun _ _ ha ↦ absurd ha List.not_mem_nil
  have hw : ∀ a ∈ if l = [] then [c] else l, ok a := by
    split
    · exact fun a ha ↦ List.mem_singleton.mp ha ▸ hc
    · exact hl
  refine ⟨_, _, forall_update hempty hw n, forall_update hempty hw m,
    fill_swap (c := c) hnm hn hm, ?_⟩
  rw [Function.update_self, Function.update_of_ne hnm]
  split
  · exact List.cons_ne_nil c []
  · assumption

/-- **A form that is not parted** can be filled in with other words and come to the same text. -/
theorem exists_collision [DecidableEq ν] {c : α} (hc : ok c) (hnodup : (blanks ps).Nodup)
    (h : ¬ Parted ok ps) :
    ∃ val val' : ν → List α, (∀ n, ∀ a ∈ val n, ok a) ∧ (∀ n, ∀ a ∈ val' n, ok a) ∧
      fill val ps = fill val' ps ∧ ∃ n ∈ blanks ps, val n ≠ val' n := by
  induction ps with
  | nil => exact absurd trivial h
  | cons p ps ih =>
    rcases p with a | n
    · obtain ⟨val, val', hval, hval', heq, hne⟩ := ih hnodup h
      exact ⟨val, val', hval, hval', congrArg (a :: ·) heq, hne⟩
    · obtain ⟨hn, hnodup'⟩ := List.nodup_cons.mp hnodup
      by_cases hrest : Parted ok ps
      · -- it is this blank and the next one that are not parted
        obtain ⟨hblanks, hlead⟩ := not_or.mp fun hfirst ↦ h ⟨hfirst, hrest⟩
        obtain ⟨qs, hps, hqs⟩ := eq_lead_append ps
        have hl : ∀ a ∈ lead ps, ok a := fun a ha ↦ by_contra fun hnot ↦ hlead ⟨a, ha, hnot⟩
        generalize lead ps = l at hps hl
        subst hps
        rcases hqs with rfl | ⟨m, qs, rfl⟩
        · rw [List.append_nil, blanks_letters] at hblanks
          exact absurd rfl hblanks
        · rw [blanks_append, blanks_letters, List.nil_append, blanks] at hn hnodup'
          obtain ⟨hnm, hnqs⟩ := List.ne_and_not_mem_of_not_mem_cons hn
          obtain ⟨val, val', hval, hval', heq, hne⟩ :=
            exists_swap hc hl hnm hnqs (List.nodup_cons.mp hnodup').1
          exact ⟨val, val', hval, hval', heq, n, List.mem_cons_self, hne⟩
      · -- it is two blanks behind it, and the word at this one can be left out
        obtain ⟨val, val', hval, hval', heq, m, hm, hne⟩ := ih hnodup' hrest
        have hnone : ∀ a ∈ ([] : List α), ok a := fun _ ha ↦ absurd ha List.not_mem_nil
        have hmn : m ≠ n := fun h ↦ hn (h ▸ hm)
        refine ⟨_, _, forall_update hval hnone n, forall_update hval' hnone n, ?_, m,
          List.mem_cons_of_mem _ hm, ?_⟩
        · rw [fill_update_nil hn, fill_update_nil hn, heq]
        · rw [Function.update_of_ne hmn, Function.update_of_ne hmn]
          exact hne

/-- **When a form says what it was filled in with.** -/
theorem parted_iff [DecidableEq ν] {c : α} (hc : ok c) (hnodup : (blanks ps).Nodup) :
    Parted ok ps ↔ ∀ val val' : ν → List α, (∀ n ∈ blanks ps, ∀ a ∈ val n, ok a) →
      (∀ n ∈ blanks ps, ∀ a ∈ val' n, ok a) → fill val ps = fill val' ps →
        ∀ n ∈ blanks ps, val n = val' n := by
  refine ⟨fun h val val' hval hval' heq ↦ h.fill_inj hval hval' heq, fun h ↦ ?_⟩
  by_contra hnot
  obtain ⟨val, val', hval, hval', heq, n, hn, hne⟩ := exists_collision hc hnodup hnot
  exact hne (h val val' (fun n _ ↦ hval n) (fun n _ ↦ hval' n) heq n hn)

end

end Form
