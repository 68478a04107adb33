import Mathlib.Data.List.Basic
import Mathlib.Order.Basic

/-!
# Binary search trees seen through their in-order list

A search tree is a way of holding a sorted list: rotations and recolourings change the tree and
leave the list alone.  So the tree here is the bare shape — a colour at each node for whoever
rebalances it — and every fact about it is stated of `SearchTree.toList`.

* `SearchTree.find` descends by a *cut*, a function that says of an entry whether what is looked
  for lies before it, at it or after it.  On a sorted tree this is a linear search of the list
  (`find_eq_find?`), so two trees with the same list answer every search alike.
* `SearchTree.insertBy` descends by a test and hangs the new entry below the last node it
  reaches.  On a sorted tree the new entry lands between everything before it and everything
  after it (`insertBy_split`), which gives both that the list stays sorted
  (`pairwise_insertBy`) and that nothing else changes (`toList_insertBy_perm`).
-/

set_option autoImplicit false

universe u v

/-- A binary tree with a colour and an entry at each node. -/
inductive SearchTree (χ : Type u) (α : Type v) where
  | leaf : SearchTree χ α
  | node (colour : χ) (left : SearchTree χ α) (entry : α) (right : SearchTree χ α) :
      SearchTree χ α
  deriving DecidableEq, Repr

namespace SearchTree

variable {χ : Type u} {α : Type v}

/-- The entries in order. -/
def toList : SearchTree χ α → List α
  | leaf => []
  | node _ l a r => l.toList ++ a :: r.toList

@[simp] theorem toList_leaf : (leaf : SearchTree χ α).toList = [] := rfl

@[simp] theorem toList_node (c : χ) (l : SearchTree χ α) (a : α) (r : SearchTree χ α) :
    (node c l a r).toList = l.toList ++ a :: r.toList := rfl

theorem pairwise_node {lt : α → α → Prop} {c : χ} {l : SearchTree χ α} {a : α}
    {r : SearchTree χ α} :
    (node c l a r).toList.Pairwise lt ↔
      l.toList.Pairwise lt ∧ r.toList.Pairwise lt ∧ (∀ b ∈ l.toList, lt b a) ∧
        (∀ b ∈ r.toList, lt a b) ∧ ∀ b ∈ l.toList, ∀ d ∈ r.toList, lt b d := by
  rw [toList_node, List.pairwise_append, List.pairwise_cons]
  constructor
  · rintro ⟨hl, ⟨har, hr⟩, hlr⟩
    exact ⟨hl, hr, fun b hb ↦ hlr b hb a List.mem_cons_self, har,
      fun b hb d hd ↦ hlr b hb d (List.mem_cons_of_mem a hd)⟩
  · rintro ⟨hl, hr, hla, har, hlr⟩
    refine ⟨hl, ⟨har, hr⟩, fun b hb d hd ↦ ?_⟩
    rcases List.mem_cons.mp hd with rfl | hd
    · exact hla b hb
    · exact hlr b hb d hd

/-! ## Searching -/

/-- Descend from the root: left where the cut says `lt`, right where it says `gt`. -/
def find (cut : α → Ordering) : SearchTree χ α → Option α
  | leaf => none
  | node _ l a r =>
    match cut a with
    | .lt => find cut l
    | .gt => find cut r
    | .eq => some a

/-- A cut is strictly monotone: whatever is not after an entry lies before everything that follows
the entry, and whatever is not before it lies after everything that precedes it.  In particular
the cut answers `eq` on at most one entry of a sorted list. -/
structure IsCut (lt : α → α → Prop) (cut : α → Ordering) : Prop where
  /-- Not after an entry, so before every later one. -/
  before : ∀ a b, lt a b → cut a ≠ .gt → cut b = .lt
  /-- Not before an entry, so after every earlier one. -/
  after : ∀ a b, lt a b → cut b ≠ .lt → cut a = .gt

theorem find?_eq_none_of_forall_ne {cut : α → Ordering} {l : List α}
    (h : ∀ b ∈ l, cut b ≠ .eq) : l.find? (fun b ↦ cut b == .eq) = none := by
  rw [List.find?_eq_none]
  intro b hb
  simpa using h b hb

/-- **On a sorted tree, descending is searching the list.**  The subtree that the descent skips
holds nothing the cut could answer `eq` on. -/
theorem find_eq_find? {lt : α → α → Prop} {cut : α → Ordering} (hcut : IsCut lt cut)
    {t : SearchTree χ α} (ht : t.toList.Pairwise lt) :
    t.find cut = t.toList.find? fun b ↦ cut b == .eq := by
  induction t with
  | leaf => rfl
  | node c l a r ihl ihr =>
    obtain ⟨hl, hr, hla, har, -⟩ := pairwise_node.mp ht
    have hright : cut a ≠ .gt → r.toList.find? (fun b ↦ cut b == .eq) = none := fun hc ↦
      find?_eq_none_of_forall_ne fun b hb ↦ by rw [hcut.before a b (har b hb) hc]; decide
    have hleft : cut a ≠ .lt → l.toList.find? (fun b ↦ cut b == .eq) = none := fun hc ↦
      find?_eq_none_of_forall_ne fun b hb ↦ by rw [hcut.after b a (hla b hb) hc]; decide
    rw [toList_node, List.find?_append, List.find?_cons]
    cases hc : cut a with
    | lt => simp [find, hc, ihl hl, hright (by simp [hc])]
    | eq => simp [find, hc, hleft (by simp [hc])]
    | gt => simp [find, hc, ihr hr, hleft (by simp [hc])]

theorem mem_of_find {cut : α → Ordering} {t : SearchTree χ α} {a : α}
    (h : t.find cut = some a) : a ∈ t.toList := by
  induction t with
  | leaf => cases h
  | node c l b r ihl ihr =>
    rw [find] at h
    rw [toList_node, List.mem_append, List.mem_cons]
    split at h
    · exact Or.inl (ihl h)
    · exact Or.inr (Or.inr (ihr h))
    · exact Or.inr (Or.inl (Option.some.inj h).symm)

/-! ## Inserting -/

/-- Descend from the root, left where `goesLeft` says so, and hang the entry below the last node
reached. -/
def insertBy (goesLeft : α → Bool) (colour : χ) (x : α) : SearchTree χ α → SearchTree χ α
  | leaf => node colour leaf x leaf
  | node c l a r =>
    if goesLeft a then node c (insertBy goesLeft colour x l) a r
    else node c l a (insertBy goesLeft colour x r)

/-- **Where the new entry lands.**  If the test sends `x` left exactly at the entries it precedes,
the list is cut in two around `x`: what precedes `x`, then `x`, then what `x` precedes. -/
theorem insertBy_split {lt : α → α → Prop} {goesLeft : α → Bool} {x : α}
    (htrans : ∀ a b d, lt a b → lt b d → lt a d) (colour : χ) {t : SearchTree χ α}
    (ht : t.toList.Pairwise lt)
    (hx : ∀ a ∈ t.toList, if goesLeft a then lt x a else lt a x) :
    ∃ before after, t.toList = before ++ after ∧
      (t.insertBy goesLeft colour x).toList = before ++ x :: after ∧
      (∀ a ∈ before, lt a x) ∧ ∀ a ∈ after, lt x a := by
  induction t with
  | leaf => exact ⟨[], [], rfl, rfl, by simp, by simp⟩
  | node c l a r ihl ihr =>
    obtain ⟨hl, hr, hla, har, -⟩ := pairwise_node.mp ht
    have hxa := hx a (by simp)
    cases hg : goesLeft a with
    | true =>
      have hxa : lt x a := by simpa [hg] using hxa
      obtain ⟨p, q, hpq, hins, hp, hq⟩ := ihl hl fun b hb ↦ hx b (by simp [hb])
      refine ⟨p, q ++ a :: r.toList, by simp [hpq], by simp [insertBy, hg, hins], hp, ?_⟩
      intro b hb
      rcases List.mem_append.mp hb with hb | hb
      · exact hq b hb
      · rcases List.mem_cons.mp hb with rfl | hb
        · exact hxa
        · exact htrans x a b hxa (har b hb)
    | false =>
      have hax : lt a x := by simpa [hg] using hxa
      obtain ⟨p, q, hpq, hins, hp, hq⟩ := ihr hr fun b hb ↦ hx b (by simp [hb])
      refine ⟨l.toList ++ a :: p, q, by simp [hpq], by simp [insertBy, hg, hins], ?_, hq⟩
      intro b hb
      rcases List.mem_append.mp hb with hb | hb
      · exact htrans b a x (hla b hb) hax
      · rcases List.mem_cons.mp hb with rfl | hb
        · exact hax
        · exact hp b hb

theorem toList_insertBy_perm (goesLeft : α → Bool) (colour : χ) (x : α) (t : SearchTree χ α) :
    (t.insertBy goesLeft colour x).toList.Perm (x :: t.toList) := by
  induction t with
  | leaf => exact List.Perm.refl _
  | node c l a r ihl ihr =>
    rw [insertBy]
    split
    · simpa using ihl.append_right (a :: r.toList)
    · have hright : (l.toList ++ a :: (insertBy goesLeft colour x r).toList).Perm
          ((l.toList ++ [a]) ++ x :: r.toList) := by
        simpa using (ihr.cons a).append_left l.toList
      exact hright.trans (List.perm_middle.trans (by simp))

theorem pairwise_insertBy {lt : α → α → Prop} {goesLeft : α → Bool} {x : α}
    (htrans : ∀ a b d, lt a b → lt b d → lt a d) (colour : χ) {t : SearchTree χ α}
    (ht : t.toList.Pairwise lt)
    (hx : ∀ a ∈ t.toList, if goesLeft a then lt x a else lt a x) :
    (t.insertBy goesLeft colour x).toList.Pairwise lt := by
  obtain ⟨p, q, hpq, hins, hp, hq⟩ := insertBy_split htrans colour ht hx
  rw [hpq, List.pairwise_append] at ht
  rw [hins, List.pairwise_append, List.pairwise_cons]
  refine ⟨ht.1, ⟨hq, ht.2.1⟩, fun a ha b hb ↦ ?_⟩
  rcases List.mem_cons.mp hb with rfl | hb
  · exact hp a ha
  · exact ht.2.2 a ha b hb

end SearchTree
