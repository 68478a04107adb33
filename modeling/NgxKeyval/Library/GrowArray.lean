import Mathlib.Data.List.Range
import Mathlib.Logic.Function.Basic

/-!
# Growable arrays whose elements are pointed at

An array that grows by doubling hands out the address of each element it is asked to add.  When it
is full it either takes in the memory right behind it, and every address stays good, or it copies
its elements to a new block — and then an address handed out before is that of a stale copy, in
memory that stays readable but that the array no longer uses.

`GrowArray` keeps every block it has ever used, so that a stale address can still be read.  An
address is a `Ptr`: the ordinal of the block and the index in it.

* `GrowArray.push` adds an element; the outcome says how a full array grows.
* `GrowArray.Held` says that an address was handed out for an element that the array still counts;
  `mem_push_of_held` and `Held.push` say that pushes neither change nor forget what such an address
  points at.
* `GrowArray.toList` is what the array holds, wherever it lives; `toList_push_set_pop` says that
  taking the new element off again undoes a push.
-/

set_option autoImplicit false

universe u

/-- The address of an element: a block and an index in it. -/
structure Ptr where
  /-- The ordinal of the block. -/
  block : Nat
  /-- The position in the block. -/
  index : Nat
  deriving DecidableEq, Repr

/-- How memory answers when a full array wants one more element. -/
inductive PushOutcome where
  /-- The memory behind the block is free and is added to it. -/
  | inPlace
  /-- A new block of twice the size is allocated and the elements are copied. -/
  | move
  /-- There is no memory. -/
  | fail
  deriving DecidableEq, Repr

/-- A growable array, together with the memory of all the blocks it has used. -/
structure GrowArray (α : Type u) where
  /-- The contents of memory; what has not been written is whatever was there. -/
  mem : Ptr → α
  /-- The block in use. -/
  elts : Nat
  /-- How many elements it holds. -/
  nelts : Nat
  /-- How many it has room for. -/
  nalloc : Nat

namespace GrowArray

variable {α : Type u}

/-- An array with room for `n` elements, over memory with arbitrary contents. -/
def create (mem : Ptr → α) (n : Nat) : GrowArray α := ⟨mem, 0, 0, n⟩

/-- The `i`-th address of the block in use. -/
def ptr (a : GrowArray α) (i : Nat) : Ptr := ⟨a.elts, i⟩

/-- Store a value at an address. -/
def set (a : GrowArray α) (p : Ptr) (x : α) : GrowArray α :=
  { a with mem := Function.update a.mem p x }

/-- Take the last element off. -/
def pop (a : GrowArray α) : GrowArray α := { a with nelts := a.nelts - 1 }

/-- Copy the elements to a new block with twice the room. -/
def move (a : GrowArray α) : GrowArray α where
  mem p := if p.block = a.elts + 1 ∧ p.index < a.nelts then a.mem ⟨a.elts, p.index⟩ else a.mem p
  elts := a.elts + 1
  nelts := a.nelts
  nalloc := 2 * a.nalloc

/-- Make room for one more element in an array that is full; `none` when there is no memory. -/
def grow (a : GrowArray α) : PushOutcome → Option (GrowArray α)
  | .inPlace => some { a with nalloc := a.nalloc + 1 }
  | .move => some a.move
  | .fail => none

/-- Add an element, not written yet, and return its address. -/
def push (a : GrowArray α) (o : PushOutcome) : Option (Ptr × GrowArray α) :=
  if a.nelts < a.nalloc then some (a.ptr a.nelts, { a with nelts := a.nelts + 1 })
  else (a.grow o).map fun b ↦ (b.ptr b.nelts, { b with nelts := b.nelts + 1 })

/-- An address of a block already used, at an index below the number of elements. -/
def Held (a : GrowArray α) (p : Ptr) : Prop := p.block ≤ a.elts ∧ p.index < a.nelts

/-! ## What a push does -/

theorem push_cases {a b : GrowArray α} {o : PushOutcome} {p : Ptr} (h : a.push o = some (p, b)) :
    p = b.ptr a.nelts ∧ b.nelts = a.nelts + 1 ∧
      (b.elts = a.elts ∧ b.mem = a.mem ∨
        b.elts = a.elts + 1 ∧ b.mem = a.move.mem ∧ a.nalloc ≤ a.nelts ∧ o = .move) := by
  rw [push] at h
  split at h
  · obtain ⟨rfl, rfl⟩ := by simpa using h
    exact ⟨rfl, rfl, Or.inl ⟨rfl, rfl⟩⟩
  · rename_i hfull
    cases o with
    | inPlace =>
      obtain ⟨rfl, rfl⟩ := by simpa [grow] using h
      exact ⟨rfl, rfl, Or.inl ⟨rfl, rfl⟩⟩
    | move =>
      obtain ⟨rfl, rfl⟩ := by simpa [grow] using h
      exact ⟨rfl, rfl, Or.inr ⟨rfl, rfl, Nat.le_of_not_lt hfull, rfl⟩⟩
    | fail => simp [grow] at h

variable {a b : GrowArray α} {o : PushOutcome} {p : Ptr}

theorem elts_push_iff (h : a.push o = some (p, b)) :
    b.elts = a.elts ↔ ¬ (o = .move ∧ a.nalloc ≤ a.nelts) := by
  rw [push] at h
  split at h
  · rename_i hroom
    obtain ⟨-, rfl⟩ := by simpa using h
    exact iff_of_true rfl fun hc ↦ by omega
  · rename_i hfull
    rcases o with _ | _ | _
    · obtain ⟨-, rfl⟩ := by simpa [grow] using h
      exact iff_of_true rfl (by simp)
    · obtain ⟨-, rfl⟩ := by simpa [grow] using h
      have hne : a.move.elts ≠ a.elts := Nat.succ_ne_self _
      exact iff_of_false hne fun hc ↦ hc ⟨rfl, Nat.le_of_not_lt hfull⟩
    · simp [grow] at h

theorem elts_le_of_push (h : a.push o = some (p, b)) : a.elts ≤ b.elts := by
  obtain ⟨-, -, ⟨he, -⟩ | ⟨he, -⟩⟩ := push_cases h <;> omega

/-- What an address of a block already used points at survives a push. -/
theorem mem_push_of_block_le (h : a.push o = some (p, b)) {q : Ptr} (hq : q.block ≤ a.elts) :
    b.mem q = a.mem q := by
  obtain ⟨-, -, ⟨-, hm⟩ | ⟨-, hm, -⟩⟩ := push_cases h
  · rw [hm]
  · rw [hm]
    exact if_neg fun hc ↦ by omega

/-- The new block starts out as a copy of the old one. -/
theorem mem_push_ptr (h : a.push o = some (p, b)) {i : Nat} (hi : i < a.nelts) :
    b.mem (b.ptr i) = a.mem (a.ptr i) := by
  obtain ⟨-, -, ⟨he, hm⟩ | ⟨he, hm, -⟩⟩ := push_cases h
  · rw [hm, ptr, ptr, he]
  · rw [hm, ptr, ptr, he]
    exact if_pos ⟨rfl, hi⟩

theorem Held.ne_push (h : a.push o = some (p, b)) {q : Ptr} (hq : a.Held q) : q ≠ p := by
  rintro rfl
  obtain ⟨hp, -⟩ := push_cases h
  have hi := hq.2
  rw [hp] at hi
  exact Nat.lt_irrefl _ hi

theorem Held.push (h : a.push o = some (p, b)) {q : Ptr} (hq : a.Held q) : b.Held q := by
  obtain ⟨-, hn, -⟩ := push_cases h
  exact ⟨hq.1.trans (elts_le_of_push h), by have := hq.2; omega⟩

theorem held_of_push (h : a.push o = some (p, b)) : b.Held p := by
  obtain ⟨hp, hn, -⟩ := push_cases h
  rw [hp]
  exact ⟨Nat.le_refl _, by rw [hn]; exact Nat.lt_succ_self _⟩

theorem held_ptr {i : Nat} (hi : i < a.nelts) : a.Held (a.ptr i) := ⟨Nat.le_refl _, hi⟩

@[simp] theorem held_set (x : α) {q : Ptr} : (a.set p x).Held q ↔ a.Held q := Iff.rfl

@[simp] theorem mem_set_self (x : α) : (a.set p x).mem p = x := Function.update_self ..

@[simp] theorem set_set (x y : α) : (a.set p x).set p y = a.set p y := by
  simp [set, Function.update_idem]

theorem mem_set_of_ne (x : α) {q : Ptr} (hq : q ≠ p) : (a.set p x).mem q = a.mem q :=
  Function.update_of_ne hq ..

/-- **Adding an element does not disturb the ones already handed out**, wherever they live. -/
theorem mem_push_of_held (h : a.push o = some (p, b)) (x : α) {q : Ptr} (hq : a.Held q) :
    (b.set p x).mem q = a.mem q := by
  rw [mem_set_of_ne x (hq.ne_push h), mem_push_of_block_le h hq.1]

theorem mem_push_set_ptr (h : a.push o = some (p, b)) (x : α) {i : Nat} (hi : i < a.nelts) :
    (b.set p x).mem (b.ptr i) = a.mem (a.ptr i) := by
  obtain ⟨hp, -⟩ := push_cases h
  have hne : b.ptr i ≠ p := by
    rw [hp]
    exact fun he ↦ Nat.ne_of_lt hi (congrArg Ptr.index he)
  rw [mem_set_of_ne x hne, mem_push_ptr h hi]

/-! ## The elements -/

/-- The elements, in order. -/
def toList (a : GrowArray α) : List α := (List.range a.nelts).map fun i ↦ a.mem (a.ptr i)

theorem toList_congr (hn : b.nelts = a.nelts)
    (hmem : ∀ i < a.nelts, b.mem (b.ptr i) = a.mem (a.ptr i)) : b.toList = a.toList := by
  rw [toList, toList, hn]
  exact List.map_congr_left fun i hi ↦ hmem i (List.mem_range.mp hi)

/-- **Taking the new element off again undoes a push**, wherever the elements live by then. -/
theorem toList_push_pop (h : a.push o = some (p, b)) : b.pop.toList = a.toList := by
  obtain ⟨-, hn, -⟩ := push_cases h
  refine toList_congr ?_ fun i hi ↦ mem_push_ptr h hi
  rw [pop, hn]
  exact Nat.add_sub_cancel ..

theorem toList_push_set_pop (h : a.push o = some (p, b)) (x : α) :
    (b.set p x).pop.toList = a.toList := by
  obtain ⟨-, hn, -⟩ := push_cases h
  refine toList_congr ?_ fun i hi ↦ mem_push_set_ptr h x hi
  show b.nelts - 1 = a.nelts
  rw [hn]
  exact Nat.add_sub_cancel ..

/-- **Writing an element** changes what the array holds unless it was that value already. -/
theorem toList_set_ptr_iff {i : Nat} (hi : i < a.nelts) (x : α) :
    (a.set (a.ptr i) x).toList = a.toList ↔ x = a.mem (a.ptr i) := by
  constructor
  · intro hsame
    have hval := List.map_inj_left.mp hsame i (List.mem_range.mpr hi)
    rwa [show (a.set (a.ptr i) x).ptr i = a.ptr i from rfl, mem_set_self] at hval
  · rintro rfl
    rw [set, Function.update_eq_self]

theorem push_eq_none_iff : a.push o = none ↔ a.nalloc ≤ a.nelts ∧ o = .fail := by
  rw [push]
  split
  · rename_i hroom
    exact iff_of_false (Option.some_ne_none _) fun hfull ↦ Nat.not_lt.mpr hfull.1 hroom
  · rename_i hfull
    rw [Option.map_eq_none_iff, grow.eq_def]
    cases o <;> simp [Nat.le_of_not_lt hfull]

end GrowArray
