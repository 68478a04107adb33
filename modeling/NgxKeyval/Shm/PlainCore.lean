import Mathlib.Logic.Function.Iterate
import NgxKeyval.Shm.Store

/-!
# A core to run the store with

`NgxCore` leaves to nginx what nginx supplies.  `plainCore` is one lawful choice that can be
evaluated: the CRC-32 of `ngx_crc32_short`, the byte-wise comparison of `ngx_memn2cmp`, and tree
operations that link and unlink nodes but never rotate.  On trees of at most two nodes nginx does
not rotate either, so there the two agree up to colours.
-/

set_option autoImplicit false

namespace NgxKeyval

/-- One bit of the reflected CRC-32. -/
def crc32Bit (c : UInt32) : UInt32 :=
  if c &&& 1 = 1 then (c >>> 1) ^^^ 0xEDB88320 else c >>> 1

/-- One byte of the reflected CRC-32. -/
def crc32Byte (c : UInt32) (b : UInt8) : UInt32 := crc32Bit^[8] (c ^^^ b.toUInt32)

/-- `ngx_crc32_short`. -/
def crc32Short (p : Bytes) : UInt32 := ~~~ (p.foldl crc32Byte 0xFFFFFFFF)

/-- The sign of a comparison. -/
def orderingSign : Ordering → Int
  | .lt => -1
  | .eq => 0
  | .gt => 1

/-- `ngx_memn2cmp`: the first byte that differs decides, and then the length. -/
def memn2cmp (a b : Bytes) : Int := orderingSign (compare a b)

/-- The second tree hung below the last node of the first. -/
def graft {w : Nat} : Rbtree w → Rbtree w → Rbtree w
  | .leaf, s => s
  | .node c l a r, s => .node c l a (graft r s)

/-- The tree without one occurrence of a node. -/
def unlink {w : Nat} : Rbtree w → Node w → Rbtree w
  | .leaf, _ => .leaf
  | .node c l a r, n =>
    if n ∈ l.toList then .node c (unlink l n) a r
    else if a = n then graft l r
    else .node c l a (unlink r n)

/-- The core whose tree never rotates. -/
def plainCore (w : Nat) : NgxCore w where
  crc32Short := crc32Short
  memn2cmp := memn2cmp
  rbtreeInsert insert t node :=
    match t with
    | .leaf => .node .black .leaf node .leaf
    | .node .. => insert t node
  rbtreeDelete := unlink

theorem orderingSign_lt_iff {o : Ordering} : orderingSign o < 0 ↔ o = .lt := by
  cases o <;> simp [orderingSign]

theorem orderingSign_gt_iff {o : Ordering} : 0 < orderingSign o ↔ o = .gt := by
  cases o <;> simp [orderingSign]

theorem orderingSign_eq_iff {o : Ordering} : orderingSign o = 0 ↔ o = .eq := by
  cases o <;> simp [orderingSign]

theorem toList_graft {w : Nat} (t s : Rbtree w) :
    (graft t s).toList = t.toList ++ s.toList := by
  induction t with
  | leaf => rfl
  | node c l a r _ ihr => rw [graft, SearchTree.toList_node, ihr]; simp

theorem toList_unlink {w : Nat} (t : Rbtree w) (n : Node w) (hn : n ∈ t.toList) :
    (unlink t n).toList = t.toList.erase n := by
  induction t with
  | leaf => simp at hn
  | node c l a r ihl ihr =>
    rw [unlink, SearchTree.toList_node]
    by_cases hl : n ∈ l.toList
    · rw [if_pos hl, SearchTree.toList_node, ihl hl, List.erase_append_left _ hl]
    · rw [if_neg hl, List.erase_append_right _ hl]
      by_cases ha : a = n
      · subst ha
        rw [if_pos rfl, toList_graft, List.erase_cons_head]
      · have hr : n ∈ r.toList := by
          simpa [hl, Ne.symm ha] using hn
        rw [if_neg ha, SearchTree.toList_node, ihr hr, List.erase_cons_tail (by simpa using ha)]

/-- **The plain core is lawful.** -/
theorem plainCore_lawful (w : Nat) : (plainCore w).Lawful where
  memn2cmp_eq_zero a b := orderingSign_eq_iff.trans Std.LawfulEqCmp.compare_eq_iff_eq
  memn2cmp_neg a b := by
    show orderingSign (compare a b) < 0 ↔ 0 < orderingSign (compare b a)
    rw [orderingSign_lt_iff, orderingSign_gt_iff,
      Std.OrientedCmp.gt_iff_lt]
  memn2cmp_trans a b c hab hbc :=
    orderingSign_lt_iff.mpr
      (Std.TransCmp.lt_trans (orderingSign_lt_iff.mp hab) (orderingSign_lt_iff.mp hbc))
  rbtreeInsert_leaf _ _ := rfl
  rbtreeInsert_node insert t node ht := by
    cases t with
    | leaf => exact absurd rfl ht
    | node c l a r => rfl
  rbtreeDelete_mem := toList_unlink

end NgxKeyval
