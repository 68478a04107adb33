import NgxKeyval.Shm.Map
import NgxKeyval.Shm.PlainCore
import NgxKeyval.Shm.Segment

/-!
# Every slab block is accounted for

A segment lives as long as nginx does, so a block that is allocated and forgotten is lost for good,
and a block that is freed twice, or freed while the tree still holds it, corrupts the tree of every
worker.  Nodes are allocated in one place and freed in two, with failures between.

* `SlabPool.Sane` is a pool that has not been asked to free anything it had not handed out.
* `ShmZone.Accounted` is the invariant: the live blocks are a fixed few and one for each node, large
  enough for exactly what the node holds.  `shmStep_accounted` is the step.
* `slab_blocks_accounted` starts from a segment that was just initialised, where the fixed few are
  the tree header and the log text.

Neither the order of the tree nor the clock matters here: the descent may end anywhere, as long as
it ends at a node.
-/

set_option autoImplicit false

namespace NgxKeyval

/-! ## The slab pool -/

/-- No block is live twice, the names that follow are free, and nothing was freed that was not
live. -/
structure SlabPool.Sane (pool : SlabPool) : Prop where
  nodup : (pool.live.map Prod.fst).Nodup
  lt_next : ∀ e ∈ pool.live, e.1 < pool.next
  alerts : pool.alerts = []

theorem SlabPool.Sane.alloc {pool pool' : SlabPool} (h : pool.Sane) {size : Nat} {ok : Bool}
    {b : Nat} (halloc : slabAllocLocked pool size ok = some (b, pool')) :
    pool'.Sane ∧ b = pool.next ∧ pool'.live = (b, size) :: pool.live := by
  rw [slabAllocLocked] at halloc
  split at halloc
  · cases halloc
    refine ⟨⟨?_, ?_, h.alerts⟩, rfl, rfl⟩
    · rw [List.map_cons, List.nodup_cons]
      refine ⟨fun hmem ↦ ?_, h.nodup⟩
      obtain ⟨e, he, heq⟩ := List.mem_map.mp hmem
      exact Nat.ne_of_lt (h.lt_next e he) heq
    · intro e he
      rcases List.mem_cons.mp he with rfl | he
      · exact Nat.lt_succ_self _
      · exact Nat.lt_succ_of_lt (h.lt_next e he)
  · cases halloc

theorem SlabPool.Sane.free {pool : SlabPool} (h : pool.Sane) {e : Nat × Nat}
    {rest : List (Nat × Nat)} (hlive : pool.live.Perm (e :: rest)) :
    (slabFreeLocked pool e.1).Sane ∧ (slabFreeLocked pool e.1).live.Perm rest := by
  have hmem : e ∈ pool.live := hlive.mem_iff.mpr List.mem_cons_self
  have hany : (pool.live.any fun x ↦ x.1 == e.1) = true :=
    List.any_eq_true.mpr ⟨e, hmem, beq_self_eq_true e.1⟩
  have hnodup : ((e :: rest).map Prod.fst).Nodup := (hlive.map Prod.fst).nodup_iff.mp h.nodup
  have hrest : (rest.filter fun x ↦ x.1 != e.1) = rest := by
    rw [List.filter_eq_self]
    intro x hx
    rw [List.map_cons, List.nodup_cons] at hnodup
    rw [bne_iff_ne]
    exact fun heq ↦ hnodup.1 (heq ▸ List.mem_map_of_mem hx)
  have hperm : (pool.live.filter fun x ↦ x.1 != e.1).Perm rest := by
    have hfilter := hlive.filter fun x ↦ x.1 != e.1
    rwa [List.filter_cons_of_neg (by simp), hrest] at hfilter
  rw [slabFreeLocked, if_pos hany]
  refine ⟨⟨?_, ?_, h.alerts⟩, hperm⟩
  · exact h.nodup.sublist (List.filter_sublist.map Prod.fst)
  · exact fun x hx ↦ h.lt_next x (List.mem_of_mem_filter hx)

/-! ## The nodes and their blocks -/

section

variable {w : Nat} {ngx : NgxCore w} {fixed : List (Nat × Nat)} {z : ShmZone w} {n : Node w}

/-- The block of a node, with room for its header and for what it holds. -/
def Node.cell (n : Node w) : Nat × Nat := (n.block, nodeHeader w + n.size)

/-- A node holds its key and its value, and nothing else. -/
structure Node.Full (n : Node w) : Prop where
  len_le : n.len ≤ n.size
  length_data : n.data.length = n.size

theorem Node.Full.data_eq (h : n.Full) : n.keyBytes ++ n.valBytes = n.data := by
  have hlen : (n.data.drop n.len).length ≤ n.size - n.len := by
    rw [List.length_drop, h.length_data]
  rw [Node.keyBytes, Node.valBytes, List.take_of_length_le hlen, List.take_append_drop]

/-- The live blocks are the fixed ones and those of the nodes. -/
structure ShmZone.Accounted (fixed : List (Nat × Nat)) (z : ShmZone w) : Prop where
  sane : z.shpool.Sane
  live : z.shpool.live.Perm (fixed ++ z.sh.toList.map Node.cell)
  full : ∀ n ∈ z.sh.toList, n.Full

theorem mem_of_rbtreeLookup {key : Bytes} {hash : UInt32} {t : Rbtree w}
    (h : rbtreeLookup ngx key hash t = some n) : n ∈ t.toList := by
  rw [rbtreeLookup_eq_find] at h
  exact SearchTree.mem_of_find h

/-- **Removing a node** frees its block. -/
theorem ShmZone.Accounted.removeNode (hngx : ngx.Lawful) (h : z.Accounted fixed)
    (hn : n ∈ z.sh.toList) : (removeNode ngx z n).Accounted fixed := by
  have hlist : (NgxKeyval.removeNode ngx z n).sh.toList = z.sh.toList.erase n :=
    hngx.rbtreeDelete_mem z.sh n hn
  have hcells : (z.sh.toList.map Node.cell).Perm
      (n.cell :: (z.sh.toList.erase n).map Node.cell) :=
    (List.perm_cons_erase hn).map Node.cell
  have hlive : z.shpool.live.Perm
      (n.cell :: (fixed ++ (z.sh.toList.erase n).map Node.cell)) :=
    h.live.trans ((hcells.append_left fixed).trans List.perm_middle)
  obtain ⟨hsane, hrest⟩ := h.sane.free hlive
  refine ⟨hsane, ?_, ?_⟩
  · rw [hlist]
    exact hrest
  · rw [hlist]
    exact fun m hm ↦ h.full m (List.mem_of_mem_erase hm)

/-- **Inserting a node** whose block was just allocated. -/
theorem ShmZone.Accounted.insertNode (hngx : ngx.Lawful) (h : z.Accounted fixed)
    {pool : SlabPool} {ok : Bool} (hfull : n.Full)
    (halloc : slabAllocLocked z.shpool (nodeHeader w + n.size) ok = some (n.block, pool)) :
    ShmZone.Accounted fixed ⟨ngx.rbtreeInsert (rbtreeInsertValue ngx) z.sh n, pool⟩ := by
  obtain ⟨hsane, -, hlive⟩ := h.sane.alloc halloc
  have hperm : (ngx.rbtreeInsert (rbtreeInsertValue ngx) z.sh n).toList.Perm
      (n :: z.sh.toList) := by
    rw [toList_rbtreeInsert hngx]
    exact SearchTree.toList_insertBy_perm _ _ _ _
  refine ⟨hsane, ?_, ?_⟩
  · have hcells := (hperm.map Node.cell).append_left fixed
    rw [hlive]
    exact ((h.live.cons n.cell).trans List.perm_middle.symm).trans hcells.symm
  · intro m hm
    rcases List.mem_cons.mp (hperm.mem_iff.mp hm) with rfl | hm
    · exact hfull
    · exact h.full m hm

/-- A block that is allocated for something else joins the fixed ones. -/
theorem ShmZone.Accounted.fix (h : z.Accounted fixed) {size b : Nat} {ok : Bool} {pool : SlabPool}
    (halloc : slabAllocLocked z.shpool size ok = some (b, pool)) :
    ShmZone.Accounted ((b, size) :: fixed) ⟨z.sh, pool⟩ := by
  obtain ⟨hsane, -, hlive⟩ := h.sane.alloc halloc
  refine ⟨hsane, ?_, h.full⟩
  rw [hlive]
  exact h.live.cons (b, size)

/-- Reading frees the block of an entry that has expired. -/
theorem ShmZone.Accounted.shmGetData (hngx : ngx.Lawful) (h : z.Accounted fixed) (key : Bytes)
    (now : BitVec w) (palloc : Bool) : (shmGetData ngx z key now palloc).2.Accounted fixed := by
  rw [NgxKeyval.shmGetData]
  split
  · exact h
  · rename_i node hnode
    split
    · exact h.removeNode hngx (mem_of_rbtreeLookup hnode)
    · split <;> exact h

/-- The first half of a write frees the block of the old entry. -/
theorem ShmZone.Accounted.removeEntry (hngx : ngx.Lawful) (h : z.Accounted fixed) (key : Bytes) :
    (removeEntry ngx z key).Accounted fixed := by
  rw [NgxKeyval.removeEntry]
  split
  · exact h
  · rename_i node hnode
    exact h.removeNode hngx (mem_of_rbtreeLookup hnode)

/-- Writing puts the new block, if there is one, into the tree. -/
theorem ShmZone.Accounted.shmSetData (hngx : ngx.Lawful) (h : z.Accounted fixed) (ttl : BitVec w)
    (key val : Bytes) (now : BitVec w) (alloc : Bool) :
    (shmSetData ngx z ttl key val now alloc).2.Accounted fixed := by
  have hremoved := h.removeEntry hngx key
  rw [NgxKeyval.shmSetData]
  simp only
  split
  · exact hremoved
  · rename_i block pool halloc
    rw [Nat.add_assoc] at halloc
    exact hremoved.insertNode hngx ⟨Nat.le_add_right _ _, List.length_append⟩ halloc

/-- **One call keeps the blocks accounted for**, whatever the allocators answer. -/
theorem shmStep_accounted (hngx : ngx.Lawful) (z : ShmZone w) (call : ShmCall w)
    (h : z.Accounted fixed) : (shmStep ngx z call).2.Accounted fixed := by
  cases call with
  | get key now palloc => exact h.shmGetData hngx key now palloc
  | set ttl key val now alloc => exact h.shmSetData hngx ttl key val now alloc

/-! ## From initialisation on -/

/-- The tree a header block holds is accounted for, next to the fixed blocks. -/
def Segment.Accounted (seg : Segment w) (sh : Nat) (fixed : List (Nat × Nat)) : Prop :=
  ∃ tree, seg.sh sh = some tree ∧ ShmZone.Accounted fixed ⟨tree, seg.shpool⟩

theorem segmentStep_accounted (hngx : ngx.Lawful) {ctx : ShmCtx} {sh : Nat}
    (hsh : ctx.sh = some sh) (seg : Segment w) (call : ShmCall w) (h : seg.Accounted sh fixed) :
    (segmentStep ngx ctx seg call).2.Accounted sh fixed := by
  obtain ⟨tree, htree, hacc⟩ := h
  rw [segmentStep_eq hsh htree]
  exact ⟨_, seg.sh_put_self sh _, shmStep_accounted hngx _ call hacc⟩

theorem ShmZone.Accounted.withHeader {t : Rbtree w} {seg : Segment w}
    (h : ShmZone.Accounted fixed ⟨t, seg.shpool⟩) :
    ShmZone.Accounted ((seg.shpool.next, shSize w) :: fixed) ⟨t, seg.withHeader.shpool⟩ := by
  have halloc : slabAllocLocked seg.shpool (shSize w) true =
      some (seg.shpool.next, seg.withHeader.shpool) := rfl
  exact h.fix halloc

theorem ShmZone.Accounted.withLogCtx {t : Rbtree w} {seg : Segment w}
    (h : ShmZone.Accounted fixed ⟨t, seg.shpool⟩) (name : Bytes) :
    ShmZone.Accounted ((seg.shpool.next, logCtxSize name) :: fixed)
      ⟨t, (seg.withLogCtx name).shpool⟩ := by
  have halloc : slabAllocLocked seg.shpool (logCtxSize name) true =
      some (seg.shpool.next, (seg.withLogCtx name).shpool) := rfl
  exact h.fix halloc

/-- **No slab block is leaked or freed twice.**  A segment is initialised; then come any calls, with
any keys, values, clocks and `ttl`s, each of whose allocations may fail.  At every moment the live
blocks are the tree header, the log text and one for each node, all different; nothing that was
not live has been freed; and the block of a node has room for its header and exactly the key and the
value it holds. -/
theorem slab_blocks_accounted (hngx : ngx.Lawful) {shm : Shm} (hshm : shm.present = false)
    {ctx ctx' : ShmCtx} {shOk logOk : Bool} {seg : Segment w}
    (hinit : initZone shm none ctx shOk logOk (Segment.fresh w) = (.ok, ctx', seg)) :
    ∃ sh log, ctx'.sh = some sh ∧ seg.logCtx = some log ∧ ∀ calls : List (ShmCall w),
      let seg' := Machine.final (segmentStep ngx ctx') seg calls
      seg'.logCtx = some log ∧ ∃ tree, seg'.sh sh = some tree ∧
        seg'.shpool.live.Perm ((sh, shSize w) :: (log, logCtxSize shm.name) ::
          tree.toList.map fun n ↦ (n.block, nodeHeader w + n.size)) ∧
        (seg'.shpool.live.map Prod.fst).Nodup ∧ seg'.shpool.alerts = [] ∧
        ∀ n ∈ tree.toList, n.data = n.keyBytes ++ n.valBytes ∧
          n.size = n.keyBytes.length + n.valBytes.length := by
  simp only [initZone, hshm, Bool.false_eq_true, if_false] at hinit
  obtain ⟨hctx, rfl⟩ := initFresh_ok hinit
  have hsh : ctx'.sh = some 0 := congrArg ShmCtx.sh hctx
  let fixed : List (Nat × Nat) := [(1, logCtxSize shm.name), (0, shSize w)]
  have hempty : ShmZone.Accounted [] ⟨(.leaf : Rbtree w), (Segment.fresh w).shpool⟩ :=
    ⟨⟨List.nodup_nil, by simp [Segment.fresh], rfl⟩, List.Perm.refl _, by simp⟩
  refine ⟨0, 1, hsh, rfl, fun calls ↦ ?_⟩
  let P : Segment w → Prop := fun seg ↦ seg.logCtx = some 1 ∧ seg.Accounted 0 fixed
  have hinit : P ((Segment.fresh w).withHeader.withLogCtx shm.name) :=
    ⟨rfl, .leaf, rfl, hempty.withHeader.withLogCtx shm.name⟩
  obtain ⟨hlog, tree, htree, hsane, hlive, hfull⟩ := Machine.final_induction (fun _ _ ↦ True)
    (fun s call hs _ ↦ ⟨(segmentStep_logCtx s call).trans hs.1,
      segmentStep_accounted hngx hsh s call hs.2⟩) hinit
    (Machine.meets_of_forall fun _ _ _ ↦ trivial)
  refine ⟨hlog, tree, htree, hlive.trans (List.Perm.swap _ _ _), hsane.nodup, hsane.alerts,
    fun n hn ↦ ?_⟩
  have hdata := (hfull n hn).data_eq
  refine ⟨hdata.symm, ?_⟩
  rw [← List.length_append, hdata, (hfull n hn).length_data]

end

/-- A key is bound twice, the second time with no room, and another is bound and expires. -/
theorem slab_blocks_accounted_plain :
    let init := initZone ⟨4096, lit "z", false⟩ none ⟨none, none, 1⟩ true true (Segment.fresh 64)
    let seg := Machine.final (segmentStep (plainCore 64) init.2.1) init.2.2
      [.set 1 [97] [1] 5 true, .set 1 [97] [2, 2] 6 false, .set 1 [98] [3] 7 true,
        .get [98] 2000 true, .set 1 [97] [4] 2001 true]
    seg.shpool.live = [(4, 66), (1, 20), (0, 64)] ∧ seg.shpool.alerts = [] := by
  have hinit : initZone ⟨4096, lit "z", false⟩ none ⟨none, none, 1⟩ true true (Segment.fresh 64) =
      (.ok, ⟨some 0, some 4096, 1⟩, (Segment.fresh 64).withHeader.withLogCtx (lit "z")) := rfl
  obtain ⟨sh, log, -, -, hrun⟩ := slab_blocks_accounted (plainCore_lawful 64) rfl hinit
  obtain ⟨-, tree, -, -, -, halerts, -⟩ := hrun [.set 1 [97] [1] 5 true,
    .set 1 [97] [2, 2] 6 false, .set 1 [98] [3] 7 true, .get [98] 2000 true,
    .set 1 [97] [4] 2001 true]
  exact ⟨by decide, halerts⟩

end NgxKeyval
