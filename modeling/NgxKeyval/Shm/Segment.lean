import NgxKeyval.Conf.Defs
import NgxKeyval.Library.Machine

/-!
# A shared memory segment and its initialisation

`ngx_keyval_init_zone` and `ngx_keyval_init_zone_none`: what happens to a segment when nginx starts
or reloads its configuration.  Everything the store keeps lies in slab blocks of the segment, the
tree header and the name for the log among them, and the context of a zone finds the header by the
address of its block.

A `Segment` is the slab pool together with what lies in the blocks that are not nodes.  The nodes
are in the tree, and know their blocks themselves.
-/

set_option autoImplicit false

namespace NgxKeyval

/-- The part of `ngx_shm_t` the initialisation reads; `present` is `exists`. -/
structure Shm where
  /-- Where the segment is mapped: the address of its slab pool. -/
  addr : Nat
  name : Bytes
  present : Bool
  deriving DecidableEq, Repr

/-- `ngx_keyval_shm_ctx_t`; `none` is `NULL`. -/
structure ShmCtx where
  /-- The block of the tree header. -/
  sh : Option Nat
  /-- The address of the slab pool. -/
  shpool : Option Nat
  ttl : Int
  deriving DecidableEq, Repr

/-- A segment: its slab pool, and what lies in the blocks. -/
structure Segment (w : Nat) where
  shpool : SlabPool
  /-- `shpool->data` -/
  data : Option Nat
  /-- `shpool->log_ctx` -/
  logCtx : Option Nat
  /-- The tree whose `ngx_keyval_sh_t` lies in a block. -/
  sh : Nat → Option (Rbtree w)
  /-- The text that lies in a block. -/
  text : Nat → Option Bytes

/-- A segment as `ngx_init_zone_pool` leaves it. -/
def Segment.fresh (w : Nat) : Segment w := ⟨⟨[], 0, []⟩, none, none, fun _ ↦ none, fun _ ↦ none⟩

section

variable {w : Nat}

/-- `sizeof(ngx_keyval_sh_t)`: the three words of an `ngx_rbtree_t` and the five of a node. -/
def shSize (w : Nat) : Nat := 3 * (w / 8) + 5 * (w / 8)

/-- The bytes that are allocated for the log text. -/
def logCtxSize (name : Bytes) : Nat := ((lit " in keyval zone \"\"").length + 1) + name.length

/-- What `ngx_sprintf` writes there, with the terminating `NUL`. -/
def logCtxText (name : Bytes) : Bytes := lit " in keyval zone \"" ++ name ++ lit "\"" ++ [0]

/-- The last part of `ngx_keyval_init_zone`: a new tree header and a new log text.  `shOk` and
`logOk` are whether `ngx_slab_alloc` finds room for each. -/
def initFresh (name : Bytes) (ctx : ShmCtx) (shOk logOk : Bool) (seg : Segment w) :
    Rc × ShmCtx × Segment w :=
  match slabAllocLocked seg.shpool (shSize w) shOk with
  | none => (.error, { ctx with sh := none }, seg)
  | some (b, shpool) =>
    let ctx := { ctx with sh := some b }
    let seg := { seg with shpool, data := some b, sh := Function.update seg.sh b (some .leaf) }
    match slabAllocLocked seg.shpool (logCtxSize name) logOk with
    | none => (.error, ctx, { seg with logCtx := none })
    | some (l, shpool) =>
      (.ok, ctx, { seg with shpool, logCtx := some l,
                            text := Function.update seg.text l (some (logCtxText name)) })

/-- `ngx_keyval_init_zone`: `octx` is the `data` nginx passes, the context of the generation before,
and `ctx` the one of this generation. -/
def initZone (shm : Shm) (octx : Option ShmCtx) (ctx : ShmCtx) (shOk logOk : Bool)
    (seg : Segment w) : Rc × ShmCtx × Segment w :=
  match octx with
  | some octx => (.ok, { ctx with sh := octx.sh, shpool := octx.shpool }, seg)
  | none =>
    let ctx := { ctx with shpool := some shm.addr }
    if shm.present then (.ok, { ctx with sh := seg.data }, seg)
    else initFresh shm.name ctx shOk logOk seg

/-- `ngx_keyval_init_zone_none`. -/
def initZoneNone (seg : Segment w) : Rc × Segment w := (.ok, seg)

/-- Put back the pool and the tree that a store operation leaves. -/
def Segment.put (seg : Segment w) (b : Nat) (z : ShmZone w) : Segment w :=
  { seg with shpool := z.shpool, sh := Function.update seg.sh b (some z.sh) }

/-- One of the two store operations, through the context of a zone. -/
def segmentStep (ngx : NgxCore w) (ctx : ShmCtx) (seg : Segment w) (call : ShmCall w) :
    Option ShmReply × Segment w :=
  match ctx.sh with
  | none => (none, seg)
  | some b =>
    match seg.sh b with
    | none => (none, seg)
    | some tree =>
      let r := shmStep ngx ⟨tree, seg.shpool⟩ call
      (some r.1, seg.put b r.2)

/-! ## What the operations do to a segment -/

variable {ngx : NgxCore w} {ctx : ShmCtx} {seg : Segment w} {b : Nat} {tree : Rbtree w}

theorem segmentStep_eq (hsh : ctx.sh = some b) (htree : seg.sh b = some tree) (call : ShmCall w) :
    segmentStep ngx ctx seg call =
      (some (shmStep ngx ⟨tree, seg.shpool⟩ call).1,
        seg.put b (shmStep ngx ⟨tree, seg.shpool⟩ call).2) := by
  simp only [segmentStep, hsh, htree]

@[simp] theorem Segment.sh_put_self (seg : Segment w) (b : Nat) (z : ShmZone w) :
    (seg.put b z).sh b = some z.sh := Function.update_self ..

theorem segmentStep_logCtx (seg : Segment w) (call : ShmCall w) :
    (segmentStep ngx ctx seg call).2.logCtx = seg.logCtx := by
  rw [segmentStep]
  split
  · rfl
  · split <;> rfl

/-- The segment with a new tree header. -/
def Segment.withHeader (seg : Segment w) : Segment w where
  shpool := ⟨(seg.shpool.next, shSize w) :: seg.shpool.live, seg.shpool.next + 1, seg.shpool.alerts⟩
  data := some seg.shpool.next
  logCtx := seg.logCtx
  sh := Function.update seg.sh seg.shpool.next (some .leaf)
  text := seg.text

/-- The segment with a new log text. -/
def Segment.withLogCtx (seg : Segment w) (name : Bytes) : Segment w where
  shpool := ⟨(seg.shpool.next, logCtxSize name) :: seg.shpool.live, seg.shpool.next + 1,
    seg.shpool.alerts⟩
  data := seg.data
  logCtx := some seg.shpool.next
  sh := seg.sh
  text := Function.update seg.text seg.shpool.next (some (logCtxText name))

/-- **A new header** and a new log text are two blocks, the tree is empty, and the context points at
it. -/
theorem initFresh_ok {name : Bytes} {ctx' : ShmCtx} {shOk logOk : Bool} {seg' : Segment w}
    (h : initFresh name ctx shOk logOk seg = (.ok, ctx', seg')) :
    ctx' = { ctx with sh := some seg.shpool.next } ∧ seg' = seg.withHeader.withLogCtx name := by
  cases shOk with
  | false => simp [initFresh, slabAllocLocked] at h
  | true =>
    cases logOk with
    | false => simp [initFresh, slabAllocLocked] at h
    | true =>
      simp only [initFresh, slabAllocLocked, if_true, Prod.mk.injEq, true_and] at h
      exact ⟨h.1.symm, h.2.symm⟩

/-- An initialisation that fails has left a header behind, at most. -/
theorem initFresh_error {name : Bytes} {rc : Rc} {ctx' : ShmCtx} {shOk logOk : Bool}
    {seg' : Segment w} (h : initFresh name ctx shOk logOk seg = (rc, ctx', seg')) (hrc : rc ≠ .ok) :
    seg' = seg ∨ seg' = { seg.withHeader with logCtx := none } := by
  cases shOk with
  | false =>
    simp only [initFresh, slabAllocLocked, Bool.false_eq_true, if_false, Prod.mk.injEq] at h
    exact Or.inl h.2.2.symm
  | true =>
    cases logOk with
    | false =>
      simp only [initFresh, slabAllocLocked, if_true, Bool.false_eq_true, if_false,
        Prod.mk.injEq] at h
      exact Or.inr h.2.2.symm
    | true =>
      simp only [initFresh, slabAllocLocked, if_true, Prod.mk.injEq] at h
      exact absurd h.1.symm hrc

end

end NgxKeyval
