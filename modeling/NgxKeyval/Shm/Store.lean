import NgxKeyval.Library.SearchTree

/-!
# The shared-memory store

`ngx_keyval_store_shm.c` keeps the entries of a zone in a red-black tree of slab blocks, ordered by
the hash of the key and, under equal hashes, by the key bytes.  This file is that code.

* `rbtreeLookup` and `rbtreeInsertValue` are the two descents.
* `shmGetData` looks a key up and removes the entry it finds if its deadline has passed.
* `shmSetData` removes the entry of the key, if any, and then allocates and inserts a new one.

Each call of the last two runs under the zone mutex, so it is one atomic step on a `ShmZone`; the
clock `ngx_current_msec`, the `ttl` of the caller's configuration and the outcome of each
allocation are its inputs.

What nginx itself supplies is collected in `NgxCore`: the hash, the byte comparison, and the two
red-black tree operations, which rebalance in ways the module never looks at.  `NgxCore.Lawful` is
what the code relies on.  Clock words have `w` bits; `ngx_msec_t` arithmetic is arithmetic in
`BitVec w`.
-/

set_option autoImplicit false

namespace NgxKeyval

/-- A string of bytes, as `ngx_str_t` delimits it. -/
abbrev Bytes := List UInt8

/-- The return codes the store distinguishes. -/
inductive Rc where
  /-- `NGX_OK` -/
  | ok
  /-- `NGX_DECLINED` -/
  | declined
  /-- `NGX_ERROR` -/
  | error
  deriving DecidableEq, Repr

/-! ## The slab pool -/

/-- The part of `ngx_slab_pool_t` the store can tell apart: which blocks are allocated, and how
large each is.  A block is named by the ordinal of its allocation, so a block that was freed keeps
a name of its own even if its memory is handed out again. -/
structure SlabPool where
  /-- The allocated blocks, with their sizes. -/
  live : List (Nat × Nat)
  /-- The name of the next block. -/
  next : Nat
  /-- The blocks that were passed to `ngx_slab_free_locked` while not allocated. -/
  alerts : List Nat
  deriving DecidableEq, Repr

/-- `ngx_slab_alloc_locked`: `ok` is whether the pool has room, `none` is `NULL`. -/
def slabAllocLocked (pool : SlabPool) (size : Nat) (ok : Bool) : Option (Nat × SlabPool) :=
  if ok then some (pool.next, { pool with live := (pool.next, size) :: pool.live,
                                          next := pool.next + 1 })
  else none

/-- `ngx_slab_free_locked`.  Freeing what is not allocated changes nothing and raises an alert. -/
def slabFreeLocked (pool : SlabPool) (block : Nat) : SlabPool :=
  if pool.live.any (·.1 == block) then
    { pool with live := pool.live.filter (·.1 != block) }
  else { pool with alerts := block :: pool.alerts }

/-! ## Nodes -/

/-- An entry: the `key` of the `ngx_rbtree_node_t` and the `ngx_keyval_node_t` laid over its last
bytes.  `data` is the key followed by the value, `len` the length of the key and `size` of both. -/
structure Node (w : Nat) where
  /-- The slab block the node lives in. -/
  block : Nat
  /-- `node->key`, the hash of the key. -/
  key : UInt32
  /-- The length of the key. -/
  len : Nat
  /-- The length of the key and the value together. -/
  size : Nat
  /-- The deadline word, `0` for none. -/
  expiresAt : BitVec w
  /-- The key and, right behind it, the value. -/
  data : Bytes
  deriving DecidableEq, Repr

namespace Node

variable {w : Nat}

/-- The first `len` bytes of `data`. -/
def keyBytes (n : Node w) : Bytes := n.data.take n.len

/-- The `size - len` bytes that follow the key. -/
def valBytes (n : Node w) : Bytes := (n.data.drop n.len).take (n.size - n.len)

end Node

/-- The colours of `ngx_rbt_red` and `ngx_rbt_black`. -/
inductive Colour where
  | red
  | black
  deriving DecidableEq, Repr

/-- `ngx_rbtree_t`; a leaf is the sentinel. -/
abbrev Rbtree (w : Nat) := SearchTree Colour (Node w)

/-- What nginx core supplies to the store. -/
structure NgxCore (w : Nat) where
  /-- `ngx_crc32_short`. -/
  crc32Short : Bytes → UInt32
  /-- `ngx_memn2cmp`, on the two strings it is given the start and length of. -/
  memn2cmp : Bytes → Bytes → Int
  /-- `ngx_rbtree_insert`, which calls the insert function it was initialised with. -/
  rbtreeInsert : (Rbtree w → Node w → Rbtree w) → Rbtree w → Node w → Rbtree w
  /-- `ngx_rbtree_delete`. -/
  rbtreeDelete : Rbtree w → Node w → Rbtree w

/-- What the store relies on: `ngx_memn2cmp` is a total order of byte strings, and the tree
operations, however they rebalance, keep the entries in order. -/
structure NgxCore.Lawful {w : Nat} (ngx : NgxCore w) : Prop where
  /-- Equal strings, and only those, compare as `0`. -/
  memn2cmp_eq_zero : ∀ a b, ngx.memn2cmp a b = 0 ↔ a = b
  /-- The sign turns round with the arguments. -/
  memn2cmp_neg : ∀ a b, ngx.memn2cmp a b < 0 ↔ 0 < ngx.memn2cmp b a
  /-- The order is transitive. -/
  memn2cmp_trans : ∀ a b c, ngx.memn2cmp a b < 0 → ngx.memn2cmp b c < 0 → ngx.memn2cmp a c < 0
  /-- The first node becomes the root. -/
  rbtreeInsert_leaf : ∀ insert node, (ngx.rbtreeInsert insert .leaf node).toList = [node]
  /-- Any other node goes where the insert function puts it. -/
  rbtreeInsert_node : ∀ insert t node, t ≠ .leaf →
    (ngx.rbtreeInsert insert t node).toList = (insert t node).toList
  /-- A node of the tree is taken out. -/
  rbtreeDelete_mem : ∀ t node, node ∈ t.toList →
    (ngx.rbtreeDelete t node).toList = t.toList.erase node

/-! ## The tree -/

section

variable {w : Nat} (ngx : NgxCore w)

/-- `ngx_keyval_rbtree_insert_value`: descend to a sentinel and link the node there, red. -/
def rbtreeInsertValue : Rbtree w → Node w → Rbtree w
  | .leaf, node => .node .red .leaf node .leaf
  | .node c left temp right, node =>
    if node.key < temp.key then .node c (rbtreeInsertValue left node) temp right
    else if node.key > temp.key then .node c left temp (rbtreeInsertValue right node)
    else if ngx.memn2cmp node.keyBytes temp.keyBytes < 0 then
      .node c (rbtreeInsertValue left node) temp right
    else .node c left temp (rbtreeInsertValue right node)

/-- `ngx_keyval_rbtree_lookup`. -/
def rbtreeLookup (key : Bytes) (hash : UInt32) : Rbtree w → Option (Node w)
  | .leaf => none
  | .node _ left node right =>
    if hash < node.key then rbtreeLookup key hash left
    else if hash > node.key then rbtreeLookup key hash right
    else
      let rc := ngx.memn2cmp key node.keyBytes
      if rc = 0 then some node
      else if rc < 0 then rbtreeLookup key hash left
      else rbtreeLookup key hash right

/-! ## Reading and writing -/

/-- What the workers share of a zone: the tree and the slab pool it lives in. -/
structure ShmZone (w : Nat) where
  /-- `ctx->sh->rbtree`. -/
  sh : Rbtree w
  /-- `ctx->shpool`. -/
  shpool : SlabPool
  deriving DecidableEq, Repr

/-- What `ngx_keyval_shm_get_data` returns, with the value when there is one. -/
inductive GetResult where
  | ok (val : Bytes)
  | declined
  | error
  deriving DecidableEq, Repr

/-- Has the deadline passed?  The difference is read as a signed word. -/
def expired (now expiresAt : BitVec w) : Bool :=
  expiresAt != 0 && decide (0 ≤ (now - expiresAt).toInt)

/-- The deadline of an entry written now, `0` when the zone has no `ttl`. -/
def deadline (now ttl : BitVec w) : BitVec w := if ttl != 0 then now + ttl * 1000 else 0

/-- The bytes of a node before its `data`: `offsetof(ngx_rbtree_node_t, color)`, the tree key and
three pointers, and `offsetof(ngx_keyval_node_t, data)`, four words with the colour padded to one.
-/
def nodeHeader (w : Nat) : Nat := 4 * (w / 8) + 4 * (w / 8)

/-- `ngx_rbtree_delete` followed by `ngx_slab_free_locked`. -/
def removeNode (z : ShmZone w) (node : Node w) : ShmZone w where
  sh := ngx.rbtreeDelete z.sh node
  shpool := slabFreeLocked z.shpool node.block

/-- `ngx_keyval_shm_get_data`, on a context and a segment that are not `NULL`.  `palloc` is whether
`ngx_pnalloc` finds room for the copy of the value. -/
def shmGetData (z : ShmZone w) (key : Bytes) (now : BitVec w) (palloc : Bool) :
    GetResult × ShmZone w :=
  match rbtreeLookup ngx key (ngx.crc32Short key) z.sh with
  | none => (.declined, z)
  | some node =>
    if expired now node.expiresAt then (.declined, removeNode ngx z node)
    else if palloc then (.ok node.valBytes, z)
    else (.error, z)

/-- The first half of a write: the entry of the key, if there is one, is removed and freed. -/
def removeEntry (z : ShmZone w) (key : Bytes) : ShmZone w :=
  match rbtreeLookup ngx key (ngx.crc32Short key) z.sh with
  | none => z
  | some node => removeNode ngx z node

/-- `ngx_keyval_shm_set_data`, on a context and a segment that are not `NULL`.  `alloc` is whether
`ngx_slab_alloc_locked` finds room for the node. -/
def shmSetData (z : ShmZone w) (ttl : BitVec w) (key val : Bytes) (now : BitVec w) (alloc : Bool) :
    Rc × ShmZone w :=
  -- the old entry goes first: its block is free by the time the new one is asked for
  let z := removeEntry ngx z key
  match slabAllocLocked z.shpool (nodeHeader w + key.length + val.length) alloc with
  | none => (.error, z)
  | some (block, shpool) =>
    let node : Node w :=
      { block, key := ngx.crc32Short key, len := key.length, size := key.length + val.length,
        expiresAt := deadline now ttl, data := key ++ val }
    (.ok, { sh := ngx.rbtreeInsert (rbtreeInsertValue ngx) z.sh node, shpool })

/-! ## The store operations -/

/-- A call of one of the two operations on a zone, with everything it reads from outside. -/
inductive ShmCall (w : Nat) where
  | get (key : Bytes) (now : BitVec w) (palloc : Bool)
  | set (ttl : BitVec w) (key val : Bytes) (now : BitVec w) (alloc : Bool)
  deriving DecidableEq, Repr

/-- What the call returned. -/
inductive ShmReply where
  | got (r : GetResult)
  | stored (rc : Rc)
  deriving DecidableEq, Repr

/-- One critical section. -/
def shmStep (z : ShmZone w) : ShmCall w → ShmReply × ShmZone w
  | .get key now palloc =>
    let r := shmGetData ngx z key now palloc
    (.got r.1, r.2)
  | .set ttl key val now alloc =>
    let r := shmSetData ngx z ttl key val now alloc
    (.stored r.1, r.2)

/-- Every allocation of the call succeeds. -/
def ShmCall.AllocOk : ShmCall w → Prop
  | .get _ _ palloc => palloc = true
  | .set _ _ _ _ alloc => alloc = true

end

end NgxKeyval
