import NgxKeyval.Redis.Store

/-!
# The store operations

`ngx_keyval_store.c`: reading and writing a key through the record of a zone.  The record says which
of the two stores it is, and where.

The records are read from memory (`zones`), the clock and the answers of the allocators are inputs,
and the state is what both stores act on: the trees in shared memory, by segment, and the pool of
the request.  `storeStep` makes a machine of the two operations.
-/

set_option autoImplicit false

namespace NgxKeyval

/-- What the store operations act on. -/
structure StoreState (w : Nat) (σ : Type) where
  /-- The tree and the slab pool of each shared memory segment. -/
  shm : Nat → ShmZone w
  /-- The pool of the request. -/
  pool : Pool σ

/-- What the store operations read and do not change. -/
structure StoreEnv (w : Nat) (σ : Type) where
  /-- nginx core. -/
  ngx : NgxCore w
  /-- The client library. -/
  hiredis : Hiredis σ
  /-- The registered segments. -/
  shared : Segments
  /-- The memory of the zone records. -/
  zones : Ptr → Zone

section

variable {w : Nat} {σ : Type} (env : StoreEnv w σ)

/-- `ngx_keyval_shm_get_context`: the segment and the `ttl` of its context. -/
def shmGetContext (shm : Option Nat) : Option (Nat × Int) :=
  match shm with
  | none => none
  | some i => (env.shared[i]?.bind ShmSegment.data).map fun ttl ↦ (i, ttl)

/-- `ngx_keyval_store_shm_get`. -/
def storeShmGet (z : Zone) (key : Bytes) (now : BitVec w) (o : AccessAlloc) (s : StoreState w σ) :
    GetResult × StoreState w σ :=
  match shmGetContext env z.shm with
  | none => (.error, s)
  | some (i, _) =>
    let r := shmGetData env.ngx (s.shm i) key now o.value
    (r.1, { s with shm := Function.update s.shm i r.2 })

/-- `ngx_keyval_store_shm_set`. -/
def storeShmSet (z : Zone) (key val : Bytes) (now : BitVec w) (o : AccessAlloc)
    (s : StoreState w σ) : StoreState w σ :=
  match shmGetContext env z.shm with
  | none => s
  | some (i, ttl) =>
    let r := shmSetData env.ngx (s.shm i) (BitVec.ofInt w ttl) key val now o.slab
    { s with shm := Function.update s.shm i r.2 }

/-- `ngx_keyval_store_get`. -/
def storeGet (zone : Option Ptr) (key : Bytes) (now : BitVec w) (o : AccessAlloc)
    (s : StoreState w σ) : GetResult × StoreState w σ :=
  match zone with
  | none => (.error, s)
  | some p =>
    match (env.zones p).store with
    | none => (.error, s)
    | some .shm => storeShmGet env (env.zones p) key now o s
    | some .redis =>
      let r := storeRedisGet env.hiredis p (env.zones p) key o s.pool
      (r.1, { s with pool := r.2 })

/-- `ngx_keyval_store_set`. -/
def storeSet (zone : Option Ptr) (key val : Bytes) (now : BitVec w) (o : AccessAlloc)
    (s : StoreState w σ) : StoreState w σ :=
  match zone with
  | none => s
  | some p =>
    match (env.zones p).store with
    | none => s
    | some .shm => storeShmSet env (env.zones p) key val now o s
    | some .redis => { s with pool := storeRedisSet env.hiredis p (env.zones p) key val o s.pool }

/-- A call of one of the two operations, with everything it reads from outside. -/
inductive StoreCall (w : Nat) where
  | get (zone : Option Ptr) (key : Bytes) (now : BitVec w) (o : AccessAlloc)
  | set (zone : Option Ptr) (key val : Bytes) (now : BitVec w) (o : AccessAlloc)
  deriving DecidableEq, Repr

/-- The zone record a call is about. -/
def StoreCall.zone : StoreCall w → Option Ptr
  | .get zone _ _ _ => zone
  | .set zone _ _ _ _ => zone

/-- One call.  A write returns nothing. -/
def storeStep (s : StoreState w σ) : StoreCall w → Option GetResult × StoreState w σ
  | .get zone key now o =>
    let r := storeGet env zone key now o s
    (some r.1, r.2)
  | .set zone key val now o => (none, storeSet env zone key val now o s)

end

end NgxKeyval
