import Mathlib.Algebra.Group.Int.Defs
import Mathlib.Algebra.Group.Nat.Defs
import Mathlib.Logic.Function.Basic
import NgxKeyval.Conf.Defs

/-!
# The Redis store

`ngx_keyval_store_redis.c`, and the part of `ngx_keyval_store.c` that calls it.  A request talks to
the server of a zone over one connection, kept in a context (`RedisCtx`) that is registered as a
cleanup of the request's pool and found again by the address of the zone record.

* `storeRedisGetCtx` finds or registers the context of a zone.
* `redisGetContext` opens its connection, in stages, if there is none.
* `redisGetData` and `redisSetData` send one command each over it.

The client library is a parameter: `Hiredis` is a choice of what each of its calls does to the rest
of the world and answers.  Every call of it is recorded, in order, in the `trace` of the pool.

`Pool` is the memory of one request.  Contexts, connections and replies are named by their
addresses, all taken from one supply.
-/

set_option autoImplicit false

namespace NgxKeyval

/-! ## hiredis -/

/-- `redisReply`, by its `type`. -/
inductive Reply where
  /-- `REDIS_REPLY_STRING` -/
  | string (str : Bytes)
  /-- `REDIS_REPLY_ERROR` -/
  | error (str : Bytes)
  /-- `REDIS_REPLY_STATUS` -/
  | status (str : Bytes)
  /-- `REDIS_REPLY_NIL` -/
  | nil
  /-- Any other type. -/
  | other (type : Nat)
  deriving DecidableEq, Repr

/-- The commands the module formats, with their arguments. -/
inductive Command where
  /-- `SELECT %d` -/
  | select (db : Int)
  /-- `GET %b:%b` -/
  | get (key : Bytes)
  /-- `SET %b:%b %b` -/
  | set (key val : Bytes)
  /-- `SETEX %b:%b %ld %b` -/
  | setex (key : Bytes) (ttl : Int) (val : Bytes)
  deriving DecidableEq, Repr

/-- The client library, over a world `σ`.  Each call is told the address of the connection it is
about. -/
structure Hiredis (σ : Type) where
  /-- `redisConnectWithTimeout`: `none` is `NULL`, otherwise whether `err` is set. -/
  connect : σ → Nat → Option Bytes → Int → Int → Option Bool × σ
  /-- `redisSetTimeout`: whether it returns `REDIS_OK`. -/
  setTimeout : σ → Nat → Int → Bool × σ
  /-- `redisCommand`: the reply, `none` for `NULL`, and whether `err` is set afterwards. -/
  command : σ → Nat → Command → (Option Reply × Bool) × σ
  /-- `redisFree`. -/
  free : σ → Nat → σ

/-- What the store relies on: a command that yields no reply sets `err`. -/
structure Hiredis.Lawful {σ : Type} (hiredis : Hiredis σ) : Prop where
  err_of_null : ∀ world c cmd, (hiredis.command world c cmd).1.1 = none →
    (hiredis.command world c cmd).1.2 = true

/-- A call of the client library, with what it was given and what it answered. -/
inductive Event where
  /-- A connection for the context of `zone`; `none` is `NULL`. -/
  | connect (zone : Ptr) (c : Option Nat) (hostname : Option Bytes) (port timeout : Int)
      (err : Bool)
  | setTimeout (c : Nat) (timeout : Int) (ok : Bool)
  /-- A command, with the address of the reply and `err` afterwards. -/
  | command (c : Nat) (cmd : Command) (reply : Option (Nat × Reply)) (err : Bool)
  | free (c : Nat)
  | freeReply (r : Nat)
  deriving DecidableEq, Repr

/-- The value of an `int` made of the low 32 bits of a wider integer. -/
def cInt (n : Int) : Int := n.bmod (2 ^ 32)

/-! ## The pool of a request -/

/-- `ngx_keyval_redis_ctx_t`. -/
structure RedisCtx where
  zone : Ptr
  redis : Option Nat
  deriving DecidableEq, Repr

/-- The memory of a request that the Redis store uses, and the world the client library runs in. -/
structure Pool (σ : Type) where
  world : σ
  /-- The registered contexts, most recent first: the entries of `pool->cleanup` whose handler is
  `ngx_keyval_redis_cleanup_ctx`. -/
  cleanup : List Nat
  /-- The contexts, by address. -/
  ctx : Nat → RedisCtx
  /-- The `err` field of each connection. -/
  err : Nat → Bool
  /-- The next address. -/
  next : Nat
  /-- What the client library was asked, oldest first. -/
  trace : List Event

/-- The pool of a new request. -/
def Pool.new {σ : Type} (world : σ) : Pool σ where
  world := world
  cleanup := []
  ctx _ := ⟨⟨0, 0⟩, none⟩
  err _ := false
  next := 0
  trace := []

/-- What the allocators answer during an access. -/
structure AccessAlloc where
  /-- `ngx_pcalloc` of a context. -/
  ctx : Bool
  /-- `ngx_pool_cleanup_add`. -/
  cleanup : Bool
  /-- `ngx_pnalloc` of the copy of a value. -/
  value : Bool
  /-- `ngx_slab_alloc_locked` of a node. -/
  slab : Bool
  deriving DecidableEq, Repr

/-- All memory that is asked for is there. -/
def AccessAlloc.enough : AccessAlloc := ⟨true, true, true, true⟩

section

variable {σ : Type} (hiredis : Hiredis σ)

/-- Assign `ctx->redis`. -/
def Pool.setRedis (s : Pool σ) (a : Nat) (redis : Option Nat) : Pool σ :=
  { s with ctx := Function.update s.ctx a { s.ctx a with redis := redis } }

/-! ## The calls of the client library -/

/-- `redisConnectWithTimeout`. -/
def redisConnectWithTimeout (zone : Ptr) (hostname : Option Bytes) (port timeout : Int)
    (s : Pool σ) : Option Nat × Pool σ :=
  match hiredis.connect s.world s.next hostname port timeout with
  | (none, world) =>
    (none, { s with world, trace := s.trace ++ [.connect zone none hostname port timeout true] })
  | (some err, world) =>
    (some s.next,
      { s with world, err := Function.update s.err s.next err, next := s.next + 1,
               trace := s.trace ++ [.connect zone (some s.next) hostname port timeout err] })

/-- `redisSetTimeout`. -/
def redisSetTimeout (c : Nat) (timeout : Int) (s : Pool σ) : Bool × Pool σ :=
  match hiredis.setTimeout s.world c timeout with
  | (ok, world) => (ok, { s with world, trace := s.trace ++ [.setTimeout c timeout ok] })

/-- `redisCommand`. -/
def redisCommand (c : Nat) (cmd : Command) (s : Pool σ) : Option (Nat × Reply) × Pool σ :=
  match hiredis.command s.world c cmd with
  | ((none, err), world) =>
    (none, { s with world, err := Function.update s.err c err,
                    trace := s.trace ++ [.command c cmd none err] })
  | ((some reply, err), world) =>
    (some (s.next, reply),
      { s with world, err := Function.update s.err c err, next := s.next + 1,
               trace := s.trace ++ [.command c cmd (some (s.next, reply)) err] })

/-- `redisFree`. -/
def redisFree (c : Nat) (s : Pool σ) : Pool σ :=
  { s with world := hiredis.free s.world c, trace := s.trace ++ [.free c] }

/-- `freeReplyObject`. -/
def freeReplyObject (r : Nat) (s : Pool σ) : Pool σ := { s with trace := s.trace ++ [.freeReply r] }

/-! ## Contexts -/

/-- `redisFree(ctx->redis)` and `ctx->redis = NULL`. -/
def freeRedis (a c : Nat) (s : Pool σ) : Pool σ := (redisFree hiredis c s).setRedis a none

/-- `ngx_keyval_redis_cleanup_ctx`. -/
def redisCleanupCtx (a : Nat) (s : Pool σ) : Pool σ :=
  match (s.ctx a).redis with
  | none => s
  | some c => freeRedis hiredis a c s

/-- `ngx_destroy_pool`: each registered cleanup runs once, the most recent first. -/
def destroyPool (s : Pool σ) : Pool σ :=
  s.cleanup.foldl (fun s a ↦ redisCleanupCtx hiredis a s) s

/-- `ngx_keyval_store_redis_get_ctx`. -/
def storeRedisGetCtx (zone : Ptr) (o : AccessAlloc) (s : Pool σ) : Option Nat × Pool σ :=
  match s.cleanup.find? fun a ↦ decide ((s.ctx a).zone = zone) with
  | some a => (some a, s)
  | none =>
    if o.ctx then
      let a := s.next
      let s := { s with ctx := Function.update s.ctx a ⟨zone, none⟩, next := s.next + 1 }
      if o.cleanup then (some a, { s with cleanup := a :: s.cleanup }) else (none, s)
    else (none, s)

/-- The `SELECT` of `ngx_keyval_redis_get_context`, on a new connection. -/
def redisSelect (a c : Nat) (conf : RedisConf) (s : Pool σ) : Option Nat × Pool σ :=
  match redisCommand hiredis c (.select (cInt conf.db)) s with
  | (none, s) => (none, freeRedis hiredis a c s)
  | (some (r, .error _), s) => (none, freeRedis hiredis a c (freeReplyObject r s))
  | (some (r, _), s) => (some c, freeReplyObject r s)

/-- What `ngx_keyval_redis_get_context` does to a new connection: the command timeout is set, and
the database is selected if it is not the default one. -/
def redisPrepare (a c : Nat) (conf : RedisConf) (s : Pool σ) : Option Nat × Pool σ :=
  match redisSetTimeout hiredis c conf.commandTimeout s with
  | (false, s) => (none, freeRedis hiredis a c s)
  | (true, s) => if conf.db > 0 then redisSelect hiredis a c conf s else (some c, s)

/-- `ngx_keyval_redis_get_context`, for the context at address `a`. -/
def redisGetContext (a : Nat) (conf : RedisConf) (s : Pool σ) : Option Nat × Pool σ :=
  match (s.ctx a).redis with
  | some c => if s.err c then (none, s) else (some c, s)
  | none =>
    match redisConnectWithTimeout hiredis (s.ctx a).zone conf.hostname (cInt conf.port)
      conf.connectTimeout s with
    | (none, s) => (none, s)
    | (some c, s) =>
      let s := s.setRedis a (some c)
      if s.err c then (none, s) else redisPrepare hiredis a c conf s

/-! ## Reading and writing -/

/-- What `%b:%b` makes of a zone name and a key. -/
def redisKey (zone key : Bytes) : Bytes := zone ++ 58 :: key

/-- `ngx_keyval_redis_get_data`. -/
def redisGetData (c : Nat) (zone key : Bytes) (o : AccessAlloc) (s : Pool σ) :
    GetResult × Pool σ :=
  match redisCommand hiredis c (.get (redisKey zone key)) s with
  | (none, s) => (.error, s)
  | (some (r, reply), s) =>
    let rc : GetResult :=
      match reply with
      | .string str => if o.value then .ok str else .error
      | _ => .error
    (rc, freeReplyObject r s)

/-- The command of a write. -/
def setCommand (conf : RedisConf) (zone key val : Bytes) : Command :=
  if conf.ttl = 0 then .set (redisKey zone key) val else .setex (redisKey zone key) conf.ttl val

/-- `ngx_keyval_redis_set_data`. -/
def redisSetData (c : Nat) (conf : RedisConf) (zone key val : Bytes) (s : Pool σ) : Rc × Pool σ :=
  match redisCommand hiredis c (setCommand conf zone key val) s with
  | (none, s) => (.error, s)
  | (some (r, reply), s) =>
    let rc : Rc :=
      match reply with
      | .error _ => .error
      | _ => .ok
    (rc, freeReplyObject r s)

/-- `ngx_keyval_store_redis_get`, on the record `z` at address `zone`. -/
def storeRedisGet (zone : Ptr) (z : Zone) (key : Bytes) (o : AccessAlloc) (s : Pool σ) :
    GetResult × Pool σ :=
  match storeRedisGetCtx zone o s with
  | (none, s) => (.error, s)
  | (some a, s) =>
    match redisGetContext hiredis a z.redis s with
    | (none, s) => (.error, s)
    | (some c, s) => redisGetData hiredis c z.name key o s

/-- `ngx_keyval_store_redis_set`, on the record `z` at address `zone`. -/
def storeRedisSet (zone : Ptr) (z : Zone) (key val : Bytes) (o : AccessAlloc) (s : Pool σ) :
    Pool σ :=
  match storeRedisGetCtx zone o s with
  | (none, s) => s
  | (some a, s) =>
    match redisGetContext hiredis a z.redis s with
    | (none, s) => s
    | (some c, s) => (redisSetData hiredis c z.redis z.name key val s).2

end

end NgxKeyval
