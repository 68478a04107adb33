import NgxKeyval.Redis.Working

/-!
# A worker process

A worker serves one request after another, each of one of the two modules and with a pool of its
own, which is destroyed at the end; what is left is in shared memory and at the server.

`workerStep` makes a machine of this.  Its turns are the calls of the store operations, the end of a
request and the start of the next one, and the clock of the server.
-/

set_option autoImplicit false

namespace NgxKeyval

/-- A worker, with the module whose request it is serving. -/
structure Worker (w : Nat) where
  tag : Tag
  store : StoreState w Server

/-- What happens next. -/
inductive Turn (w : Nat) where
  /-- A call of a store operation. -/
  | call (call : StoreCall w)
  /-- The request is over, and one of this module follows. -/
  | request (tag : Tag)
  /-- The clock of the server. -/
  | clock (now : Nat)
  deriving DecidableEq, Repr

/-- The server at another time. -/
def Server.tick (s : Server) (now : Nat) : Server := { s with now := now }

/-- The pool, with the server at another time. -/
def Pool.tick (s : Pool Server) (now : Nat) : Pool Server := { s with world := s.world.tick now }

section

variable {w : Nat}

/-- One turn. -/
def workerStep (envs : Tag → StoreEnv w Server) (s : Worker w) :
    Turn w → Option GetResult × Worker w
  | .call call =>
    let r := storeStep (envs s.tag) s.store call
    (r.1, ⟨s.tag, r.2⟩)
  | .request tag =>
    let pool := destroyPool (envs s.tag).hiredis s.store.pool
    (none, ⟨tag, { s.store with pool := .new pool.world }⟩)
  | .clock now => (none, ⟨s.tag, { s.store with pool := s.store.pool.tick now }⟩)

theorem world_destroyPool (s : Pool Server) : (destroyPool serverHiredis s).world = s.world := by
  have hfold : ∀ (l : List Nat) (s : Pool Server),
      (l.foldl (fun s a ↦ redisCleanupCtx serverHiredis a s) s).world = s.world := by
    intro l
    induction l with
    | nil => exact fun _ ↦ rfl
    | cons a l ih =>
      intro s
      rw [List.foldl_cons, ih, redisCleanupCtx]
      split <;> rfl
  exact hfold s.cleanup s

variable {conf : Ptr → RedisConf} {s : Pool Server}

theorem Linked.tick (h : Linked conf s) (now : Nat) : Linked conf (s.tick now) :=
  ⟨⟨h.sane.fresh, h.sane.cleanup_lt, h.sane.redis_lt, h.sane.zone_inj, h.sane.redis_inj⟩, h.inOrder⟩

end

/-! ## Deadlines -/

/-- No deadline has passed. -/
def Server.Unexpired (s : Server) : Prop :=
  ∀ db key val deadline, s.data db key = some (val, some deadline) → s.now < deadline

section

variable {s s' : Server} {db : Int} {key val : Bytes}

/-- Then reading is looking up. -/
theorem Server.Unexpired.value_eq (h : s.Unexpired) (db : Int) (key : Bytes) :
    s.value db key = (s.data db key).map Prod.fst := by
  rw [Server.value]
  rcases hdata : s.data db key with _ | ⟨val, _ | deadline⟩
  · rfl
  · rfl
  · simp only [Option.map_some]
    rw [if_pos (h db key val deadline hdata)]

theorem RedisConf.lt_deadline {conf : RedisConf} {now d : Nat} (hvalid : 0 ≤ conf.ttl)
    (h : conf.deadline now = some d) : now < d := by
  rw [RedisConf.deadline] at h
  split at h
  · cases h
  · obtain rfl := Option.some.inj h
    omega

theorem Server.Unexpired.of_data (h : s.Unexpired) (hdata : s'.data = s.data)
    (hnow : s'.now = s.now) : s'.Unexpired := by
  intro db key val deadline
  rw [hdata, hnow]
  exact h db key val deadline

/-- What a write does to the bindings. -/
theorem Server.data_store (s : Server) (db : Int) (key val : Bytes) (deadline : Option Nat)
    (db' : Int) (key' : Bytes) :
    (s.store db key val deadline).data db' key' =
      if db' = db ∧ key' = key then some (val, deadline) else s.data db' key' := by
  by_cases hdb : db' = db
  · subst hdb
    by_cases hkey : key' = key
    · simp [Server.store, hkey]
    · simp [Server.store, hkey]
  · simp [Server.store, hdb]

theorem Server.Unexpired.store (h : s.Unexpired) {deadline : Option Nat}
    (hd : ∀ d, deadline = some d → s.now < d) : (s.store db key val deadline).Unexpired := by
  intro db' key' val' deadline' hdata
  rw [Server.data_store] at hdata
  split at hdata
  · obtain ⟨-, hd'⟩ := Prod.mk.inj (Option.some.inj hdata)
    exact hd deadline' hd'
  · exact h db' key' val' deadline' hdata

end

end NgxKeyval
