import NgxKeyval.Redis.Session

/-!
# A request while the server works

With `serverHiredis`, every connection that is opened stays in order, and has selected the database
of the zone it was opened for.  So a read or a write of a Redis zone is one operation on that
database of the server, whatever has been accessed before.

* `Linked` is the invariant.
* `redisAccess_server` says that an access sends its command to the database of its zone.
* `storeStep_get_server` and `storeStep_set_server` say what the two store operations do to the
  server.
-/

set_option autoImplicit false

namespace NgxKeyval

/-- The database the commands of a zone go to. -/
def RedisConf.database (conf : RedisConf) : Int := if conf.db > 0 then cInt conf.db else 0

/-- The deadline of a write. -/
def RedisConf.deadline (conf : RedisConf) (now : Nat) : Option Nat :=
  if conf.ttl = 0 then none else some (now + 1000 * conf.ttl.toNat)

/-- Every connection is in order, and has selected the database of its zone. -/
def InOrder (conf : Ptr → RedisConf) (s : Pool Server) : Prop :=
  ∀ a ∈ s.cleanup, ∀ c, (s.ctx a).redis = some c →
    s.err c = false ∧ s.world.selected c = (conf (s.ctx a).zone).database

/-- The invariant of a request while the server works. -/
structure Linked (conf : Ptr → RedisConf) (s : Pool Server) : Prop where
  sane : s.Sane
  inOrder : InOrder conf s

section

variable {conf : Ptr → RedisConf} {s : Pool Server} {a c : Nat} {zone : Ptr} {cmd : Command}

theorem linked_new (conf : Ptr → RedisConf) (server : Server) : Linked conf (Pool.new server) :=
  ⟨sane_new server, fun _ ha ↦ (by cases ha)⟩

/-! ## The library calls of an access -/

theorem redisGetContext_server (rc : RedisConf) (hnone : (s.ctx a).redis = none) :
    let r := redisGetContext serverHiredis a rc s
    r.1 = some s.next ∧ r.2.cleanup = s.cleanup ∧
      r.2.ctx = Function.update s.ctx a ⟨(s.ctx a).zone, some s.next⟩ ∧
      r.2.err = Function.update s.err s.next false ∧
      r.2.world =
        { s.world with selected := Function.update s.world.selected s.next rc.database } := by
  by_cases hdb : rc.db > 0
  · simp [redisGetContext, hnone, redisConnectWithTimeout, serverHiredis, Pool.setRedis,
      redisPrepare, redisSetTimeout, hdb, redisSelect, redisCommand, freeReplyObject,
      Server.command, RedisConf.database]
  · simp [redisGetContext, hnone, redisConnectWithTimeout, serverHiredis, Pool.setRedis,
      redisPrepare, redisSetTimeout, hdb, RedisConf.database]

theorem sendCommand_server :
    let r := sendCommand serverHiredis c cmd s
    r.1 = some (s.world.command c cmd).1 ∧ r.2.cleanup = s.cleanup ∧ r.2.ctx = s.ctx ∧
      r.2.err = Function.update s.err c false ∧ r.2.world = (s.world.command c cmd).2 := by
  simp [sendCommand, redisCommand, serverHiredis, freeReplyObject]

theorem Server.selected_command (server : Server) (hcmd : cmd.carriesData = true) :
    (server.command c cmd).2.selected = server.selected := by
  rcases cmd with db | key | ⟨key, val⟩ | ⟨key, ttl, val⟩
  · cases hcmd
  · simp only [Server.command]
    split <;> rfl
  · rfl
  · simp only [Server.command]
    split <;> rfl

/-! ## One access -/

/-- Once the context is there, its connection is in order, and no other one is disturbed. -/
theorem redisGetContext_inOrder (h : Linked conf s) (ha : a ∈ s.cleanup) :
    let r := redisGetContext serverHiredis a (conf (s.ctx a).zone) s
    ∃ c selected, r.1 = some c ∧ selected c = (conf (s.ctx a).zone).database ∧
      r.2.world = { s.world with selected } ∧ a ∈ r.2.cleanup ∧
      r.2.ctx a = ⟨(s.ctx a).zone, some c⟩ ∧ InOrder conf r.2 := by
  intro r
  rcases hredis : (s.ctx a).redis with _ | c
  · obtain ⟨hresult, hcleanup, hctx, herr, hworld⟩ :=
      redisGetContext_server (conf (s.ctx a).zone) hredis
    refine ⟨s.next, _, hresult, Function.update_self .., hworld, hcleanup ▸ ha, ?_, ?_⟩
    · rw [hctx, Function.update_self]
    · intro b hb d hd
      rw [hcleanup] at hb
      rw [herr, hworld]
      by_cases hba : b = a
      · subst hba
        rw [hctx, Function.update_self] at hd ⊢
        obtain rfl := Option.some.inj hd
        exact ⟨Function.update_self .., Function.update_self ..⟩
      · rw [hctx, Function.update_of_ne hba] at hd ⊢
        have hne : d ≠ s.next := Nat.ne_of_lt (h.sane.redis_lt b hb d hd)
        simp only [Function.update_of_ne hne]
        exact h.inOrder b hb d hd
  · obtain ⟨herr, hsel⟩ := h.inOrder a ha c hredis
    have hr : r = (some c, s) := by
      simp only [r, redisGetContext, hredis, herr]
      rfl
    rw [hr]
    exact ⟨c, s.world.selected, rfl, hsel, rfl, ha, by rw [← hredis], h.inOrder⟩

theorem storeRedisGetCtx_linked (h : Linked conf s) (zone : Ptr) :
    ∃ a s₁, storeRedisGetCtx zone .enough s = (some a, s₁) ∧ a ∈ s₁.cleanup ∧
      (s₁.ctx a).zone = zone ∧ s₁.world = s.world ∧ Linked conf s₁ := by
  rcases storeRedisGetCtx_cases zone .enough s with ⟨a, ha, hzone, heq⟩ | ⟨hno, -⟩
  · exact ⟨a, s, heq, ha, hzone, rfl, h⟩
  · have hreg : storeRedisGetCtx zone .enough s = (some s.next, s.register zone) := by
      have hfind : s.cleanup.find? (fun a ↦ decide ((s.ctx a).zone = zone)) = none :=
        List.find?_eq_none.mpr fun a ha ↦ by simpa using hno a ha
      simp only [storeRedisGetCtx, hfind]
      rfl
    refine ⟨s.next, s.register zone, hreg, List.mem_cons_self, ?_, rfl, h.sane.register hno, ?_⟩
    · rw [register_ctx_self]
    · intro b hb d hd
      rcases List.mem_cons.mp hb with rfl | hb
      · rw [register_ctx_self] at hd
        cases hd
      · rw [register_ctx_of_mem h.sane zone hb] at hd ⊢
        exact h.inOrder b hb d hd

theorem InOrder.sendCommand (h : InOrder conf s) (hcmd : cmd.carriesData = true) :
    InOrder conf (sendCommand serverHiredis c cmd s).2 := by
  obtain ⟨-, hcleanup, hctx, herr, hworld⟩ := @sendCommand_server s c cmd
  intro b hb d hd
  rw [hcleanup] at hb
  rw [hctx] at hd ⊢
  obtain ⟨herr', hsel⟩ := h b hb d hd
  refine ⟨?_, by rw [hworld, Server.selected_command _ hcmd, hsel]⟩
  rw [herr]
  by_cases hdc : d = c
  · rw [hdc, Function.update_self]
  · rw [Function.update_of_ne hdc, herr']

/-- **An access sends its command to the database of its zone**, and leaves a connection of the zone
behind. -/
theorem redisAccess_server (h : Linked conf s) (zone : Ptr) (cmd : Command)
    (hcmd : cmd.carriesData = true) :
    let r := redisAccess serverHiredis zone (conf zone) cmd .enough s
    ∃ c selected, selected c = (conf zone).database ∧
      r.1 = some (({ s.world with selected } : Server).command c cmd).1 ∧
      r.2.world = (({ s.world with selected } : Server).command c cmd).2 ∧
      Linked conf r.2 ∧ ∃ a ∈ r.2.cleanup, r.2.ctx a = ⟨zone, some c⟩ := by
  intro r
  obtain ⟨new, haccess⟩ := redisAccess_cases serverHiredis h.sane zone (conf zone) cmd .enough
  have hsane : r.2.Sane := haccess.sane h.sane
  obtain ⟨a, s₁, hget, ha, hzone, hworld₁, hlinked⟩ := storeRedisGetCtx_linked h zone
  obtain ⟨c, selected, hresult, hsel, hworld, ha₂, hctx, horder⟩ :=
    redisGetContext_inOrder hlinked ha
  rw [hzone] at hresult hsel hworld ha₂ hctx horder
  rcases hopen : redisGetContext serverHiredis a (conf zone) s₁ with ⟨c', s₂⟩
  rw [hopen] at hresult hworld ha₂ hctx horder
  obtain rfl : c' = some c := hresult
  have hr : r = sendCommand serverHiredis c cmd s₂ := by
    simp only [r, redisAccess, openRedis, hget, hopen]
  obtain ⟨hreply, hcleanup, hctx', -, hworld'⟩ := @sendCommand_server s₂ c cmd
  simp only [hworld₁] at hworld
  rw [hworld] at hreply hworld'
  rw [hr] at hsane ⊢
  exact ⟨c, selected, hsel, hreply, hworld', ⟨hsane, horder.sendCommand hcmd⟩, a, hcleanup ▸ ha₂,
    hctx' ▸ hctx⟩

end

/-! ## One call -/

section

variable {w : Nat} {σ : Type}

/-- The database of the zone at an address. -/
def StoreEnv.database (env : StoreEnv w σ) (q : Ptr) : Int := (env.zones q).redis.database

/-- The key the server knows a key of the zone at an address by. -/
def StoreEnv.serverKey (env : StoreEnv w σ) (q : Ptr) (key : Bytes) : Bytes :=
  redisKey (env.zones q).name key

variable {env : StoreEnv w Server} {s : StoreState w Server} {q : Ptr}

/-- A call on a Redis zone sends its command to the database of the zone. -/
theorem storeStep_server (henv : env.hiredis = serverHiredis) (h : Linked env.redisConf s.pool)
    (hstore : (env.zones q).store = some .redis) (call : StoreCall w) (hzone : call.zone = some q)
    (halloc : call.alloc = .enough) :
    let r := storeStep env s call
    ∃ c selected, selected c = env.database q ∧
      r.1 = call.result
        (some (({ s.pool.world with selected } : Server).command c
          (call.command (env.zones q))).1) ∧
      r.2.pool.world =
        (({ s.pool.world with selected } : Server).command c (call.command (env.zones q))).2 ∧
      Linked env.redisConf r.2.pool ∧ ∃ a ∈ r.2.pool.cleanup, r.2.pool.ctx a = ⟨q, some c⟩ := by
  obtain ⟨c, selected, hsel, hreply, hworld, hlinked, hctx⟩ :=
    redisAccess_server h q _ (StoreCall.carriesData_command (env.zones q) call)
  rw [storeStep_redis hzone hstore, henv, halloc]
  exact ⟨c, selected, hsel, congrArg (fun r ↦ StoreCall.result r call) hreply, hworld, hlinked,
    hctx⟩

/-- **A read asks the server**, and changes nothing there. -/
theorem storeStep_get_server (henv : env.hiredis = serverHiredis) (h : Linked env.redisConf s.pool)
    (hstore : (env.zones q).store = some .redis) (key : Bytes) (now : BitVec w) :
    let r := storeStep env s (.get (some q) key now .enough)
    r.1 = some (match s.pool.world.value (env.database q) (env.serverKey q key) with
        | some val => .ok val
        | none => .error) ∧
      Linked env.redisConf r.2.pool ∧ r.2.pool.world.data = s.pool.world.data ∧
      r.2.pool.world.now = s.pool.world.now := by
  intro r
  obtain ⟨c, selected, hsel, hresult, hworld, hlinked, -⟩ :=
    storeStep_server henv h hstore (.get (some q) key now .enough) rfl rfl
  have hvalue : ({ s.pool.world with selected } : Server).value (selected c)
      (env.serverKey q key) = s.pool.world.value (env.database q) (env.serverKey q key) := by
    rw [hsel]
    rfl
  simp only [StoreCall.command, Server.command] at hresult hworld
  rw [show redisKey (env.zones q).name key = env.serverKey q key from rfl, hvalue]
    at hresult hworld
  rcases hget : s.pool.world.value (env.database q) (env.serverKey q key) with _ | val
  · rw [hget] at hresult hworld
    exact ⟨hresult, hlinked, by rw [hworld], by rw [hworld]⟩
  · rw [hget] at hresult hworld
    exact ⟨hresult, hlinked, by rw [hworld], by rw [hworld]⟩

/-- **A write binds the key at the server**, for as long as the `ttl` of the zone says. -/
theorem storeStep_set_server (henv : env.hiredis = serverHiredis) (h : Linked env.redisConf s.pool)
    (hstore : (env.zones q).store = some .redis) (httl : 0 ≤ (env.zones q).redis.ttl)
    (key val : Bytes) (now : BitVec w) :
    let r := storeStep env s (.set (some q) key val now .enough)
    r.1 = none ∧ Linked env.redisConf r.2.pool ∧
      r.2.pool.world.data = (s.pool.world.store (env.database q) (env.serverKey q key) val
        ((env.zones q).redis.deadline s.pool.world.now)).data ∧
      r.2.pool.world.now = s.pool.world.now := by
  intro r
  obtain ⟨c, selected, hsel, hresult, hworld, hlinked, -⟩ :=
    storeStep_server henv h hstore (.set (some q) key val now .enough) rfl rfl
  refine ⟨hresult, hlinked, ?_, ?_⟩
  · rw [hworld, StoreCall.command, setCommand, ← hsel, RedisConf.deadline]
    by_cases hzero : (env.zones q).redis.ttl = 0
    · rw [if_pos hzero, if_pos hzero]
      rfl
    · rw [if_neg hzero, if_neg hzero, Server.command, if_pos (by omega)]
      rfl
  · rw [hworld, StoreCall.command, setCommand]
    by_cases hzero : (env.zones q).redis.ttl = 0
    · rw [if_pos hzero]
      rfl
    · rw [if_neg hzero, Server.command, if_pos (by omega)]
      rfl

end

end NgxKeyval
