import NgxKeyval.Conf.Served
import NgxKeyval.Module.Handlers
import NgxKeyval.Redis.Worker

/-!
# The two backends

A zone in shared memory and a zone on a Redis server keep deadlines in different ways.  The tree has
a word with the deadline, `0` for none, and an entry that is read too late is removed; the server
has two commands and forgets what is too late by itself.

* `zoneStep` is one write or read of a zone, as the variable handlers see it.
* `Mirrors` relates the two stores: what the tree has bound, the server has too, with the same
  deadline; what only the server still has is too late.
* `backends_equal` — the handlers see the same results.
-/

set_option autoImplicit false

namespace NgxKeyval

/-- An access of a zone, by the handlers of a variable whose key expands to `key`. -/
inductive ZoneAccess where
  | read (key : Bytes)
  | write (key val : Bytes)
  /-- The request is over and another one starts. -/
  | nextRequest
  deriving DecidableEq, Repr

/-- A variable of the zone at `p` whose key expands to `key`. -/
def keyVariable (p : Ptr) (key : Bytes) : Variable := ⟨[], key, [], some p⟩

/-- What the handlers read at this time, with memory that does not run out. -/
def RequestInput.at (now : Nat) : RequestInput 64 := ⟨BitVec.ofNat 64 now, true, true, .enough⟩

/-- The state at another time of the server. -/
def StoreState.tick (s : StoreState 64 Server) (now : Nat) : StoreState 64 Server :=
  { s with pool := s.pool.tick now }

/-- One access at a time: a read comes back with the value the get handler fills in. -/
def zoneStep (env : RequestEnv 64 Server) (p : Ptr) (s : StoreState 64 Server) :
    Nat × ZoneAccess → Option VariableValue × StoreState 64 Server
  | (now, .read key) =>
    let r := variableGetHandler env (getIndexedVariable env (.at now) 0) (.at now)
      (some (keyVariable p key)) 0 (.new (s.tick now))
    (some (r.slots 0), r.store)
  | (now, .write key val) =>
    let r := variableSetHandler env (getIndexedVariable env (.at now) 0) (.at now)
      (some (keyVariable p key)) ⟨lenBits val, true, false, false⟩ (.new (s.tick now))
    (none, r.store)
  | (now, .nextRequest) =>
    (none, { s with pool := (Pool.new (destroyPool env.store.hiredis s.pool).world).tick now })

section

variable {env : RequestEnv 64 Server} {p : Ptr} {s : StoreState 64 Server} {now : Nat}

theorem zoneStep_read (key : Bytes) :
    zoneStep env p s (now, .read key) =
      (some (.ofResult
          (storeGet env.store (some p) key (BitVec.ofNat 64 now) .enough (s.tick now)).1),
        (storeGet env.store (some p) key (BitVec.ofNat 64 now) .enough (s.tick now)).2) := by
  simp [zoneStep, variableGetHandler, variableInit, variableGetKey, keyVariable, RequestInput.at,
    Request.setSlot, Request.new]

theorem zoneStep_write (key val : Bytes) :
    zoneStep env p s (now, .write key val) =
      (none, storeSet env.store (some p) key (lenBits val) (BitVec.ofNat 64 now) .enough
        (s.tick now)) := by
  simp [zoneStep, variableSetHandler, variableInit, variableGetKey, keyVariable, RequestInput.at,
    Request.new]

end

/-! ## Deadlines -/

/-- The deadline a word stands for. -/
def deadlineOf (d : BitVec 64) : Option Nat := if d = 0 then none else some d.toNat

/-- A deadline that is small enough has not passed exactly when the clock is before it. -/
theorem live_iff {now : Nat} {d : BitVec 64} (hnow : now < 2 ^ 62) (hd : d.toNat < 2 ^ 63) :
    KvMap.Live (BitVec.ofNat 64 now) d ↔ ∀ n, deadlineOf d = some n → now < n := by
  rw [KvMap.Live, deadlineOf]
  by_cases hzero : d = 0
  · simp [hzero]
  · have hpos : d.toNat ≠ 0 := fun h ↦ hzero (BitVec.eq_of_toNat_eq h)
    rw [if_neg hzero]
    simp only [hzero, false_or, Option.some.injEq, forall_eq']
    rw [BitVec.toInt_eq_toNat_cond, BitVec.toNat_sub, BitVec.toNat_ofNat]
    omega

theorem deadlineOf_deadline {now ttl : Nat} (hnow : now < 2 ^ 62) (httl : ttl * 1000 < 2 ^ 62)
    {conf : RedisConf} (hconf : conf.ttl = ttl) :
    deadlineOf (deadline (BitVec.ofNat 64 now) (BitVec.ofInt 64 ttl)) = conf.deadline now ∧
      (deadline (BitVec.ofNat 64 now) (BitVec.ofInt 64 ttl)).toNat < 2 ^ 63 := by
  rw [BitVec.ofInt_natCast, RedisConf.deadline, hconf]
  by_cases hzero : ttl = 0
  · subst hzero
    exact ⟨rfl, Nat.two_pow_pos 63⟩
  · have hz : (0 : BitVec 64).toNat = 0 := rfl
    have hk : (1000 : BitVec 64).toNat = 1000 := rfl
    have hne : BitVec.ofNat 64 ttl ≠ 0 := by
      intro h
      have htoNat := congrArg BitVec.toNat h
      rw [BitVec.toNat_ofNat, hz] at htoNat
      omega
    have hsum : (deadline (BitVec.ofNat 64 now) (BitVec.ofNat 64 ttl)).toNat =
        now + 1000 * ttl := by
      rw [deadline, if_pos (by simpa using hne), BitVec.toNat_add, BitVec.toNat_mul,
        BitVec.toNat_ofNat, BitVec.toNat_ofNat, hk]
      omega
    have hdeadline : deadline (BitVec.ofNat 64 now) (BitVec.ofNat 64 ttl) ≠ 0 := by
      intro h
      rw [h, hz] at hsum
      omega
    rw [deadlineOf, if_neg hdeadline, hsum, if_neg (by omega), Int.toNat_natCast]
    exact ⟨rfl, by omega⟩

/-! ## The simulation -/

/-- The record at an address is that of a Redis zone with this `ttl`, and its server works. -/
structure StoreEnv.RedisAt (env : StoreEnv 64 Server) (q : Ptr) (ttl : Int) : Prop where
  hiredis : env.hiredis = serverHiredis
  store : (env.zones q).store = some .redis
  ttl : (env.zones q).redis.ttl = ttl

/-- The server has what the tree has bound, with the same deadline; what only the server has is too
late.  The time is the same. -/
structure Mirrors (env : StoreEnv 64 Server) (i : Nat) (q : Ptr) (s t : StoreState 64 Server) :
    Prop where
  wf : (s.shm i).WF env.ngx
  linked : Linked env.redisConf t.pool
  clock : t.pool.world.now = s.pool.world.now
  bound : ∀ key val d, content (s.shm i) key = some (val, d) → d.toNat < 2 ^ 63 ∧
    t.pool.world.data (env.database q) (env.serverKey q key) = some (val, deadlineOf d)
  late : ∀ key val deadline, content (s.shm i) key = none →
    t.pool.world.data (env.database q) (env.serverKey q key) = some (val, deadline) →
      ∃ n, deadline = some n ∧ n ≤ s.pool.world.now

section

variable {env : RequestEnv 64 Server} {i : Nat} {p q : Ptr} {s t : StoreState 64 Server}
  {now ttl : Nat}

theorem Mirrors.tick (h : Mirrors env.store i q s t) (hclock : s.pool.world.now ≤ now) :
    Mirrors env.store i q (s.tick now) (t.tick now) where
  wf := h.wf
  linked := h.linked.tick now
  clock := rfl
  bound := h.bound
  late key val deadline hnone hdata := by
    obtain ⟨n, hn, hle⟩ := h.late key val deadline hnone hdata
    exact ⟨n, hn, hle.trans hclock⟩

/-- **Both have the same value** for a key. -/
theorem Mirrors.value (h : Mirrors env.store i q s t) (hnow : s.pool.world.now < 2 ^ 62)
    (key : Bytes) :
    ((content (s.shm i)).get key (BitVec.ofNat 64 s.pool.world.now)).1 =
      match t.pool.world.value (env.store.database q) (env.store.serverKey q key) with
      | some val => .ok val
      | none => .declined := by
  rw [KvMap.get, Server.value, h.clock]
  rcases hcontent : content (s.shm i) key with _ | ⟨val, d⟩
  · rcases hdata : t.pool.world.data (env.store.database q) (env.store.serverKey q key) with
      _ | ⟨val, deadline⟩
    · rfl
    · obtain ⟨n, rfl, hle⟩ := h.late key val deadline hcontent hdata
      simp only
      rw [if_neg (by omega)]
  · obtain ⟨hd, hdata⟩ := h.bound key val d hcontent
    have hlive := live_iff hnow hd
    rw [hdata]
    rcases hdeadline : deadlineOf d with _ | n
    · rw [hdeadline] at hlive
      simp only
      rw [if_pos (hlive.mpr fun n hn ↦ by cases hn)]
    · rw [hdeadline] at hlive
      simp only
      by_cases hlt : s.pool.world.now < n
      · rw [if_pos hlt, if_pos (hlive.mpr fun m hm ↦ Option.some.inj hm ▸ hlt)]
      · rw [if_neg hlt, if_neg fun hl ↦ hlt (hlive.mp hl n rfl)]

/-- **Reading** keeps the relation: an entry that the tree loses is too late. -/
theorem Mirrors.get (h : Mirrors env.store i q s t) {s' t' : StoreState 64 Server} {key : Bytes}
    (hnow : s.pool.world.now < 2 ^ 62) (hwf : (s'.shm i).WF env.store.ngx)
    (hcontent : content (s'.shm i) =
      ((content (s.shm i)).get key (BitVec.ofNat 64 s.pool.world.now)).2)
    (hpool : s'.pool = s.pool) (hlinked : Linked env.store.redisConf t'.pool)
    (hdata : t'.pool.world.data = t.pool.world.data)
    (hclock : t'.pool.world.now = t.pool.world.now) : Mirrors env.store i q s' t' := by
  -- a binding is as before, or it is the one of `key` and too late
  have hcases : ∀ k, content (s'.shm i) k = content (s.shm i) k ∨
      content (s'.shm i) k = none ∧ ∃ val d, content (s.shm i) k = some (val, d) ∧
        ¬ KvMap.Live (BitVec.ofNat 64 s.pool.world.now) d := by
    intro k
    rw [hcontent, KvMap.get]
    rcases hkey : content (s.shm i) key with _ | ⟨val, d⟩
    · exact Or.inl rfl
    · simp only
      by_cases hlive : KvMap.Live (BitVec.ofNat 64 s.pool.world.now) d
      · rw [if_pos hlive]
        exact Or.inl rfl
      · rw [if_neg hlive]
        by_cases hk : k = key
        · subst hk
          exact Or.inr ⟨Function.update_self .., val, d, hkey, hlive⟩
        · exact Or.inl (Function.update_of_ne hk _ _)
  refine ⟨hwf, hlinked, by rw [hclock, hpool, h.clock], fun k val d hk ↦ ?_,
    fun k val deadline hk hk' ↦ ?_⟩
  · rw [hdata]
    rcases hcases k with heq | ⟨hnone, -⟩
    · exact h.bound k val d (heq ▸ hk)
    · rw [hnone] at hk
      cases hk
  · rw [hdata] at hk'
    rw [hpool]
    rcases hcases k with heq | ⟨-, val', d, hbound, hlive⟩
    · exact h.late k val deadline (heq ▸ hk) hk'
    · obtain ⟨hd, hserver⟩ := h.bound k val' d hbound
      obtain ⟨-, rfl⟩ := Prod.mk.inj (Option.some.inj (hk'.symm.trans hserver))
      rw [live_iff hnow hd] at hlive
      rcases hdeadline : deadlineOf d with _ | n
      · exact absurd (fun n hn ↦ by rw [hdeadline] at hn; cases hn) hlive
      · refine ⟨n, rfl, Nat.le_of_not_lt fun hlt ↦ hlive fun m hm ↦ ?_⟩
        rw [hdeadline] at hm
        exact Option.some.inj hm ▸ hlt

/-- **Writing** keeps the relation: both bind the key, with the same deadline. -/
theorem Mirrors.set (h : Mirrors env.store i q s t) {s' t' : StoreState 64 Server}
    {key val : Bytes} {d : BitVec 64} (hd : d.toNat < 2 ^ 63)
    (hwf : (s'.shm i).WF env.store.ngx)
    (hcontent : content (s'.shm i) = Function.update (content (s.shm i)) key (some (val, d)))
    (hpool : s'.pool = s.pool) (hlinked : Linked env.store.redisConf t'.pool)
    (hdata : t'.pool.world.data = (t.pool.world.store (env.store.database q)
      (env.store.serverKey q key) val (deadlineOf d)).data)
    (hclock : t'.pool.world.now = t.pool.world.now) : Mirrors env.store i q s' t' := by
  have hserver : ∀ k, t'.pool.world.data (env.store.database q) (env.store.serverKey q k) =
      if k = key then some (val, deadlineOf d)
      else t.pool.world.data (env.store.database q) (env.store.serverKey q k) := by
    intro k
    have hkey : env.store.serverKey q k = env.store.serverKey q key ↔ k = key := by
      simp [StoreEnv.serverKey, redisKey]
    rw [hdata, Server.data_store]
    simp only [hkey, true_and]
  refine ⟨hwf, hlinked, by rw [hclock, hpool, h.clock], fun k v e hk ↦ ?_, fun k v e hk hk' ↦ ?_⟩
  · rw [hcontent] at hk
    rw [hserver]
    by_cases hkey : k = key
    · rw [hkey, Function.update_self] at hk
      obtain ⟨rfl, rfl⟩ := Prod.mk.inj (Option.some.inj hk)
      rw [if_pos hkey]
      exact ⟨hd, rfl⟩
    · rw [Function.update_of_ne hkey] at hk
      rw [if_neg hkey]
      exact h.bound k v e hk
  · rw [hcontent] at hk
    rw [hserver] at hk'
    rw [hpool]
    by_cases hkey : k = key
    · rw [hkey, Function.update_self] at hk
      cases hk
    · rw [Function.update_of_ne hkey] at hk
      rw [if_neg hkey] at hk'
      exact h.late k v e hk hk'

/-- **One access**: the handlers see the same, and the relation is kept. -/
theorem zoneStep_mirrors (hlaw : env.store.ngx.Lawful) (hshm : env.store.ShmAt p i ttl)
    (hredis : env.store.RedisAt q ttl) (httl : ttl * 1000 < 2 ^ 62) (access : ZoneAccess)
    (h : Mirrors env.store i q s t) (hclock : s.pool.world.now ≤ now) (hnow : now < 2 ^ 62) :
    (zoneStep env p s (now, access)).1 = (zoneStep env q t (now, access)).1 ∧
      Mirrors env.store i q (zoneStep env p s (now, access)).2 (zoneStep env q t (now, access)).2 ∧
      (zoneStep env p s (now, access)).2.pool.world.now = now := by
  have htick := h.tick hclock
  rcases access with key | ⟨key, val⟩ | _
  · obtain ⟨hresult, hwf, hcontent, hpool⟩ :=
      storeGet_shm hlaw hshm htick.wf key (BitVec.ofNat 64 now)
    obtain ⟨hresult', hlinked, hdata, hclock'⟩ := storeStep_get_server hredis.hiredis htick.linked
      hredis.store key (BitVec.ofNat 64 now)
    rw [zoneStep_read, zoneStep_read]
    refine ⟨?_, htick.get hnow hwf hcontent hpool hlinked hdata hclock', by rw [hpool]; rfl⟩
    have hvalue := htick.value hnow key
    rw [show (s.tick now).pool.world.now = now from rfl] at hvalue
    rw [hresult, hvalue, Option.some.inj hresult']
    rcases (t.tick now).pool.world.value (env.store.database q) (env.store.serverKey q key) with
      _ | val <;> rfl
  · obtain ⟨hdeadline, hd⟩ := deadlineOf_deadline hnow httl hredis.ttl
    obtain ⟨hwf, hcontent, hpool⟩ :=
      storeSet_shm hlaw hshm htick.wf key (lenBits val) (BitVec.ofNat 64 now)
    obtain ⟨-, hlinked, hdata, hclock'⟩ := storeStep_set_server hredis.hiredis htick.linked
      hredis.store (by rw [hredis.ttl]; omega) key (lenBits val) (BitVec.ofNat 64 now)
    rw [zoneStep_write, zoneStep_write]
    refine ⟨rfl, htick.set hd hwf hcontent hpool hlinked (hdata.trans ?_) hclock',
      by rw [hpool]; rfl⟩
    rw [hdeadline]
    rfl
  · refine ⟨rfl, ?_, rfl⟩
    simp only [zoneStep, hredis.hiredis]
    have hworld := world_destroyPool t.pool
    refine ⟨h.wf, (linked_new _ _).tick now, rfl, fun key val d hkey ↦ ?_,
      fun key val deadline hkey hdata ↦ ?_⟩
    · simp only [Pool.new, Pool.tick, hworld]
      exact htick.bound key val d hkey
    · simp only [Pool.new, Pool.tick, hworld] at hdata
      exact htick.late key val deadline hkey hdata

theorem outputs_mirrors (hlaw : env.store.ngx.Lawful) (hshm : env.store.ShmAt p i ttl)
    (hredis : env.store.RedisAt q ttl) (httl : ttl * 1000 < 2 ^ 62)
    {turns : List (Nat × ZoneAccess)}
    (h : Mirrors env.store i q s t)
    (hsorted : (s.pool.world.now :: turns.map Prod.fst).Pairwise (· ≤ ·))
    (hbound : ∀ turn ∈ turns, turn.1 < 2 ^ 62) :
    Machine.outputs (zoneStep env p) s turns = Machine.outputs (zoneStep env q) t turns := by
  induction turns generalizing s t with
  | nil => rfl
  | cons turn turns ih =>
    obtain ⟨now, access⟩ := turn
    obtain ⟨hfirst, hrest⟩ := List.pairwise_cons.mp hsorted
    obtain ⟨hout, hmirrors, hclock⟩ := zoneStep_mirrors hlaw hshm hredis httl access h
      (hfirst now List.mem_cons_self) (hbound _ List.mem_cons_self)
    rw [Machine.outputs_cons, Machine.outputs_cons, hout,
      ih hmirrors (by rw [hclock]; exact hrest) fun turn hturn ↦
        hbound turn (List.mem_cons_of_mem _ hturn)]

/-- Stores that hold nothing, with enough memory. -/
def newStore (pool : SlabPool) : StoreState 64 Server := ⟨fun _ ↦ ⟨.leaf, pool⟩, .new .empty⟩

/-- **The backends are the same to the handlers.**  A zone in shared memory and a Redis zone with
the same `ttl`, both empty at first: however their keys are written and read, in however many
requests, at times that do not decrease and are small enough not to overflow, the get handler fills
in the same values. -/
theorem backends_equal (hlaw : env.store.ngx.Lawful) (hshm : env.store.ShmAt p i ttl)
    (hredis : env.store.RedisAt q ttl) (httl : ttl * 1000 < 2 ^ 62) (pool : SlabPool)
    {turns : List (Nat × ZoneAccess)} (hsorted : (turns.map Prod.fst).Pairwise (· ≤ ·))
    (hbound : ∀ turn ∈ turns, turn.1 < 2 ^ 62) :
    Machine.outputs (zoneStep env p) (newStore pool) turns =
      Machine.outputs (zoneStep env q) (newStore pool) turns := by
  refine outputs_mirrors hlaw hshm hredis httl ?_ ?_ hbound
  · exact ⟨wf_leaf pool, linked_new _ .empty, rfl, fun _ _ _ h ↦ (by cases h),
      fun _ _ _ _ h ↦ (by cases h)⟩
  · exact List.pairwise_cons.mpr ⟨fun _ _ ↦ Nat.zero_le _, hsorted⟩

end

/-- A zone of each kind, with a `ttl` of a minute, and a variable of each. -/
def bothKinds : List (Tag × Directive) :=
  [(.http, .zone (lit "zone=a:65536") [lit "ttl=60"] (.plain .move)),
    (.http, .zoneRedis (lit "zone=b") [lit "ttl=60"] (.plain .move)),
    (.http, .keyval (plainKeyval "k" "$v" "zone=a" 0 .move)),
    (.http, .keyval (plainKeyval "k" "$u" "zone=b" 1 .move))]

/-- What its requests read. -/
def bothKindsEnv : RequestEnv 64 Server where
  store := (readConf plainConf (.init []) bothKinds).env .http (plainCore 64) serverHiredis
  indexed _ := .other none

/-- The Redis zone on a run past the deadline, read off the run of the other zone. -/
theorem backends_equal_bothKinds :
    Accepted plainConf (.init []) bothKinds ∧
      Machine.outputs (zoneStep bothKindsEnv ⟨1, 1⟩) (newStore ⟨[], 0, []⟩)
        [(5, .write (lit "k") [7]), (60004, .read (lit "k")), (60004, .nextRequest),
          (60005, .read (lit "k"))] =
        [none, some (.ofResult (.ok [7])), none, some (.ofResult .declined)] := by
  refine ⟨⟨by decide, by decide, by decide, by decide, trivial⟩, ?_⟩
  have hshm : bothKindsEnv.store.ShmAt ⟨1, 0⟩ 0 (60 : Nat) := ⟨by decide, by decide, by decide⟩
  have hredis : bothKindsEnv.store.RedisAt ⟨1, 1⟩ (60 : Nat) := ⟨rfl, by decide, by decide⟩
  rw [← backends_equal (plainCore_lawful 64) hshm hredis (by decide) ⟨[], 0, []⟩ (by decide)
    (by decide)]
  decide

end NgxKeyval
