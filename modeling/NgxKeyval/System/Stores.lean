import NgxKeyval.Module.Backends
import NgxKeyval.Shm.History
import NgxKeyval.System.Places

/-!
# How the stores keep the tables

While memory and the server work, and no deadline overflows, the values of a zone are its table.

* `ShmZone.Keeps` says that a segment keeps a table: the tree is in order, no deadline word has
  overflowed, and what it has bound is a copy of the table.
* `Kept` says that all tables are kept where they belong.
* `storeGet_kept` and `storeSet_kept` — through the record of a zone, either operation does to the
  tables what it is for.
* `tables_sound` — so the tables are an account of nginx.
-/

set_option autoImplicit false

namespace NgxKeyval

/-! ## A segment -/

/-- The bindings of a map, with the deadlines that their words stand for. -/
def KvMap.timed (m : KvMap 64) : Timed.Map Bytes Bytes :=
  fun key ↦ (m key).map fun b ↦ (b.1, deadlineOf b.2)

theorem KvMap.timed_update (m : KvMap 64) (key : Bytes) (b : Option (Bytes × BitVec 64)) :
    KvMap.timed (Function.update m key b) =
      Function.update m.timed key (b.map fun b ↦ (b.1, deadlineOf b.2)) := by
  funext k
  by_cases hk : k = key
  · subst hk
    simp only [KvMap.timed, Function.update_self]
  · simp only [KvMap.timed, Function.update_of_ne hk]

theorem KvMap.timed_of_eq_some {m : KvMap 64} {key val : Bytes} {d : BitVec 64}
    (h : m key = some (val, d)) : m.timed key = some (val, deadlineOf d) := by
  rw [KvMap.timed, h, Option.map_some]

/-- A segment keeps a table. -/
structure ShmZone.Keeps (core : NgxCore 64) (z : ShmZone 64) (now : Nat)
    (table : Timed.Map Bytes Bytes) : Prop where
  wf : z.WF core
  small : ∀ key val d, content z key = some (val, d) → d.toNat < 2 ^ 63
  copy : Timed.Copy now (content z).timed table

section

variable {core : NgxCore 64} {z z' : ShmZone 64} {now now' : Nat}
  {table : Timed.Map Bytes Bytes} {key val : Bytes}

theorem ShmZone.Keeps.mono (h : z.Keeps core now table) (hle : now ≤ now') :
    z.Keeps core now' table := ⟨h.wf, h.small, h.copy.mono hle⟩

/-- **Reading** the map of a segment answers like the table. -/
theorem ShmZone.Keeps.get_eq (h : z.Keeps core now table) (hnow : now < 2 ^ 62) (key val : Bytes) :
    ((content z).get key (BitVec.ofNat 64 now)).1 = .ok val ↔
      Timed.get table now key = some val := by
  rw [KvMap.get_eq_ok_iff, ← h.copy.get_eq]
  rcases hz : content z key with _ | ⟨val', d⟩
  · rw [Timed.get_of_eq_none (by rw [KvMap.timed, hz]; rfl)]
    exact iff_of_false (fun ⟨_, h, _⟩ ↦ nomatch h) (fun h ↦ nomatch h)
  · rw [Timed.get_of_eq_some (KvMap.timed_of_eq_some hz)]
    have hiff := live_iff hnow (h.small key val' d hz)
    by_cases hlive : KvMap.Live (BitVec.ofNat 64 now) d
    · rw [if_pos (hiff.mp hlive)]
      exact ⟨fun ⟨_, heq, _⟩ ↦ congrArg some (Prod.mk.inj (Option.some.inj heq)).1,
        fun heq ↦ ⟨d, by rw [Option.some.inj heq], hlive⟩⟩
    · rw [if_neg fun hlt ↦ hlive (hiff.mpr hlt)]
      refine iff_of_false (fun ⟨_, heq, hlive'⟩ ↦ hlive ?_) (fun h ↦ nomatch h)
      exact (Prod.mk.inj (Option.some.inj heq)).2 ▸ hlive'

/-- A segment keeps a table after it has lost a binding that is too late. -/
theorem ShmZone.Keeps.get (h : z.Keeps core now table) (hnow : now < 2 ^ 62)
    (hwf : z'.WF core) (hz' : content z' = ((content z).get key (BitVec.ofNat 64 now)).2) :
    z'.Keeps core now table := by
  rw [KvMap.get] at hz'
  rcases hz : content z key with _ | ⟨val, d⟩
  · rw [hz] at hz'
    exact ⟨hwf, hz' ▸ h.small, hz' ▸ h.copy⟩
  · simp only [hz] at hz'
    have hsmall := h.small key val d hz
    by_cases hlive : KvMap.Live (BitVec.ofNat 64 now) d
    · rw [if_pos hlive] at hz'
      exact ⟨hwf, hz' ▸ h.small, hz' ▸ h.copy⟩
    · rw [if_neg hlive] at hz'
      dsimp only at hz'
      refine ⟨hwf, fun k v e hk ↦ ?_, ?_⟩
      · rw [hz'] at hk
        by_cases hkey : k = key
        · rw [hkey, Function.update_self] at hk
          contradiction
        · rw [Function.update_of_ne hkey] at hk
          exact h.small k v e hk
      · rw [hz', KvMap.timed_update]
        refine h.copy.drop (KvMap.timed_of_eq_some hz) ?_
        rwa [← live_iff hnow hsmall]

/-- **Writing** binds the key in the table. -/
theorem ShmZone.Keeps.set (h : z.Keeps core now table) {d : BitVec 64} (hd : d.toNat < 2 ^ 63)
    (hwf : z'.WF core) (hz' : content z' = Function.update (content z) key (some (val, d))) :
    z'.Keeps core now (Function.update table key (some (val, deadlineOf d))) := by
  refine ⟨hwf, fun k v e hk ↦ ?_, ?_⟩
  · rw [hz'] at hk
    by_cases hkey : k = key
    · rw [hkey, Function.update_self] at hk
      exact (Prod.mk.inj (Option.some.inj hk)).2 ▸ hd
    · rw [Function.update_of_ne hkey] at hk
      exact h.small k v e hk
  · rw [hz', KvMap.timed_update]
    exact h.copy.set key _

end

/-! ## All tables -/

/-- The tables are kept where they belong. -/
structure Kept (core : NgxCore 64) (place : Bytes → Option (Place Int)) (shm : Nat → ShmZone 64)
    (data : Int → Bytes → Option (Bytes × Option Nat)) (t : ZoneTables) : Prop where
  shm : ∀ name seg, place name = some (.shm seg) →
    (shm seg).Keeps core (t.now .shm) (t.table name)
  redis : ∀ name db, place name = some (.redis db) →
    ∀ key, data db (redisKey name key) = t.table name key

/-- The clock does not run backwards, and does not overflow. -/
def Advances (now now' : Nat) : Prop := now ≤ now' ∧ now' < 2 ^ 62

/-- The tables, as an account of nginx, while memory does not run out and the clock advances. -/
def tables (core : NgxCore 64) (place : Bytes → Option (Place Int)) :
    Account Server ZoneTables where
  after := ZoneTables.after
  sees := ZoneTables.Sees
  shared shm server t := Kept core place shm server.data t ∧ server.now = t.now .redis
  own env pool := Linked env.redisConf pool
  clock now t := now = t.now .shm ∧ now < 2 ^ 62
  alloc a := a = .enough
  forward := Advances

/-- A request sees the server as it is now, over connections that have selected what they had. -/
def serverSharing : Sharing Server where
  seenBy server old := { server with selected := old.selected }
  tick := Server.tick

/-- What the requests of a module find: nginx core, a server that works, and for each variable the
record of a zone that is kept at its place, with a `ttl` that does not overflow. -/
structure RequestEnv.Deployed (env : RequestEnv 64 Server) (core : NgxCore 64)
    (place : Bytes → Option (Place Int)) : Prop where
  ngx : env.store.ngx = core
  hiredis : env.store.hiredis = serverHiredis
  placed : ∀ q, env.Uses q → env.store.Placed RedisConf.database place q
  ttl : ∀ q, env.Uses q → (env.store.spec q).type = .shm → (env.store.spec q).ttl * 1000 < 2 ^ 62

section

variable {core : NgxCore 64} {place : Bytes → Option (Place Int)} {env : StoreEnv 64 Server}
  {q : Ptr} {t : ZoneTables} {seg : Nat} {key val : Bytes} {s : StoreState 64 Server}

theorem Kept.update_shm {shm : Nat → ShmZone 64}
    {data : Int → Bytes → Option (Bytes × Option Nat)} {t' : ZoneTables}
    (h : Kept core place shm data t) (hapart : Apart place) {name : Bytes}
    (hplace : place name = some (.shm seg)) {z : ShmZone 64}
    (hz : z.Keeps core (t.now .shm) (t'.table name)) (hnow : t'.now = t.now)
    (hothers : ∀ name', name' ≠ name → t'.table name' = t.table name') :
    Kept core place (Function.update shm seg z) data t' where
  shm name' seg' hplace' := by
    rw [hnow]
    by_cases hseg : seg' = seg
    · subst hseg
      rw [Function.update_self, hapart.shm name' name seg' hplace' hplace]
      exact hz
    · rw [Function.update_of_ne hseg, hothers name' ?_]
      · exact h.shm name' seg' hplace'
      · rintro rfl
        exact hseg (Place.shm.inj (Option.some.inj (hplace'.symm.trans hplace)))
  redis name' db hplace' key := by
    rw [hothers name' ?_]
    · exact h.redis name' db hplace' key
    · rintro rfl
      have heq := Option.some.inj (hplace'.symm.trans hplace)
      contradiction

theorem Server.value_eq_get (server : Server) (db : Int) (key : Bytes) :
    server.value db key = Timed.get (server.data db) server.now key := by
  rw [Server.value]
  rcases hdata : server.data db key with _ | ⟨val, _ | deadline⟩
  · exact (Timed.get_of_eq_none hdata).symm
  · simp only [Timed.get, hdata]
  · simp only [Timed.get, hdata]

theorem RedisConf.deadline_eq {conf : RedisConf} (h : 0 ≤ conf.ttl) (name : Bytes)
    (type : ZoneType) (now : Nat) :
    conf.deadline now = ZoneSpec.deadline ⟨name, type, conf.ttl.toNat⟩ now := by
  rw [RedisConf.deadline, ZoneSpec.deadline]
  by_cases hzero : conf.ttl = 0
  · rw [if_pos hzero, hzero]
    rfl
  · rw [if_neg hzero, if_neg (by dsimp only; omega)]

theorem deadlineOf_spec {now ttl : Nat} (hnow : now < 2 ^ 62) (httl : ttl * 1000 < 2 ^ 62)
    (name : Bytes) (type : ZoneType) :
    deadlineOf (NgxKeyval.deadline (BitVec.ofNat 64 now) (BitVec.ofInt 64 ttl)) =
        ZoneSpec.deadline ⟨name, type, ttl⟩ now ∧
      (NgxKeyval.deadline (BitVec.ofNat 64 now) (BitVec.ofInt 64 ttl)).toNat < 2 ^ 63 := by
  have hconf : ({ redisDefault with ttl := ttl } : RedisConf).ttl = ttl := rfl
  obtain ⟨hdeadline, hsmall⟩ := deadlineOf_deadline hnow httl hconf
  rw [RedisConf.deadline_eq (Int.natCast_nonneg ttl) name type] at hdeadline
  exact ⟨hdeadline, hsmall⟩

/-- A write to a database binds one key of one table. -/
theorem Kept.update_data {shm : Nat → ShmZone 64}
    {data data' : Int → Bytes → Option (Bytes × Option Nat)} {t' : ZoneTables}
    (h : Kept core place shm data t) (hapart : Apart place) {name : Bytes} {db : Int}
    (hplace : place name = some (.redis db)) {b : Bytes × Option Nat}
    (hdata : ∀ db' key', data' db' key' =
      if db' = db ∧ key' = redisKey name key then some b else data db' key')
    (hnow : t'.now = t.now)
    (htable : t'.table = Function.update t.table name
      (Function.update (t.table name) key (some b))) : Kept core place shm data' t' where
  shm name' seg hplace' := by
    rw [hnow, htable, Function.update_of_ne ?_]
    · exact h.shm name' seg hplace'
    · rintro rfl
      have heq := Option.some.inj (hplace'.symm.trans hplace)
      contradiction
  redis name' db' hplace' key' := by
    rw [hdata, htable]
    by_cases hname : name' = name
    · subst hname
      obtain rfl : db' = db := Place.redis.inj (Option.some.inj (hplace'.symm.trans hplace))
      rw [Function.update_self]
      by_cases hkey : key' = key
      · subst hkey
        rw [Function.update_self, if_pos ⟨rfl, rfl⟩]
      · rw [Function.update_of_ne hkey,
          if_neg fun hc ↦ hkey (Separator.join_left_inj.mp hc.2)]
        exact h.redis name' db' hplace' key'
    · rw [Function.update_of_ne hname, if_neg ?_]
      · exact h.redis name' db' hplace' key'
      · rintro ⟨rfl, hkey⟩
        exact hname ((hapart.redis db').join_inj hplace' hplace hkey).1

/-- **A read of the store** finds what the table has, and leaves the tables as they are. -/
theorem storeGet_kept (hlaw : core.Lawful) (hngx : env.ngx = core)
    (hhiredis : env.hiredis = serverHiredis) (hapart : Apart place)
    (hq : env.Placed RedisConf.database place q) (hnow : t.now .shm < 2 ^ 62)
    (h : (tables core place).Kept env s t) (key : Bytes) :
    let r := storeGet env (some q) key (BitVec.ofNat 64 (t.now .shm)) .enough s
    (∀ val, r.1 = .ok val ↔ t.get (env.spec q) key = some val) ∧
      (tables core place).Kept env r.2 t := by
  subst hngx
  obtain ⟨hkept, hclock⟩ := h.shared
  rcases hq with ⟨seg, ttl, hplace, hat⟩ | ⟨hplace, hstore, -⟩
  · have hkeeps := hkept.shm _ seg hplace
    obtain ⟨hwf, hcontent, hresult⟩ := shmGetData_spec hlaw hkeeps.wf key
      (BitVec.ofNat 64 (t.now .shm)) true
    rw [if_neg (by simp)] at hresult
    simp only [storeGet, hat.store, storeShmGet, shmGetContext, hat.shm, hat.ttl, Option.map_some,
      hat.spec]
    refine ⟨fun val ↦ ?_, ⟨?_, hclock⟩, h.own⟩
    · exact hresult ▸ hkeeps.get_eq hnow key val
    · exact hkept.update_shm hapart hplace (hkeeps.get hnow hwf hcontent) rfl fun _ _ ↦ rfl
  · obtain ⟨hresult, hlinked, hdata, hsame⟩ := storeStep_get_server hhiredis h.own hstore key
      (BitVec.ofNat 64 (t.now .shm))
    have hshm : (storeGet env (some q) key (BitVec.ofNat 64 (t.now .shm)) .enough s).2.shm =
        s.shm := by simp only [storeGet, hstore]
    refine ⟨fun val ↦ ?_, ⟨?_, hsame.trans hclock⟩, hlinked⟩
    · rw [Option.some.inj hresult, spec_of_redis hstore]
      have hvalue : s.pool.world.value (env.database q) (env.serverKey q key) =
          t.get ⟨(env.zones q).name, .redis, (env.zones q).redis.ttl.toNat⟩ key := by
        rw [Server.value_eq_get, ZoneTables.get, ← hclock]
        exact congrArg (Timed.get · _ _) (funext fun k ↦ hkept.redis _ _ hplace k)
      rw [hvalue]
      rcases t.get _ key with _ | val'
      · simp only [reduceCtorEq]
      · simp only [GetResult.ok.injEq, Option.some.injEq]
    · rw [hshm]
      exact ⟨hkept.shm, fun name db hname k ↦ hdata ▸ hkept.redis name db hname k⟩

/-- **A write of the store** binds the key in the table. -/
theorem storeSet_kept (hlaw : core.Lawful) (hngx : env.ngx = core)
    (hhiredis : env.hiredis = serverHiredis) (hapart : Apart place)
    (hq : env.Placed RedisConf.database place q)
    (httl : (env.spec q).type = .shm → (env.spec q).ttl * 1000 < 2 ^ 62)
    (hnow : t.now .shm < 2 ^ 62) (h : (tables core place).Kept env s t) (key val : Bytes) :
    (tables core place).Kept env
      (storeSet env (some q) key val (BitVec.ofNat 64 (t.now .shm)) .enough s)
      (t.set (env.spec q) key val) := by
  subst hngx
  obtain ⟨hkept, hclock⟩ := h.shared
  rcases hq with ⟨seg, ttl, hplace, hat⟩ | ⟨hplace, hstore, hnonneg⟩
  · rw [hat.spec] at httl ⊢
    have hkeeps := hkept.shm _ seg hplace
    obtain ⟨hwf, -, hcontent⟩ := shmSetData_spec hlaw hkeeps.wf (BitVec.ofInt 64 ttl) key val
      (BitVec.ofNat 64 (t.now .shm)) true
    obtain ⟨hdeadline, hsmall⟩ := deadlineOf_spec hnow (httl rfl) (env.zones q).name .shm
    simp only [storeSet, hat.store, storeShmSet, shmGetContext, hat.shm, hat.ttl, Option.map_some]
    refine ⟨⟨hkept.update_shm hapart hplace ?_ rfl fun name' hname' ↦
      Function.update_of_ne hname' .., hclock⟩, h.own⟩
    have hset := hkeeps.set hsmall hwf hcontent
    rw [hdeadline] at hset
    rw [ZoneTables.table_set_self]
    exact hset
  · obtain ⟨-, hlinked, hdata, hsame⟩ := storeStep_set_server hhiredis h.own hstore hnonneg key
      val (BitVec.ofNat 64 (t.now .shm))
    have hshm : (storeSet env (some q) key val (BitVec.ofNat 64 (t.now .shm)) .enough s).shm =
        s.shm := by simp only [storeSet, hstore]
    rw [spec_of_redis hstore]
    refine ⟨⟨?_, hsame.trans hclock⟩, hlinked⟩
    rw [hshm]
    refine hkept.update_data hapart hplace (fun db' key' ↦ ?_) rfl rfl
    have hdata' : (storeSet env (some q) key val (BitVec.ofNat 64 (t.now .shm))
        .enough s).pool.world.data = _ := hdata
    rw [hdata', Server.data_store, hclock,
      RedisConf.deadline_eq hnonneg (env.zones q).name .redis]
    rfl

theorem storeSetRc_kept (hlaw : core.Lawful) (hngx : env.ngx = core)
    (hhiredis : env.hiredis = serverHiredis) (hq : env.Placed RedisConf.database place q)
    (h : (tables core place).Kept env s t) (key val : Bytes) (now : BitVec 64) :
    storeSetRc env q key val now .enough s = .ok := by
  subst hngx
  rcases hq with ⟨seg, ttl, hplace, hat⟩ | ⟨-, hstore, hnonneg⟩
  · simp only [storeSetRc, hat.store, shmGetContext, hat.shm, hat.ttl, Option.map_some]
    exact (shmSetData_spec hlaw (h.shared.1.shm _ seg hplace).wf _ key val now true).2.1
  · obtain ⟨c, selected, -, hreply, -⟩ := redisAccess_server h.own q
      (setCommand (env.zones q).redis (env.zones q).name key val)
      (StoreCall.carriesData_command (env.zones q) (.set (some q) key val now .enough))
    rw [StoreEnv.redisConf] at hreply
    rw [storeSetRc_redis hstore, hhiredis, hreply, setCommand]
    split
    · rfl
    · rw [Server.command, if_pos (by omega)]
      rfl

/-- What the get handler makes of a result is the value that was found, up to the length a variable
can have. -/
theorem value?_ofResult {r : GetResult} {b : Option Bytes} (h : ∀ val, r = .ok val ↔ b = some val) :
    (VariableValue.ofResult r).value? = b.map lenBits := by
  rcases b with _ | val
  · rcases r with val | _ | _
    · exact nomatch (h val).mp rfl
    · rfl
    · rfl
  · rw [(h val).mpr rfl]
    rfl

theorem Linked.resume {conf : Ptr → RedisConf} {pool : Pool Server} (h : Linked conf pool)
    (server : Server) : Linked conf (pool.resume serverSharing server) :=
  ⟨⟨h.sane.fresh, h.sane.cleanup_lt, h.sane.redis_lt, h.sane.zone_inj, h.sane.redis_inj⟩, h.inOrder⟩

end

/-! ## The account -/

/-- **The tables are a true account**, of requests that find deployed zones. -/
theorem tables_sound {core : NgxCore 64} {place : Bytes → Option (Place Int)}
    {envs : Tag → RequestEnv 64 Server} (hlaw : core.Lawful) (hapart : Apart place)
    (hdep : ∀ tag, (envs tag).Deployed core place) :
    (tables core place).Sound serverSharing envs where
  get tag q hq key now a s t hclock halloc h := by
    obtain ⟨rfl, hsmall⟩ := hclock
    obtain rfl : a = .enough := halloc
    obtain ⟨hvalue, hkept⟩ := storeGet_kept hlaw (hdep tag).ngx (hdep tag).hiredis hapart
      ((hdep tag).placed q hq) hsmall h key
    exact ⟨hkept, value?_ofResult hvalue⟩
  set tag q hq key val now a s t hclock halloc h := by
    obtain ⟨rfl, hsmall⟩ := hclock
    obtain rfl : a = .enough := halloc
    exact storeSet_kept hlaw (hdep tag).ngx (hdep tag).hiredis hapart ((hdep tag).placed q hq)
      ((hdep tag).ttl q hq) hsmall h key val
  miss _ := rfl
  sees_write _ _ _ _ := trivial
  sees_clock _ _ _ := trivial
  after_read _ _ _ _ _ _ hshared hclock := ⟨hshared, hclock⟩
  after_miss _ _ _ _ hshared := hshared
  clock_write t entry val rc now hclock := by
    show now = (t.after (.write entry val rc)).now .shm ∧ now < 2 ^ 62
    rw [ZoneTables.now_after_write]
    exact hclock
  new _ _ := linked_new _ _
  resume _ _ _ h := h.resume _
  seenBy _ _ _ _ h := h
  finish tag pool shm server t h := by
    rw [(hdep tag).hiredis, world_destroyPool]
    exact h
  clock_shm t shm server now now' hshared hclock hforward := by
    obtain ⟨hkept, hserver⟩ := hshared
    obtain ⟨rfl, -⟩ := hclock
    refine ⟨⟨⟨fun name seg hplace ↦ ?_, hkept.redis⟩, hserver⟩, (t.now_tick_self .shm now').symm,
      hforward.2⟩
    show (shm seg).Keeps core ((t.tick .shm now').now .shm) (t.table name)
    rw [ZoneTables.now_tick_self]
    exact (hkept.shm name seg hplace).mono hforward.1
  clock_redis t shm server now now' hshared hclock :=
    ⟨⟨⟨hshared.1.shm, hshared.1.redis⟩, (t.now_tick_self .redis now').symm⟩, hclock⟩

end NgxKeyval
