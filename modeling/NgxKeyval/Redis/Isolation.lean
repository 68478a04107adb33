import NgxKeyval.Conf.Served
import NgxKeyval.Library.Separator
import NgxKeyval.Redis.Worker

/-!
# Redis zones that share a database

A database is flat: a key of a zone is known there by the name of the zone, a colon and the key, and
nothing is escaped.  Names are whatever stands behind `zone=`, so a name may contain colons.

* `tableStep` is what the zones are for: a table for each name.
* `Isolated` relates a worker and its server to the tables, and is kept by every turn if no name,
  with a colon behind it, begins another one.
* `redis_zones_isolated_iff` — the zones of a configuration behave like tables exactly then.
-/

set_option autoImplicit false

namespace NgxKeyval

/-! ## Tables -/

/-- A table for each zone name, and the module whose request is served. -/
structure Tables where
  tag : Tag
  table : Bytes → Bytes → Option Bytes

/-- One turn, for tables. -/
def tableStep {w : Nat} (envs : Tag → StoreEnv w Server) (t : Tables) :
    Turn w → Option GetResult × Tables
  | .call (.get zone key _ _) =>
    (some (match zone.bind fun q ↦ t.table ((envs t.tag).zones q).name key with
      | some val => .ok val
      | none => .error), t)
  | .call (.set zone key val _ _) =>
    match zone with
    | none => (none, t)
    | some q =>
      let name := ((envs t.tag).zones q).name
      (none, { t with table := Function.update t.table name
                                (Function.update (t.table name) key (some val)) })
  | .request tag => (none, { t with tag := tag })
  | .clock _ => (none, t)

/-! ## The simulation -/

/-- A record of a Redis zone, under one of these names, in this database. -/
structure Zone.Shares (z : Zone) (names : Bytes → Prop) (db : Int) : Prop where
  store : z.store = some .redis
  name : names z.name
  database : z.redis.database = db
  ttl : 0 ≤ z.redis.ttl

section

variable {w : Nat} {envs : Tag → StoreEnv w Server} {zones : Tag → Ptr → Prop}
  {names : Bytes → Prop} {db : Int} {s : Worker w} {t : Tables}

/-- A turn of a run in which only these zones are accessed, memory does not run out and no deadline
passes. -/
def Turn.Within (zones : Tag → Ptr → Prop) (s : Worker w) : Turn w → Prop
  | .call c => c.alloc = .enough ∧ ∃ q, c.zone = some q ∧ zones s.tag q
  | .request _ => True
  | .clock now => (s.store.pool.world.tick now).Unexpired

/-- The database holds the tables. -/
structure Isolated (envs : Tag → StoreEnv w Server) (names : Bytes → Prop) (db : Int) (s : Worker w)
    (t : Tables) : Prop where
  tag : t.tag = s.tag
  linked : Linked (envs s.tag).redisConf s.store.pool
  unexpired : s.store.pool.world.Unexpired
  table : ∀ name, names name → ∀ key,
    (s.store.pool.world.data db (redisKey name key)).map Prod.fst = t.table name key

/-- **Every turn keeps the tables**, and answers like them. -/
theorem workerStep_isolated (henvs : ∀ tag, (envs tag).hiredis = serverHiredis)
    (hzones : ∀ tag q, zones tag q → ((envs tag).zones q).Shares names db)
    (hfree : Separator.Free 58 names) (s : Worker w) (t : Tables) (turn : Turn w)
    (h : Isolated envs names db s t) (hturn : turn.Within zones s) :
    (workerStep envs s turn).1 = (tableStep envs t turn).1 ∧
      Isolated envs names db (workerStep envs s turn).2 (tableStep envs t turn).2 := by
  rcases turn with call | tag | now
  · obtain ⟨halloc, q, hzone, hq⟩ := hturn
    obtain ⟨hstore, hname, hdb, httl⟩ := hzones s.tag q hq
    rcases call with ⟨zone, key, now, o⟩ | ⟨zone, key, val, now, o⟩
    · obtain rfl : zone = some q := hzone
      obtain rfl : o = .enough := halloc
      obtain ⟨hresult, hlinked, hdata, hnow⟩ :=
        storeStep_get_server (henvs s.tag) h.linked hstore key now
      refine ⟨?_, h.tag, hlinked, h.unexpired.of_data hdata hnow, fun name hn k ↦ ?_⟩
      · rw [h.unexpired.value_eq, StoreEnv.database, hdb, StoreEnv.serverKey,
          h.table _ hname key] at hresult
        simp only [workerStep, tableStep, h.tag, Option.bind_some]
        exact hresult
      · exact (congrArg (Option.map Prod.fst) (congrFun (congrFun hdata db) _)).trans
          (h.table name hn k)
    · obtain rfl : zone = some q := hzone
      obtain rfl : o = .enough := halloc
      obtain ⟨hresult, hlinked, hdata, hnow⟩ :=
        storeStep_set_server (henvs s.tag) h.linked hstore httl key val now
      have hunexpired := (h.unexpired.store fun d hd ↦ RedisConf.lt_deadline httl hd).of_data
        hdata hnow
      refine ⟨hresult, h.tag, hlinked, hunexpired, fun name hn k ↦ ?_⟩
      simp only [workerStep, tableStep, h.tag]
      rw [hdata, Server.data_store, StoreEnv.database, hdb, StoreEnv.serverKey]
      by_cases hsame : redisKey name k = redisKey ((envs s.tag).zones q).name key
      · -- the same server key is the same name and the same key
        obtain ⟨hn', hk⟩ := hfree.join_inj hn hname hsame
        rw [if_pos ⟨rfl, hsame⟩, hn', hk, Function.update_self, Function.update_self]
        rfl
      · rw [if_neg fun hc ↦ hsame hc.2, h.table name hn k]
        by_cases hn' : name = ((envs s.tag).zones q).name
        · have hk : k ≠ key := fun hk ↦ hsame (by rw [hn', hk])
          rw [hn', Function.update_self, Function.update_of_ne hk]
        · rw [Function.update_of_ne hn']
  · refine ⟨rfl, rfl, linked_new _ _, ?_, ?_⟩
    · simp only [workerStep, Pool.new, henvs, world_destroyPool]
      exact h.unexpired
    · simp only [workerStep, Pool.new, henvs, world_destroyPool]
      exact h.table
  · exact ⟨rfl, h.tag, h.linked.tick now, hturn, h.table⟩

/-! ## A collision -/

/-- A write of one key, and then, in another request, a read of another one. -/
def writeThenRead (tag : Tag) (q₁ q₂ : Ptr) (k₁ k₂ val : Bytes) : List (Turn w) :=
  [.call (.set (some q₁) k₁ val 0 .enough), .request tag, .call (.get (some q₂) k₂ 0 .enough)]

variable {tag₁ tag₂ : Tag} {q₁ q₂ : Ptr} {k₁ k₂ : Bytes}

/-- If the server knows both keys by one name, the value that was written is read. -/
theorem outputs_collision (henvs : ∀ tag, (envs tag).hiredis = serverHiredis)
    (h₁ : ((envs tag₁).zones q₁).Shares names db) (h₂ : ((envs tag₂).zones q₂).Shares names db)
    (hkey : redisKey ((envs tag₁).zones q₁).name k₁ = redisKey ((envs tag₂).zones q₂).name k₂)
    (val : Bytes) (shm : Nat → ShmZone w) {server : Server} (hserver : server.Unexpired) :
    Machine.outputs (workerStep envs) ⟨tag₁, shm, .new server⟩
      (writeThenRead tag₂ q₁ q₂ k₁ k₂ val) = [none, none, some (.ok val)] := by
  obtain ⟨hset, -, hdata, hnow⟩ := storeStep_set_server (s := ⟨shm, .new server⟩) (henvs tag₁)
    (linked_new _ server) h₁.store h₁.ttl k₁ val 0
  generalize hs₁ : storeStep (envs tag₁) ⟨shm, .new server⟩ (.set (some q₁) k₁ val 0 .enough) = s₁
    at hset hdata hnow
  have hunexpired : s₁.2.pool.world.Unexpired :=
    (hserver.store fun d hd ↦ RedisConf.lt_deadline h₁.ttl hd).of_data hdata hnow
  obtain ⟨hget, -⟩ := storeStep_get_server (s := ⟨s₁.2.shm, .new s₁.2.pool.world⟩) (henvs tag₂)
    (linked_new _ s₁.2.pool.world) h₂.store k₂ 0
  have hfound : s₁.2.pool.world.value ((envs tag₂).database q₂) ((envs tag₂).serverKey q₂ k₂) =
      some val := by
    rw [hunexpired.value_eq, hdata, Server.data_store, StoreEnv.database, StoreEnv.database,
      h₁.database, h₂.database, if_pos ⟨rfl, hkey.symm⟩]
    rfl
  rw [show (Pool.new s₁.2.pool.world).world = s₁.2.pool.world from rfl, hfound] at hget
  simp only [writeThenRead, Machine.outputs_cons, Machine.outputs_nil, workerStep, hs₁, hset, henvs,
    world_destroyPool, hget]

theorem outputs_tables (hname : ((envs tag₁).zones q₁).name ≠ ((envs tag₂).zones q₂).name)
    (val : Bytes) :
    Machine.outputs (tableStep envs) ⟨tag₁, fun _ _ ↦ none⟩ (writeThenRead tag₂ q₁ q₂ k₁ k₂ val) =
      [none, none, some .error] := by
  simp only [writeThenRead, Machine.outputs_cons, Machine.outputs_nil, tableStep, Option.bind_some,
    Function.update_of_ne hname.symm]

end

/-! ## Configurations -/

/-- The names of the Redis zones of a configuration. -/
def RedisName (ngx : NgxConf) (ds : List (Tag × Directive)) (name : Bytes) : Prop :=
  ∃ tag, ∃ d ∈ declared ngx tag ds, d.type = .redis ∧ d.name = name

/-- The addresses of the records of the Redis zones of a module. -/
def RedisZoneAt (ngx : NgxConf) (ds : List (Tag × Directive)) (c : Cycle) (tag : Tag) (q : Ptr) :
    Prop :=
  ∃ d ∈ declared ngx tag ds, d.type = .redis ∧ d.At c tag q

/-- All Redis zones of a configuration share a database. -/
def ShareDatabase (ngx : NgxConf) (ds : List (Tag × Directive)) (hostname : Option Bytes)
    (port db : Int) : Prop :=
  ∀ tag, ∀ d ∈ declared ngx tag ds, d.type = .redis →
    d.redis.hostname = hostname ∧ d.redis.port = port ∧ d.redis.db = db

section

variable {w : Nat} {ngx : NgxConf} {ds : List (Tag × Directive)} {shared : Segments}
  {hostname : Option Bytes} {port db : Int}

theorem RedisZoneAt.shares (hlaw : ngx.Lawful) (hacc : Accepted ngx (.init shared) ds)
    (hsame : ShareDatabase ngx ds hostname port db) (core : NgxCore w) {tag : Tag} {q : Ptr}
    (h : RedisZoneAt ngx ds (readConf ngx (.init shared) ds) tag q) :
    (((readConf ngx (.init shared) ds).env tag core serverHiredis).zones q).Shares
      (RedisName ngx ds) (if db > 0 then cInt db else 0) := by
  obtain ⟨d, hdecl, htype, hat⟩ := h
  have hdesc := hat.describes_env core serverHiredis
  have hredis := hdesc.redis htype
  obtain ⟨-, -, hdb⟩ := hsame tag d hdecl htype
  refine ⟨?_, ⟨tag, d, hdecl, htype, hdesc.name.symm⟩, ?_, ?_⟩
  · rw [hdesc.store, htype]
    rfl
  · rw [hredis, RedisConf.database, hdb]
  · rw [hredis]
    exact (declared_valid hlaw hacc hdecl htype).ttl_nonneg

theorem RedisName.exists_at (hlaw : ngx.Lawful) (hacc : Accepted ngx (.init shared) ds)
    (core : NgxCore w) {name : Bytes} (h : RedisName ngx ds name) :
    let c := readConf ngx (.init shared) ds
    ∃ tag q, RedisZoneAt ngx ds c tag q ∧ ((c.env tag core serverHiredis).zones q).name = name := by
  obtain ⟨tag, d, hdecl, htype, rfl⟩ := h
  obtain ⟨q, hat⟩ := (holds_of_accepted hlaw hacc).exists_at hdecl htype
  exact ⟨tag, q, ⟨d, hdecl, htype, hat⟩, (hat.describes_env core serverHiredis).name⟩

/-- **When Redis zones are isolated.**  Let every Redis zone of an accepted configuration be in one
database of a server that works and holds nothing yet.  However requests read and write through
these zones, each read finds what was last written through a zone of that name under that key,
exactly when no zone name, with a colon behind it, begins another one. -/
theorem redis_zones_isolated_iff (hlaw : ngx.Lawful) (hacc : Accepted ngx (.init shared) ds)
    (core : NgxCore w) (hsame : ShareDatabase ngx ds hostname port db) :
    let c := readConf ngx (.init shared) ds
    let envs := fun tag ↦ c.env tag core serverHiredis
    (∀ (server : Server) (shm : Nat → ShmZone w) (tag : Tag) (turns : List (Turn w)),
      (∀ db key, server.data db key = none) →
      Machine.Meets (Turn.Within (RedisZoneAt ngx ds c)) (workerStep envs)
        ⟨tag, shm, .new server⟩ turns →
      Machine.outputs (workerStep envs) ⟨tag, shm, .new server⟩ turns =
        Machine.outputs (tableStep envs) ⟨tag, fun _ _ ↦ none⟩ turns) ↔
    Separator.Free 58 (RedisName ngx ds) := by
  intro c envs
  have hzones : ∀ tag q, RedisZoneAt ngx ds c tag q →
      ((envs tag).zones q).Shares (RedisName ngx ds) (if db > 0 then cInt db else 0) :=
    fun tag q hq ↦ hq.shares hlaw hacc hsame core
  have hnew : ∀ server : Server, (∀ db key, server.data db key = none) → server.Unexpired := by
    intro server hempty db key val deadline hdata
    rw [hempty] at hdata
    cases hdata
  constructor
  · intro hisolated name₁ name₂ hname₁ hname₂ hpre
    obtain ⟨tag₁, q₁, hq₁, rfl⟩ := hname₁.exists_at hlaw hacc core
    obtain ⟨tag₂, q₂, hq₂, rfl⟩ := hname₂.exists_at hlaw hacc core
    -- a key of the first zone that begins with the rest of the second name
    obtain ⟨k, hk⟩ := Separator.exists_collision hpre
    have hne : ((envs tag₁).zones q₁).name ≠ ((envs tag₂).zones q₂).name :=
      Separator.ne_of_prefix hpre
    have hrun := outputs_collision (fun _ ↦ rfl) (hzones tag₁ q₁ hq₁) (hzones tag₂ q₂ hq₂) (hk [])
      [0] (fun _ ↦ ⟨.leaf, ⟨[], 0, []⟩⟩) (hnew .empty fun _ _ ↦ rfl)
    rw [hisolated .empty _ tag₁ _ (fun _ _ ↦ rfl) ?_, outputs_tables hne] at hrun
    · simp at hrun
    · exact ⟨⟨rfl, q₁, rfl, hq₁⟩, trivial, ⟨rfl, q₂, rfl, hq₂⟩, trivial⟩
  · intro hfree server shm tag turns hempty hmeets
    refine (Machine.simulation _ _ (workerStep_isolated (fun _ ↦ rfl) hzones hfree) ?_ hmeets).1
    refine ⟨rfl, linked_new _ server, hnew server hempty, fun name _ key ↦ ?_⟩
    simp only [Pool.new, hempty, Option.map_none]

end

/-! ## Two zones -/

/-- Two Redis zones of the http module, on the default server. -/
def twoRedisZones (name₁ name₂ : String) : List (Tag × Directive) :=
  [(.http, .zoneRedis (lit name₁) [] (.plain .move)),
    (.http, .zoneRedis (lit name₂) [] (.plain .move))]

/-- What has been read of it. -/
def twoRedisCycle (name₁ name₂ : String) : Cycle :=
  readConf plainConf (.init []) (twoRedisZones name₁ name₂)

/-- What the requests of a module read of it. -/
def twoRedisEnvs (name₁ name₂ : String) (tag : Tag) : StoreEnv 64 Server :=
  (twoRedisCycle name₁ name₂).env tag (plainCore 64) serverHiredis

/-- A worker that has not served anything, with a server that holds nothing. -/
def newWorker : Worker 64 := ⟨.http, fun _ ↦ ⟨.leaf, ⟨[], 0, []⟩⟩, .new .empty⟩

theorem twoRedisZones_decl {name₁ name₂ : String} {tag : Tag} {d : Decl}
    (h : d ∈ declared plainConf tag (twoRedisZones name₁ name₂)) :
    d.redis = (redisSettings plainConf (.plain .move) []).2 ∧
      (d.name = (if strncmpEq (lit name₁) "zone=" 5 then (lit name₁).drop 5 else []) ∨
        d.name = if strncmpEq (lit name₂) "zone=" 5 then (lit name₂).drop 5 else []) := by
  rcases tag with _ | _
  · rcases List.mem_cons.mp h with rfl | h
    · exact ⟨rfl, Or.inl rfl⟩
    · rcases List.mem_cons.mp h with rfl | h
      · exact ⟨rfl, Or.inr rfl⟩
      · cases h
  · cases h

theorem twoRedis_meets {name₁ name₂ : String}
    (hacc : Accepted plainConf (.init []) (twoRedisZones name₁ name₂))
    {zs : GrowArray Zone} (hzs : ((twoRedisCycle name₁ name₂).conf .http).zones = some zs)
    (k₁ k₂ val : Bytes) :
    Machine.Meets
      (Turn.Within (RedisZoneAt plainConf (twoRedisZones name₁ name₂) (twoRedisCycle name₁ name₂)))
      (workerStep (twoRedisEnvs name₁ name₂)) newWorker
      (writeThenRead .http (zs.ptr 0) (zs.ptr 1) k₁ k₂ val) := by
  have hholds := holds_of_accepted plainConf_lawful hacc
  exact ⟨⟨rfl, _, rfl, _, List.mem_cons_self, rfl, hholds.at_ptr hzs rfl rfl⟩, trivial,
    ⟨rfl, _, rfl, _, List.mem_cons_of_mem _ List.mem_cons_self, rfl, hholds.at_ptr hzs rfl rfl⟩,
    trivial⟩

theorem accepted_ab : Accepted plainConf (.init []) (twoRedisZones "zone=a" "zone=b") :=
  ⟨by decide, by decide, trivial⟩

/-- The condition at work: what is written through `a` is not read through `b`. -/
theorem redis_zones_isolated_ab :
    Machine.outputs (workerStep (twoRedisEnvs "zone=a" "zone=b")) newWorker
      (writeThenRead .http ⟨1, 0⟩ ⟨1, 1⟩ (lit "k") (lit "k") [1]) = [none, none, some .error] := by
  have hsame : ShareDatabase plainConf (twoRedisZones "zone=a" "zone=b") (some (lit "127.0.0.1"))
      6379 0 := by
    intro tag d hd _
    rw [(twoRedisZones_decl hd).1]
    decide
  have hfree : Separator.Free 58 (RedisName plainConf (twoRedisZones "zone=a" "zone=b")) := by
    rintro name₁ name₂ ⟨tag₁, d₁, h₁, -, rfl⟩ ⟨tag₂, d₂, h₂, -, rfl⟩
    rcases (twoRedisZones_decl h₁).2 with h₁ | h₁ <;>
      rcases (twoRedisZones_decl h₂).2 with h₂ | h₂ <;> rw [h₁, h₂] <;> decide
  exact (redis_zones_isolated_iff plainConf_lawful accepted_ab (plainCore 64) hsame).mpr hfree
    .empty _ .http _ (fun _ _ ↦ rfl) (twoRedis_meets accepted_ab rfl (lit "k") (lit "k") [1])

/-- **A collision.**  The names `a` and `a:b` are accepted.  What is written through `a` under `b:c`
is read through `a:b` under `c`, where nothing has been written. -/
theorem redis_zones_collide :
    let envs := twoRedisEnvs "zone=a" "zone=a:b"
    let turns : List (Turn 64) := writeThenRead .http ⟨1, 0⟩ ⟨1, 1⟩ (lit "b:c") (lit "c") [1]
    Accepted plainConf (.init []) (twoRedisZones "zone=a" "zone=a:b") ∧
      Machine.Meets (Turn.Within (RedisZoneAt plainConf (twoRedisZones "zone=a" "zone=a:b")
        (twoRedisCycle "zone=a" "zone=a:b"))) (workerStep envs) newWorker turns ∧
      ((envs .http).zones ⟨1, 0⟩).name = lit "a" ∧ ((envs .http).zones ⟨1, 1⟩).name = lit "a:b" ∧
      Machine.outputs (workerStep envs) newWorker turns = [none, none, some (.ok [1])] ∧
      Machine.outputs (tableStep envs) ⟨.http, fun _ _ ↦ none⟩ turns =
        [none, none, some .error] := by
  have hacc : Accepted plainConf (.init []) (twoRedisZones "zone=a" "zone=a:b") :=
    ⟨by decide, by decide, trivial⟩
  exact ⟨hacc, twoRedis_meets hacc rfl (lit "b:c") (lit "c") [1], by decide, by decide, by decide,
    by decide⟩

end NgxKeyval
