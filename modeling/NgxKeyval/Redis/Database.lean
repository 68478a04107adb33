import NgxKeyval.Conf.RedisGrammar
import NgxKeyval.Redis.Working

/-!
# The database of a zone

A zone is declared with a database number, which the parser reads as a 64-bit integer; the number is
written into `SELECT` as a C `int`.  A connection that was opened for the zone selects the database
once, and is then used for everything else.

* `selectedDatabase` is the database a connection has selected, by what was sent over it.
* `historical_selectedDatabase` — as long as a connection can be used, that is the one of its zone,
  as an `int`.
* `InDatabase` says of the commands of an access that they select, and are executed in, a database.
* `configured_database_iff` — they do, for the one that was configured, exactly when it is below
  `2 ^ 31`.
-/

set_option autoImplicit false

namespace NgxKeyval

/-! ## The selected database -/

/-- The database connection `c` has selected after an event: a new connection is in database 0, and
a `SELECT` changes that unless the server objects. -/
def selectStep (c : Nat) (db : Int) : Event → Int
  | .connect _ d _ _ _ _ => if d = some c then 0 else db
  | .command d (.select n) (some (_, reply)) _ =>
    if d = c then
      match reply with
      | .error _ => db
      | _ => n
    else db
  | _ => db

/-- The database connection `c` has selected. -/
def selectedDatabase (c : Nat) (trace : List Event) : Int := trace.foldl (selectStep c) 0

theorem selectStep_of_conn_ne {c : Nat} {e : Event} (h : e.conn ≠ some c) (db : Int) :
    selectStep c db e = db := by
  cases e with
  | connect zone d hostname port timeout err => exact if_neg h
  | command d cmd r err =>
    have hd : d ≠ c := fun hdc ↦ h (congrArg some hdc)
    cases cmd with
    | select n =>
      rcases r with _ | ⟨r, reply⟩
      · rfl
      · exact if_neg hd
    | _ => rfl
  | _ => rfl

theorem selectedDatabase_history (c : Nat) (t : List Event) :
    selectedDatabase c (history c t) = selectedDatabase c t := by
  rw [selectedDatabase, selectedDatabase, history, List.foldl_filter]
  congr 1
  funext db e
  split
  · rfl
  · rename_i h
    exact (selectStep_of_conn_ne (by simpa using h) db).symm

theorem selectedDatabase_append (c : Nat) (t t' : List Event) :
    selectedDatabase c (t ++ t') = t'.foldl (selectStep c) (selectedDatabase c t) :=
  List.foldl_append ..

variable {σ : Type} {hiredis : Hiredis σ} {zone : Ptr} {conf : RedisConf} {cmd : Command}
  {reply : Option Reply} {s s' : Pool σ} {c : Nat} {new : List Event}

theorem Opening.selectedDatabase {redis : Option Nat} {err : Bool}
    (h : Opening zone conf c new (some c) redis err) (t : List Event) :
    selectedDatabase c (t ++ new) = conf.database := by
  rw [selectedDatabase_append, RedisConf.database]
  cases h with
  | selected hdb r reply err hreply =>
    rw [if_pos hdb]
    cases reply with
    | error msg => exact absurd rfl (hreply msg)
    | _ => simp [selectStep]
  | opened hdb =>
    rw [if_neg hdb]
    simp [selectStep]

theorem Sending.selectStep {err : Bool} (h : Sending c cmd new reply err)
    (hcmd : cmd.carriesData = true) (db : Int) : new.foldl (selectStep c) db = db := by
  cases cmd with
  | select n => cases hcmd
  | _ => cases h <;> rfl

/-- **Connections stay in the database of their zone.** -/
theorem historical_selectedDatabase (hiredis : Hiredis σ) :
    Historical hiredis fun conf c t ↦ selectedDatabase c t = conf.database where
  congr heq h := by
    rw [← selectedDatabase_history, ← heq, selectedDatabase_history, h]
  opened hopen _ := hopen.selectedDatabase _
  sent h hcmd hsend _ := by
    rw [selectedDatabase_append, hsend.selectStep hcmd, h]

/-! ## The `SELECT` that is sent -/

theorem Sending.not_select {err err' : Bool} {n : Int} {r : Option (Nat × Reply)} {d : Nat}
    (h : Sending d cmd new reply err) (hcmd : cmd.carriesData = true) :
    .command c (.select n) r err' ∉ new := by
  intro hmem
  cases cmd with
  | select => cases hcmd
  | _ => cases h <;> simp at hmem

theorem Opening.select {result redis : Option Nat} {err err' : Bool} {n : Int}
    {r : Option (Nat × Reply)} {d : Nat} (h : Opening zone conf d new result redis err)
    (hmem : .command c (.select n) r err' ∈ new) : conf.db > 0 ∧ n = cInt conf.db := by
  cases h with
  | selectLost hdb | selectRefused hdb | selected hdb =>
    simp only [List.mem_cons, reduceCtorEq, Event.command.injEq, Command.select.injEq,
      List.not_mem_nil, false_or, or_false] at hmem
    exact ⟨hdb, hmem.2.1⟩
  | _ => simp at hmem

/-- **A `SELECT` is sent for a zone with a database**, and names it as an `int`. -/
theorem Access.select (h : Access hiredis zone conf cmd s s' new reply)
    (hcmd : cmd.carriesData = true) {n : Int} {r : Option (Nat × Reply)} {err : Bool}
    (hmem : .command c (.select n) r err ∈ new) : conf.db > 0 ∧ n = cInt conf.db := by
  cases h with
  | noContext => cases hmem
  | stuck => cases hmem
  | reused _ _ _ _ _ _ _ _ _ _ hsend _ => exact absurd hmem (hsend.not_select hcmd)
  | failed _ _ _ _ _ _ hopen _ => exact hopen.select hmem
  | opened _ _ _ _ _ _ _ _ _ hopen _ _ hsend _ =>
    rcases List.mem_append.mp hmem with hmem | hmem
    · exact hopen.select hmem
    · exact absurd hmem (hsend.not_select hcmd)

/-! ## The configured database -/

/-- The number of the last `database=` among the arguments, or the default. -/
def databaseOf (ngx : NgxConf) (args : List Bytes) : Int :=
  ((args.filterMap (RedisField.text? .database)).getLast?.map ngx.atoi).getD 0

/-- What is sent in an access, after `trace`: a `SELECT` names `db`, which is not the default one;
and a command that carries data is executed in `db`. -/
structure InDatabase (db : Int) (trace new : List Event) : Prop where
  select : ∀ c n r err, .command c (.select n) r err ∈ new → 0 < db ∧ n = db
  data : ∀ pre post c cmd r err, new = pre ++ .command c cmd r err :: post →
    cmd.carriesData = true → selectedDatabase c (trace ++ pre) = db

theorem databaseOf_nonneg {ngx : NgxConf} {args : List Bytes}
    (hall : ∀ v ∈ args, RedisArg ngx v) : 0 ≤ databaseOf ngx args := by
  rw [databaseOf]
  cases hlast : (args.filterMap (RedisField.text? .database)).getLast? with
  | none => exact Int.le_refl 0
  | some s => exact valid_of_mem_text? hall (List.mem_of_getLast? hlast)

theorem db_of_accepted {ngx : NgxConf} {o : ZoneAlloc} {args : List Bytes} {redis : RedisConf}
    (h : redisSettings ngx o args = (none, redis)) : redis.db = databaseOf ngx args := by
  have hget := (redisSettings_ok h).2 .database
  rw [databaseOf]
  cases hlast : (args.filterMap (RedisField.text? .database)).getLast? with
  | none =>
    rw [hlast] at hget
    exact FieldValue.number.inj hget
  | some s =>
    rw [hlast] at hget
    exact FieldValue.number.inj hget

theorem record_of_accepted {ngx : NgxConf} {tag : Tag} {conf conf' : Conf}
    {shared shared' : Segments} {first : Bytes} {args : List Bytes} {o : ZoneAlloc}
    (h : confSetZoneRedis ngx tag conf shared first args o = (none, conf', shared')) :
    ∃ zones, conf'.zones = some zones ∧
      (zones.mem (zones.ptr (zones.nelts - 1))).store = some .redis ∧
      redisSettings ngx o args = (none, (zones.mem (zones.ptr (zones.nelts - 1))).redis) := by
  obtain ⟨-, zs, zs', p, z, -, -, -, -, hpush, -, -, hstore, hredis, rfl, -⟩ :=
    confSetZoneRedis_ok h
  obtain ⟨hp, hn, -⟩ := GrowArray.push_cases hpush
  have hlast : (zs'.set p z).ptr ((zs'.set p z).nelts - 1) = p := by
    show zs'.ptr (zs'.nelts - 1) = p
    rw [hp, hn, Nat.add_sub_cancel]
  refine ⟨_, rfl, ?_, ?_⟩
  · rw [hlast, GrowArray.mem_set_self, hstore]
  · rw [hlast, GrowArray.mem_set_self, hredis]

/-- **A database below `2 ^ 31` is kept**, in every access of every request. -/
theorem inDatabase_of_lt {w : Nat} {env : StoreEnv w σ} {shm : Nat → ShmZone w} {world : σ}
    {s : StoreState w σ} (hs : Machine.Reachable (storeStep env) ⟨shm, Pool.new world⟩ s)
    {call : StoreCall w} {p : Ptr} (hzone : call.zone = some p)
    (hstore : (env.zones p).store = some .redis) (hdb : 0 ≤ (env.zones p).redis.db)
    (hlt : (env.zones p).redis.db < 2 ^ 31)
    (htrace : (storeStep env s call).2.pool.trace = s.pool.trace ++ new) :
    InDatabase (env.zones p).redis.db s.pool.trace new := by
  have hfit := (cInt_eq_iff hdb).mpr hlt
  have hsane := sane_of_reachable hs
  have husable := usable_of_reachable (historical_selectedDatabase env.hiredis) hs
  obtain ⟨new', haccess⟩ := redisAccess_cases env.hiredis hsane p (env.redisConf p)
    (call.command (env.zones p)) call.alloc
  have hcmd := StoreCall.carriesData_command (env.zones p) call
  have hnew := haccess.trace hsane
  rw [storeStep_redis hzone hstore] at htrace
  rw [StoreEnv.redisConf, htrace, List.append_cancel_left_eq] at hnew
  subst hnew
  constructor
  · intro c n r err hmem
    obtain ⟨hpos, rfl⟩ := haccess.select hcmd hmem
    exact ⟨hpos, hfit⟩
  · intro pre post c cmd r err hnew hdata
    have hselected := haccess.usable_sent (historical_selectedDatabase env.hiredis) hsane husable
      hnew hdata
    rw [hselected, RedisConf.database]
    split
    · exact hfit
    · rename_i hno
      exact Int.le_antisymm hdb (Int.not_lt.mp hno)

/-- A request that has not accessed anything, with a server that works. -/
def serverRequest (w : Nat) (z : Zone) : StoreEnv w Server × StoreState w Server :=
  (⟨plainCore w, serverHiredis, [], fun _ ↦ z⟩, ⟨fun _ ↦ ⟨.leaf, ⟨[], 0, []⟩⟩, Pool.new .empty⟩)

/-- **The first read** of a zone with a database sends a `SELECT`. -/
theorem select_of_first_read {w : Nat} {z : Zone} (hstore : z.store = some .redis)
    (hdb : z.redis.db > 0) :
    .command 1 (.select (cInt z.redis.db)) (some (2, .status (lit "OK"))) false ∈
      (storeStep (serverRequest w z).1 (serverRequest w z).2
        (.get (some ⟨0, 0⟩) [] 0 .enough)).2.pool.trace := by
  simp [serverRequest, storeStep, storeGet, hstore, storeRedisGet, storeRedisGetCtx, Pool.new,
    AccessAlloc.enough, redisGetContext, redisConnectWithTimeout, serverHiredis, Pool.setRedis,
    redisPrepare, redisSetTimeout, hdb, redisSelect, redisCommand, freeReplyObject,
    Server.command, redisGetData]

/-- In every request, and whatever the client library answers, each access of a zone with this
record is in database `db`. -/
def AlwaysInDatabase (w : Nat) (z : Zone) (db : Int) : Prop :=
  ∀ (σ : Type) (env : StoreEnv w σ) (p : Ptr), env.zones p = z →
    ∀ (shm : Nat → ShmZone w) (world : σ) (s : StoreState w σ),
      Machine.Reachable (storeStep env) ⟨shm, Pool.new world⟩ s →
      ∀ call : StoreCall w, call.zone = some p →
        ∀ new, (storeStep env s call).2.pool.trace = s.pool.trace ++ new →
          InDatabase db s.pool.trace new

theorem AlwaysInDatabase.first {w : Nat} {z : Zone} {db : Int} (h : AlwaysInDatabase w z db)
    (env : StoreEnv w σ) {p : Ptr} (hz : env.zones p = z) (shm : Nat → ShmZone w) (world : σ)
    (call : StoreCall w) (hzone : call.zone = some p) :
    InDatabase db [] (storeStep env ⟨shm, Pool.new world⟩ call).2.pool.trace :=
  h σ env p hz shm world ⟨shm, Pool.new world⟩ ⟨[], rfl⟩ call hzone _ rfl

/-- **When the configured database is the one that is used.**  A `keyval_zone_redis` that is
accepted has all its accesses in the database it names, in every request and whatever the client
library answers, exactly when the number of the database is below `2 ^ 31`. -/
theorem configured_database_iff (w : Nat) {ngx : NgxConf} {tag : Tag} {conf conf' : Conf}
    {shared shared' : Segments} {first : Bytes} {args : List Bytes} {o : ZoneAlloc}
    {zones : GrowArray Zone}
    (hacc : confSetZoneRedis ngx tag conf shared first args o = (none, conf', shared'))
    (hzones : conf'.zones = some zones) :
    AlwaysInDatabase w (zones.mem (zones.ptr (zones.nelts - 1))) (databaseOf ngx args) ↔
      databaseOf ngx args < 2 ^ 31 := by
  obtain ⟨zones', hzones', hstore, hredis⟩ := record_of_accepted hacc
  obtain rfl : zones = zones' := Option.some.inj (hzones.symm.trans hzones')
  generalize zones.mem (zones.ptr (zones.nelts - 1)) = z at *
  have hdb := db_of_accepted hredis
  have hnonneg := databaseOf_nonneg (redisSettings_ok hredis).1
  rw [← hdb] at hnonneg ⊢
  constructor
  · intro halways
    by_contra hge
    have hpos : z.redis.db > 0 := by omega
    have hin : InDatabase z.redis.db [] _ := halways.first (serverRequest w z).1 rfl
      (serverRequest w z).2.shm .empty (.get (some ⟨0, 0⟩) [] 0 .enough) rfl
    have hselect := hin.select _ _ _ _ (select_of_first_read hstore hpos)
    exact hge ((cInt_eq_iff hnonneg).mp hselect.2)
  · rintro hlt σ env p rfl shm world s hs call hzone new htrace
    exact inDatabase_of_lt hs hzone hstore hnonneg hlt htrace

/-- The reads and writes of a zone with a small database number. -/
theorem configured_database_small :
    AlwaysInDatabase 64 ((redisEnv [lit "database=2"]).zones ⟨0, 0⟩) 2 :=
  (@configured_database_iff 64 plainConf .http .empty _ [] _ (lit "zone=z") [lit "database=2"]
    (.plain .move) _ rfl rfl).mpr (by decide)

/-- **The number wraps around.**  `database=4294967296` is accepted; `SELECT 0` is sent, and the
read that follows goes to database 0. -/
theorem configured_database_wraps :
    let env := redisEnv [lit "database=4294967296"]
    (confSetZoneRedis plainConf .http .empty [] (lit "zone=z") [lit "database=4294967296"]
        (.plain .move)).1 = none ∧
      databaseOf plainConf [lit "database=4294967296"] = 4294967296 ∧
      ∃ pre post, (storeStep env newRequest readK).2.pool.trace =
          pre ++ .command 1 (.get (lit "z:k")) (some (3, .nil)) false :: post ∧
        .command 1 (.select 0) (some (2, .status (lit "OK"))) false ∈ pre ∧
        selectedDatabase 1 pre = 0 ∧
        ¬ AlwaysInDatabase 64 (env.zones ⟨0, 0⟩) 4294967296 := by
  refine ⟨by decide, by decide, [.connect ⟨0, 0⟩ (some 1) (some (lit "127.0.0.1")) 6379 3 false,
    .setTimeout 1 3 true, .command 1 (.select 0) (some (2, .status (lit "OK"))) false,
    .freeReply 2], [.freeReply 3], by decide, by decide, by decide, fun halways ↦ ?_⟩
  have hin : InDatabase 4294967296 [] _ :=
    halways.first (redisEnv [lit "database=4294967296"]) rfl newRequest.shm .empty readK rfl
  have hselect := hin.select 1 0 (some (2, .status (lit "OK"))) false (by decide)
  exact absurd hselect.2 (by decide)

end NgxKeyval
