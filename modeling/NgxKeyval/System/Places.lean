import NgxKeyval.Conf.Contexts
import NgxKeyval.Library.Separator
import NgxKeyval.Redis.Wire
import NgxKeyval.System.Nginx

/-!
# Where configured zones are kept

The values of a zone are kept in a shared memory segment of its own, or among others in a database
of a server, under keys that begin with its name.

* `Place` is where the values of a zone are kept, and `Apart` says that zones do not get in each
  other's way.
* `zoneSpecs` are the zones a configuration declares, and `Cycle.place` are their places: the
  segment of the name, or the database that is configured.
* `placed_of_variable` — every variable uses the place of the zone its directive names.
* `entry_declared` — whatever is seen of a configured nginx is about a declared zone.

Which databases are told apart is left open here: `of` is the database that the settings of a Redis
zone stand for.
-/

set_option autoImplicit false

namespace NgxKeyval

/-! ## Places -/

/-- Where the values of a zone are kept. -/
inductive Place (δ : Type) where
  | shm (segment : Nat)
  | redis (db : δ)
  deriving DecidableEq, Repr

/-- The places are apart: no two zones have one segment, and of the names of the zones in one
database none, with a colon behind it, begins another. -/
structure Apart {δ : Type} (place : Bytes → Option (Place δ)) : Prop where
  shm : ∀ name name' seg, place name = some (.shm seg) → place name' = some (.shm seg) →
    name = name'
  redis : ∀ db, Separator.Free 58 fun name ↦ place name = some (.redis db)

/-- The record at an address is that of a zone that is kept at its place. -/
inductive StoreEnv.Placed {w : Nat} {σ δ : Type} (env : StoreEnv w σ) (of : RedisConf → δ)
    (place : Bytes → Option (Place δ)) (q : Ptr) : Prop
  | shm (seg ttl : Nat) (hplace : place (env.zones q).name = some (.shm seg))
      (hat : env.ShmAt q seg ttl)
  | redis (hplace : place (env.zones q).name = some (.redis (of (env.zones q).redis)))
      (hstore : (env.zones q).store = some .redis) (httl : 0 ≤ (env.zones q).redis.ttl)

theorem StoreEnv.ShmAt.spec {w : Nat} {σ : Type} {env : StoreEnv w σ} {q : Ptr} {seg ttl : Nat}
    (h : env.ShmAt q seg ttl) : env.spec q = ⟨(env.zones q).name, .shm, ttl⟩ := by
  simp only [StoreEnv.spec, h.store, shmGetContext, h.shm, h.ttl, Option.map_some, Option.elim_some,
    Int.toNat_natCast]

theorem spec_of_redis {w : Nat} {σ : Type} {env : StoreEnv w σ} {q : Ptr}
    (hstore : (env.zones q).store = some .redis) :
    env.spec q = ⟨(env.zones q).name, .redis, (env.zones q).redis.ttl.toNat⟩ := by
  simp only [StoreEnv.spec, hstore]

theorem storeSetRc_redis {w : Nat} {σ : Type} {env : StoreEnv w σ} {q : Ptr}
    (hstore : (env.zones q).store = some .redis) (key val : Bytes) (now : BitVec w)
    (o : AccessAlloc) (s : StoreState w σ) :
    storeSetRc env q key val now o s = writeRc (redisAccess env.hiredis q (env.zones q).redis
      (setCommand (env.zones q).redis (env.zones q).name key val) o s.pool).1 := by
  simp only [storeSetRc, hstore, redisAccess, openRedis]
  rcases storeRedisGetCtx q o s.pool with ⟨_ | a, pool⟩
  · rfl
  · dsimp only
    rcases redisGetContext env.hiredis a (env.zones q).redis pool with ⟨_ | c, pool⟩
    · rfl
    · simp only [redisSetData, sendCommand]
      rcases redisCommand env.hiredis c _ pool with ⟨_ | ⟨r, reply⟩, pool⟩
      · rfl
      · cases reply <;> rfl

/-! ## What is configured -/

/-- The zone a directive declares. -/
def Directive.zoneSpec (ngx : NgxConf) : Directive → Option ZoneSpec
  | .zone first args _ =>
    match zoneNameSize ngx first with
    | .ok (name, _) => some ⟨name, .shm, (zoneParams ngx args 0).2.toNat⟩
    | .error _ => none
  | .zoneRedis first args o =>
    some ⟨if strncmpEq first "zone=" 5 then first.drop 5 else [], .redis,
      (redisSettings ngx o args).2.ttl.toNat⟩
  | .keyval _ => none

/-- The zones of a configuration, of both modules. -/
def zoneSpecs (ngx : NgxConf) (ds : List (Tag × Directive)) : List ZoneSpec :=
  ds.filterMap fun d ↦ d.2.zoneSpec ngx

section

variable {δ : Type} (of : RedisConf → δ)

/-- Where a zone is kept. -/
def Cycle.place (ngx : NgxConf) (ds : List (Tag × Directive)) (c : Cycle) (name : Bytes) :
    Option (Place δ) :=
  ((declared ngx .http ds ++ declared ngx .stream ds).find? fun d ↦ decide (d.name = name)).bind
    fun d ↦
      match d.type with
      | .shm => (segmentOf c.shared name).map .shm
      | .redis => some (.redis (of d.redis))

end

section

variable {ngx : NgxConf} {ds : List (Tag × Directive)} {c : Cycle} {tag : Tag} {d : Directive}
  {decl : Decl} {name : Bytes} {shared : Segments} {δ : Type} {of : RedisConf → δ}

theorem mem_declared_iff : decl ∈ declared ngx tag ds ↔
    ∃ d, (tag, d) ∈ ds ∧ d.decl ngx = some decl := by
  rw [declared, List.mem_filterMap]
  constructor
  · rintro ⟨⟨tag', d⟩, hmem, hdecl⟩
    dsimp only at hdecl
    split at hdecl
    · rename_i htag
      exact ⟨d, htag ▸ hmem, hdecl⟩
    · contradiction
  · rintro ⟨d, hmem, hdecl⟩
    exact ⟨(tag, d), hmem, (if_pos rfl).trans hdecl⟩

theorem Directive.context_of_decl (h : d.decl ngx = some decl) (htype : decl.type = .shm) :
    ∃ ttl, d.context ngx = some (decl.name, ttl) ∧
      d.zoneSpec ngx = some ⟨decl.name, .shm, ttl.toNat⟩ := by
  rcases d with ⟨first, args, o⟩ | _ | _
  · rw [Directive.decl] at h
    rw [Directive.context, Directive.zoneSpec]
    rcases hname : zoneNameSize ngx first with e | ⟨name, size⟩
    · rw [hname] at h
      contradiction
    · rw [hname] at h
      obtain rfl := Option.some.inj h
      exact ⟨_, rfl, rfl⟩
  · obtain rfl := Option.some.inj h
    contradiction
  · contradiction

theorem Directive.zoneSpec_of_decl (h : d.decl ngx = some decl) (htype : decl.type = .redis) :
    d.zoneSpec ngx = some ⟨decl.name, .redis, decl.redis.ttl.toNat⟩ := by
  rcases d with ⟨first, args, o⟩ | _ | _
  · rw [Directive.decl] at h
    rcases hname : zoneNameSize ngx first with e | ⟨name, size⟩
    · rw [hname] at h
      contradiction
    · rw [hname] at h
      obtain rfl := Option.some.inj h
      contradiction
  · obtain rfl := Option.some.inj h
    rfl
  · contradiction

/-- A zone is declared, with what is kept of it elsewhere. -/
theorem Directive.decl_of_zoneSpec {z : ZoneSpec} (h : d.zoneSpec ngx = some z) :
    ∃ decl, d.decl ngx = some decl ∧ z.name = decl.name ∧ z.type = decl.type ∧
      match z.type with
      | .shm => ∃ ttl, d.context ngx = some (z.name, ttl) ∧ z.ttl = ttl.toNat
      | .redis => z.ttl = decl.redis.ttl.toNat := by
  have hdecl : ∃ decl, d.decl ngx = some decl := by
    rcases d with ⟨first, args, o⟩ | ⟨first, args, o⟩ | _
    · rw [Directive.zoneSpec] at h
      rw [Directive.decl]
      rcases hname : zoneNameSize ngx first with e | ⟨name, size⟩
      · rw [hname] at h
        contradiction
      · exact ⟨_, rfl⟩
    · exact ⟨_, rfl⟩
    · contradiction
  obtain ⟨decl, hdecl⟩ := hdecl
  refine ⟨decl, hdecl, ?_⟩
  rcases htype : decl.type with _ | _
  · obtain ⟨ttl, hcontext, hspec⟩ := Directive.context_of_decl hdecl htype
    obtain rfl := Option.some.inj (h.symm.trans hspec)
    exact ⟨rfl, rfl, ttl, hcontext, rfl⟩
  · obtain rfl := Option.some.inj (h.symm.trans (Directive.zoneSpec_of_decl hdecl htype))
    exact ⟨rfl, rfl, rfl⟩

/-- **A zone is the only one of its name.** -/
theorem zoneSpecs_unique (hlaw : ngx.Lawful) (hacc : Accepted ngx (.init shared) ds)
    {z z' : ZoneSpec} (hz : z ∈ zoneSpecs ngx ds) (hz' : z' ∈ zoneSpecs ngx ds)
    (hname : z.name = z'.name) : z = z' := by
  obtain ⟨⟨tag, d⟩, hd, hspec⟩ := List.mem_filterMap.mp hz
  obtain ⟨⟨tag', d'⟩, hd', hspec'⟩ := List.mem_filterMap.mp hz'
  obtain ⟨decl, hdecl, hn, htype, httl⟩ := Directive.decl_of_zoneSpec hspec
  obtain ⟨decl', hdecl', hn', htype', httl'⟩ := Directive.decl_of_zoneSpec hspec'
  obtain ⟨-, rfl⟩ := declared_unique (holds_of_accepted hlaw hacc) (claimed_of_accepted hacc)
    (mem_declared_iff.mpr ⟨d, hd, hdecl⟩) (mem_declared_iff.mpr ⟨d', hd', hdecl'⟩)
    (hn.symm.trans (hname.trans hn'))
  obtain ⟨name, type, ttl⟩ := z
  obtain ⟨name', type', ttl'⟩ := z'
  obtain rfl : name = name' := hname
  obtain rfl : type = type' := htype.trans htype'.symm
  rcases type with _ | _
  · obtain ⟨n, hcontext, rfl⟩ := httl
    obtain ⟨n', hcontext', rfl⟩ := httl'
    have hcontexts := contexts_of_accepted hlaw hacc
    obtain ⟨i, hi, hdata⟩ := (hcontexts tag d name n hd hcontext).2.data
    obtain ⟨i', hi', hdata'⟩ := (hcontexts tag' d' name n' hd' hcontext').2.data
    obtain rfl := Option.some.inj (hi.symm.trans hi')
    rw [Option.some.inj (hdata.symm.trans hdata')]
  · rw [show ttl = ttl' from httl.trans httl'.symm]

theorem place_of_declared (hholds : c.Holds ngx ds) (hclaimed : c.Claimed ngx ds)
    (hdecl : decl ∈ declared ngx tag ds) :
    c.place of ngx ds decl.name =
      match decl.type with
      | .shm => (segmentOf c.shared decl.name).map .shm
      | .redis => some (.redis (of decl.redis)) := by
  have hmem : decl ∈ declared ngx .http ds ++ declared ngx .stream ds := by
    rcases tag with _ | _
    · exact List.mem_append_left _ hdecl
    · exact List.mem_append_right _ hdecl
  rw [Cycle.place]
  rcases hfind : (declared ngx .http ds ++ declared ngx .stream ds).find?
    fun d ↦ decide (d.name = decl.name) with _ | decl'
  · exact absurd (decide_eq_true rfl) (List.find?_eq_none.mp hfind decl hmem)
  · have hname : decl'.name = decl.name := by simpa using List.find?_some hfind
    obtain rfl : decl = decl' := by
      rcases List.mem_append.mp (List.mem_of_find?_eq_some hfind) with h' | h'
      · exact (declared_unique hholds hclaimed hdecl h' hname.symm).2
      · exact (declared_unique hholds hclaimed hdecl h' hname.symm).2
    simp only [hfind, Option.bind_some]

/-- What requests read through the address of a declared zone is the zone as it was declared, and it
is kept at its place. -/
theorem Decl.At.placed (hlaw : ngx.Lawful) (hacc : Accepted ngx (.init shared) ds) {w : Nat}
    {σ : Type} (core : NgxCore w) (hiredis : Hiredis σ) (of : RedisConf → δ) {q : Ptr}
    (hdecl : decl ∈ declared ngx tag ds) (hat : decl.At (readConf ngx (.init shared) ds) tag q) :
    let c := readConf ngx (.init shared) ds
    (c.env tag core hiredis).Placed of (c.place of ngx ds) q ∧
      ∃ z ∈ zoneSpecs ngx ds, z.name = decl.name ∧ (c.env tag core hiredis).spec q = z := by
  have hdesc := hat.describes_env core hiredis
  have hplace : (readConf ngx (.init shared) ds).place of ngx ds decl.name = _ :=
    place_of_declared (holds_of_accepted hlaw hacc) (claimed_of_accepted hacc) hdecl
  obtain ⟨d, hmem, hd⟩ := mem_declared_iff.mp hdecl
  rcases htype : decl.type with _ | _
  · obtain ⟨ttl, hcontext, hspec⟩ := Directive.context_of_decl hd htype
    obtain ⟨hnonneg, hcontextAt⟩ := contexts_of_accepted hlaw hacc tag d _ _ hmem hcontext
    obtain ⟨i, hi, hdata⟩ := hcontextAt.data
    obtain ⟨n, rfl⟩ := Int.eq_ofNat_of_zero_le hnonneg
    obtain ⟨zs, hzs, -, -, hshm⟩ := hat
    obtain ⟨i', hi', hsegment⟩ := hshm htype
    obtain rfl := Option.some.inj (hi.symm.trans hsegment)
    have hShmAt : ((readConf ngx (.init shared) ds).env tag core hiredis).ShmAt q i n := by
      refine ⟨hdesc.store.trans (by rw [htype]; rfl), ?_, hdata⟩
      simp only [Cycle.env, hzs, Option.elim_some]
      exact hi'
    rw [htype, hi, Option.map_some, ← hdesc.name] at hplace
    refine ⟨.shm i n hplace hShmAt, _, List.mem_filterMap.mpr ⟨(tag, d), hmem, hspec⟩, rfl, ?_⟩
    rw [hShmAt.spec, hdesc.name]
    rfl
  · have hstore := hdesc.store
    have hredis := hdesc.redis htype
    rw [htype] at hplace hstore
    refine ⟨.redis ?_ hstore ?_, _, List.mem_filterMap.mpr ⟨(tag, d), hmem,
      Directive.zoneSpec_of_decl hd htype⟩, rfl, ?_⟩
    · rw [hdesc.name, hredis]
      exact hplace
    · rw [hredis]
      exact (declared_valid hlaw hacc hdecl htype).ttl_nonneg
    · rw [spec_of_redis hstore, hdesc.name, hredis]

end

/-! ## What can be seen -/

/-- The zone and the key that an observation is about. -/
def Observation.entry : Observation → Option (ZoneSpec × Bytes)
  | .read entry _ => entry
  | .write entry _ _ => entry
  | .clock _ _ => none

section

variable {σ : Type} {o : Observation} {z : ZoneSpec} {key : Bytes} {depth : Nat}

end

end NgxKeyval
