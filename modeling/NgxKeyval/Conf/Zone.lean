import NgxKeyval.Conf.Defs

/-!
# Declaring a zone

`ngx_keyval_zone.c`: the two zone directives.  Each parses its first argument, adds a record to the
zones of the module, registers a shared memory segment under the zone's name, and then goes through
the remaining arguments.

A directive that is rejected leaves behind whatever it had done by then; nginx does not start with
such a configuration.  So each function returns its outcome together with the state it leaves.
-/

set_option autoImplicit false

namespace NgxKeyval

/-- What memory answers while a zone directive runs. -/
structure ZoneAlloc where
  /-- `ngx_array_create` of the zones. -/
  array : Bool
  /-- The contents of memory when the array is created. -/
  junk : Ptr → Zone
  /-- `ngx_array_push` of the zone. -/
  push : PushOutcome
  /-- `ngx_pcalloc` of the context. -/
  ctx : Bool
  /-- The list of segments, in `ngx_shared_memory_add`. -/
  segment : Bool
  /-- `ngx_pnalloc` of the hostname, for the argument with this index. -/
  hostname : Nat → Bool
  /-- `ngx_pnalloc` of the default hostname. -/
  defaultHostname : Bool

/-- The zones of a module, `none` if the array is not there and cannot be created with room for
`n`. -/
def zonesOrCreate (conf : Conf) (o : ZoneAlloc) (n : Nat) : Option (GrowArray Zone) :=
  match conf.zones with
  | some zones => some zones
  | none => if o.array then some (GrowArray.create o.junk n) else none

section

variable (ngx : NgxConf)

/-- `ngx_keyval_conf_zone_get`: the first zone of this name. -/
def confZoneGet (conf : Conf) (name : Bytes) : Option Ptr :=
  match conf.zones with
  | none => none
  | some zones =>
    ((List.range zones.nelts).find? fun i ↦
      decide (ngx.memn2cmp (zones.mem (zones.ptr i)).name name = 0)).map zones.ptr

/-- `ngx_keyval_conf_zone_add`: a new record, with its name and type filled in. -/
def confZoneAdd (conf : Conf) (name : Bytes) (type : ZoneType) (o : ZoneAlloc) :
    Except ConfError (Ptr × GrowArray Zone) × Conf :=
  match zonesOrCreate conf o 1 with
  | none => (.error (.logged "failed to allocate" []), conf)
  | some zones =>
    let conf := { conf with zones := some zones }
    if (confZoneGet ngx conf name).isSome then
      (.error (.logged "duplicate \"zone=%V\" parameter" name), conf)
    else
      match zones.push o.push with
      | none => (.error (.logged "failed to allocate item" []), conf)
      | some (p, zones) =>
        let zones := zones.set p { zones.mem p with name := name, type := type }
        (.ok (p, zones), { conf with zones := some zones })

/-! ## `keyval_zone` -/

/-- The name and the size of `zone=name:size`; the name is empty when the argument is something
else. -/
def zoneNameSize (value : Bytes) : Except ConfError (Bytes × Int) :=
  if strncmpEq value "zone=" 5 then
    let rest := value.drop 5
    match strchr rest 58 with
    | none => .error (.logged "invalid zone size \"%V\"" value)
    | some p =>
      let size := ngx.parseSize (rest.drop (p + 1))
      if size = -1 then .error (.logged "invalid zone size \"%V\"" value)
      else if size < 8 * ngx.pagesize then .error (.logged "zone \"%V\" is too small" value)
      else .ok (rest.take p, size)
  else .ok ([], 0)

/-- The loop over the arguments after the first: the error, if any, and the `ttl` it leaves. -/
def zoneParams : List Bytes → Int → Option ConfError × Int
  | [], ttl => (none, ttl)
  | v :: vs, ttl =>
    match (argAfter v "ttl=" 4).or (argAfter v "timeout=" 8) with
    | none => (some (.logged "invalid parameter \"%V\"" v), ttl)
    | some s =>
      -- a second parameter is noticed by the value the first one left
      if ttl ≠ 0 then (some (.logged "duplicate parameter \"%V\"" v), ttl)
      else
        let ttl := ngx.parseTime s
        if ttl = -1 then (some (.logged "invalid parameter \"%V\"" v), ttl)
        else zoneParams vs ttl

/-- `ngx_keyval_conf_set_zone`, on the arguments after the name of the directive. -/
def confSetZone (tag : Tag) (conf : Conf) (shared : Segments) (first : Bytes) (args : List Bytes)
    (o : ZoneAlloc) : Option ConfError × Conf × Segments :=
  match zoneNameSize ngx first with
  | .error e => (some e, conf, shared)
  | .ok (name, size) =>
    if name.length = 0 then (some (.text "must have \"zone\" parameter"), conf, shared)
    else
      match confZoneAdd ngx conf name .shm o with
      | (.error e, conf) => (some e, conf, shared)
      | (.ok (p, zones), conf) =>
        let conf := { conf with
          zones := some (zones.set p { zones.mem p with store := some .shm }) }
        if o.ctx then
          match sharedMemoryAdd shared name size tag o.segment with
          | (none, shared) =>
            (some (.logged "failed to allocate memory or \"%V\" is already" name), conf, shared)
          | (some i, shared) =>
            let (e, ttl) := zoneParams ngx args 0
            (e, conf, shared.modify i fun seg ↦
              { seg with init := some .initZone, data := some ttl })
        else (some (.text "failed to allocate"), conf, shared)

/-! ## `keyval_zone_redis` -/

/-- The settings of a Redis zone before its parameters are read. -/
def redisDefault : RedisConf where
  hostname := none
  port := 6379
  db := 0
  ttl := 0
  connectTimeout := 3
  commandTimeout := 3

/-- One parameter of a Redis zone: the error, if any, and the settings it leaves. -/
def redisParam (alloc : Bool) (redis : RedisConf) (v : Bytes) : Option ConfError × RedisConf :=
  match argAfter v "hostname=" 9 with
  | some s =>
    if alloc then (none, { redis with hostname := some s })
    else (some (.text "failed to allocate hostname"), { redis with hostname := none })
  | none =>
  match argAfter v "port=" 5 with
  | some s =>
    let redis := { redis with port := ngx.atoi s }
    if redis.port ≤ 0 ∨ redis.port > 65535 then (some (.logged "invalid port \"%V\"" v), redis)
    else (none, redis)
  | none =>
  match argAfter v "database=" 9 with
  | some s =>
    let redis := { redis with db := ngx.atoi s }
    if redis.db < 0 then (some (.logged "invalid database \"%V\"" v), redis) else (none, redis)
  | none =>
  match argAfter v "ttl=" 4 with
  | some s =>
    let redis := { redis with ttl := ngx.parseTime s }
    if redis.ttl = -1 then (some (.logged "invalid ttl \"%V\"" v), redis) else (none, redis)
  | none =>
  match argAfter v "connect_timeout=" 16 with
  | some s =>
    let redis := { redis with connectTimeout := ngx.parseTime s }
    if redis.connectTimeout = -1 then
      (some (.logged "invalid connect timeout \"%V\"" v), redis)
    else (none, redis)
  | none =>
  match argAfter v "command_timeout=" 16 with
  | some s =>
    let redis := { redis with commandTimeout := ngx.parseTime s }
    if redis.commandTimeout = -1 ∨ redis.commandTimeout = 0 then
      (some (.logged "invalid command timeout \"%V\"" v), redis)
    else (none, redis)
  | none => (some (.logged "invalid parameter \"%V\"" v), redis)

/-- The loop over the arguments after the first, which starts at index `i`. -/
def redisParams (o : ZoneAlloc) : Nat → List Bytes → RedisConf → Option ConfError × RedisConf
  | _, [], redis => (none, redis)
  | i, v :: vs, redis =>
    match redisParam ngx (o.hostname i) redis v with
    | (some e, redis) => (some e, redis)
    | (none, redis) => redisParams o (i + 1) vs redis

/-- The parameters and, where none gave a hostname, the default one. -/
def redisSettings (o : ZoneAlloc) (args : List Bytes) : Option ConfError × RedisConf :=
  match redisParams ngx o 2 args redisDefault with
  | (some e, redis) => (some e, redis)
  | (none, redis) =>
    if redis.hostname.isNone then
      if o.defaultHostname then (none, { redis with hostname := some (lit "127.0.0.1") })
      else (some (.text "failed to allocate hostname"), redis)
    else (none, redis)

/-- `ngx_keyval_conf_set_zone_redis`, on the arguments after the name of the directive. -/
def confSetZoneRedis (tag : Tag) (conf : Conf) (shared : Segments) (first : Bytes)
    (args : List Bytes) (o : ZoneAlloc) : Option ConfError × Conf × Segments :=
  let name := if strncmpEq first "zone=" 5 then first.drop 5 else []
  if name.length = 0 then (some (.text "must have \"zone\" parameter"), conf, shared)
  else
    match confZoneAdd ngx conf name .redis o with
    | (.error e, conf) => (some e, conf, shared)
    | (.ok (p, zones), conf) =>
      let zones := zones.set p { zones.mem p with store := some .redis }
      -- registered only so that the name is taken in every module
      match sharedMemoryAdd shared name (8 * ngx.pagesize) tag o.segment with
      | (none, shared) =>
        (some (.logged "failed to allocate memory or \"%V\" is already" name),
          { conf with zones := some zones }, shared)
      | (some i, shared) =>
        let shared := shared.modify i fun seg ↦ { seg with init := some .initZoneNone }
        let (e, redis) := redisSettings ngx o args
        (e, { conf with zones := some (zones.set p { zones.mem p with redis := redis }) }, shared)

/-! ## Accepted directives -/

section

variable {ngx} {tag : Tag} {conf conf' : Conf} {shared shared' : Segments} {name : Bytes}
  {type : ZoneType} {o : ZoneAlloc} {p : Ptr}

/-- What adding a zone does: the name is new, and one record is pushed, with its name and type. -/
theorem confZoneAdd_ok {zones : GrowArray Zone}
    (h : confZoneAdd ngx conf name type o = (.ok (p, zones), conf')) :
    ∃ zs zs', zonesOrCreate conf o 1 = some zs ∧
      confZoneGet ngx { conf with zones := some zs } name = none ∧
      zs.push o.push = some (p, zs') ∧
      zones = zs'.set p { zs'.mem p with name := name, type := type } ∧
      conf' = { conf with zones := some zones } := by
  rw [confZoneAdd] at h
  cases hzs : zonesOrCreate conf o 1 with
  | none => simp [hzs] at h
  | some zs =>
    simp only [hzs] at h
    cases hget : confZoneGet ngx { conf with zones := some zs } name with
    | some q => simp [hget] at h
    | none =>
      rcases hpush : zs.push o.push with _ | ⟨q, zs'⟩
      · simp [hget, hpush] at h
      · simp only [hget, hpush, Option.isSome_none, Bool.false_eq_true, if_false, Prod.mk.injEq,
          Except.ok.injEq] at h
        obtain ⟨⟨rfl, rfl⟩, rfl⟩ := h
        exact ⟨zs, zs', rfl, hget, hpush, rfl, rfl⟩

/-- **What an accepted `keyval_zone` has done**: it pushed one record, and registered a segment of
its name, with its `ttl`. -/
theorem confSetZone_ok {first : Bytes} {args : List Bytes}
    (h : confSetZone ngx tag conf shared first args o = (none, conf', shared')) :
    ∃ name size zs zs' p z, zoneNameSize ngx first = .ok (name, size) ∧ name ≠ [] ∧
      zonesOrCreate conf o 1 = some zs ∧
      confZoneGet ngx { conf with zones := some zs } name = none ∧
      zs.push o.push = some (p, zs') ∧
      z.name = name ∧ z.type = .shm ∧ z.store = some .shm ∧
      conf' = { conf with zones := some (zs'.set p z) } ∧
      ∃ i shared₁ ttl, sharedMemoryAdd shared name size tag o.segment = (some i, shared₁) ∧
        zoneParams ngx args 0 = (none, ttl) ∧
        shared' = shared₁.modify i fun seg ↦
          { seg with init := some .initZone, data := some ttl } := by
  rw [confSetZone] at h
  rcases hname : zoneNameSize ngx first with e | ⟨name, size⟩
  · simp [hname] at h
  · simp only [hname] at h
    split at h
    · simp at h
    · rename_i hlen
      rcases hadd : confZoneAdd ngx conf name .shm o with ⟨e | ⟨p, zones⟩, conf₁⟩
      · simp [hadd] at h
      · obtain ⟨zs, zs', hzs, hget, hpush, rfl, rfl⟩ := confZoneAdd_ok hadd
        simp only [hadd] at h
        split at h
        · rcases hshm : sharedMemoryAdd shared name size tag o.segment with ⟨_ | i, shared₁⟩
          · simp [hshm] at h
          · rcases hparams : zoneParams ngx args 0 with ⟨e, ttl⟩
            simp only [hshm, hparams, Prod.mk.injEq] at h
            obtain ⟨rfl, rfl, rfl⟩ := h
            refine ⟨name, size, zs, zs', p, _, rfl, ?_, hzs, hget, hpush, ?_, ?_, ?_,
              by rw [GrowArray.set_set], i, shared₁, ttl, hshm, rfl, rfl⟩
            · rintro rfl
              exact hlen rfl
            all_goals simp
        · simp at h

/-- **What an accepted `keyval_zone_redis` has done**: it pushed one record with its settings, and
registered a segment of its name. -/
theorem confSetZoneRedis_ok {first : Bytes} {args : List Bytes}
    (h : confSetZoneRedis ngx tag conf shared first args o = (none, conf', shared')) :
    ∃ name zs zs' p z, name = (if strncmpEq first "zone=" 5 then first.drop 5 else []) ∧
      name ≠ [] ∧ zonesOrCreate conf o 1 = some zs ∧
      confZoneGet ngx { conf with zones := some zs } name = none ∧
      zs.push o.push = some (p, zs') ∧
      z.name = name ∧ z.type = .redis ∧ z.store = some .redis ∧
      redisSettings ngx o args = (none, z.redis) ∧
      conf' = { conf with zones := some (zs'.set p z) } ∧
      ∃ i shared₁, sharedMemoryAdd shared name (8 * ngx.pagesize) tag o.segment =
          (some i, shared₁) ∧
        shared' = shared₁.modify i fun seg ↦ { seg with init := some .initZoneNone } := by
  rw [confSetZoneRedis] at h
  simp only at h
  generalize (if strncmpEq first "zone=" 5 then first.drop 5 else []) = name at h
  split at h
  · simp at h
  · rename_i hlen
    rcases hadd : confZoneAdd ngx conf name .redis o with ⟨e | ⟨p, zones⟩, conf₁⟩
    · simp [hadd] at h
    · obtain ⟨zs, zs', hzs, hget, hpush, rfl, rfl⟩ := confZoneAdd_ok hadd
      simp only [hadd] at h
      rcases hshm : sharedMemoryAdd shared name (8 * ngx.pagesize) tag o.segment with
        ⟨_ | i, shared₁⟩
      · simp [hshm] at h
      · rcases hparams : redisSettings ngx o args with ⟨e, redis⟩
        simp only [hshm, hparams, Prod.mk.injEq] at h
        obtain ⟨rfl, rfl, rfl⟩ := h
        refine ⟨name, zs, zs', p, _, rfl, ?_, hzs, hget, hpush, ?_, ?_, ?_, ?_,
          by rw [GrowArray.set_set, GrowArray.set_set], i, shared₁, hshm, rfl⟩
        · rintro rfl
          exact hlen rfl
        all_goals simp

end

/-! ## Accepted settings -/

/-- What the parameters of a Redis zone are checked for. -/
structure RedisConf.Valid (redis : RedisConf) : Prop where
  port_pos : 0 < redis.port
  port_le : redis.port ≤ 65535
  db_nonneg : 0 ≤ redis.db
  ttl_nonneg : 0 ≤ redis.ttl

variable {ngx}

theorem redisParam_valid (hlaw : ngx.Lawful) {alloc : Bool} {redis redis' : RedisConf}
    {v : Bytes} (h : redis.Valid)
    (hacc : redisParam ngx alloc redis v = (none, redis')) : redis'.Valid := by
  have hport := h.port_pos
  have hport' := h.port_le
  have hdb := h.db_nonneg
  have httl := h.ttl_nonneg
  simp only [redisParam] at hacc
  split at hacc
  · split at hacc <;> cases hacc
    exact ⟨hport, hport', hdb, httl⟩
  split at hacc
  · split at hacc <;> cases hacc
    exact ⟨by simp only; omega, by simp only; omega, hdb, httl⟩
  split at hacc
  · split at hacc <;> cases hacc
    exact ⟨hport, hport', by simp only; omega, httl⟩
  split at hacc
  · rename_i s _
    have hge := hlaw.parseTime_ge s
    split at hacc <;> cases hacc
    exact ⟨hport, hport', hdb, by simp only at *; omega⟩
  split at hacc
  · split at hacc <;> cases hacc
    exact ⟨hport, hport', hdb, httl⟩
  split at hacc
  · split at hacc <;> cases hacc
    exact ⟨hport, hport', hdb, httl⟩
  · cases hacc

theorem redisParams_valid (hlaw : ngx.Lawful) {o : ZoneAlloc} {i : Nat} {args : List Bytes}
    {redis redis' : RedisConf} (h : redis.Valid)
    (hacc : redisParams ngx o i args redis = (none, redis')) : redis'.Valid := by
  induction args generalizing i redis with
  | nil =>
    cases hacc
    exact h
  | cons v vs ih =>
    rw [redisParams] at hacc
    split at hacc
    · cases hacc
    · rename_i redis₁ hparam
      exact ih (redisParam_valid hlaw h hparam) hacc

/-- **The settings of an accepted Redis zone are valid.** -/
theorem redisSettings_valid (hlaw : ngx.Lawful) {o : ZoneAlloc} {args : List Bytes}
    {redis : RedisConf} (hacc : redisSettings ngx o args = (none, redis)) : redis.Valid := by
  rw [redisSettings] at hacc
  split at hacc
  · cases hacc
  · rename_i redis₁ hparams
    have hvalid := redisParams_valid hlaw (by constructor <;> decide) hparams
    split at hacc
    · split at hacc
      · cases hacc
        exact ⟨hvalid.port_pos, hvalid.port_le, hvalid.db_nonneg, hvalid.ttl_nonneg⟩
      · cases hacc
    · cases hacc
      exact hvalid

end

end NgxKeyval
