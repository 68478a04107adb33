import NgxKeyval.Conf.Variable
import NgxKeyval.Library.Machine

/-!
# Reading a configuration

The directives of both modules, http and stream, are read one after the other, in whatever order
they stand in the configuration.  `directiveStep` is one of them; a configuration is accepted when
every step is.

A `keyval` directive ends by handing the address of its variable record to nginx, in the `data` of
the nginx variable it defines (`ngx_http_keyval_conf_set_variable`); a later directive for the same
nginx variable replaces it.

* `Directive.decl` is what a zone directive declares, read off its text.
* `zone_accepted` says that an accepted zone directive appends one record, and that the record is
  what was declared.
* `keyval_accepted` says that an accepted `keyval` directive appends one variable, and touches at
  most the segment pointer of one zone record.
-/

set_option autoImplicit false

namespace NgxKeyval

/-- A `keyval` directive: its three arguments, and everything it reads from outside. -/
structure Keyval where
  key : Bytes
  var : Bytes
  zone : Bytes
  /-- `ngx_http_get_variable_index` -/
  getIndex : Nat → Bytes → Option Nat
  /-- The nginx variable that `ngx_http_add_variable` answers with. -/
  slot : Option Nat
  alloc : VarAlloc

/-- The zone it names. -/
def Keyval.zoneName (k : Keyval) : Bytes := k.zone.drop 5

/-- A directive. -/
inductive Directive where
  /-- `keyval_zone` -/
  | zone (first : Bytes) (args : List Bytes) (o : ZoneAlloc)
  /-- `keyval_zone_redis` -/
  | zoneRedis (first : Bytes) (args : List Bytes) (o : ZoneAlloc)
  /-- `keyval` -/
  | keyval (k : Keyval)

/-- What the directives of both modules have built so far. -/
structure Cycle where
  /-- The main configuration of each module. -/
  conf : Tag → Conf
  /-- `cycle->shared_memory` -/
  shared : Segments
  /-- The variable record each nginx variable refers to, by module. -/
  data : Tag → Nat → Option Ptr

/-- A configuration of which nothing has been read, with the segments of other modules. -/
def Cycle.init (shared : Segments) : Cycle := ⟨fun _ ↦ .empty, shared, fun _ _ ↦ none⟩

/-- Put back what a directive of a module returns. -/
def Cycle.put (c : Cycle) (tag : Tag) (conf : Conf) (shared : Segments) : Cycle :=
  { c with conf := Function.update c.conf tag conf, shared := shared }

/-- `ngx_http_keyval_conf_set_variable`, and the same for stream. -/
def moduleConfSetVariable (ngx : NgxConf) (tag : Tag) (c : Cycle) (k : Keyval) :
    Option ConfError × Cycle :=
  match confSetVariable ngx tag k.getIndex (c.conf tag) c.shared k.key k.var k.zone k.alloc with
  | (.error e, conf, shared) => (some e, c.put tag conf shared)
  | (.ok p, conf, shared) =>
    let c := c.put tag conf shared
    match k.slot with
    | none => (some (.text "failed to add variable"), c)
    | some n =>
      (none, { c with
        data := Function.update c.data tag (Function.update (c.data tag) n (some p)) })

/-- One directive of a module. -/
def directiveStep (ngx : NgxConf) (c : Cycle) : Tag × Directive → Option ConfError × Cycle
  | (tag, .zone first args o) =>
    let r := confSetZone ngx tag (c.conf tag) c.shared first args o
    (r.1, c.put tag r.2.1 r.2.2)
  | (tag, .zoneRedis first args o) =>
    let r := confSetZoneRedis ngx tag (c.conf tag) c.shared first args o
    (r.1, c.put tag r.2.1 r.2.2)
  | (tag, .keyval k) => moduleConfSetVariable ngx tag c k

/-- The configuration after these directives. -/
abbrev readConf (ngx : NgxConf) (c : Cycle) (ds : List (Tag × Directive)) : Cycle :=
  Machine.final (directiveStep ngx) c ds

/-- Every directive is accepted. -/
abbrev Accepted (ngx : NgxConf) (c : Cycle) (ds : List (Tag × Directive)) : Prop :=
  Machine.Meets (fun c d ↦ (directiveStep ngx c d).1 = none) (directiveStep ngx) c ds

/-! ## What is declared -/

/-- What a zone directive declares. -/
structure Decl where
  name : Bytes
  type : ZoneType
  /-- The settings, of a Redis zone. -/
  redis : RedisConf
  deriving DecidableEq, Repr

/-- The store operations of a type of zone. -/
def ZoneType.ops : ZoneType → StoreOps
  | .shm => .shm
  | .redis => .redis

/-- A record is what was declared. -/
structure Decl.Describes (d : Decl) (z : Zone) : Prop where
  name : z.name = d.name
  type : z.type = d.type
  store : z.store = some d.type.ops
  redis : d.type = .redis → z.redis = d.redis

/-- What a directive declares. -/
def Directive.decl (ngx : NgxConf) : Directive → Option Decl
  | .zone first _ _ =>
    match zoneNameSize ngx first with
    | .ok (name, _) => some ⟨name, .shm, redisDefault⟩
    | .error _ => none
  | .zoneRedis first args o =>
    some ⟨if strncmpEq first "zone=" 5 then first.drop 5 else [], .redis,
      (redisSettings ngx o args).2⟩
  | .keyval .. => none

/-- How memory answers a zone directive that finds the zones array full. -/
def Directive.push : Directive → Option PushOutcome
  | .zone _ _ o => some o.push
  | .zoneRedis _ _ o => some o.push
  | .keyval _ => none

/-- What the directives of a module declare, in order. -/
def declared (ngx : NgxConf) (tag : Tag) (ds : List (Tag × Directive)) : List Decl :=
  ds.filterMap fun d ↦ if d.1 = tag then d.2.decl ngx else none

/-! ## Segments -/

/-- Which segment has a name. -/
def segmentOf (shared : Segments) (name : Bytes) : Option Nat :=
  shared.findIdx? (·.name = name)

/-- No name loses its segment. -/
def Keeps (shared shared' : Segments) : Prop :=
  ∀ name i, segmentOf shared name = some i → segmentOf shared' name = some i

theorem Keeps.refl (shared : Segments) : Keeps shared shared := fun _ _ h ↦ h

theorem Keeps.trans {a b c : Segments} (h : Keeps a b) (h' : Keeps b c) : Keeps a c :=
  fun name i hi ↦ h' name i (h name i hi)

theorem keeps_of_names {shared shared' : Segments}
    (h : shared'.map ShmSegment.name = shared.map ShmSegment.name) : Keeps shared shared' := by
  intro name i hi
  have hmap : ∀ l : Segments, segmentOf l name =
      (l.map ShmSegment.name).findIdx? fun n ↦ decide (n = name) := by
    intro l
    rw [List.findIdx?_map]
    rfl
  rw [hmap, h, ← hmap, hi]

theorem map_modify_of_eq {β : Type} (shared : Segments) (i : Nat) (f : ShmSegment → ShmSegment)
    (g : ShmSegment → β) (h : ∀ seg, g (f seg) = g seg) :
    (shared.modify i f).map g = shared.map g := by
  induction shared generalizing i with
  | nil => simp
  | cons seg shared ih => cases i <;> simp [h, ih]

theorem map_set_of_eq {β : Type} {shared : Segments} {i : Nat} {seg seg' : ShmSegment}
    (hseg : shared[i]? = some seg) (f : ShmSegment → β) (hf : f seg' = f seg) :
    (shared.set i seg').map f = shared.map f := by
  have hsame : (shared.map f)[i]? = some (f seg) := by
    rw [List.getElem?_map, hseg, Option.map_some]
  obtain ⟨hlt, hval⟩ := List.getElem?_eq_some_iff.mp hsame
  rw [List.map_set, hf, ← hval, List.set_getElem_self]

/-- **What registering a segment does**: nothing, if it is refused; or the size of the segment of
that name and tag may be filled in; or a new one is added behind the others. -/
theorem sharedMemoryAdd_cases {shared shared' : Segments} {name : Bytes} {size : Int} {tag : Tag}
    {alloc : Bool} {r : Option Nat}
    (h : sharedMemoryAdd shared name size tag alloc = (r, shared')) :
    (r = none ∧ shared' = shared) ∨
    (∃ i seg seg', segmentOf shared name = some i ∧ shared[i]? = some seg ∧ seg.tag = tag ∧
      seg'.name = seg.name ∧ seg'.tag = seg.tag ∧ shared' = shared.set i seg' ∧
      (r = none ∨ r = some i)) ∨
    (segmentOf shared name = none ∧ r = some shared.length ∧
      shared' = shared ++ [⟨name, size, tag, none, none⟩]) := by
  rw [sharedMemoryAdd] at h
  split at h
  · rename_i i hi
    split at h
    · cases h
      exact Or.inl ⟨rfl, rfl⟩
    · rename_i seg hseg
      split at h
      · cases h
        exact Or.inl ⟨rfl, rfl⟩
      · rename_i htag
        have hsame : (if seg.size = 0 then { seg with size := size } else seg).name = seg.name ∧
            (if seg.size = 0 then { seg with size := size } else seg).tag = seg.tag := by
          split <;> exact ⟨rfl, rfl⟩
        simp only at h
        generalize (if seg.size = 0 then { seg with size := size } else seg) = seg' at h hsame
        refine Or.inr (Or.inl ⟨i, seg, seg', hi, hseg, not_not.mp htag, hsame.1, hsame.2, ?_⟩)
        split at h
        · cases h
          exact ⟨rfl, Or.inl rfl⟩
        · cases h
          exact ⟨rfl, Or.inr rfl⟩
  · rename_i hnone
    split at h
    · cases h
      exact Or.inr (Or.inr ⟨hnone, rfl, rfl⟩)
    · cases h
      exact Or.inl ⟨rfl, rfl⟩

theorem segmentOf_append (shared : Segments) (seg : ShmSegment) (name : Bytes) :
    segmentOf (shared ++ [seg]) name =
      (segmentOf shared name).or (if seg.name = name then some shared.length else none) := by
  rw [segmentOf, List.findIdx?_append]
  by_cases hn : seg.name = name <;> simp [segmentOf, List.findIdx?_singleton, hn]

/-- **Registering a segment** answers with the segment of that name, and moves none. -/
theorem sharedMemoryAdd_spec {shared shared' : Segments} {name : Bytes} {size : Int} {tag : Tag}
    {alloc : Bool} {r : Option Nat}
    (h : sharedMemoryAdd shared name size tag alloc = (r, shared')) :
    Keeps shared shared' ∧ ∀ i, r = some i → segmentOf shared' name = some i := by
  rcases sharedMemoryAdd_cases h with ⟨rfl, rfl⟩ |
    ⟨i, seg, seg', hi, hseg, -, hname, -, rfl, hr⟩ | ⟨hnone, rfl, rfl⟩
  · exact ⟨Keeps.refl _, nofun⟩
  · have hkeeps : Keeps shared (shared.set i seg') :=
      keeps_of_names (map_set_of_eq hseg ShmSegment.name hname)
    refine ⟨hkeeps, fun j hj ↦ ?_⟩
    rcases hr with rfl | rfl
    · cases hj
    · cases hj
      exact hkeeps name i hi
  · refine ⟨fun n i hi ↦ ?_, fun i hi ↦ ?_⟩
    · rw [segmentOf_append, hi, Option.some_or]
    · rw [segmentOf_append, hnone, Option.none_or, if_pos rfl, ← hi]

/-! ## One directive -/

section

variable {ngx : NgxConf} {c c' : Cycle} {tag : Tag} {conf : Conf}

/-- **What an accepted zone directive does**: it pushes one record, which is what it declares, under
a name that no other record has. -/
theorem zone_accepted {d : Directive} {decl : Decl} (hdecl : d.decl ngx = some decl)
    (h : directiveStep ngx c (tag, d) = (none, c')) :
    ∃ o zs zs' p z, zonesOrCreate (c.conf tag) o 1 = some zs ∧
      confZoneGet ngx { c.conf tag with zones := some zs } decl.name = none ∧
      zs.push o.push = some (p, zs') ∧ decl.Describes z ∧ decl.name ≠ [] ∧
      c'.conf = Function.update c.conf tag { c.conf tag with zones := some (zs'.set p z) } ∧
      c'.data = c.data ∧ Keeps c.shared c'.shared ∧ d.push = some o.push := by
  cases d with
  | zone first args o =>
    rcases hset : confSetZone ngx tag (c.conf tag) c.shared first args o with ⟨e, conf', shared'⟩
    simp only [directiveStep, hset, Prod.mk.injEq] at h
    obtain ⟨rfl, rfl⟩ := h
    obtain ⟨name, size, zs, zs', p, z, hname, hne, hzs, hget, hpush, hzn, hzt, hzst, rfl, i,
      shared₁, ttl, hshm, -, rfl⟩ := confSetZone_ok hset
    rw [Directive.decl, hname] at hdecl
    obtain rfl := Option.some.inj hdecl
    refine ⟨o, zs, zs', p, z, hzs, hget, hpush, ⟨hzn, hzt, hzst, fun hty ↦ by cases hty⟩, hne, rfl,
      rfl, (sharedMemoryAdd_spec hshm).1.trans (keeps_of_names ?_), rfl⟩
    exact map_modify_of_eq shared₁ i _ ShmSegment.name fun _ ↦ rfl
  | zoneRedis first args o =>
    rcases hset : confSetZoneRedis ngx tag (c.conf tag) c.shared first args o with
      ⟨e, conf', shared'⟩
    simp only [directiveStep, hset, Prod.mk.injEq] at h
    obtain ⟨rfl, rfl⟩ := h
    obtain ⟨name, zs, zs', p, z, rfl, hne, hzs, hget, hpush, hzn, hzt, hzst, hredis, rfl, i,
      shared₁, hshm, rfl⟩ := confSetZoneRedis_ok hset
    obtain rfl := Option.some.inj hdecl
    refine ⟨o, zs, zs', p, z, hzs, hget, hpush, ⟨hzn, hzt, hzst, fun _ ↦ ?_⟩, hne, rfl,
      rfl, (sharedMemoryAdd_spec hshm).1.trans (keeps_of_names ?_), rfl⟩
    · rw [hredis]
    · exact map_modify_of_eq shared₁ i _ ShmSegment.name fun _ ↦ rfl
  | keyval => cases hdecl

/-- **What an accepted `keyval` does**: it pushes one variable, with its compiled key and the zone
it names, and hands its address to nginx; a shared memory zone gets the segment of its name. -/
theorem keyval_accepted {k : Keyval} (h : directiveStep ngx c (tag, .keyval k) = (none, c')) :
    ∃ vars vars' zones q keyString indexes n p zones', k.slot = some n ∧
      varsOrCreate (c.conf tag) k.alloc = some vars ∧ vars.push k.alloc.push = some (p, vars') ∧
      compileKey k.getIndex k.alloc k.key = .ok (keyString, indexes) ∧
      (c.conf tag).zones = some zones ∧ confZoneGet ngx (c.conf tag) k.zoneName = some q ∧
      ((zones.mem q).type = .redis ∧ zones' = zones ∧ c'.shared = c.shared ∨
        ∃ i, (zones.mem q).type = .shm ∧
          sharedMemoryAdd c.shared k.zoneName 0 tag k.alloc.segment = (some i, c'.shared) ∧
          zones' = zones.set q { zones.mem q with shm := some i }) ∧
      c'.conf = Function.update c.conf tag
        ⟨some (vars'.set p ⟨indexes, keyString, k.var.drop 1, some q⟩), some zones'⟩ ∧
      c'.data = Function.update c.data tag (Function.update (c.data tag) n (some p)) := by
  rw [directiveStep, moduleConfSetVariable] at h
  rcases hset : confSetVariable ngx tag k.getIndex (c.conf tag) c.shared k.key k.var k.zone k.alloc
    with ⟨e | p, conf', shared'⟩
  · simp [hset] at h
  · obtain ⟨vars, vars', zones, q, keyString, indexes, hvars, hpush, hkey, hzones, hget, hvars',
      hrest⟩ := confSetVariable_ok hset
    cases hslot : k.slot with
    | none => simp [hset, hslot] at h
    | some n =>
      simp only [hset, hslot, Prod.mk.injEq] at h
      obtain ⟨-, rfl⟩ := h
      obtain ⟨vs, zs⟩ := conf'
      obtain rfl : vs = _ := hvars'
      rcases hrest with ⟨htype, hz, rfl⟩ | ⟨i, htype, hshm, hz⟩
      · obtain rfl : zs = _ := hz
        exact ⟨vars, vars', zones, q, keyString, indexes, n, p, _, rfl, hvars, hpush, hkey, hzones,
          hget, Or.inl ⟨htype, rfl, rfl⟩, rfl, rfl⟩
      · obtain rfl : zs = _ := hz
        exact ⟨vars, vars', zones, q, keyString, indexes, n, p, _, rfl, hvars, hpush, hkey, hzones,
          hget, Or.inr ⟨i, htype, hshm, rfl⟩, rfl, rfl⟩

theorem conf_step_of_ne {t : Tag} {d : Directive} {e : Option ConfError}
    (h : directiveStep ngx c (tag, d) = (e, c')) (ht : t ≠ tag) : c'.conf t = c.conf t := by
  have hother : (directiveStep ngx c (tag, d)).2.conf t = c.conf t := by
    cases d with
    | zone first args o => exact Function.update_of_ne ht ..
    | zoneRedis first args o => exact Function.update_of_ne ht ..
    | keyval k =>
      rw [directiveStep, moduleConfSetVariable]
      split
      · exact Function.update_of_ne ht ..
      · simp only
        split <;> exact Function.update_of_ne ht ..
  rw [h] at hother
  exact hother

/-- An accepted directive declares a zone or is a `keyval`. -/
theorem accepted_cases {d : Directive} (h : directiveStep ngx c (tag, d) = (none, c')) :
    (∃ decl, d.decl ngx = some decl) ∨ ∃ k, d = .keyval k := by
  cases d with
  | zone first args o =>
    left
    rcases hname : zoneNameSize ngx first with e | ⟨name, size⟩
    · simp [directiveStep, confSetZone, hname] at h
    · exact ⟨_, by rw [Directive.decl, hname]⟩
  | zoneRedis first args o => exact Or.inl ⟨_, rfl⟩
  | keyval k => exact Or.inr ⟨k, rfl⟩

theorem keeps_step {d : Directive} (h : directiveStep ngx c (tag, d) = (none, c')) :
    Keeps c.shared c'.shared := by
  rcases accepted_cases h with ⟨decl, hdecl⟩ | ⟨k, rfl⟩
  · obtain ⟨o, zs, zs', p, z, -, -, -, -, -, -, -, hkeeps, -⟩ := zone_accepted hdecl h
    exact hkeeps
  · obtain ⟨vars, vars', zones, q, keyString, indexes, n, p, zones', -, -, -, -, -, -, hrest, -⟩ :=
      keyval_accepted h
    rcases hrest with ⟨-, -, hsame⟩ | ⟨i, -, hshm, -⟩
    · rw [hsame]
      exact Keeps.refl _
    · exact (sharedMemoryAdd_spec hshm).1

theorem confZoneGet_ptr {zones : GrowArray Zone} {name : Bytes} {q : Ptr}
    (hzones : conf.zones = some zones) (h : confZoneGet ngx conf name = some q) :
    ∃ i < zones.nelts, q = zones.ptr i := by
  rw [confZoneGet, hzones] at h
  obtain ⟨i, hfind, rfl⟩ := Option.map_eq_some_iff.mp h
  exact ⟨i, List.mem_range.mp (List.mem_of_find?_eq_some hfind), rfl⟩

theorem name_of_confZoneGet (hlaw : ngx.Lawful) {zones : GrowArray Zone} {name : Bytes} {q : Ptr}
    (hzones : conf.zones = some zones) (h : confZoneGet ngx conf name = some q) :
    (∃ i < zones.nelts, q = zones.ptr i) ∧ (zones.mem q).name = name := by
  refine ⟨confZoneGet_ptr hzones h, ?_⟩
  rw [confZoneGet, hzones] at h
  obtain ⟨i, hfind, rfl⟩ := Option.map_eq_some_iff.mp h
  have htest := List.find?_some hfind
  exact (hlaw.memn2cmp_eq_zero _ _).mp (of_decide_eq_true htest)

end

end NgxKeyval
