import NgxKeyval.Conf.Contexts
import NgxKeyval.Conf.RedisGrammar
import NgxKeyval.Conf.Rejected
import NgxKeyval.Conf.Served

/-!
# Which configurations are accepted

A configuration is read directive by directive, by parsers that work on C strings, growable arrays
and the segments registered so far.  This file says which lists of directives pass, without any of
these.

* `Directive.WellFormed` is what a directive must look like on its own.
* `WellFormedConf` adds what the directives must be like together: the names of all zones are
  different, and a `keyval` stands behind the zone it names.
* `wellFormed_of_accepted` — nothing else is accepted, whatever memory answers.
* `accepted_iff_wellFormed` — with enough memory, all of it is.
-/

set_option autoImplicit false

namespace NgxKeyval

/-! ## A directive on its own -/

/-- What a `keyval` directive must look like. -/
structure Keyval.WellFormed (k : Keyval) : Prop where
  key : k.key ≠ []
  var : ∃ name, k.var = dollar :: name ∧ name ≠ []
  zone : ∃ name, k.zone = lit "zone=" ++ name ∧ name ≠ []
  /-- Each name in the key has an index. -/
  names : ∀ r ∈ (references k.key).zipIdx, k.getIndex r.2 r.1 ≠ none
  /-- Not every reference is a bare `$`. -/
  named : dollar ∈ k.key → ∃ name ∈ references k.key, name ≠ []
  /-- nginx adds the variable. -/
  slot : k.slot ≠ none

/-- What a directive must look like. -/
def Directive.WellFormed (ngx : NgxConf) : Directive → Prop
  | .zone first args _ =>
    (∃ name size, ZoneFirst ngx first name size ∧ 0 ∉ name) ∧ ∃ ttl, ZoneParamsOk ngx args ttl
  | .zoneRedis first args _ =>
    (∃ name, first = lit "zone=" ++ name ∧ name ≠ []) ∧ ∀ v ∈ args, RedisArg ngx v
  | .keyval k => k.WellFormed

/-- There is memory for everything a `keyval` directive asks for. -/
structure VarAlloc.Enough (o : VarAlloc) : Prop where
  array : o.array = true
  push : o.push ≠ .fail
  indexes : o.indexes = true
  keyString : o.keyString = true
  variableName : o.variableName = true
  indexPush : ∀ i, o.indexPush i = true
  segment : o.segment = true

/-- There is memory for everything a directive asks for. -/
def Directive.Enough : Directive → Prop
  | .zone _ _ o => o.Enough
  | .zoneRedis _ _ o => o.Enough
  | .keyval k => k.alloc.Enough

section

variable {ngx : NgxConf} {first name : Bytes} {v : Bytes} {size : Int}

/-- The search for a character ends at a `NUL`. -/
theorem strchr_split_iff {c : UInt8} (hc : c ≠ 0) {p : Nat} :
    strchr v c = some p ↔ ∃ a b, v = a ++ c :: b ∧ c ∉ a ∧ (0 : UInt8) ∉ a ∧ a.length = p := by
  have hnul : (0 : UInt8) ∉ cString v := fun hmem ↦
    absurd (List.mem_takeWhile_imp hmem) (by decide)
  have hsame : strchr v c = strchr (cString v) c := by
    rw [strchr, strchr, cString_of_notMem hnul]
  rw [hsame, strchr_eq_some_iff hnul]
  constructor
  · rintro ⟨a, b, heq, hnot, rfl⟩
    refine ⟨a, b ++ v.dropWhile (· ≠ 0), ?_, hnot, fun hmem ↦ ?_, rfl⟩
    · rw [← List.cons_append, ← List.append_assoc, ← heq]
      exact List.takeWhile_append_dropWhile.symm
    · exact hnul (heq ▸ List.mem_append_left _ hmem)
  · rintro ⟨a, b, rfl, hnot, hfree, rfl⟩
    refine ⟨a, cString b, ?_, hnot, rfl⟩
    rw [cString, List.takeWhile_append_of_pos, List.takeWhile_cons_of_pos]
    · rfl
    · exact decide_eq_true hc
    · intro x hx
      exact decide_eq_true fun hzero ↦ hfree (hzero ▸ hx)

theorem zoneNameSize_split (ngx : NgxConf) {text : Bytes} (hcolon : 58 ∉ name)
    (hnul : (0 : UInt8) ∉ name) :
    zoneNameSize ngx (lit "zone=" ++ (name ++ 58 :: text)) = .ok (name, size) ↔
      size = ngx.parseSize text ∧ size ≠ -1 ∧ 8 * ngx.pagesize ≤ size := by
  have hlen : (lit "zone=").length = 5 := rfl
  have hfind : strchr (name ++ 58 :: text) 58 = some name.length :=
    (strchr_split_iff (by decide)).mpr ⟨name, text, rfl, hcolon, hnul, rfl⟩
  have hdrop : (name ++ 58 :: text).drop (name.length + 1) = text := by
    rw [← List.drop_drop, List.drop_left]
    rfl
  rw [zoneNameSize, if_pos ((strncmpEq_iff (by decide) hlen).mpr ⟨_, rfl⟩)]
  simp only [List.drop_left' hlen, hfind, hdrop, List.take_left]
  constructor
  · intro hok
    split at hok
    · contradiction
    · rename_i hvalid
      split at hok
      · contradiction
      · rename_i hlarge
        obtain rfl : ngx.parseSize text = size := by simpa using hok
        exact ⟨rfl, hvalid, Int.not_lt.mp hlarge⟩
  · rintro ⟨rfl, hvalid, hlarge⟩
    rw [if_neg hvalid, if_neg (Int.not_lt.mpr hlarge)]

/-- **The first argument of `keyval_zone`**, with whatever bytes in it. -/
theorem zoneNameSize_eq_ok_iff (hne : name ≠ []) :
    zoneNameSize ngx first = .ok (name, size) ↔ ZoneFirst ngx first name size ∧ 0 ∉ name := by
  constructor
  · intro hok
    obtain ⟨text, rfl, hcolon, hnul⟩ : ∃ text, first = lit "zone=" ++ (name ++ 58 :: text) ∧
        58 ∉ name ∧ (0 : UInt8) ∉ name := by
      rw [zoneNameSize] at hok
      split at hok
      · rename_i htest
        obtain ⟨rest, rfl⟩ := (strncmpEq_iff (by decide) rfl).mp htest
        have hlen : (lit "zone=").length = 5 := rfl
        simp only [List.drop_left' hlen] at hok
        split at hok
        · contradiction
        · rename_i p hp
          obtain ⟨a, b, rfl, hnot, hfree, rfl⟩ := (strchr_split_iff (by decide)).mp hp
          rw [List.take_left] at hok
          split at hok
          · contradiction
          · split at hok
            · contradiction
            · obtain ⟨rfl, -⟩ := by simpa using hok
              exact ⟨b, rfl, hnot, hfree⟩
      · obtain ⟨rfl, -⟩ := by simpa using hok
        contradiction
    obtain ⟨hsize, hvalid, hlarge⟩ := (zoneNameSize_split ngx hcolon hnul).mp hok
    exact ⟨⟨text, rfl, hne, hcolon, hsize, hvalid, hlarge⟩, hnul⟩
  · rintro ⟨⟨text, rfl, -, hcolon, hsize, hvalid, hlarge⟩, hnul⟩
    exact (zoneNameSize_split ngx hcolon hnul).mpr ⟨hsize, hvalid, hlarge⟩

theorem key_form_iff {key : String} {n : Nat} (h : (0 : UInt8) ∉ lit key)
    (hn : (lit key).length = n) :
    n + 1 ≤ v.length ∧ strncmpEq v key n = true ↔ ∃ s, v = lit key ++ s ∧ s ≠ [] := by
  rw [strncmpEq_iff h hn]
  constructor
  · rintro ⟨hlen, s, rfl⟩
    refine ⟨s, rfl, ?_⟩
    rintro rfl
    rw [List.append_nil, hn] at hlen
    omega
  · rintro ⟨s, rfl, hne⟩
    have hpos : 0 < s.length := List.length_pos_iff.mpr hne
    refine ⟨?_, s, rfl⟩
    rw [List.length_append, hn]
    omega

theorem var_form_iff : 2 ≤ v.length ∧ v.head? = some dollar ↔ ∃ s, v = dollar :: s ∧ s ≠ [] := by
  cases v with
  | nil => simp
  | cons c s =>
    simp only [List.length_cons, List.head?_cons, Option.some.injEq, List.cons.injEq]
    constructor
    · rintro ⟨hlen, rfl⟩
      exact ⟨s, ⟨rfl, rfl⟩, List.length_pos_iff.mp (by omega)⟩
    · rintro ⟨s', ⟨rfl, rfl⟩, hne⟩
      have hpos : 0 < s.length := List.length_pos_iff.mpr hne
      exact ⟨by omega, rfl⟩

end

section

variable {conf : Conf} {k : Keyval}

theorem references_eq_nil {key : Bytes} (h : dollar ∉ key) : references key = [] := by
  rw [references, tokenize_of_notMem h, List.filterMap_map, List.filterMap_eq_nil_iff]
  exact fun _ _ ↦ rfl

/-- **A `keyval` that gets as far as its zone** is well formed, if nginx adds its variable. -/
theorem ReachesZone.wellFormed (h : ReachesZone k.getIndex conf k.key k.var k.zone k.alloc)
    (hslot : k.slot ≠ none) : k.WellFormed where
  key := h.key_ne
  var := var_form_iff.mp h.var_form
  zone := (key_form_iff (by decide) rfl).mp h.zone_form
  names := by
    intro r hr
    by_cases hdollar : dollar ∈ k.key
    · exact ((h.compiles hdollar).2.2.1 r hr).2
    · rw [references_eq_nil hdollar] at hr
      contradiction
  named hdollar := (h.compiles hdollar).2.2.2
  slot := hslot

theorem Keyval.WellFormed.reachesZone (h : k.WellFormed) (ho : k.alloc.Enough) (conf : Conf) :
    ReachesZone k.getIndex conf k.key k.var k.zone k.alloc where
  key_ne := h.key
  var_form := var_form_iff.mpr h.var
  zone_form := (key_form_iff (by decide) rfl).mpr h.zone
  array _ := ho.array
  push _ _ _ := ho.push
  indexes := ho.indexes
  compiles hdollar :=
    ⟨ho.keyString, ho.variableName, fun r hr ↦ ⟨ho.indexPush r.2, h.names r hr⟩, h.named hdollar⟩

end

/-! ## The directives together -/

/-- What a configuration must look like. -/
structure WellFormedConf (ngx : NgxConf) (ds : List (Tag × Directive)) : Prop where
  /-- Each directive on its own. -/
  forms : ∀ e ∈ ds, e.2.WellFormed ngx
  /-- The names of all zones of both modules are different. -/
  distinct : ((declared ngx .http ds ++ declared ngx .stream ds).map Decl.name).Nodup
  /-- A `keyval` stands behind the zone of its module that it names. -/
  bound : ∀ pre tag k post, ds = pre ++ (tag, .keyval k) :: post →
    ∃ decl ∈ declared ngx tag pre, decl.name = k.zoneName

section

variable {ngx : NgxConf} {ds : List (Tag × Directive)} {c c' : Cycle} {tag : Tag} {d : Directive}
  {shared shared' : Segments} {decl : Decl}

/-- **A directive that is accepted** is well formed. -/
theorem wellFormed_of_step (h : directiveStep ngx c (tag, d) = (none, c')) : d.WellFormed ngx := by
  cases d with
  | zone first args o =>
    rcases hset : confSetZone ngx tag (c.conf tag) c.shared first args o with ⟨e, conf', shared'⟩
    simp only [directiveStep, hset, Prod.mk.injEq] at h
    obtain ⟨rfl, rfl⟩ := h
    obtain ⟨name, size, zs, zs', p, z, hname, hne, -, -, -, -, -, -, -, i, shared₁, ttl, -, hparams,
      -⟩ := confSetZone_ok hset
    exact ⟨⟨name, size, (zoneNameSize_eq_ok_iff hne).mp hname⟩, ttl, zoneParams_ok_iff.mp hparams⟩
  | zoneRedis first args o =>
    rcases hset : confSetZoneRedis ngx tag (c.conf tag) c.shared first args o with
      ⟨e, conf', shared'⟩
    simp only [directiveStep, hset, Prod.mk.injEq] at h
    obtain ⟨rfl, rfl⟩ := h
    have hfirst : ∃ name, first = lit "zone=" ++ name ∧ name ≠ [] := by
      by_contra hno
      exact confSetZoneRedis_of_not_first hno (congrArg Prod.fst hset)
    obtain ⟨name, zs, zs', p, z, -, -, -, -, -, -, -, -, hsettings, -⟩ := confSetZoneRedis_ok hset
    exact ⟨hfirst, (redisSettings_ok hsettings).1⟩
  | keyval k =>
    obtain ⟨-, -, -, -, -, -, n, -, -, hslot, -⟩ := keyval_accepted h
    rw [directiveStep, moduleConfSetVariable] at h
    rcases confSetVariable_cases ngx tag k.getIndex (c.conf tag) c.shared k.key k.var k.zone k.alloc
      with ⟨hreach, -⟩ | ⟨-, e, vars, -, herr⟩
    · exact hreach.wellFormed (hslot ▸ Option.some_ne_none n)
    · simp [herr] at h

/-- **What is accepted is well formed**, whatever memory answers. -/
theorem wellFormed_of_accepted (hlaw : ngx.Lawful) (hacc : Accepted ngx (.init shared) ds) :
    WellFormedConf ngx ds where
  forms := by
    rintro ⟨tag, d⟩ he
    obtain ⟨pre, post, rfl⟩ := List.append_of_mem he
    exact wellFormed_of_step (Prod.ext (Machine.meets_append.mp hacc).2.1 rfl)
  distinct := declared_nodup hlaw hacc
  bound := by
    rintro pre tag k post rfl
    obtain ⟨hpre, hstep, -⟩ := Machine.meets_append.mp hacc
    obtain ⟨-, -, -, -, -, i, decl, -, -, -, -, hdecl, hname, -⟩ :=
      keyval_at hlaw (holds_of_accepted hlaw hpre) (Prod.ext hstep rfl)
    exact ⟨decl, List.mem_of_getElem? hdecl, hname⟩

/-! ## Segments of other modules -/

theorem segmentOf_of_add {name : Bytes} {size : Int} {alloc : Bool} {r : Option Nat}
    (h : sharedMemoryAdd shared name size tag alloc = (r, shared')) {other : Bytes}
    (hother : segmentOf shared' other ≠ none) : segmentOf shared other ≠ none ∨ other = name := by
  rcases sharedMemoryAdd_cases h with ⟨-, rfl⟩ | ⟨i, seg, seg', -, hseg, -, hname, -, rfl, -⟩ |
    ⟨hnone, -, rfl⟩
  · exact Or.inl hother
  · obtain ⟨j, hj⟩ := Option.ne_none_iff_exists'.mp hother
    have hback : Keeps (shared.set i seg') shared :=
      keeps_of_names (map_set_of_eq hseg ShmSegment.name hname).symm
    exact Or.inl (hback other j hj ▸ Option.some_ne_none j)
  · rw [segmentOf_append] at hother
    by_cases heq : name = other
    · exact Or.inr heq.symm
    · rw [if_neg heq, Option.or_none] at hother
      exact Or.inl hother

theorem segmentOf_of_modify {i : Nat} {f : ShmSegment → ShmSegment} {other : Bytes}
    (hother : segmentOf (shared.modify i f) other ≠ none)
    (hf : ∀ seg, (f seg).name = seg.name) : segmentOf shared other ≠ none :=
  segmentOf_modify shared i hf other ▸ hother

/-- The names of segments are those of other modules and of zones. -/
def Cycle.Registered (ngx : NgxConf) (shared : Segments) (ds : List (Tag × Directive))
    (c : Cycle) : Prop :=
  ∀ name, segmentOf c.shared name ≠ none →
    segmentOf shared name ≠ none ∨ ∃ tag, ∃ decl ∈ declared ngx tag ds, decl.name = name

theorem segmentOf_of_zone (hdecl : d.decl ngx = some decl)
    (h : directiveStep ngx c (tag, d) = (none, c')) {other : Bytes}
    (hother : segmentOf c'.shared other ≠ none) :
    segmentOf c.shared other ≠ none ∨ other = decl.name := by
  cases d with
  | zone first args o =>
    rcases hset : confSetZone ngx tag (c.conf tag) c.shared first args o with ⟨e, conf', shared'⟩
    simp only [directiveStep, hset, Prod.mk.injEq] at h
    obtain ⟨rfl, rfl⟩ := h
    obtain ⟨name, size, zs, zs', p, z, hname, -, -, -, -, -, -, -, -, i, shared₁, ttl, hshm, -,
      rfl⟩ := confSetZone_ok hset
    rw [Directive.decl, hname] at hdecl
    obtain rfl := Option.some.inj hdecl
    exact segmentOf_of_add hshm (segmentOf_of_modify hother fun _ ↦ rfl)
  | zoneRedis first args o =>
    rcases hset : confSetZoneRedis ngx tag (c.conf tag) c.shared first args o with
      ⟨e, conf', shared'⟩
    simp only [directiveStep, hset, Prod.mk.injEq] at h
    obtain ⟨rfl, rfl⟩ := h
    obtain ⟨name, zs, zs', p, z, rfl, -, -, -, -, -, -, -, -, -, i, shared₁, hshm, rfl⟩ :=
      confSetZoneRedis_ok hset
    obtain rfl := Option.some.inj hdecl
    exact segmentOf_of_add hshm (segmentOf_of_modify hother fun _ ↦ rfl)
  | keyval => contradiction

/-- **An accepted directive** registers nothing but the name of a zone. -/
theorem Cycle.Registered.step (hlaw : ngx.Lawful) (hholds : c.Holds ngx ds)
    (h : c.Registered ngx shared ds) (hstep : directiveStep ngx c (tag, d) = (none, c')) :
    c'.Registered ngx shared (ds ++ [(tag, d)]) := by
  intro name hname
  have hold : (segmentOf c.shared name ≠ none) →
      segmentOf shared name ≠ none ∨
        ∃ t, ∃ decl ∈ declared ngx t (ds ++ [(tag, d)]), decl.name = name := fun hc ↦ by
    rcases h name hc with hs | ⟨t, decl, hmem, hn⟩
    · exact Or.inl hs
    · exact Or.inr ⟨t, decl, declared_append ds _ ▸ List.mem_append_left _ hmem, hn⟩
  rcases accepted_cases hstep with ⟨decl, hdecl⟩ | ⟨k, rfl⟩
  · rcases segmentOf_of_zone hdecl hstep hname with hc | rfl
    · exact hold hc
    · refine Or.inr ⟨tag, decl, ?_, rfl⟩
      rw [declared_append, declared_singleton_self hdecl]
      exact List.mem_append_right _ List.mem_cons_self
  · obtain ⟨-, -, -, -, -, i, decl, -, -, -, -, hdecl, hzone, -⟩ := keyval_at hlaw hholds hstep
    obtain ⟨vars, vars', zones, q, keyString, indexes, n, p, zones', -, -, -, -, -, -, hrest, -⟩ :=
      keyval_accepted hstep
    rcases hrest with ⟨-, -, hsame⟩ | ⟨j, -, hshm, -⟩
    · exact hold (hsame ▸ hname)
    · rcases segmentOf_of_add hshm hname with hc | rfl
      · exact hold hc
      · refine Or.inr ⟨tag, decl, ?_, hzone⟩
        rw [declared_append]
        exact List.mem_append_left _ (List.mem_of_getElem? hdecl)

/-! ## Well formed configurations are accepted -/

theorem Cycle.Registered.freshName (h : c.Registered ngx shared ds) (hlaw : ngx.Lawful)
    (hholds : c.Holds ngx ds) {name : Bytes} (hother : segmentOf shared name = none)
    (hnew : ∀ tag, ∀ decl ∈ declared ngx tag ds, decl.name ≠ name) (tag : Tag) :
    FreshName ngx (c.conf tag) c.shared name := by
  refine ⟨((hholds tag).lookup hlaw).2 name (hnew tag), ?_⟩
  by_contra hsome
  rcases h name hsome with hs | ⟨t, decl, hmem, hn⟩
  · exact hs hother
  · exact hnew t decl hmem hn

/-- A declared zone has its segment name to itself, and no `keyval` is refused it. -/
theorem Cycle.Claimed.not_refused (h : c.Claimed ngx ds) {decl : Decl}
    (hdecl : decl ∈ declared ngx tag ds) (alloc : Bool) :
    ¬ Refused c.shared decl.name tag alloc := by
  have htag := h tag decl hdecl
  rintro (⟨t, ht, hne⟩ | ⟨hnone, -⟩)
  · exact hne (Option.some.inj (ht.symm.trans htag))
  · exact Option.some_ne_none tag (htag.symm.trans hnone)

theorem confSetZone_accepts {conf : Conf} {first name : Bytes} {args : List Bytes} {o : ZoneAlloc}
    {size ttl : Int} (ho : o.Enough) (hname : zoneNameSize ngx first = .ok (name, size))
    (hne : name ≠ []) (hparams : zoneParams ngx args 0 = (none, ttl))
    (hfresh : FreshName ngx conf shared name) :
    (confSetZone ngx tag conf shared first args o).1 = none := by
  obtain ⟨p, zones, hadd, -⟩ := confZoneAdd_fresh .shm ho hfresh.1
  rw [confSetZone, hname]
  simp only
  rw [if_neg (fun hzero ↦ hne (List.eq_nil_of_length_eq_zero hzero)), hadd]
  simp only
  rw [if_pos ho.ctx, ho.segment, sharedMemoryAdd_fresh size hfresh.2]
  simp only [hparams]

theorem keyval_accepts {k : Keyval} (hlaw : ngx.Lawful) (hholds : c.Holds ngx ds)
    (hclaimed : c.Claimed ngx ds)
    (hreach : ReachesZone k.getIndex (c.conf tag) k.key k.var k.zone k.alloc)
    (hslot : k.slot ≠ none) (hdecl : decl ∈ declared ngx tag ds) (hname : decl.name = k.zoneName) :
    (directiveStep ngx c (tag, .keyval k)).1 = none := by
  obtain ⟨n, hn⟩ := Option.ne_none_iff_exists'.mp hslot
  obtain ⟨i, hi⟩ := List.getElem?_of_mem hdecl
  obtain ⟨zs, -, hget, -⟩ := ((hholds tag).lookup hlaw).1 i decl hi
  rw [directiveStep, moduleConfSetVariable]
  rcases confSetVariable_cases ngx tag k.getIndex (c.conf tag) c.shared k.key k.var k.zone k.alloc
    with ⟨-, vars, p, v, -, -, heq⟩ | ⟨hno, -⟩
  · rcases bindZone_cases ngx tag (c.conf tag) c.shared k.zoneName vars p v k.alloc.segment
      with ⟨hnone, -⟩ | ⟨zones, q, -, -, ⟨-, hrefused, -⟩ | ⟨-, conf', shared', hok⟩⟩
    · rw [← hname, hget] at hnone
      contradiction
    · rw [← hname] at hrefused
      exact absurd hrefused (hclaimed.not_refused hdecl k.alloc.segment)
    · rw [heq, show k.zone.drop 5 = k.zoneName from rfl, hok]
      simp only [hn]
  · exact absurd hreach hno

/-- **One directive**: with enough memory, it is accepted if it is well formed and fits to those
before it. -/
theorem step_of_wellFormed (hlaw : ngx.Lawful) (hholds : c.Holds ngx ds)
    (hclaimed : c.Claimed ngx ds) (hreg : c.Registered ngx shared ds) (hform : d.WellFormed ngx)
    (ho : d.Enough)
    (hother : ∀ decl, d.decl ngx = some decl → segmentOf shared decl.name = none)
    (hnew : ∀ decl, d.decl ngx = some decl →
      ∀ t, ∀ decl' ∈ declared ngx t ds, decl'.name ≠ decl.name)
    (hbound : ∀ k, d = .keyval k → ∃ decl ∈ declared ngx tag ds, decl.name = k.zoneName) :
    (directiveStep ngx c (tag, d)).1 = none := by
  cases d with
  | zone first args o =>
    obtain ⟨⟨name, size, hfirst, hnul⟩, ttl, hparams⟩ := hform
    have hne : name ≠ [] := hfirst.choose_spec.2.1
    have hok := (zoneNameSize_eq_ok_iff hne).mpr ⟨hfirst, hnul⟩
    have hdecl : (Directive.zone first args o).decl ngx = some ⟨name, .shm, redisDefault⟩ := by
      rw [Directive.decl, hok]
    exact confSetZone_accepts ho hok hne (zoneParams_ok_iff.mpr hparams)
      (hreg.freshName hlaw hholds (hother _ hdecl) (hnew _ hdecl) tag)
  | zoneRedis first args o =>
    obtain ⟨⟨name, rfl, hne⟩, hargs⟩ := hform
    have hlen : (lit "zone=").length = 5 := rfl
    have hdecl : (Directive.zoneRedis (lit "zone=" ++ name) args o).decl ngx =
        some ⟨name, .redis, (redisSettings ngx o args).2⟩ := by
      rw [Directive.decl, if_pos ((strncmpEq_iff (by decide) hlen).mpr ⟨name, rfl⟩),
        List.drop_left' hlen]
    obtain ⟨zones, -, heq⟩ := confSetZoneRedis_fresh tag hne ho
      (hreg.freshName hlaw hholds (hother _ hdecl) (hnew _ hdecl) tag)
    rw [directiveStep]
    simp only [heq]
    exact (redisSettings_accept_iff ho args).mpr hargs
  | keyval k =>
    obtain ⟨decl, hdecl, hname⟩ := hbound k rfl
    exact keyval_accepts hlaw hholds hclaimed (hform.reachesZone ho _) hform.slot hdecl hname

theorem WellFormedConf.name_ne {pre post : List (Tag × Directive)}
    (h : WellFormedConf ngx (pre ++ (tag, d) :: post)) (hdecl : d.decl ngx = some decl) {t : Tag}
    {decl' : Decl} (hdecl' : decl' ∈ declared ngx t pre) : decl'.name ≠ decl.name := by
  have hcons : ∀ t', declared ngx t' (pre ++ (tag, d) :: post) =
      declared ngx t' pre ++ (declared ngx t' [(tag, d)] ++ declared ngx t' post) := fun t' ↦ by
    rw [declared_append, ← List.singleton_append (l := post), declared_append]
  have hmem : decl ∈ declared ngx tag [(tag, d)] ++ declared ngx tag post := by
    rw [declared_singleton_self hdecl]
    exact List.mem_cons_self
  obtain ⟨hhttp, hstream, hapart⟩ := List.nodup_append.mp (List.map_append ▸ h.distinct)
  have hmodule : ((declared ngx tag (pre ++ (tag, d) :: post)).map Decl.name).Nodup := by
    cases tag with
    | http => exact hhttp
    | stream => exact hstream
  have hall : decl ∈ declared ngx tag (pre ++ (tag, d) :: post) := by
    rw [hcons]
    exact List.mem_append_right _ hmem
  have hall' : decl' ∈ declared ngx t (pre ++ (tag, d) :: post) := by
    rw [hcons]
    exact List.mem_append_left _ hdecl'
  by_cases ht : t = tag
  · subst ht
    rw [hcons, List.map_append] at hmodule
    exact (List.nodup_append.mp hmodule).2.2 _ (List.mem_map_of_mem hdecl') _
      (List.mem_map_of_mem hmem)
  · -- names of different modules
    cases t with
    | http =>
      cases tag with
      | http => exact absurd rfl ht
      | stream => exact hapart _ (List.mem_map_of_mem hall') _ (List.mem_map_of_mem hall)
    | stream =>
      cases tag with
      | http => exact (hapart _ (List.mem_map_of_mem hall) _ (List.mem_map_of_mem hall')).symm
      | stream => exact absurd rfl ht

/-- **The directives that are left** are accepted, if those read so far fit to them. -/
theorem accepted_of_wellFormed (hlaw : ngx.Lawful) {pre : List (Tag × Directive)}
    (hwf : WellFormedConf ngx (pre ++ ds)) (ho : ∀ e ∈ ds, e.2.Enough)
    (hother : ∀ e ∈ ds, ∀ decl, e.2.decl ngx = some decl → segmentOf shared decl.name = none)
    (hholds : c.Holds ngx pre) (hclaimed : c.Claimed ngx pre)
    (hreg : c.Registered ngx shared pre) : Accepted ngx c ds := by
  induction ds generalizing c pre with
  | nil => trivial
  | cons e ds ih =>
    obtain ⟨tag, d⟩ := e
    have hstep : (directiveStep ngx c (tag, d)).1 = none := by
      refine step_of_wellFormed hlaw hholds hclaimed hreg
        (hwf.forms _ (List.mem_append_right _ List.mem_cons_self)) (ho _ List.mem_cons_self)
        (hother _ List.mem_cons_self) (fun decl hdecl t decl' hmem ↦ hwf.name_ne hdecl hmem) ?_
      rintro k rfl
      exact hwf.bound pre tag k ds rfl
    have hnext : directiveStep ngx c (tag, d) = (none, (directiveStep ngx c (tag, d)).2) :=
      Prod.ext hstep rfl
    have hrest : WellFormedConf ngx ((pre ++ [(tag, d)]) ++ ds) := by
      rw [List.append_assoc]
      exact hwf
    exact ⟨hstep, ih hrest (fun e he ↦ ho e (List.mem_cons_of_mem _ he))
      (fun e he ↦ hother e (List.mem_cons_of_mem _ he)) (hholds.step hlaw hnext)
      (hclaimed.step hnext) (hreg.step hlaw hholds hnext)⟩

/-- **Which configurations are accepted.**  With enough memory, and if no segment of another module
has the name of a zone: a list of directives of both modules, in any order, is accepted exactly when
each of them has the right form, the names of all zones are different, and every `keyval` stands
behind the zone of its module that it names. -/
theorem accepted_iff_wellFormed (hlaw : ngx.Lawful) (ho : ∀ e ∈ ds, e.2.Enough)
    (hother : ∀ e ∈ ds, ∀ decl, e.2.decl ngx = some decl → segmentOf shared decl.name = none) :
    Accepted ngx (.init shared) ds ↔ WellFormedConf ngx ds := by
  refine ⟨wellFormed_of_accepted hlaw, fun hwf ↦ ?_⟩
  have hempty : WellFormedConf ngx ([] ++ ds) := hwf
  refine accepted_of_wellFormed hlaw hempty ho hother (holds_init ngx shared) ?_ ?_
  · intro t decl hdecl
    exact absurd hdecl List.not_mem_nil
  · intro name hname
    exact Or.inl hname

end

/-- A zone and a variable that uses it. -/
def zoneFirst : List (Tag × Directive) :=
  [(.stream, .zone (lit "zone=z:65536") [lit "ttl=60"] (.plain .move)),
    (.stream, .keyval { plainKeyval "k$a" "$v" "zone=z" 0 .move with
      getIndex := fun _ _ ↦ some 0 })]

theorem enough_zoneFirst : ∀ e ∈ zoneFirst, e.2.Enough := by
  intro e he
  rcases List.mem_cons.mp he with rfl | he
  · exact ZoneAlloc.enough_plain nofun
  · obtain rfl := List.mem_singleton.mp he
    exact ⟨rfl, nofun, rfl, rfl, rfl, fun _ ↦ rfl, rfl⟩

/-- In this order they are accepted, and in the other one they are not well formed. -/
theorem accepted_iff_wellFormed_zoneFirst :
    WellFormedConf plainConf zoneFirst ∧ ¬ WellFormedConf plainConf zoneFirst.reverse := by
  have hacc : Accepted plainConf (.init []) zoneFirst := ⟨by decide, by decide, trivial⟩
  refine ⟨(accepted_iff_wellFormed plainConf_lawful enough_zoneFirst fun _ _ _ _ ↦ rfl).mp hacc,
    fun hwf ↦ ?_⟩
  have hback : Accepted plainConf (.init []) zoneFirst.reverse :=
    (accepted_iff_wellFormed plainConf_lawful
      (fun e he ↦ enough_zoneFirst e (List.mem_reverse.mp he)) fun _ _ _ _ ↦ rfl).mpr hwf
  exact absurd hback.1 (by decide)

end NgxKeyval
