import NgxKeyval.Conf.PlainConf
import NgxKeyval.Conf.Records

/-!
# Zone names are unique

A module looks a new zone up among its own, and so never has two of one name.  Between the two
modules there is no such search: what keeps their names apart is that each zone, in shared memory or
not, registers a segment under its name with nginx, and a segment belongs to one module.

* `tagOf` is the module a segment name belongs to; once it is taken, it stays taken
  (`tagOf_of_prefix`).
* `Claimed` is the invariant: the name of every zone belongs to its module.
* `zone_names_unique` puts the two mechanisms together.
-/

set_option autoImplicit false

namespace NgxKeyval

/-- The names and the modules of the segments. -/
def owners (shared : Segments) : List (Bytes × Tag) := shared.map fun seg ↦ (seg.name, seg.tag)

/-- The module that has a segment name. -/
def tagOf (shared : Segments) (name : Bytes) : Option Tag :=
  ((owners shared).find? fun e ↦ decide (e.1 = name)).map Prod.snd

section

variable {shared shared' : Segments} {name : Bytes} {tag : Tag}

theorem tagOf_of_prefix (h : owners shared <+: owners shared')
    (htag : tagOf shared name = some tag) : tagOf shared' name = some tag := by
  obtain ⟨more, hmore⟩ := h
  obtain ⟨e, hfind, hsnd⟩ := Option.map_eq_some_iff.mp htag
  rw [tagOf, ← hmore, List.find?_append, hfind, Option.some_or, Option.map_some, hsnd]

theorem tagOf_eq {i : Nat} {seg : ShmSegment} (hi : shared.findIdx? (·.name = name) = some i)
    (hseg : shared[i]? = some seg) : tagOf shared name = some seg.tag := by
  have hfind : shared.find? (fun s ↦ decide (s.name = name)) = some seg := by
    rw [List.find?_eq_bind_findIdx?_getElem?, hi]
    exact hseg
  rw [tagOf, owners, List.find?_map, Option.map_map,
    show ((fun e : Bytes × Tag ↦ decide (e.1 = name)) ∘ fun s : ShmSegment ↦ (s.name, s.tag)) =
      fun s ↦ decide (s.name = name) from rfl, hfind]
  rfl

theorem tagOf_eq_none (h : segmentOf shared name = none) : tagOf shared name = none := by
  rw [tagOf, Option.map_eq_none_iff, List.find?_eq_none]
  intro e he
  obtain ⟨seg, hseg, rfl⟩ := List.mem_map.mp he
  have hno := List.findIdx?_eq_none_iff.mp h seg hseg
  rw [hno]
  exact Bool.false_ne_true

/-- **Registering a segment** takes its name for the module, unless another one has it. -/
theorem sharedMemoryAdd_owners {size : Int} {alloc : Bool} {r : Option Nat}
    (h : sharedMemoryAdd shared name size tag alloc = (r, shared')) :
    owners shared <+: owners shared' ∧ (r ≠ none → tagOf shared' name = some tag) := by
  rcases sharedMemoryAdd_cases h with ⟨rfl, rfl⟩ |
    ⟨i, seg, seg', hi, hseg, htag, hname, htag', rfl, -⟩ | ⟨hnone, rfl, rfl⟩
  · exact ⟨List.prefix_rfl, fun hne ↦ absurd rfl hne⟩
  · have hown : owners (shared.set i seg') = owners shared :=
      map_set_of_eq hseg _ (by rw [hname, htag'])
    refine ⟨hown ▸ List.prefix_rfl, fun _ ↦ ?_⟩
    rw [tagOf, hown]
    exact htag ▸ tagOf_eq hi hseg
  · refine ⟨⟨[(name, tag)], by simp [owners]⟩, fun _ ↦ ?_⟩
    have hlast : (shared ++ [⟨name, size, tag, none, none⟩])[shared.length]? =
        some ⟨name, size, tag, none, none⟩ := by simp
    refine tagOf_eq ?_ hlast
    have hfound := segmentOf_append shared ⟨name, size, tag, none, none⟩ name
    rwa [hnone, Option.none_or, if_pos rfl] at hfound

end

/-! ## One directive -/

section

variable {ngx : NgxConf} {c c' : Cycle} {tag : Tag} {d : Directive} {decl : Decl}
  {ds : List (Tag × Directive)}

/-- **An accepted zone directive** takes the name for its module. -/
theorem zone_registers (hdecl : d.decl ngx = some decl)
    (h : directiveStep ngx c (tag, d) = (none, c')) :
    owners c.shared <+: owners c'.shared ∧ tagOf c'.shared decl.name = some tag := by
  cases d with
  | zone first args o =>
    rcases hset : confSetZone ngx tag (c.conf tag) c.shared first args o with ⟨e, conf', shared'⟩
    simp only [directiveStep, hset, Prod.mk.injEq] at h
    obtain ⟨rfl, rfl⟩ := h
    obtain ⟨name, size, zs, zs', p, z, hname, -, -, -, -, -, -, -, -, i, shared₁, ttl, hshm, -,
      rfl⟩ := confSetZone_ok hset
    rw [Directive.decl, hname] at hdecl
    obtain rfl := Option.some.inj hdecl
    obtain ⟨hpre, htaken⟩ := sharedMemoryAdd_owners hshm
    have hown : owners (shared₁.modify i fun seg ↦
        { seg with init := some .initZone, data := some ttl }) = owners shared₁ :=
      map_modify_of_eq shared₁ i _ _ fun _ ↦ rfl
    simp only [Cycle.put]
    rw [tagOf, hown]
    exact ⟨hpre, htaken (Option.some_ne_none i)⟩
  | zoneRedis first args o =>
    rcases hset : confSetZoneRedis ngx tag (c.conf tag) c.shared first args o with
      ⟨e, conf', shared'⟩
    simp only [directiveStep, hset, Prod.mk.injEq] at h
    obtain ⟨rfl, rfl⟩ := h
    obtain ⟨name, zs, zs', p, z, rfl, -, -, -, -, -, -, -, -, -, i, shared₁, hshm, rfl⟩ :=
      confSetZoneRedis_ok hset
    obtain rfl := Option.some.inj hdecl
    obtain ⟨hpre, htaken⟩ := sharedMemoryAdd_owners hshm
    have hown : owners (shared₁.modify i fun seg ↦ { seg with init := some .initZoneNone }) =
        owners shared₁ :=
      map_modify_of_eq shared₁ i _ _ fun _ ↦ rfl
    simp only [Cycle.put]
    rw [tagOf, hown]
    exact ⟨hpre, htaken (Option.some_ne_none i)⟩
  | keyval => cases hdecl

theorem keyval_owners {k : Keyval} (h : directiveStep ngx c (tag, .keyval k) = (none, c')) :
    owners c.shared <+: owners c'.shared := by
  obtain ⟨vars, vars', zones, q, keyString, indexes, n, p, zones', -, -, -, -, -, -, hrest, -⟩ :=
    keyval_accepted h
  rcases hrest with ⟨-, -, hshared⟩ | ⟨i, -, hshm, -⟩
  · exact hshared ▸ List.prefix_rfl
  · exact (sharedMemoryAdd_owners hshm).1

/-- The name of every zone belongs to its module. -/
def Cycle.Claimed (ngx : NgxConf) (ds : List (Tag × Directive)) (c : Cycle) : Prop :=
  ∀ tag, ∀ d ∈ declared ngx tag ds, tagOf c.shared d.name = some tag

/-- **An accepted directive** keeps the names with their modules. -/
theorem Cycle.Claimed.step (h : c.Claimed ngx ds)
    (hstep : directiveStep ngx c (tag, d) = (none, c')) : c'.Claimed ngx (ds ++ [(tag, d)]) := by
  intro t e he
  rw [declared_append, List.mem_append] at he
  rcases accepted_cases hstep with ⟨decl, hdecl⟩ | ⟨k, rfl⟩
  · obtain ⟨hpre, htaken⟩ := zone_registers hdecl hstep
    by_cases ht : t = tag
    · subst ht
      rw [declared_singleton_self hdecl, List.mem_singleton] at he
      rcases he with he | rfl
      · exact tagOf_of_prefix hpre (h t e he)
      · exact htaken
    · rw [declared_singleton_ne ht] at he
      exact tagOf_of_prefix hpre (h t e (he.resolve_right List.not_mem_nil))
  · rw [declared_keyval] at he
    exact tagOf_of_prefix (keyval_owners hstep) (h t e (he.resolve_right List.not_mem_nil))

theorem Cycle.Claimed.run {ds' : List (Tag × Directive)} (h : c.Claimed ngx ds)
    (hacc : Accepted ngx c ds') : (readConf ngx c ds').Claimed ngx (ds ++ ds') := by
  induction ds' generalizing c ds with
  | nil =>
    rw [List.append_nil]
    exact h
  | cons d ds' ih =>
    have hnext := ih (h.step (Prod.ext hacc.1 rfl)) hacc.2
    rw [List.append_assoc] at hnext
    exact hnext

/-! ## Whole configurations -/

/-- **Every accepted configuration** has the names of its zones with their modules. -/
theorem claimed_of_accepted {shared : Segments} (hacc : Accepted ngx (.init shared) ds) :
    (readConf ngx (.init shared) ds).Claimed ngx ds := by
  have hempty : (Cycle.init shared).Claimed ngx [] := fun _ _ hd ↦ (List.not_mem_nil hd).elim
  have hrun := hempty.run hacc
  rw [List.nil_append] at hrun
  exact hrun

theorem ZonesHold.distinct {decls : List Decl} {conf : Conf} (h : ZonesHold decls conf) :
    (decls.map Decl.name).Nodup := by
  rw [ZonesHold] at h
  split at h
  · rw [h]
    exact List.nodup_nil
  · exact h.distinct

/-- **What looking a zone up finds**: the record of the directive that declared the name, or
nothing. -/
theorem ZonesHold.lookup {decls : List Decl} {conf : Conf} (hlaw : ngx.Lawful)
    (h : ZonesHold decls conf) :
    (∀ (i : Nat) (d : Decl), decls[i]? = some d → ∃ zs, conf.zones = some zs ∧
      confZoneGet ngx conf d.name = some (zs.ptr i) ∧ d.Describes (zs.mem (zs.ptr i))) ∧
    ∀ name, (∀ d ∈ decls, d.name ≠ name) → confZoneGet ngx conf name = none := by
  rcases hzones : conf.zones with _ | zs
  · rw [ZonesHold, hzones] at h
    simp only at h
    subst h
    refine ⟨fun i d hd ↦ by simp at hd, fun name _ ↦ ?_⟩
    rw [confZoneGet, hzones]
  · have hholds := h.of_some hzones
    refine ⟨fun i d hd ↦ ⟨zs, rfl, ?_, hholds.describes i d hd⟩, fun name hno ↦ ?_⟩
    · rcases hget : confZoneGet ngx conf d.name with _ | q
      · exact absurd rfl (hholds.confZoneGet_none hlaw hzones hget d (List.mem_of_getElem? hd))
      · obtain ⟨j, d', rfl, -, hd', hname⟩ := hholds.confZoneGet_some hlaw hzones hget
        rw [hholds.index_unique hd' hd hname]
    · rcases hget : confZoneGet ngx conf name with _ | q
      · rfl
      · obtain ⟨j, d', rfl, -, hd', hname⟩ := hholds.confZoneGet_some hlaw hzones hget
        exact absurd hname (hno d' (List.mem_of_getElem? hd'))

/-- A module knows its names from each other, and nginx the names of both. -/
theorem declared_nodup (hlaw : ngx.Lawful) {shared : Segments}
    (hacc : Accepted ngx (.init shared) ds) :
    ((declared ngx .http ds ++ declared ngx .stream ds).map Decl.name).Nodup := by
  have hholds := holds_of_accepted hlaw hacc
  have hclaimed := claimed_of_accepted hacc
  rw [List.map_append, List.nodup_append]
  refine ⟨(hholds .http).distinct, (hholds .stream).distinct, fun name hn name' hn' he ↦ ?_⟩
  obtain ⟨d, hd, rfl⟩ := List.mem_map.mp hn
  obtain ⟨d', hd', rfl⟩ := List.mem_map.mp hn'
  have hhttp := hclaimed .http d hd
  rw [he, hclaimed .stream d' hd'] at hhttp
  cases hhttp

/-- **Zone names are unique.**  If every directive of a configuration is accepted, in whatever order
the directives of both modules stand in it, the names of all zones of both modules are different;
and in each module, looking up a declared name finds the record of the one directive that declared
it, and looking up any other name finds nothing. -/
theorem zone_names_unique (hlaw : ngx.Lawful) {shared : Segments}
    (hacc : Accepted ngx (.init shared) ds) :
    ((declared ngx .http ds ++ declared ngx .stream ds).map Decl.name).Nodup ∧
    ∀ tag, (∀ (i : Nat) (d : Decl), (declared ngx tag ds)[i]? = some d →
        ∃ zs, ((readConf ngx (.init shared) ds).conf tag).zones = some zs ∧
          confZoneGet ngx ((readConf ngx (.init shared) ds).conf tag) d.name = some (zs.ptr i) ∧
          d.Describes (zs.mem (zs.ptr i))) ∧
      ∀ name, (∀ d ∈ declared ngx tag ds, d.name ≠ name) →
        confZoneGet ngx ((readConf ngx (.init shared) ds).conf tag) name = none :=
  ⟨declared_nodup hlaw hacc, fun tag ↦ (holds_of_accepted hlaw hacc tag).lookup hlaw⟩

end

/-- Zones of both kinds in both modules, in turn. -/
def bothModules : List (Tag × Directive) :=
  [(.http, .zone (lit "zone=a:65536") [lit "ttl=60"] (.plain .move)),
    (.stream, .zoneRedis (lit "zone=b") [lit "port=7000"] (.plain .move)),
    (.http, .zoneRedis (lit "zone=c") [] (.plain .move)),
    (.stream, .zone (lit "zone=d:65536") [] (.plain .move))]

theorem zone_names_unique_bothModules :
    ((declared plainConf .http bothModules ++ declared plainConf .stream bothModules).map
      Decl.name).Nodup ∧
    confZoneGet plainConf ((readConf plainConf (.init []) bothModules).conf .stream) (lit "a") =
      none := by
  have hacc : Accepted plainConf (.init []) bothModules :=
    ⟨by decide, by decide, by decide, by decide, trivial⟩
  have h := zone_names_unique plainConf_lawful hacc
  exact ⟨h.1, (h.2 .stream).2 (lit "a") (by decide)⟩

end NgxKeyval
