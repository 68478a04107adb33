import NgxKeyval.Conf.Captured
import NgxKeyval.Conf.Names

/-!
# Every segment keeps the context of its zone

A `keyval_zone` directive hands nginx a context with the `ttl` of the zone, in the `data` of the
segment; `keyval` directives look the segment up again by its name, and other zone directives write
their own.  This file says that none of them gets at the context of another zone.

* `Directive.context` is what a directive hands over.
* `ContextAt` says that the segment of a name has it, and `Cycle.Contexts` that all of them do.
* `contexts_of_accepted` is every accepted configuration.
-/

set_option autoImplicit false

namespace NgxKeyval

/-- The name and the `ttl` of the context a directive hands to nginx. -/
def Directive.context (ngx : NgxConf) : Directive → Option (Bytes × Int)
  | .zone first args _ =>
    match zoneNameSize ngx first with
    | .ok (name, _) => some (name, (zoneParams ngx args 0).2)
    | .error _ => none
  | _ => none

/-- What the segments have for `init` and `data`. -/
def contexts (shared : Segments) : List (Option ShmInit × Option Int) :=
  shared.map fun seg ↦ (seg.init, seg.data)

/-- The segment of this name is to be initialised with a tree, and has a context with this `ttl`. -/
def ContextAt (shared : Segments) (name : Bytes) (ttl : Int) : Prop :=
  ∃ i, segmentOf shared name = some i ∧ (contexts shared)[i]? = some (some .initZone, some ttl)

section

variable {shared shared' : Segments} {name name' : Bytes} {ttl : Int}

theorem ContextAt.data (h : ContextAt shared name ttl) :
    ∃ i, segmentOf shared name = some i ∧ shared[i]?.bind ShmSegment.data = some ttl := by
  obtain ⟨i, hi, hcontext⟩ := h
  rw [contexts, List.getElem?_map, Option.map_eq_some_iff] at hcontext
  obtain ⟨seg, hseg, heq⟩ := hcontext
  exact ⟨i, hi, by rw [hseg, Option.bind_some, (Prod.mk.inj heq).2]⟩

theorem sharedMemoryAdd_contexts {size : Int} {tag : Tag} {alloc : Bool} {r : Option Nat}
    (h : sharedMemoryAdd shared name size tag alloc = (r, shared')) :
    contexts shared <+: contexts shared' := by
  rw [sharedMemoryAdd] at h
  split at h
  · rename_i i hi
    split at h
    · obtain ⟨rfl, rfl⟩ := Prod.mk.inj h
      exact List.prefix_refl _
    · rename_i seg hseg
      split at h
      · obtain ⟨rfl, rfl⟩ := Prod.mk.inj h
        exact List.prefix_refl _
      · have hset : ∀ seg' : ShmSegment, (seg'.init, seg'.data) = (seg.init, seg.data) →
            contexts (shared.set i seg') = contexts shared :=
          fun _ hsame ↦ map_set_of_eq hseg _ hsame
        have hsame := hset (if seg.size = 0 then { seg with size := size } else seg)
          (by split <;> rfl)
        dsimp only at h
        generalize (if seg.size = 0 then { seg with size := size } else seg) = seg' at h hsame
        split at h
        · obtain ⟨rfl, rfl⟩ := Prod.mk.inj h
          exact ⟨[], by rw [List.append_nil, hsame]⟩
        · obtain ⟨rfl, rfl⟩ := Prod.mk.inj h
          exact ⟨[], by rw [List.append_nil, hsame]⟩
  · split at h
    · obtain ⟨rfl, rfl⟩ := Prod.mk.inj h
      exact ⟨[(none, none)], by simp [contexts]⟩
    · obtain ⟨rfl, rfl⟩ := Prod.mk.inj h
      exact List.prefix_refl _

/-- A context stays where it is while segments are registered. -/
theorem ContextAt.add (h : ContextAt shared name ttl) {size : Int} {tag : Tag} {alloc : Bool}
    {r : Option Nat} (hadd : sharedMemoryAdd shared name' size tag alloc = (r, shared')) :
    ContextAt shared' name ttl := by
  obtain ⟨i, hi, hcontext⟩ := h
  obtain ⟨rest, hrest⟩ := sharedMemoryAdd_contexts hadd
  refine ⟨i, (sharedMemoryAdd_spec hadd).1 name i hi, ?_⟩
  rw [← hrest, List.getElem?_append_left (List.getElem?_eq_some_iff.mp hcontext).1]
  exact hcontext

theorem name_of_segmentOf {i : Nat} (h : segmentOf shared name = some i) :
    (shared.map ShmSegment.name)[i]? = some name := by
  obtain ⟨hlt, hname, -⟩ := List.findIdx?_eq_some_iff_getElem.mp h
  rw [List.getElem?_map, List.getElem?_eq_getElem hlt, Option.map_some, of_decide_eq_true hname]

theorem segmentOf_inj {i : Nat} (h : segmentOf shared name = some i)
    (h' : segmentOf shared name' = some i) : name = name' :=
  Option.some.inj ((name_of_segmentOf h).symm.trans (name_of_segmentOf h'))

theorem segmentOf_modify (shared : Segments) (i : Nat) {f : ShmSegment → ShmSegment}
    (hf : ∀ seg, (f seg).name = seg.name) (name : Bytes) :
    segmentOf (shared.modify i f) name = segmentOf shared name := by
  have hnames := map_modify_of_eq shared i f ShmSegment.name hf
  have hmap : ∀ segs : Segments, segmentOf segs name =
      (segs.map ShmSegment.name).findIdx? fun n ↦ decide (n = name) := fun segs ↦ by
    rw [List.findIdx?_map]
    rfl
  rw [hmap, hmap, hnames]

/-- A context stays where it is while the segment of another name is changed. -/
theorem ContextAt.modify (h : ContextAt shared name ttl) {j : Nat}
    (hj : segmentOf shared name' = some j) (hne : name' ≠ name) {f : ShmSegment → ShmSegment}
    (hf : ∀ seg, (f seg).name = seg.name) : ContextAt (shared.modify j f) name ttl := by
  obtain ⟨i, hi, hcontext⟩ := h
  have hij : j ≠ i := fun heq ↦ hne (segmentOf_inj hj (heq ▸ hi))
  refine ⟨i, (segmentOf_modify shared j hf name).trans hi, ?_⟩
  rw [contexts, List.getElem?_map, List.getElem?_modify_ne f shared hij, ← List.getElem?_map]
  exact hcontext

/-- A context is handed over. -/
theorem contextAt_modify {i : Nat} (hi : segmentOf shared name = some i) (ttl : Int) :
    ContextAt (shared.modify i fun seg ↦ { seg with init := some .initZone, data := some ttl })
      name ttl := by
  refine ⟨i, (segmentOf_modify shared i (f := fun seg ↦ { seg with
    init := some .initZone, data := some ttl }) (fun _ ↦ rfl) name).trans hi, ?_⟩
  have hlt := (List.findIdx?_eq_some_iff_getElem.mp hi).1
  rw [contexts, List.getElem?_map, List.getElem?_modify_eq, List.getElem?_eq_getElem hlt]
  rfl

end

/-! ## One directive -/

section

variable {ngx : NgxConf} {ds : List (Tag × Directive)} {c c' : Cycle} {tag : Tag} {d : Directive}
  {name : Bytes} {ttl : Int}

theorem Directive.decl_of_context (h : d.context ngx = some (name, ttl)) :
    ∃ decl, d.decl ngx = some decl ∧ decl.name = name ∧ decl.type = .shm := by
  rcases d with ⟨first, args, o⟩ | _ | _
  · rw [Directive.context] at h
    rw [Directive.decl]
    rcases hname : zoneNameSize ngx first with e | ⟨name', size⟩
    · rw [hname] at h
      contradiction
    · rw [hname] at h
      exact ⟨_, rfl, (Prod.mk.inj (Option.some.inj h)).1, rfl⟩
  · contradiction
  · contradiction

theorem zoneParams_nonneg (hlaw : ngx.Lawful) {args : List Bytes} {ttl₀ : Int} (h₀ : 0 ≤ ttl₀)
    (h : zoneParams ngx args ttl₀ = (none, ttl)) : 0 ≤ ttl := by
  induction args generalizing ttl₀ with
  | nil => exact (Prod.mk.inj h).2 ▸ h₀
  | cons v vs ih =>
    rw [zoneParams] at h
    split at h
    · exact nomatch (Prod.mk.inj h).1
    · rename_i s hs
      split at h
      · exact nomatch (Prod.mk.inj h).1
      · dsimp only at h
        split at h
        · exact nomatch (Prod.mk.inj h).1
        · have hge := hlaw.parseTime_ge s
          exact ih (by omega) h

/-- An accepted `keyval_zone` hands over its context, with a `ttl` that is not negative; whatever
was handed over for another name stays. -/
theorem contexts_zone {first : Bytes} {args : List Bytes} {o : ZoneAlloc}
    (hlaw : ngx.Lawful) (hstep : directiveStep ngx c (tag, .zone first args o) = (none, c')) :
    ∃ name ttl, (Directive.zone first args o).context ngx = some (name, ttl) ∧ 0 ≤ ttl ∧
      ContextAt c'.shared name ttl ∧ ∀ name' ttl', name ≠ name' →
        ContextAt c.shared name' ttl' → ContextAt c'.shared name' ttl' := by
  rcases hset : confSetZone ngx tag (c.conf tag) c.shared first args o with ⟨e, conf', shared'⟩
  simp only [directiveStep, hset, Prod.mk.injEq] at hstep
  obtain ⟨rfl, rfl⟩ := hstep
  obtain ⟨name, size, zs, zs', p, z, hname, -, -, -, -, -, -, -, -, i, shared₁, ttl, hshm, hparams,
    rfl⟩ := confSetZone_ok hset
  have hi := (sharedMemoryAdd_spec hshm).2 i rfl
  refine ⟨name, ttl, ?_, ?_, contextAt_modify hi ttl, fun name' ttl' hne h ↦ ?_⟩
  · rw [Directive.context, hname, hparams]
  · exact zoneParams_nonneg hlaw (Int.le_refl 0) hparams
  · exact (h.add hshm).modify hi hne fun _ ↦ rfl

theorem contexts_zoneRedis {first : Bytes} {args : List Bytes} {o : ZoneAlloc} {decl : Decl}
    (hdecl : (Directive.zoneRedis first args o).decl ngx = some decl)
    (hstep : directiveStep ngx c (tag, .zoneRedis first args o) = (none, c'))
    (hne : decl.name ≠ name)
    (h : ContextAt c.shared name ttl) : ContextAt c'.shared name ttl := by
  rcases hset : confSetZoneRedis ngx tag (c.conf tag) c.shared first args o with ⟨e, conf', shared'⟩
  simp only [directiveStep, hset, Prod.mk.injEq] at hstep
  obtain ⟨rfl, rfl⟩ := hstep
  obtain ⟨name', zs, zs', p, z, hname, -, -, -, -, -, -, -, -, -, i, shared₁, hshm, rfl⟩ :=
    confSetZoneRedis_ok hset
  obtain rfl := Option.some.inj hdecl
  rw [← hname] at hne
  exact (h.add hshm).modify ((sharedMemoryAdd_spec hshm).2 i rfl) hne fun _ ↦ rfl

theorem contexts_keyval {k : Keyval} (hstep : directiveStep ngx c (tag, .keyval k) = (none, c'))
    (h : ContextAt c.shared name ttl) : ContextAt c'.shared name ttl := by
  obtain ⟨vars, vars', zones, q, keyString, indexes, n, p, zones', -, -, -, -, -, -, hrest, -⟩ :=
    keyval_accepted hstep
  rcases hrest with ⟨-, -, hshared⟩ | ⟨i, -, hshm, -⟩
  · exact hshared ▸ h
  · exact h.add hshm

theorem Cycle.Claimed.tag_eq (h : c.Claimed ngx ds) {tag' : Tag} {decl decl' : Decl}
    (hdecl : decl ∈ declared ngx tag ds) (hdecl' : decl' ∈ declared ngx tag' ds)
    (hname : decl.name = decl'.name) : tag = tag' := by
  have htag := h tag decl hdecl
  rw [hname, h tag' decl' hdecl'] at htag
  exact (Option.some.inj htag).symm

/-- A declaration is the only one of its name, in both modules. -/
theorem declared_unique (hholds : c.Holds ngx ds) (hclaimed : c.Claimed ngx ds) {tag' : Tag}
    {decl decl' : Decl} (hdecl : decl ∈ declared ngx tag ds)
    (hdecl' : decl' ∈ declared ngx tag' ds) (hname : decl.name = decl'.name) :
    tag = tag' ∧ decl = decl' := by
  obtain rfl := hclaimed.tag_eq hdecl hdecl' hname
  refine ⟨rfl, ?_⟩
  have hzones := hholds tag
  rcases hz : (c.conf tag).zones with _ | zs
  · rw [ZonesHold, hz] at hzones
    rw [hzones] at hdecl
    exact absurd hdecl List.not_mem_nil
  · exact (hzones.of_some hz).unique hdecl hdecl' hname

theorem name_ne_of_snoc (hholds : c.Holds ngx (ds ++ [(tag, d)]))
    (hclaimed : c.Claimed ngx (ds ++ [(tag, d)])) {decl decl' : Decl}
    (hdecl : d.decl ngx = some decl)
    {tag' : Tag} (hdecl' : decl' ∈ declared ngx tag' ds) : decl.name ≠ decl'.name := by
  intro hname
  have hmem : decl ∈ declared ngx tag (ds ++ [(tag, d)]) := by
    rw [declared_append, declared_singleton_self hdecl]
    exact List.mem_append_right _ List.mem_cons_self
  have hmem' : decl' ∈ declared ngx tag' (ds ++ [(tag, d)]) := by
    rw [declared_append]
    exact List.mem_append_left _ hdecl'
  obtain rfl := hclaimed.tag_eq hmem hmem' hname
  -- the names of the module are all different
  have hnodup := (hholds tag).distinct
  rw [declared_append, declared_singleton_self hdecl, List.map_append, List.nodup_append] at hnodup
  exact hnodup.2.2 decl'.name (List.mem_map_of_mem hdecl') decl.name List.mem_cons_self hname.symm

/-- Every context that was handed over is where it was put. -/
def Cycle.Contexts (ngx : NgxConf) (ds : List (Tag × Directive)) (c : Cycle) : Prop :=
  ∀ tag d name ttl, (tag, d) ∈ ds → d.context ngx = some (name, ttl) →
    0 ≤ ttl ∧ ContextAt c.shared name ttl

/-- **An accepted directive** leaves the contexts where they are. -/
theorem Cycle.Contexts.step (hlaw : ngx.Lawful) (h : c.Contexts ngx ds)
    (hholds : c'.Holds ngx (ds ++ [(tag, d)])) (hclaimed : c'.Claimed ngx (ds ++ [(tag, d)]))
    (hstep : directiveStep ngx c (tag, d) = (none, c')) : c'.Contexts ngx (ds ++ [(tag, d)]) := by
  intro tag' d' name ttl hmem hcontext
  -- a directive that came before has another name
  have hother : ∀ decl, d.decl ngx = some decl → (tag', d') ∈ ds → decl.name ≠ name := by
    intro decl hdecl hold
    obtain ⟨decl', hdecl', rfl, -⟩ := d'.decl_of_context hcontext
    have hmem' : decl' ∈ declared ngx tag' ds :=
      List.mem_filterMap.mpr ⟨(tag', d'), hold, by rw [if_pos rfl, hdecl']⟩
    exact name_ne_of_snoc hholds hclaimed hdecl hmem'
  rcases List.mem_append.mp hmem with hold | hnew
  · obtain ⟨hnonneg, hat⟩ := h tag' d' name ttl hold hcontext
    refine ⟨hnonneg, ?_⟩
    rcases d with ⟨first, args, o⟩ | ⟨first, args, o⟩ | k
    · obtain ⟨name₁, ttl₁, hcontext₁, -, -, hkeeps⟩ := contexts_zone hlaw hstep
      obtain ⟨decl, hdecl, rfl, -⟩ := Directive.decl_of_context hcontext₁
      exact hkeeps name ttl (hother decl hdecl hold) hat
    · exact contexts_zoneRedis rfl hstep (hother _ rfl hold) hat
    · exact contexts_keyval hstep hat
  · obtain ⟨rfl, rfl⟩ := Prod.mk.inj (List.mem_singleton.mp hnew)
    rcases d' with ⟨first, args, o⟩ | _ | _
    · obtain ⟨name₁, ttl₁, hcontext₁, hnonneg, hat, -⟩ := contexts_zone hlaw hstep
      obtain ⟨rfl, rfl⟩ := Prod.mk.inj (Option.some.inj (hcontext.symm.trans hcontext₁))
      exact ⟨hnonneg, hat⟩
    · exact nomatch hcontext
    · exact nomatch hcontext

/-! ## Whole configurations -/

theorem Cycle.Contexts.run (hlaw : ngx.Lawful) {ds' : List (Tag × Directive)}
    (h : c.Contexts ngx ds) (hholds : c.Holds ngx ds) (hclaimed : c.Claimed ngx ds)
    (hacc : Accepted ngx c ds') : (readConf ngx c ds').Contexts ngx (ds ++ ds') := by
  induction ds' generalizing c ds with
  | nil =>
    rw [List.append_nil]
    exact h
  | cons d ds' ih =>
    obtain ⟨tag, d⟩ := d
    have hstep : directiveStep ngx c (tag, d) = (none, (directiveStep ngx c (tag, d)).2) :=
      Prod.ext hacc.1 rfl
    have hholds' := hholds.step hlaw hstep
    have hclaimed' := hclaimed.step hstep
    rw [← List.singleton_append, ← List.append_assoc]
    exact ih (h.step hlaw hholds' hclaimed' hstep) hholds' hclaimed' hacc.2

/-- **Every accepted configuration** has the context of every `keyval_zone` in the segment of its
name. -/
theorem contexts_of_accepted (hlaw : ngx.Lawful) {shared : Segments}
    (hacc : Accepted ngx (.init shared) ds) :
    (readConf ngx (.init shared) ds).Contexts ngx ds := by
  have hnone : (Cycle.init shared).Contexts ngx [] := fun _ _ _ _ hmem ↦
    absurd hmem List.not_mem_nil
  have hclaimed : (Cycle.init shared).Claimed ngx [] := fun _ _ hmem ↦
    absurd hmem List.not_mem_nil
  exact hnone.run hlaw (holds_init ngx shared) hclaimed hacc

end

end NgxKeyval
