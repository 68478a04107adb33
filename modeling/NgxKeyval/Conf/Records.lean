import Mathlib.Data.List.Nodup
import NgxKeyval.Conf.Directives

/-!
# Every variable uses the zone its directive names

A variable is reached through an address that was handed out when its directive was read, and
reaches its zone through another.  Later directives push more records, and an array that is full
moves, so that either address may be one of a stale copy by the time a request comes.  This file
says that it does not matter.

* `Holds` is the invariant of the zones array: its records are those declared, in order, under names
  that are all different.
* `Variable.At` and `Decl.At` say what a request reads through an address, and are kept by every
  accepted directive, wherever the arrays move (`At.step`).
* `keyval_reads_declared` puts them together: at request time, what is read through the address
  nginx holds is what the directive said, and the zone is the one declared under the name it gave.
-/

set_option autoImplicit false

namespace NgxKeyval

/-! ## The zones of a module -/

/-- The records of a zones array are those declared, in order. -/
structure Holds (decls : List Decl) (zs : GrowArray Zone) : Prop where
  nelts : zs.nelts = decls.length
  describes : ∀ (i : Nat) (d : Decl), decls[i]? = some d → d.Describes (zs.mem (zs.ptr i))
  distinct : (decls.map Decl.name).Nodup
  named : ∀ d ∈ decls, d.name ≠ []

/-- The same for a module, whose array is not there before the first zone. -/
def ZonesHold (decls : List Decl) (conf : Conf) : Prop :=
  match conf.zones with
  | none => decls = []
  | some zs => Holds decls zs

theorem Decl.Describes.setShm {d : Decl} {z : Zone} (h : d.Describes z) (shm : Option Nat) :
    d.Describes { z with shm := shm } := ⟨h.name, h.type, h.store, h.redis⟩

section

variable {ngx : NgxConf} {decls : List Decl} {zs zs' : GrowArray Zone} {conf : Conf} {d d' : Decl}

theorem Holds.unique (h : Holds decls zs) (hd : d ∈ decls) (hd' : d' ∈ decls)
    (hname : d.name = d'.name) : d = d' :=
  List.inj_on_of_nodup_map h.distinct hd hd' hname

theorem Holds.index_unique (h : Holds decls zs) {i j : Nat} (hi : decls[i]? = some d)
    (hj : decls[j]? = some d') (hname : d.name = d'.name) : i = j := by
  obtain ⟨hlt, -⟩ := List.getElem?_eq_some_iff.mp hi
  refine (List.getElem?_inj (i := i) (j := j) (by rw [List.length_map]; exact hlt) h.distinct).mp ?_
  rw [List.getElem?_map, List.getElem?_map, hi, hj, Option.map_some, Option.map_some, hname]

theorem holds_create (junk : Ptr → Zone) (n : Nat) : Holds [] (.create junk n) where
  nelts := rfl
  describes i d h := by simp at h
  distinct := List.nodup_nil
  named d h := by cases h

/-- **A new zone** is added to those held. -/
theorem Holds.push (h : Holds decls zs) {o : PushOutcome} {p : Ptr}
    (hpush : zs.push o = some (p, zs')) {z : Zone} (hz : d.Describes z) (hne : d.name ≠ [])
    (hnew : ∀ d' ∈ decls, d'.name ≠ d.name) : Holds (decls ++ [d]) (zs'.set p z) := by
  obtain ⟨hp, hn, -⟩ := GrowArray.push_cases hpush
  refine ⟨?_, fun i d' hd' ↦ ?_, ?_, ?_⟩
  · rw [List.length_append, List.length_singleton, ← h.nelts]
    exact hn
  · rcases Nat.lt_or_ge i decls.length with hi | hi
    · rw [List.getElem?_append_left hi] at hd'
      have hmem := GrowArray.mem_push_set_ptr hpush z (h.nelts ▸ hi)
      rw [show (zs'.set p z).ptr i = zs'.ptr i from rfl, hmem]
      exact h.describes i d' hd'
    · rw [List.getElem?_append_right hi, List.getElem?_singleton] at hd'
      split at hd'
      · obtain rfl := Option.some.inj hd'
        have hil : i = zs.nelts := by rw [h.nelts]; omega
        have hpi : (zs'.set p z).ptr i = p := by rw [hp, hil]; rfl
        rw [hpi, GrowArray.mem_set_self]
        exact hz
      · cases hd'
  · rw [List.map_append, List.map_singleton, List.nodup_append]
    refine ⟨h.distinct, List.nodup_singleton _, fun name hname e he ↦ ?_⟩
    obtain ⟨d', hd', rfl⟩ := List.mem_map.mp hname
    rw [List.mem_singleton.mp he]
    exact hnew d' hd'
  · intro d' hd'
    rcases List.mem_append.mp hd' with hd' | hd'
    · exact h.named d' hd'
    · rw [List.mem_singleton.mp hd']
      exact hne

theorem Holds.setShm (h : Holds decls zs) (q : Ptr) (shm : Option Nat) :
    Holds decls (zs.set q { zs.mem q with shm := shm }) := by
  refine ⟨h.nelts, fun i d hd ↦ ?_, h.distinct, h.named⟩
  have hdesc := h.describes i d hd
  by_cases hq : zs.ptr i = q
  · subst hq
    rw [show (zs.set (zs.ptr i) _).ptr i = zs.ptr i from rfl, GrowArray.mem_set_self]
    exact hdesc.setShm shm
  · rw [show (zs.set q _).ptr i = zs.ptr i from rfl, GrowArray.mem_set_of_ne _ hq]
    exact hdesc

/-- **Looking a zone up** finds the declaration of that name. -/
theorem Holds.confZoneGet_some (h : Holds decls zs) (hlaw : ngx.Lawful) {name : Bytes} {q : Ptr}
    (hzones : conf.zones = some zs) (hget : confZoneGet ngx conf name = some q) :
    ∃ i d, q = zs.ptr i ∧ i < zs.nelts ∧ decls[i]? = some d ∧ d.name = name := by
  obtain ⟨⟨i, hi, rfl⟩, hname⟩ := name_of_confZoneGet hlaw hzones hget
  have hlt : i < decls.length := h.nelts ▸ hi
  have hd : decls[i]? = some decls[i] := List.getElem?_eq_getElem hlt
  exact ⟨i, decls[i], rfl, hi, hd, (h.describes i _ hd).name.symm.trans hname⟩

theorem Holds.confZoneGet_none (h : Holds decls zs) (hlaw : ngx.Lawful) {name : Bytes}
    (hzones : conf.zones = some zs) (hget : confZoneGet ngx conf name = none) :
    ∀ d ∈ decls, d.name ≠ name := by
  intro d hd hname
  obtain ⟨i, hi, rfl⟩ := List.mem_iff_getElem.mp hd
  rw [confZoneGet, hzones] at hget
  have hnot := List.find?_eq_none.mp (Option.map_eq_none_iff.mp hget) i
    (List.mem_range.mpr (h.nelts ▸ hi))
  have hdesc := (h.describes i _ (List.getElem?_eq_getElem hi)).name
  refine hnot (decide_eq_true ?_)
  rw [hlaw.memn2cmp_eq_zero, hdesc, hname]

theorem ZonesHold.of_some (h : ZonesHold decls conf) (hzones : conf.zones = some zs) :
    Holds decls zs := by
  rw [ZonesHold, hzones] at h
  exact h

theorem ZonesHold.create (h : ZonesHold decls conf) {o : ZoneAlloc} {n : Nat}
    (hzs : zonesOrCreate conf o n = some zs) : Holds decls zs := by
  rw [ZonesHold] at h
  rw [zonesOrCreate] at hzs
  cases hz : conf.zones with
  | some zs₀ =>
    rw [hz] at h hzs
    obtain rfl := Option.some.inj hzs
    exact h
  | none =>
    rw [hz] at h hzs
    simp only at h hzs
    split at hzs
    · obtain rfl := Option.some.inj hzs
      rw [h]
      exact holds_create _ _
    · cases hzs

end

/-! ## One directive -/

section

variable {ngx : NgxConf} {ds : List (Tag × Directive)} {c c' : Cycle} {tag t : Tag} {d : Directive}
  {decl : Decl} {p q : Ptr} {v : Variable}

theorem declared_append (ds ds' : List (Tag × Directive)) :
    declared ngx tag (ds ++ ds') = declared ngx tag ds ++ declared ngx tag ds' :=
  List.filterMap_append ..

theorem declared_singleton_self (hdecl : d.decl ngx = some decl) :
    declared ngx tag [(tag, d)] = [decl] := by
  rw [declared, List.filterMap_cons, if_pos rfl, hdecl]
  rfl

theorem declared_singleton_ne (ht : t ≠ tag) : declared ngx t [(tag, d)] = [] := by
  rw [declared, List.filterMap_cons, if_neg (Ne.symm ht)]
  rfl

theorem declared_keyval (k : Keyval) : declared ngx t [(tag, .keyval k)] = [] := by
  rw [declared, List.filterMap_cons]
  split
  · rfl
  · rename_i h
    split at h <;> cases h

/-- The zones of each module are those its directives declare. -/
def Cycle.Holds (ngx : NgxConf) (ds : List (Tag × Directive)) (c : Cycle) : Prop :=
  ∀ tag, ZonesHold (declared ngx tag ds) (c.conf tag)

/-- **An accepted directive** keeps the zones those declared. -/
theorem Cycle.Holds.step (hlaw : ngx.Lawful) (h : c.Holds ngx ds)
    (hstep : directiveStep ngx c (tag, d) = (none, c')) : c'.Holds ngx (ds ++ [(tag, d)]) := by
  intro t
  rw [declared_append]
  by_cases ht : t = tag
  · subst ht
    rcases accepted_cases hstep with ⟨decl, hdecl⟩ | ⟨k, rfl⟩
    · obtain ⟨o, zs, zs', p, z, hzs, hget, hpush, hz, hne, hc', -, -⟩ := zone_accepted hdecl hstep
      have hzs' := (h t).create hzs
      rw [hc', declared_singleton_self hdecl, Function.update_self]
      exact hzs'.push hpush hz hne (hzs'.confZoneGet_none hlaw rfl hget)
    · obtain ⟨vars, vars', zones, q, keyString, indexes, n, p, zones', -, -, -, -, hzones, -, hrest,
        hc', -⟩ := keyval_accepted hstep
      have hold := (h t).of_some hzones
      rw [hc', declared_keyval, List.append_nil, Function.update_self]
      rcases hrest with ⟨-, rfl, -⟩ | ⟨i, -, -, rfl⟩
      · exact hold
      · exact hold.setShm q (some i)
  · rw [declared_singleton_ne ht, List.append_nil, conf_step_of_ne hstep ht]
    exact h t

/-! ## Reading through an address -/

/-- Through the address `p`, a request reads the variable `v`. -/
def Variable.At (v : Variable) (c : Cycle) (tag : Tag) (p : Ptr) : Prop :=
  ∃ vs, (c.conf tag).vars = some vs ∧ vs.Held p ∧ vs.mem p = v

/-- Through the address `q`, a request reads what was declared and, for shared memory, the segment
of that name. -/
def Decl.At (decl : Decl) (c : Cycle) (tag : Tag) (q : Ptr) : Prop :=
  ∃ zs, (c.conf tag).zones = some zs ∧ zs.Held q ∧ decl.Describes (zs.mem q) ∧
    (decl.type = .shm →
      ∃ i, (zs.mem q).shm = some i ∧ segmentOf c.shared decl.name = some i)

/-- **What is read through the address of a variable** stays what it is. -/
theorem Variable.At.step (h : v.At c t p) (hstep : directiveStep ngx c (tag, d) = (none, c')) :
    v.At c' t p := by
  obtain ⟨vs, hvs, hheld, hmem⟩ := h
  by_cases ht : t = tag
  · subst ht
    rcases accepted_cases hstep with ⟨decl, hdecl⟩ | ⟨k, rfl⟩
    · obtain ⟨o, zs, zs', q, z, -, -, -, -, -, hc', -, -⟩ := zone_accepted hdecl hstep
      refine ⟨vs, ?_, hheld, hmem⟩
      rw [hc', Function.update_self]
      exact hvs
    · obtain ⟨vars, vars', zones, q, keyString, indexes, n, p', zones', -, hvars, hpush, -, -, -, -,
        hc', -⟩ := keyval_accepted hstep
      rw [varsOrCreate, hvs] at hvars
      obtain rfl := Option.some.inj hvars
      refine ⟨vars'.set p' ⟨indexes, keyString, k.var.drop 1, some q⟩, ?_, hheld.push hpush, ?_⟩
      · rw [hc', Function.update_self]
      · rw [GrowArray.mem_push_of_held hpush _ hheld, hmem]
  · refine ⟨vs, ?_, hheld, hmem⟩
    rw [conf_step_of_ne hstep ht]
    exact hvs

/-- **What is read through the address of a zone** stays what it is. -/
theorem Decl.At.step (hlaw : ngx.Lawful) (h : decl.At c t q)
    (hstep : directiveStep ngx c (tag, d) = (none, c')) : decl.At c' t q := by
  obtain ⟨zs, hzs, hheld, hdesc, hseg⟩ := h
  have hkeeps : Keeps c.shared c'.shared := keeps_step hstep
  -- what another record or another module does only moves the segments on
  have hkeep : ∀ zs', (c'.conf t).zones = some zs' → zs'.Held q → zs'.mem q = zs.mem q →
      decl.At c' t q := by
    intro zs' hzs' hheld' hmem
    refine ⟨zs', hzs', hheld', hmem ▸ hdesc, fun hty ↦ ?_⟩
    obtain ⟨i, hshm, hi⟩ := hseg hty
    exact ⟨i, hmem ▸ hshm, hkeeps _ _ hi⟩
  by_cases ht : t = tag
  · subst ht
    rcases accepted_cases hstep with ⟨decl', hdecl⟩ | ⟨k, rfl⟩
    · obtain ⟨o, zs₀, zs', p, z, hzs₀, -, hpush, -, -, hc', -⟩ := zone_accepted hdecl hstep
      rw [zonesOrCreate, hzs] at hzs₀
      obtain rfl := Option.some.inj hzs₀
      refine hkeep (zs'.set p z) ?_ (hheld.push hpush) (GrowArray.mem_push_of_held hpush z hheld)
      rw [hc', Function.update_self]
    · obtain ⟨vars, vars', zones, q', keyString, indexes, n, p, zones', -, -, -, -, hzones, hget,
        hrest, hc', -⟩ := keyval_accepted hstep
      have hconf : (c'.conf t).zones = some zones' := by
        rw [hc', Function.update_self]
      obtain rfl := Option.some.inj (hzs.symm.trans hzones)
      rcases hrest with ⟨-, rfl, -⟩ | ⟨i, hty, hshm, rfl⟩
      · exact hkeep _ hconf hheld rfl
      · by_cases hq : q = q'
        · -- the segment pointer of this very record is filled in again
          subst hq
          have hname := (name_of_confZoneGet hlaw hzones hget).2
          refine ⟨_, hconf, hheld, ?_, fun _ ↦ ⟨i, ?_, ?_⟩⟩
          · rw [GrowArray.mem_set_self]
            exact hdesc.setShm _
          · rw [GrowArray.mem_set_self]
          · rw [← hdesc.name, hname]
            exact (sharedMemoryAdd_spec hshm).2 i rfl
        · exact hkeep _ hconf hheld (GrowArray.mem_set_of_ne _ hq)
  · refine hkeep zs ?_ hheld rfl
    rw [conf_step_of_ne hstep ht]
    exact hzs

/-! ## A `keyval` directive -/

/-- The nginx variable a directive defines. -/
def Directive.slot : Directive → Option Nat
  | .keyval k => k.slot
  | _ => none

theorem data_step (hstep : directiveStep ngx c (tag, d) = (none, c')) {n : Nat}
    (hslot : tag = t → d.slot ≠ some n) : c'.data t n = c.data t n := by
  rcases accepted_cases hstep with ⟨decl, hdecl⟩ | ⟨k, rfl⟩
  · obtain ⟨o, zs, zs', q, z, -, -, -, -, -, -, hdata, -⟩ := zone_accepted hdecl hstep
    rw [hdata]
  · obtain ⟨vars, vars', zones, q, keyString, indexes, m, p', zones', hm, -, -, -, -, -, -, -,
      hdata⟩ := keyval_accepted hstep
    rw [hdata]
    by_cases ht : t = tag
    · subst ht
      have hne : n ≠ m := fun he ↦ hslot rfl (he ▸ hm)
      rw [Function.update_self, Function.update_of_ne hne]
    · rw [Function.update_of_ne ht]

/-- **What an accepted `keyval` sets up**: nginx is handed the address of its variable, which has
the compiled key and the address of the zone's record as it is now. -/
theorem keyval_at (hlaw : ngx.Lawful) (h : c.Holds ngx ds) {k : Keyval}
    (hstep : directiveStep ngx c (tag, .keyval k) = (none, c')) :
    ∃ n p keyString indexes zs i decl, k.slot = some n ∧ c'.data tag n = some p ∧
      compileKey k.getIndex k.alloc k.key = .ok (keyString, indexes) ∧
      (c.conf tag).zones = some zs ∧ (declared ngx tag ds)[i]? = some decl ∧
      decl.name = k.zoneName ∧
      Variable.At ⟨indexes, keyString, k.var.drop 1, some (zs.ptr i)⟩ c' tag p ∧
      decl.At c' tag (zs.ptr i) := by
  obtain ⟨vars, vars', zs, q, keyString, indexes, n, p, zones', hslot, -, hpush, hkey, hzones, hget,
    hrest, hconf, hdata⟩ := keyval_accepted hstep
  have hold := (h tag).of_some hzones
  obtain ⟨i, decl, rfl, hi, hdecl, hname⟩ := hold.confZoneGet_some hlaw hzones hget
  have hdesc := hold.describes i decl hdecl
  refine ⟨n, p, keyString, indexes, zs, i, decl, hslot, ?_, hkey, hzones, hdecl, hname, ?_, ?_⟩
  · rw [hdata, Function.update_self, Function.update_self]
  · refine ⟨vars'.set p ⟨indexes, keyString, k.var.drop 1, some (zs.ptr i)⟩, ?_, ?_, ?_⟩
    · rw [hconf, Function.update_self]
    · exact (GrowArray.held_set _).mpr (GrowArray.held_of_push hpush)
    · exact GrowArray.mem_set_self _
  · refine ⟨zones', ?_, ?_⟩
    · rw [hconf, Function.update_self]
    · rcases hrest with ⟨hty, rfl, -⟩ | ⟨j, hty, hshm, rfl⟩
      · refine ⟨GrowArray.held_ptr hi, hdesc, fun hshm ↦ ?_⟩
        rw [hdesc.type, hshm] at hty
        cases hty
      · refine ⟨GrowArray.held_ptr hi, ?_, fun _ ↦ ⟨j, ?_, ?_⟩⟩
        · rw [GrowArray.mem_set_self]
          exact hdesc.setShm _
        · rw [GrowArray.mem_set_self]
        · rw [hname]
          exact (sharedMemoryAdd_spec hshm).2 j rfl

/-! ## Whole configurations -/

theorem holds_init (ngx : NgxConf) (shared : Segments) : (Cycle.init shared).Holds ngx [] :=
  fun _ ↦ rfl

/-- **Every accepted configuration** holds the zones its directives declare. -/
theorem Cycle.Holds.run (hlaw : ngx.Lawful) {ds' : List (Tag × Directive)} (h : c.Holds ngx ds)
    (hacc : Accepted ngx c ds') : (readConf ngx c ds').Holds ngx (ds ++ ds') := by
  induction ds' generalizing c ds with
  | nil =>
    rw [List.append_nil]
    exact h
  | cons d ds' ih =>
    have hnext := ih (h.step hlaw (Prod.ext hacc.1 rfl)) hacc.2
    rw [List.append_assoc] at hnext
    exact hnext

theorem holds_of_accepted (hlaw : ngx.Lawful) {shared : Segments}
    (hacc : Accepted ngx (.init shared) ds) : (readConf ngx (.init shared) ds).Holds ngx ds := by
  have hrun := (holds_init ngx shared).run hlaw hacc
  rw [List.nil_append] at hrun
  exact hrun

theorem Cycle.Holds.at_ptr (h : c.Holds ngx ds) {zs : GrowArray Zone}
    (hzs : (c.conf tag).zones = some zs) {i : Nat} (hi : (declared ngx tag ds)[i]? = some decl)
    (htype : decl.type = .redis) : decl.At c tag (zs.ptr i) := by
  have hholds := (h tag).of_some hzs
  obtain ⟨hlt, -⟩ := List.getElem?_eq_some_iff.mp hi
  refine ⟨zs, hzs, GrowArray.held_ptr (hholds.nelts ▸ hlt), hholds.describes i decl hi, ?_⟩
  rw [htype]
  exact fun hshm ↦ by cases hshm

/-- **Every declared Redis zone has a record** at the end. -/
theorem Cycle.Holds.exists_at (h : c.Holds ngx ds) (hdecl : decl ∈ declared ngx tag ds)
    (htype : decl.type = .redis) : ∃ q, decl.At c tag q := by
  obtain ⟨i, hi⟩ := List.mem_iff_getElem?.mp hdecl
  rcases hzs : (c.conf tag).zones with _ | zs
  · have hnone := h tag
    rw [ZonesHold, hzs] at hnone
    rw [show declared ngx tag ds = [] from hnone] at hdecl
    cases hdecl
  · exact ⟨zs.ptr i, h.at_ptr hzs hi htype⟩

/-- **The settings of every declared Redis zone are valid.** -/
theorem declared_valid (hlaw : ngx.Lawful) (hacc : Accepted ngx c ds)
    (hdecl : decl ∈ declared ngx tag ds) (htype : decl.type = .redis) : decl.redis.Valid := by
  obtain ⟨⟨t, d⟩, hmem, hd⟩ := List.mem_filterMap.mp hdecl
  split at hd
  · rename_i ht
    obtain rfl : t = tag := ht
    obtain ⟨pre, post, rfl⟩ := List.append_of_mem hmem
    obtain ⟨-, hok, -⟩ := Machine.meets_append.mp hacc
    rcases d with ⟨first, args, o⟩ | ⟨first, args, o⟩ | k
    · simp only [Directive.decl] at hd
      split at hd
      · obtain rfl := Option.some.inj hd
        cases htype
      · cases hd
    · obtain rfl := Option.some.inj hd
      obtain ⟨name, zs, zs', p, z, -, -, -, -, -, -, -, -, hredis, -⟩ :=
        confSetZoneRedis_ok (Prod.ext hok rfl)
      rw [hredis]
      exact redisSettings_valid hlaw hredis
    · cases hd
  · cases hd

theorem Variable.At.run (h : v.At c t p) (hacc : Accepted ngx c ds) :
    v.At (readConf ngx c ds) t p :=
  Machine.final_induction _ (P := fun c ↦ v.At c t p)
    (fun _ _ hat hok ↦ hat.step (Prod.ext hok rfl)) h hacc

theorem Decl.At.run (hlaw : ngx.Lawful) (h : decl.At c t q) (hacc : Accepted ngx c ds) :
    decl.At (readConf ngx c ds) t q :=
  Machine.final_induction _ (P := fun c ↦ decl.At c t q)
    (fun _ _ hat hok ↦ hat.step hlaw (Prod.ext hok rfl)) h hacc

theorem data_run {n : Nat} (hacc : Accepted ngx c ds)
    (hslot : ∀ e ∈ ds, e.1 = t → e.2.slot ≠ some n) :
    (readConf ngx c ds).data t n = c.data t n := by
  induction ds generalizing c with
  | nil => rfl
  | cons d ds ih =>
    have hstep := data_step (Prod.ext hacc.1 rfl) (hslot d List.mem_cons_self)
    exact (ih hacc.2 fun e he ↦ hslot e (List.mem_cons_of_mem d he)).trans hstep

/-- What a request finds of a `keyval` directive: through the address `p`, its compiled key and the
address `q` of its zone; through `q`, what was declared under the name it gave. -/
structure Served (ngx : NgxConf) (ds : List (Tag × Directive)) (c : Cycle) (tag : Tag) (k : Keyval)
    (p q : Ptr) (decl : Decl) : Prop where
  variable_at : ∃ keyString indexes,
    compileKey k.getIndex k.alloc k.key = .ok (keyString, indexes) ∧
      Variable.At ⟨indexes, keyString, k.var.drop 1, some q⟩ c tag p
  declared : decl ∈ declared ngx tag ds
  name : decl.name = k.zoneName
  unique : ∀ decl' ∈ NgxKeyval.declared ngx tag ds, decl'.name = k.zoneName → decl' = decl
  zone_at : decl.At c tag q

/-- **Every `keyval` directive is served at the end**, whatever stands behind it. -/
theorem served_of_accepted (hlaw : ngx.Lawful) {shared : Segments}
    {pre post : List (Tag × Directive)} {k : Keyval}
    (hacc : Accepted ngx (.init shared) (pre ++ (tag, .keyval k) :: post)) :
    ∃ n p q decl, k.slot = some n ∧
      (readConf ngx (.init shared) (pre ++ [(tag, .keyval k)])).data tag n = some p ∧
      Served ngx (pre ++ (tag, .keyval k) :: post)
        (readConf ngx (.init shared) (pre ++ (tag, .keyval k) :: post)) tag k p q decl := by
  obtain ⟨hpre, hok, hpost⟩ := Machine.meets_append.mp hacc
  have hold := holds_of_accepted hlaw hpre
  obtain ⟨n, p, keyString, indexes, zs, i, decl, hslot, hdata, hkey, -, hdecl, hname, hvar,
    hzone⟩ := keyval_at hlaw hold (Prod.ext hok rfl)
  have hmem : decl ∈ declared ngx tag (pre ++ (tag, .keyval k) :: post) := by
    rw [declared_append]
    exact List.mem_append_left _ (List.mem_of_getElem? hdecl)
  have hzone' : decl.At (readConf ngx (.init shared) (pre ++ (tag, .keyval k) :: post)) tag
      (zs.ptr i) := by
    rw [readConf, Machine.final_append, Machine.final_cons]
    exact hzone.run hlaw hpost
  refine ⟨n, p, zs.ptr i, decl, hslot, ?_, ⟨keyString, indexes, hkey, ?_⟩, hmem, hname, ?_, hzone'⟩
  · rw [readConf, Machine.final_append]
    exact hdata
  · rw [readConf, Machine.final_append, Machine.final_cons]
    exact hvar.run hpost
  · intro decl' hmem' hname'
    obtain ⟨zs', hzs', -⟩ := hzone'
    have hfinal := (holds_of_accepted hlaw hacc tag).of_some hzs'
    exact hfinal.unique hmem' hmem (hname'.trans hname.symm)

end

end NgxKeyval
