import NgxKeyval.Conf.Names
import NgxKeyval.Template.Bounds

/-!
# Rejected `keyval` directives

`ngx_keyval_conf_set_variable` pushes the new variable first and fills it in step by step; each
later exit takes it off again.  The zones are touched in one place only, where the segment of a
shared memory zone is looked up: the answer is stored in the zone's record before it is tested, and
a refusal is stored as well.

* `Conf.SameContent` compares what the two arrays hold, wherever they live.
* `compileKey_ok_iff` says when a key compiles, and `confSetVariable_cases` when the directive gets
  as far as its zone; whatever stops it before leaves no trace.
* `LosesSegment` is the one way to leave one: the zone already has its segment, and is refused it.
  `confSetVariable_unchanged_iff` says that there is no other, over states of any kind.
* `not_losesSegment_of_accepted` — directives that have been accepted never lead there, so that
  after them a rejected directive leaves no trace (`unchanged_of_accepted`).
-/

set_option autoImplicit false

namespace NgxKeyval

/-! ## The content of a configuration -/

/-- The variables, in order. -/
def Conf.variables (conf : Conf) : List Variable := conf.vars.elim [] GrowArray.toList

/-- The zone records, in order. -/
def Conf.zoneRecords (conf : Conf) : List Zone := conf.zones.elim [] GrowArray.toList

/-- Two states of a configuration hold the same variables and the same zone records. -/
def Conf.SameContent (conf conf' : Conf) : Prop :=
  conf'.variables = conf.variables ∧ conf'.zoneRecords = conf.zoneRecords

instance (conf conf' : Conf) : Decidable (conf.SameContent conf') :=
  inferInstanceAs (Decidable (_ ∧ _))

/-! ## Keys that compile -/

section

variable {getIndex : Nat → Bytes → Option Nat} {o : VarAlloc} {cap : Nat}

/-- Each of these references, of which the first is number `asked`, gets an element of the array and
an index. -/
def Indexed (getIndex : Nat → Bytes → Option Nat) (o : VarAlloc) (asked : Nat)
    (names : List Bytes) : Prop :=
  ∀ r ∈ names.zipIdx asked, o.indexPush r.2 = true ∧ getIndex r.2 r.1 ≠ none

theorem indexed_cons {asked : Nat} {name : Bytes} {names : List Bytes} :
    Indexed getIndex o asked (name :: names) ↔
      (o.indexPush asked = true ∧ getIndex asked name ≠ none) ∧
        Indexed getIndex o (asked + 1) names := by
  rw [Indexed, List.zipIdx_cons, List.forall_mem_cons]
  rfl

/-- A key compiles: it has no reference, or the two buffers are there, every reference gets its
index, and one of the names is not empty, which leaves room for the `NUL` of the key string. -/
def KeyCompiles (getIndex : Nat → Bytes → Option Nat) (o : VarAlloc) (key : Bytes) : Prop :=
  dollar ∈ key → o.keyString = true ∧ o.variableName = true ∧
    Indexed getIndex o 0 (references key) ∧ ∃ name ∈ references key, name ≠ []

theorem not_exists_ok {ε α : Type} {e : ε} : ¬ ∃ r : α, Except.error e = .ok r := by
  simp

/-- **One turn at a `$`** gives an index out exactly when there is an element for it and the name
has one. -/
theorem scanName_cases {asked : Nat} {rest : Bytes} (hroom : rest.length < cap) :
    (∃ i, o.indexPush asked = true ∧ getIndex asked (rest.takeWhile isNameChar) = some i ∧
      scanName cap getIndex o asked rest = .ok (i, rest.dropWhile isNameChar)) ∨
    ¬ (o.indexPush asked = true ∧ getIndex asked (rest.takeWhile isNameChar) ≠ none) ∧
      ∃ e, scanName cap getIndex o asked rest = .error e := by
  have hname : (rest.takeWhile isNameChar).length ≤ rest.length :=
    (List.takeWhile_sublist isNameChar).length_le
  rw [scanName, nameLoop_inside (by rw [List.length_nil]; omega)]
  simp only [List.nil_append]
  rw [if_pos (by omega)]
  by_cases hpush : o.indexPush asked = true
  · rw [if_pos hpush]
    rcases hget : getIndex asked (rest.takeWhile isNameChar) with _ | i
    · exact Or.inr ⟨fun h ↦ h.2 rfl, _, rfl⟩
    · exact Or.inl ⟨i, hpush, rfl, rfl⟩
  · rw [if_neg hpush]
    exact Or.inr ⟨fun h ↦ hpush h.1, _, rfl⟩

/-- **The outer loop**, with fuel for what is left and room for it, comes to its end exactly when
every reference gets its index. -/
theorem scanLoop_ok_iff {fuel : Nat} {rest ks : Bytes} {ix : List Nat}
    (hfuel : rest.length ≤ fuel) (hroom : ks.length + rest.length ≤ cap) :
    (∃ r, scanLoop cap getIndex o fuel rest ks ix = .ok r) ↔
      Indexed getIndex o ix.length (references rest) := by
  induction fuel generalizing rest ks ix with
  | zero =>
    obtain rfl : rest = [] := List.eq_nil_of_length_eq_zero (Nat.le_zero.mp hfuel)
    exact iff_of_true ⟨_, rfl⟩ (by simp [references, Indexed])
  | succ fuel ih =>
    cases rest with
    | nil => exact iff_of_true ⟨_, rfl⟩ (by simp [references, Indexed])
    | cons c rest =>
      rw [List.length_cons] at hfuel hroom
      have hwrite : (ks ++ [c]).length = ks.length + 1 := by
        rw [List.length_append, List.length_singleton]
      rw [scanLoop, if_pos (by omega)]
      by_cases hc : c = dollar
      · subst hc
        have hdrop : (rest.dropWhile isNameChar).length ≤ rest.length :=
          (List.dropWhile_sublist isNameChar).length_le
        rw [if_pos rfl, references, tokenize_dollar, filterMap_name?_ref, indexed_cons]
        have hroom' : rest.length < cap := by omega
        rcases @scanName_cases getIndex o cap ix.length rest hroom' with
          ⟨i, hpush, hget, hscan⟩ | ⟨hnot, e, hscan⟩
        · have hrest : (∃ r, scanLoop cap getIndex o fuel (rest.dropWhile isNameChar)
              (ks ++ [dollar]) (ix ++ [i]) = .ok r) ↔
              Indexed getIndex o (ix ++ [i]).length (references (rest.dropWhile isNameChar)) :=
            ih (by omega) (by omega)
          rw [List.length_append, List.length_singleton] at hrest
          simp only [hscan]
          rw [hrest]
          refine (and_iff_right ⟨hpush, ?_⟩).symm
          rw [hget]
          exact Option.some_ne_none i
        · simp only [hscan]
          exact iff_of_false not_exists_ok fun h ↦ hnot h.1
      · rw [if_neg hc, references, tokenize_byte hc, filterMap_name?_byte]
        exact ih (by omega) (by omega)

theorem length_tokenize_lt_iff {key : Bytes} :
    (tokenize key).length < key.length ↔ ∃ name ∈ references key, name ≠ [] := by
  have hkey := length_tokenize key
  have hpos : (tokenize key).length < key.length ↔ (references key).flatten ≠ [] := by
    rw [← List.length_pos_iff]
    omega
  rw [hpos, Ne, List.flatten_eq_nil_iff]
  simp only [not_forall, exists_prop]

/-- **When a key compiles.** -/
theorem compileKey_ok_iff {key : Bytes} :
    (∃ r, compileKey getIndex o key = .ok r) ↔ KeyCompiles getIndex o key := by
  rw [compileKey, KeyCompiles]
  split
  · rename_i hno
    exact iff_of_true ⟨_, rfl⟩ fun hdollar ↦ absurd hdollar hno
  · rename_i hdollar
    rw [imp_iff_right (not_not.mp hdollar)]
    split
    · rename_i hks
      exact iff_of_false not_exists_ok fun h ↦ Bool.false_ne_true (hks.symm.trans h.1)
    · split
      · rename_i hname
        exact iff_of_false not_exists_ok fun h ↦ Bool.false_ne_true (hname.symm.trans h.2.1)
      · rename_i hks hname
        have hloop : (∃ r, scanLoop key.length getIndex o key.length key [] [] = .ok r) ↔
            Indexed getIndex o 0 (references key) :=
          scanLoop_ok_iff (Nat.le_refl _) (Nat.le_of_eq (Nat.zero_add _))
        rw [and_iff_right (eq_true_of_ne_false hks),
          and_iff_right (eq_true_of_ne_false hname), ← hloop, ← length_tokenize_lt_iff]
        rcases hscan : scanLoop key.length getIndex o key.length key [] [] with e | ⟨ks, ix⟩
        · simp
        · obtain ⟨hks, -⟩ := scanLoop_ok (Nat.le_refl _) hscan
          rw [List.nil_append] at hks
          simp only [hks, List.length_map]
          split
          · rename_i hlt
            exact iff_of_true ⟨_, rfl⟩ ⟨⟨_, rfl⟩, hlt⟩
          · rename_i hge
            exact iff_of_false not_exists_ok fun h ↦ hge h.2

end

/-! ## Up to the zone -/

/-- A directive gets as far as its zone: its arguments have the right form, there is memory for its
variable and for the indexes, and its key compiles. -/
structure ReachesZone (getIndex : Nat → Bytes → Option Nat) (conf : Conf) (key var zone : Bytes)
    (o : VarAlloc) : Prop where
  key_ne : key ≠ []
  var_form : 2 ≤ var.length ∧ var.head? = some dollar
  zone_form : 6 ≤ zone.length ∧ strncmpEq zone "zone=" 5 = true
  array : conf.vars = none → o.array = true
  push : ∀ vars, conf.vars = some vars → vars.nalloc ≤ vars.nelts → o.push ≠ .fail
  indexes : o.indexes = true
  compiles : KeyCompiles getIndex o key

section

variable {conf : Conf} {o : VarAlloc} {vars : GrowArray Variable}

theorem varsOrCreate_eq_none (h : varsOrCreate conf o = none) :
    conf.vars = none ∧ o.array = false := by
  rw [varsOrCreate] at h
  split at h
  · cases h
  · rename_i hvars
    refine ⟨hvars, ?_⟩
    split at h
    · cases h
    · rename_i harray
      exact eq_false_of_ne_true harray

theorem varsOrCreate_eq_some (h : varsOrCreate conf o = some vars) :
    vars.toList = conf.variables ∧
      (conf.vars = some vars ∨ conf.vars = none ∧ o.array = true ∧ vars.nelts < vars.nalloc) := by
  rw [varsOrCreate] at h
  rw [Conf.variables]
  split at h
  · rename_i hvars
    obtain rfl := Option.some.inj h
    rw [hvars]
    exact ⟨rfl, Or.inl rfl⟩
  · rename_i hvars
    rw [hvars]
    split at h
    · rename_i harray
      obtain rfl := Option.some.inj h
      exact ⟨rfl, Or.inr ⟨rfl, harray, Nat.zero_lt_succ 3⟩⟩
    · cases h

theorem full_of_push_eq_none (h : varsOrCreate conf o = some vars)
    (hpush : vars.push o.push = none) :
    conf.vars = some vars ∧ vars.nalloc ≤ vars.nelts ∧ o.push = .fail := by
  obtain ⟨hfull, hfail⟩ := GrowArray.push_eq_none_iff.mp hpush
  rcases (varsOrCreate_eq_some h).2 with hvars | ⟨-, -, hroom⟩
  · exact ⟨hvars, hfull, hfail⟩
  · exact absurd hroom (Nat.not_lt.mpr hfull)

theorem memory_of_push (h : varsOrCreate conf o = some vars) {r : Ptr × GrowArray Variable}
    (hpush : vars.push o.push = some r) :
    (conf.vars = none → o.array = true) ∧
      ∀ vars, conf.vars = some vars → vars.nalloc ≤ vars.nelts → o.push ≠ .fail := by
  refine ⟨fun hnone ↦ ?_, fun vars₁ hsome hfull hfail ↦ ?_⟩
  · rcases (varsOrCreate_eq_some h).2 with hsome | ⟨-, harray, -⟩
    · exact absurd (hsome.symm.trans hnone) (Option.some_ne_none _)
    · exact harray
  · rw [varsOrCreate, hsome] at h
    obtain rfl := Option.some.inj h
    rw [GrowArray.push_eq_none_iff.mpr ⟨hfull, hfail⟩] at hpush
    exact Option.some_ne_none _ hpush.symm

end

section

variable (ngx : NgxConf) (tag : Tag) (getIndex : Nat → Bytes → Option Nat) (conf : Conf)
  (shared : Segments) (key var zone : Bytes) (o : VarAlloc)

/-- **How far a directive gets**: to its zone, with one more variable, or to an error that leaves
the zones alone and the variables as they were. -/
theorem confSetVariable_cases :
    (ReachesZone getIndex conf key var zone o ∧
      ∃ vars p v, (∀ x, (vars.set p x).pop.toList = conf.variables) ∧
        vars.pop.toList = conf.variables ∧
        confSetVariable ngx tag getIndex conf shared key var zone o =
          bindZone ngx tag conf shared (zone.drop 5) vars p v o.segment) ∨
    ¬ ReachesZone getIndex conf key var zone o ∧
      ∃ e vars, vars.elim [] GrowArray.toList = conf.variables ∧
        confSetVariable ngx tag getIndex conf shared key var zone o =
          (.error e, { conf with vars := vars }, shared) := by
  obtain ⟨r, hr⟩ : ∃ r, confSetVariable ngx tag getIndex conf shared key var zone o = r := ⟨_, rfl⟩
  rw [hr]
  rw [confSetVariable] at hr
  -- what each exit finds missing is what reaching the zone asks for, in the same order
  split at hr
  · rename_i hkey
    exact Or.inr ⟨fun h ↦ h.key_ne (List.eq_nil_of_length_eq_zero hkey), _, conf.vars, rfl, hr.symm⟩
  rename_i hkey
  split at hr
  · rename_i hvar
    refine Or.inr ⟨fun h ↦ ?_, _, conf.vars, rfl, hr.symm⟩
    exact hvar.elim (Nat.not_lt.mpr h.var_form.1) fun hne ↦ hne h.var_form.2
  rename_i hvar
  split at hr
  · rename_i hzone
    refine Or.inr ⟨fun h ↦ ?_, _, conf.vars, rfl, hr.symm⟩
    exact hzone.elim (Nat.not_lt.mpr h.zone_form.1) fun hne ↦
      Bool.false_ne_true (hne.symm.trans h.zone_form.2)
  rename_i hzone
  rcases hvars : varsOrCreate conf o with _ | vars
  · simp only [hvars] at hr
    obtain ⟨hnone, harray⟩ := varsOrCreate_eq_none hvars
    refine Or.inr ⟨fun h ↦ ?_, _, conf.vars, rfl, hr.symm⟩
    exact Bool.false_ne_true (harray.symm.trans (h.array hnone))
  obtain ⟨hcontent, -⟩ := varsOrCreate_eq_some hvars
  rcases hpush : vars.push o.push with _ | ⟨p, vars'⟩
  · simp only [hvars, hpush] at hr
    obtain ⟨hsome, hfull, hfail⟩ := full_of_push_eq_none hvars hpush
    exact Or.inr ⟨fun h ↦ h.push vars hsome hfull hfail, _, some vars, hcontent, hr.symm⟩
  have hpop : vars'.pop.toList = conf.variables :=
    (GrowArray.toList_push_pop hpush).trans hcontent
  simp only [hvars, hpush] at hr
  split at hr
  · rename_i hindexes
    refine Or.inr ⟨fun h ↦ ?_, _, some vars'.pop, hpop, hr.symm⟩
    exact Bool.false_ne_true (hindexes.symm.trans h.indexes)
  rename_i hindexes
  rcases hcompile : compileKey getIndex o key with e | ⟨keyString, indexes⟩
  · simp only [hcompile] at hr
    refine Or.inr ⟨fun h ↦ ?_, e, some vars'.pop, hpop, hr.symm⟩
    have hok := compileKey_ok_iff.mpr h.compiles
    rw [hcompile] at hok
    exact not_exists_ok hok
  · simp only [hcompile] at hr
    obtain ⟨harray, hgrows⟩ := memory_of_push hvars hpush
    rw [not_or, not_lt, not_not] at hvar
    rw [not_or, not_lt, Bool.not_eq_false] at hzone
    refine Or.inl ⟨⟨?_, hvar, hzone, harray, hgrows, ?_, ?_⟩, vars', p, _, fun x ↦ ?_, hpop,
      hr.symm⟩
    · rintro rfl
      exact hkey rfl
    · exact eq_true_of_ne_false hindexes
    · exact compileKey_ok_iff.mp ⟨_, hcompile⟩
    · exact (GrowArray.toList_push_set_pop hpush x).trans hcontent

end

/-! ## At the zone -/

/-- A segment is refused: its name belongs to another module, or it is new and there is no
memory. -/
def Refused (shared : Segments) (name : Bytes) (tag : Tag) (alloc : Bool) : Prop :=
  (∃ t, tagOf shared name = some t ∧ t ≠ tag) ∨ tagOf shared name = none ∧ alloc = false

/-- **When a segment is refused** to a `keyval` directive, which gives no size. -/
theorem sharedMemoryAdd_none_iff {shared : Segments} {name : Bytes} {tag : Tag} {alloc : Bool} :
    (sharedMemoryAdd shared name 0 tag alloc).1 = none ↔ Refused shared name tag alloc := by
  rw [sharedMemoryAdd, Refused]
  split
  · rename_i i hi
    obtain ⟨hlt, -⟩ := List.findIdx?_eq_some_iff_getElem.mp hi
    have hseg : shared[i]? = some shared[i] := List.getElem?_eq_getElem hlt
    rw [hseg, tagOf_eq hi hseg]
    simp only
    split
    · rename_i htag
      exact iff_of_true rfl (Or.inl ⟨_, rfl, htag⟩)
    · rename_i htag
      refine iff_of_false (fun h ↦ ?_) fun h ↦ ?_
      · simp at h
      · rcases h with ⟨t, ht, hne⟩ | ⟨hnone, -⟩
        · obtain rfl := Option.some.inj ht
          exact htag hne
        · cases hnone
  · rename_i hnone
    rw [tagOf_eq_none hnone]
    cases alloc <;> simp

section

variable {ngx : NgxConf} {conf : Conf} {name : Bytes}

/-- A refusal that is stored shows unless there was no segment before. -/
theorem toList_set_shm_iff {zones : GrowArray Zone} {q : Ptr} (hzones : conf.zones = some zones)
    (h : confZoneGet ngx conf name = some q) :
    (zones.set q { zones.mem q with shm := none }).toList = zones.toList ↔
      (zones.mem q).shm = none := by
  obtain ⟨i, hi, rfl⟩ := confZoneGet_ptr hzones h
  rw [GrowArray.toList_set_ptr_iff hi]
  constructor
  · intro hsame
    rw [← hsame]
  · intro hnone
    rw [← hnone]

end

section

variable (ngx : NgxConf) (tag : Tag) (conf : Conf) (shared : Segments) (name : Bytes)
  (vars : GrowArray Variable) (p : Ptr) (v : Option Ptr → Variable) (seg : Bool)

/-- **How binding a zone ends**: without one; with one whose segment is refused; or well. -/
theorem bindZone_cases :
    (confZoneGet ngx conf name = none ∧ bindZone ngx tag conf shared name vars p v seg =
      (.error (.text "zone not found"), ⟨some vars.pop, conf.zones⟩, shared)) ∨
    ∃ zones q, conf.zones = some zones ∧ confZoneGet ngx conf name = some q ∧
      (((zones.mem q).type = .shm ∧ Refused shared name tag seg ∧
          ∃ shared', bindZone ngx tag conf shared name vars p v seg =
            (.error (.text "failed to allocate shared memory"),
              ⟨some (vars.set p (v (some q))).pop,
                some (zones.set q { zones.mem q with shm := none })⟩, shared')) ∨
        ((zones.mem q).type = .shm → ¬ Refused shared name tag seg) ∧
          ∃ conf' shared', bindZone ngx tag conf shared name vars p v seg =
            (.ok p, conf', shared')) := by
  obtain ⟨r, hr⟩ : ∃ r, bindZone ngx tag conf shared name vars p v seg = r := ⟨_, rfl⟩
  rw [hr]
  rw [bindZone] at hr
  split at hr
  · rename_i zones q hzones hq
    refine Or.inr ⟨zones, q, hzones, hq, ?_⟩
    split at hr
    · rename_i htype
      rcases hadd : sharedMemoryAdd shared name 0 tag seg with ⟨_ | i, shared'⟩
      · have hrefused : Refused shared name tag seg :=
          sharedMemoryAdd_none_iff.mp (by rw [hadd])
        simp only [hadd, Option.isNone_none, if_true] at hr
        exact Or.inl ⟨htype, hrefused, _, hr.symm⟩
      · simp only [hadd, Option.isNone_some, Bool.false_eq_true, if_false] at hr
        refine Or.inr ⟨fun _ hrefused ↦ ?_, _, _, hr.symm⟩
        rw [← sharedMemoryAdd_none_iff, hadd] at hrefused
        cases hrefused
    · rename_i htype
      refine Or.inr ⟨fun hshm ↦ ?_, _, _, hr.symm⟩
      rw [htype] at hshm
      cases hshm
  · rename_i hno
    have hnone : confZoneGet ngx conf name = none := by
      rcases hq : confZoneGet ngx conf name with _ | q
      · rfl
      · rcases hzones : conf.zones with _ | zones
        · rw [confZoneGet, hzones] at hq
          cases hq
        · exact (hno zones q hzones hq).elim
    exact Or.inl ⟨hnone, hr.symm⟩

end

/-! ## The whole directive -/

/-- The exit that leaves a trace: a directive gets as far as its zone, which is in shared memory and
already has its segment, and the segment is refused. -/
structure LosesSegment (ngx : NgxConf) (tag : Tag) (getIndex : Nat → Bytes → Option Nat)
    (conf : Conf) (shared : Segments) (key var zone : Bytes) (o : VarAlloc) : Prop where
  reaches : ReachesZone getIndex conf key var zone o
  has_segment : ∃ zones q, conf.zones = some zones ∧
    confZoneGet ngx conf (zone.drop 5) = some q ∧ (zones.mem q).type = .shm ∧
    (zones.mem q).shm ≠ none
  refused : Refused shared (zone.drop 5) tag o.segment

section

variable {ngx : NgxConf} {tag : Tag} {getIndex : Nat → Bytes → Option Nat} {conf conf' : Conf}
  {shared shared' : Segments} {key var zone : Bytes} {o : VarAlloc} {e : ConfError}

/-- **What a rejected directive leaves**: the variables as they were; and the zones as well, unless
a refusal was stored in the record of its zone. -/
theorem confSetVariable_error
    (h : confSetVariable ngx tag getIndex conf shared key var zone o = (.error e, conf', shared')) :
    conf'.variables = conf.variables ∧
      (conf'.zones = conf.zones ∨
        ∃ zones q, ReachesZone getIndex conf key var zone o ∧ conf.zones = some zones ∧
          confZoneGet ngx conf (zone.drop 5) = some q ∧ (zones.mem q).type = .shm ∧
          Refused shared (zone.drop 5) tag o.segment ∧
          conf'.zones = some (zones.set q { zones.mem q with shm := none })) := by
  rcases confSetVariable_cases ngx tag getIndex conf shared key var zone o with
    ⟨hreach, vars, p, v, hset, hpop, heq⟩ | ⟨-, e', vars, hcontent, heq⟩
  · rcases bindZone_cases ngx tag conf shared (zone.drop 5) vars p v o.segment with
      ⟨-, hbind⟩ | ⟨zones, q, hzones, hq, hrest⟩
    · rw [heq, hbind] at h
      cases h
      exact ⟨hpop, Or.inl rfl⟩
    · rcases hrest with ⟨htype, hrefused, shared₁, hbind⟩ | ⟨-, conf₁, shared₁, hbind⟩
      · rw [heq, hbind] at h
        cases h
        exact ⟨hset _, Or.inr ⟨zones, q, hreach, hzones, hq, htype, hrefused, rfl⟩⟩
      · rw [heq, hbind] at h
        cases h
  · rw [heq] at h
    cases h
    exact ⟨hcontent, Or.inl rfl⟩

/-- **No other exit leaves a trace.** -/
theorem sameContent_of_error (hno : ¬ LosesSegment ngx tag getIndex conf shared key var zone o)
    (h : confSetVariable ngx tag getIndex conf shared key var zone o = (.error e, conf', shared')) :
    conf.SameContent conf' := by
  obtain ⟨hvars, hzones | ⟨zones, q, hreach, hzones, hq, htype, hrefused, hset⟩⟩ :=
    confSetVariable_error h
  · exact ⟨hvars, by rw [Conf.zoneRecords, Conf.zoneRecords, hzones]⟩
  · refine ⟨hvars, ?_⟩
    have hnone : (zones.mem q).shm = none := by
      by_contra hsome
      exact hno ⟨hreach, ⟨zones, q, hzones, hq, htype, hsome⟩, hrefused⟩
    rw [Conf.zoneRecords, Conf.zoneRecords, hset, hzones]
    exact (toList_set_shm_iff hzones hq).mpr hnone

/-- **That exit does**: the directive is rejected, and the record of its zone has no segment. -/
theorem LosesSegment.error (h : LosesSegment ngx tag getIndex conf shared key var zone o) :
    ∃ conf' shared', confSetVariable ngx tag getIndex conf shared key var zone o =
        (.error (.text "failed to allocate shared memory"), conf', shared') ∧
      conf'.zoneRecords ≠ conf.zoneRecords := by
  obtain ⟨zones, q, hzones, hq, htype, hsome⟩ := h.has_segment
  rcases confSetVariable_cases ngx tag getIndex conf shared key var zone o with
    ⟨-, vars, p, v, -, -, heq⟩ | ⟨hnot, -⟩
  · rcases bindZone_cases ngx tag conf shared (zone.drop 5) vars p v o.segment with
      ⟨hnone, -⟩ | ⟨zones', q', hzones', hq', hrest⟩
    · rw [hq] at hnone
      cases hnone
    · obtain rfl := Option.some.inj (hzones.symm.trans hzones')
      obtain rfl := Option.some.inj (hq.symm.trans hq')
      rcases hrest with ⟨-, -, shared', hbind⟩ | ⟨hgranted, -⟩
      · refine ⟨_, shared', heq.trans hbind, fun hsame ↦ hsome ?_⟩
        rw [Conf.zoneRecords, Conf.zoneRecords, hzones] at hsame
        exact (toList_set_shm_iff hzones hq).mp hsame
      · exact absurd h.refused (hgranted htype)
  · exact absurd h.reaches hnot

end

/-- **A rejected directive leaves the variables and the zones as they were** exactly when it does
not lose a segment: in every state of the configuration and of the segments, for all arguments,
whatever memory answers and whichever names have an index. -/
theorem confSetVariable_unchanged_iff (ngx : NgxConf) (tag : Tag)
    (getIndex : Nat → Bytes → Option Nat) (conf : Conf) (shared : Segments)
    (key var zone : Bytes) (o : VarAlloc) :
    (∀ e conf' shared', confSetVariable ngx tag getIndex conf shared key var zone o =
        (.error e, conf', shared') → conf.SameContent conf') ↔
      ¬ LosesSegment ngx tag getIndex conf shared key var zone o := by
  constructor
  · intro hsame hloses
    obtain ⟨conf', shared', herr, hne⟩ := hloses.error
    exact hne (hsame _ conf' shared' herr).2
  · intro hno e conf' shared' herr
    exact sameContent_of_error hno herr

/-! ## After accepted directives -/

section

variable {ngx : NgxConf} {tag : Tag} {getIndex : Nat → Bytes → Option Nat} {conf' : Conf}
  {segments shared' : Segments} {key var zone : Bytes} {o : VarAlloc} {e : ConfError}
  {ds : List (Tag × Directive)}

/-- After accepted directives no segment can be lost: a record gets its segment only where a
directive names its zone, and the zones of a module have registered their names for it before. -/
theorem not_losesSegment_of_accepted (hlaw : ngx.Lawful)
    (hacc : Accepted ngx (.init segments) ds) :
    ¬ LosesSegment ngx tag getIndex ((readConf ngx (.init segments) ds).conf tag)
      (readConf ngx (.init segments) ds).shared key var zone o := by
  intro hloses
  obtain ⟨zones, q, hzones, hq, -, -⟩ := hloses.has_segment
  have hholds := (holds_of_accepted hlaw hacc tag).of_some hzones
  obtain ⟨i, decl, -, -, hdecl, hname⟩ := hholds.confZoneGet_some hlaw hzones hq
  have htag := claimed_of_accepted hacc tag decl (List.mem_of_getElem? hdecl)
  rw [hname] at htag
  rcases hloses.refused with ⟨t, ht, hne⟩ | ⟨hnone, -⟩
  · exact hne (Option.some.inj (ht.symm.trans htag))
  · exact Option.some_ne_none tag (htag.symm.trans hnone)

/-- **A rejected directive leaves no trace**: whatever directives of both modules have been
accepted before it, whatever its arguments are, and whichever names have no index and whichever
piece of memory is refused, the variables and the zone records of its module are as they were. -/
theorem unchanged_of_accepted (hlaw : ngx.Lawful) (hacc : Accepted ngx (.init segments) ds)
    (h : confSetVariable ngx tag getIndex ((readConf ngx (.init segments) ds).conf tag)
      (readConf ngx (.init segments) ds).shared key var zone o = (.error e, conf', shared')) :
    ((readConf ngx (.init segments) ds).conf tag).SameContent conf' :=
  sameContent_of_error (not_losesSegment_of_accepted hlaw hacc) h

/-- A zone in shared memory and a variable that uses it. -/
def boundZone : List (Tag × Directive) :=
  [(.http, .zone (lit "zone=z:65536") [] (.plain .move)),
    (.http, .keyval ⟨lit "$arg", lit "$v", lit "zone=z", fun _ _ ↦ some 0, some 0, .plain .move⟩)]

/-- The configuration they leave. -/
def boundConf : Conf := (readConf plainConf (.init []) boundZone).conf .http

/-- A second variable, that names another zone: its key compiles, and nothing of it is left. -/
theorem unchanged_of_accepted_boundZone :
    ∃ conf' shared', confSetVariable plainConf .http (fun _ _ ↦ some 0) boundConf
        (readConf plainConf (.init []) boundZone).shared (lit "k$arg") (lit "$w") (lit "zone=y")
        (.plain .inPlace) = (.error (.text "zone not found"), conf', shared') ∧
      boundConf.SameContent conf' ∧ boundConf.variables.length = 1 := by
  have herr : (confSetVariable plainConf .http (fun _ _ ↦ some 0) boundConf
      (readConf plainConf (.init []) boundZone).shared (lit "k$arg") (lit "$w") (lit "zone=y")
      (.plain .inPlace)).1 = .error (.text "zone not found") := by decide
  refine ⟨_, _, Prod.ext herr rfl, ?_, by decide⟩
  exact unchanged_of_accepted plainConf_lawful ⟨by decide, by decide, trivial⟩ (Prod.ext herr rfl)

/-- **A rejected `keyval` of a configuration** whose other directives so far were accepted leaves
both modules as they were; unless it was nginx that could not add the variable. -/
theorem rejected_keyval (hlaw : ngx.Lawful) (hacc : Accepted ngx (.init segments) ds) {k : Keyval}
    {c' : Cycle}
    (h : directiveStep ngx (readConf ngx (.init segments) ds) (tag, .keyval k) = (some e, c'))
    (hadd : e ≠ .text "failed to add variable") (t : Tag) :
    ((readConf ngx (.init segments) ds).conf t).SameContent (c'.conf t) := by
  by_cases ht : t = tag
  · subst ht
    rw [directiveStep, moduleConfSetVariable] at h
    split at h
    · rename_i e' conf₁ shared₁ herr
      cases h
      simp only [Cycle.put, Function.update_self]
      exact sameContent_of_error (not_losesSegment_of_accepted hlaw hacc) herr
    · split at h
      · cases h
        exact absurd rfl hadd
      · cases h
  · rw [conf_step_of_ne h ht]
    exact ⟨rfl, rfl⟩

end

/-- The same directive for the zone that is there, in a state that no configuration is in: among
segments of which none has its name, and with no memory for one more. -/
def boundAgain : Except ConfError Ptr × Conf × Segments :=
  confSetVariable plainConf .http (fun _ _ ↦ some 0) boundConf [] (lit "k$arg") (lit "$w")
    (lit "zone=z") { VarAlloc.plain .inPlace with segment := false }

/-- Without the segments that go with a configuration a segment can be lost: the directive is
rejected and its variable taken off again, but the zone that the first variable uses has no segment
any more. -/
theorem rejected_loses_segment :
    Accepted plainConf (.init []) boundZone ∧
      boundAgain.1 = .error (.text "failed to allocate shared memory") ∧
      boundAgain.2.1.variables = boundConf.variables ∧
      boundConf.zoneRecords.map Zone.shm = [some 0] ∧
      boundAgain.2.1.zoneRecords.map Zone.shm = [none] ∧
      ¬ boundConf.SameContent boundAgain.2.1 :=
  ⟨⟨by decide, by decide, trivial⟩, by decide⟩

end NgxKeyval
