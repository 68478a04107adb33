import NgxKeyval.System.Current

/-!
# Variables in one zone

`Templates` are the variables of a module that keeps all of them in one table, and `Program` is what
the directives of a module say, whatever their zones are.  Both evaluate variables whose keys are
made of variables, and this file says that it is the same evaluation.

* `Templates.program` is the program that says of the variables that they are kept in a zone.
* `valueAt_program`, `keyAt_program` and `accessAt_program` — values, keys and accesses are those of
  the variables over the table of the zone.
* `fresh_of_current` — an access of which all that is remembered is current is fresh.
* `programOf_singleZone` — a module with one zone says this program, and `access_singleZone` is what
  its accesses show and do while what is remembered is current.
-/

set_option autoImplicit false

namespace NgxKeyval

/-- The variables, kept in a zone. -/
def Templates.program (t : Templates) (zone : ZoneSpec) : Program where
  meaning i :=
    match t.key i with
    | none => .other (t.other i)
    | some text => .keyval text zone
  indexOf := t.indexOf

/-- What can be seen of an access that uses this key and returns this value. -/
def RequestAccess.shown (zone : ZoneSpec) :
    RequestAccess → Option Bytes × Option Bytes → Observation
  | .read _, (key, value) => .read (key.map (zone, ·)) value
  | .write _ val, (key, _) =>
    .write (key.map (zone, ·)) (lenBits val) (key.elim .error fun _ ↦ .ok)

section

variable {t : Templates} {zone : ZoneSpec} {tables : ZoneTables} {depth i : Nat} {text : Bytes}

theorem meaning_of_key (h : t.key i = some text) :
    (t.program zone).meaning i = .keyval text zone := by
  simp only [Templates.program, h]

theorem meaning_of_other (h : t.key i = none) :
    (t.program zone).meaning i = .other (t.other i) := by
  simp only [Templates.program, h]

theorem key_of_meaning {zone' : ZoneSpec}
    (h : (t.program zone).meaning i = .keyval text zone') : t.key i = some text := by
  rcases hkey : t.key i with _ | text'
  · rw [meaning_of_other hkey] at h
    contradiction
  · rw [meaning_of_key hkey] at h
    rw [(Meaning.keyval.inj h).1]

/-- **A value** is that of the variable, over the table of the zone. -/
theorem valueAt_program (d i : Nat) :
    (t.program zone).valueAt tables d i = t.valueAt (tables.get zone) d i := by
  induction d generalizing i with
  | zero => rfl
  | succ d ih =>
    rw [Program.valueAt, Templates.valueAt]
    rcases hkey : t.key i with _ | text
    · rw [meaning_of_other hkey]
    · rw [meaning_of_key hkey]
      have hval : ∀ name ∈ references text,
          (t.program zone).valueAt tables d ((t.program zone).indexOf name) =
            t.valueAt (tables.get zone) d (t.indexOf name) := fun name _ ↦ ih _
      simp only [expandKey_congr hval]

theorem acyclic_program (hdepth : ∀ i, t.rank i < depth) : (t.program zone).Acyclic depth :=
  ⟨t.rank, hdepth, fun i text _ h ↦ t.acyclic i text (key_of_meaning h)⟩

/-- **A key** is the current key of the variable. -/
theorem keyAt_program (hdepth : ∀ i, t.rank i < depth) (hkey : t.key i = some text) :
    (t.program zone).keyAt tables depth text = t.currentKey (tables.get zone) i := by
  rw [Program.keyAt, Templates.currentKey, hkey, Option.bind_some]
  refine expandKey_congr fun name _ ↦ ?_
  rw [valueAt_program]
  exact Templates.valueAt_eq_current (hdepth _)

/-- **An access** of which nothing is remembered shows what the variables say. -/
theorem accessAt_program (hdepth : ∀ i, t.rank i < depth) {a : RequestAccess}
    (hkey : t.key a.index ≠ none) :
    (t.program zone).accessAt tables depth a =
      some (a.shown zone (t.step (tables.get zone) a).1) := by
  obtain ⟨text, htext⟩ := Option.ne_none_iff_exists'.mp hkey
  rcases a with i | ⟨i, val⟩
  · rw [RequestAccess.index] at htext
    simp only [Program.accessAt, meaning_of_key htext, keyAt_program hdepth htext,
      RequestAccess.shown, Templates.step, Templates.current_of_key htext]
  · rw [RequestAccess.index] at htext
    simp only [Program.accessAt, meaning_of_key htext, keyAt_program hdepth htext,
      RequestAccess.shown, Templates.step]

theorem ZoneTables.get_set (tables : ZoneTables) (httl : zone.ttl = 0) (key val : Bytes) :
    (tables.set zone key val).get zone = Function.update (tables.get zone) key (some val) := by
  refine Eq.trans ?_ (Timed.get_update (tables.table zone.name) (tables.now zone.type) key val)
  funext k
  rw [ZoneTables.get, ZoneTables.set]
  dsimp only
  rw [Function.update_self, ZoneSpec.deadline, if_pos httl]

/-- What it does to the table of the zone is what the variables say, too. -/
theorem get_after_shown (httl : zone.ttl = 0) (a : RequestAccess) :
    (tables.after (a.shown zone (t.step (tables.get zone) a).1)).get zone =
      (t.step (tables.get zone) a).2 := by
  rcases a with i | ⟨i, val⟩
  · rfl
  · rw [Templates.step, RequestAccess.shown]
    rcases t.currentKey (tables.get zone) i with _ | key
    · rfl
    · exact tables.get_set httl key (lenBits val)

/-- **What is current is fresh**: slots that hold current values are up to date. -/
theorem fresh_of_current {w : Nat} {σ : Type} {seg : Nat} {s : Request w σ}
    (hdepth : ∀ i, t.rank i < depth) (htable : s.table seg = tables.get zone)
    (h : (t.program zone).Current tables depth s.cache) (a : RequestInput w × RequestAccess) :
    Fresh t seg s a := by
  have hup : ∀ d i, t.rank i < d →
      Cache.UpToDate t.refs (t.current (tables.get zone)) s.cache i := by
    intro d
    induction d with
    | zero => exact fun i hd ↦ absurd hd (Nat.not_lt_zero _)
    | succ d ih =>
      intro i hd
      rcases hcache : s.cache i with _ | val
      · refine .computed i hcache fun j hj ↦ ih j ?_
        exact Nat.lt_of_lt_of_le (Templates.rank_lt_of_mem_refs hj) (Nat.le_of_lt_succ hd)
      · refine .cached i (hcache.trans (congrArg some ?_))
        rw [h i val hcache, valueAt_program]
        exact Templates.valueAt_eq_current (hdepth i)
  rw [Fresh, htable]
  exact fun j _ ↦ hup depth j (hdepth j)

end

/-! ## Configurations -/

section

variable {ngx : NgxConf} {ds : List (Tag × Directive)} {shared : Segments} {core : NgxCore 64}
  {indexOf : Tag → Bytes → Nat} {tag : Tag} {seg depth : Nat} {t : Templates}

theorem templateOf_eq (tag : Tag) (ds : List (Tag × Directive)) (n : Nat) :
    templateOf tag ds n = (keyvalOf tag ds n).map Keyval.key := by
  rcases htext : templateOf tag ds n with _ | text
  · rcases hk : keyvalOf tag ds n with _ | k
    · rfl
    · obtain ⟨pre, post, rfl, hslot, -⟩ := keyvalOf_eq_some_iff.mp hk
      exact absurd htext (templateOf_ne_none hslot)
  · obtain ⟨pre, k, post, hds, hslot, hpost, rfl⟩ := exists_keyval_of_templateOf htext
    rw [keyvalOf_eq_some_iff.mpr ⟨pre, post, hds, hslot, hpost⟩, Option.map_some]

/-- The one zone of a module, as it is declared. -/
theorem spec_of_singleZone (hlaw : ngx.Lawful) (hacc : Accepted ngx (.init shared) ds)
    (h : SingleZone ngx shared ds tag seg) :
    ∃ z ∈ zoneSpecs ngx ds, z.type = .shm ∧ z.ttl = 0 ∧
      ∀ decl ∈ declared ngx tag ds, decl.name = z.name := by
  obtain ⟨⟨decl, hdecl, htype, hseg⟩, httl⟩ := h
  obtain ⟨d, hmem, hd⟩ := mem_declared_iff.mp (hdecl ▸ List.mem_singleton_self decl)
  obtain ⟨ttl, hcontext, hspec⟩ := Directive.context_of_decl hd htype
  obtain ⟨-, hat⟩ := contexts_of_accepted hlaw hacc tag d _ _ hmem hcontext
  obtain ⟨i, hi, hdata⟩ := hat.data
  obtain rfl := Option.some.inj (hseg.symm.trans hi)
  obtain rfl := Option.some.inj (hdata.symm.trans httl)
  refine ⟨_, List.mem_filterMap.mpr ⟨(tag, d), hmem, hspec⟩, rfl, rfl, fun decl' hdecl' ↦ ?_⟩
  rw [hdecl] at hdecl'
  rw [List.mem_singleton.mp hdecl']

/-- **A module with one zone** says of its variables that they are kept there. -/
theorem programOf_singleZone (hlaw : ngx.Lawful) (hacc : Accepted ngx (.init shared) ds)
    (hzone : SingleZone ngx shared ds tag seg) (ht : t.Describes tag ds)
    {other : Tag → Nat → Option Bytes} (hindex : indexOf tag = t.indexOf)
    (hother : other tag = t.other) :
    ∃ z ∈ zoneSpecs ngx ds, z.type = .shm ∧ z.ttl = 0 ∧
      programOf ngx ds indexOf other tag = t.program z := by
  obtain ⟨z, hz, htype, httl, hname⟩ := spec_of_singleZone hlaw hacc hzone
  refine ⟨z, hz, htype, httl, congrArg₂ Program.mk (funext fun n ↦ ?_) hindex⟩
  rw [ht.key, templateOf_eq]
  rcases hk : keyvalOf tag ds n with _ | k
  · simp only [hother, Option.map_none]
  · obtain ⟨pre, post, rfl, hslot, hpost⟩ := keyvalOf_eq_some_iff.mp hk
    obtain ⟨i, decl, -, -, hdecl, hkname, -⟩ := variable_of_keyval hlaw hacc hslot hpost
    have hmem : decl ∈ declared ngx tag (pre ++ (tag, .keyval k) :: post) := by
      rw [declared_append]
      exact List.mem_append_left _ (List.mem_of_getElem? hdecl)
    have hnamed : zoneNamed ngx (pre ++ (tag, .keyval k) :: post) k.zoneName = some z := by
      rw [← hkname, hname decl hmem]
      exact zoneNamed_of_mem hlaw hacc hz
    simp only [hnamed, Option.map_some]

/-- **The accesses of a module with one zone** show, with nothing or only current values remembered,
the keys and the values that its variables have over the table of the zone, and do to this table
what the variables say. -/
theorem access_singleZone (hlaw : ngx.Lawful) (hacc : Accepted ngx (.init shared) ds)
    (hzone : SingleZone ngx shared ds tag seg) (ht : t.Describes tag ds)
    {other : Tag → Nat → Option Bytes} (hindex : indexOf tag = t.indexOf)
    (hother : other tag = t.other) (hdepth : ∀ i, t.rank i < depth + 1) {a : RequestAccess}
    (hkey : t.key a.index ≠ none) :
    ∃ z ∈ zoneSpecs ngx ds, z.type = .shm ∧ z.ttl = 0 ∧
      ∀ (tables : ZoneTables) (memo : Memo),
        (programOf ngx ds indexOf other tag).Current tables (depth + 1) memo →
          let o := a.shown z (t.step (tables.get z) a).1
          ((programOf ngx ds indexOf other tag).access tables depth memo a).1 = some o ∧
            (tables.after o).get z = (t.step (tables.get z) a).2 := by
  obtain ⟨z, hz, htype, httl, hprogram⟩ := programOf_singleZone hlaw hacc hzone ht hindex hother
  refine ⟨z, hz, htype, httl, fun tables memo hcurrent ↦ ⟨?_, get_after_shown httl a⟩⟩
  rw [hprogram] at hcurrent ⊢
  rw [(access_current (acyclic_program hdepth) hcurrent a).1, accessAt_program hdepth hkey]

end

end NgxKeyval
