import NgxKeyval.Conf.Records

/-!
# Which address a variable has of its zone

A variable has the address its zone record was at when the `keyval` directive was read.  Two
variables of one zone have the same address unless the zones array has moved between their
directives.

* `Cycle.variable` and `Cycle.zoneOf` are what a request finds in an nginx variable.
* `Moves` says that a directive moves the zones array; `block_run` says that the array stays where
  it is as long as no directive does.
* `staysPut_iff` — all variables of a Redis zone have one address exactly when no directive between
  two of them moves the array.
-/

set_option autoImplicit false

namespace NgxKeyval

/-- The variable record that a request finds in an nginx variable. -/
def Cycle.variable (c : Cycle) (tag : Tag) (n : Nat) : Option Variable :=
  (c.data tag n).bind fun p ↦ (c.conf tag).vars.map fun vs ↦ vs.mem p

/-- The address of its zone record. -/
def Cycle.zoneOf (c : Cycle) (tag : Tag) (n : Nat) : Option Ptr :=
  (c.variable tag n).bind Variable.zone

/-! ## Where the array is -/

/-- The block the zones array of a module is in. -/
def Cycle.block (c : Cycle) (tag : Tag) : Nat := (c.conf tag).zones.elim 0 GrowArray.elts

/-- A zone directive that finds the zones array full and moves it. -/
def Moves (tag : Tag) (c : Cycle) (d : Tag × Directive) : Prop :=
  d.1 = tag ∧ d.2.push = some .move ∧ ∃ zs, (c.conf tag).zones = some zs ∧ zs.nalloc ≤ zs.nelts

section

variable {ngx : NgxConf} {c c' : Cycle} {tag : Tag} {d : Tag × Directive}
  {ds : List (Tag × Directive)} {shared : Segments} {n : Nat}

theorem block_other {t : Tag} {e : Directive} (hstep : directiveStep ngx c (t, e) = (none, c'))
    (ht : t ≠ tag) : c'.block tag = c.block tag := by
  rw [Cycle.block, Cycle.block, conf_step_of_ne hstep (Ne.symm ht)]

theorem block_keyval {k : Keyval} (hstep : directiveStep ngx c (tag, .keyval k) = (none, c')) :
    c'.block tag = c.block tag := by
  obtain ⟨vars, vars', zs, q, keyString, indexes, m, p, zs', -, -, -, -, hzones, -, hrest, hconf,
    -⟩ := keyval_accepted hstep
  have helts : zs'.elts = zs.elts := by
    rcases hrest with ⟨-, rfl, -⟩ | ⟨i, -, -, rfl⟩ <;> rfl
  rw [Cycle.block, Cycle.block, hconf, Function.update_self, hzones]
  exact helts

/-- A zone directive leaves the array where it is, unless it finds it full and memory moves it. -/
theorem block_zone {e : Directive} {decl : Decl} (hdecl : e.decl ngx = some decl)
    (hstep : directiveStep ngx c (tag, e) = (none, c')) :
    c.block tag ≤ c'.block tag ∧ (c'.block tag = c.block tag ↔ ¬ Moves tag c (tag, e)) := by
  obtain ⟨o, zs, zs', p, z, hzs, -, hpush, -, -, hconf, -, -, ho⟩ := zone_accepted hdecl hstep
  have hafter : c'.block tag = zs'.elts := by
    rw [Cycle.block, hconf, Function.update_self]
    rfl
  rw [zonesOrCreate] at hzs
  rcases hzones : (c.conf tag).zones with _ | zs₀
  · -- the first zone of the module
    rw [hzones] at hzs
    simp only at hzs
    split at hzs
    · obtain rfl := Option.some.inj hzs
      have hbefore : c.block tag = 0 := by rw [Cycle.block, hzones]; rfl
      have hroom : zs'.elts = 0 := (GrowArray.elts_push_iff hpush).mpr fun hc ↦ by
        exact absurd hc.2 (by simp [GrowArray.create])
      rw [hafter, hbefore, hroom]
      refine ⟨Nat.le_refl _, iff_of_true rfl ?_⟩
      rintro ⟨-, -, zs₁, hzs₁, -⟩
      rw [hzones] at hzs₁
      cases hzs₁
    · cases hzs
  · rw [hzones] at hzs
    obtain rfl := Option.some.inj hzs
    have hbefore : c.block tag = zs₀.elts := by rw [Cycle.block, hzones]; rfl
    rw [hafter, hbefore]
    refine ⟨GrowArray.elts_le_of_push hpush, (GrowArray.elts_push_iff hpush).trans ?_⟩
    simp [Moves, ho, hzones]

/-- **An accepted directive** leaves the array where it is, unless it moves it. -/
theorem block_step (hstep : directiveStep ngx c d = (none, c')) :
    c.block tag ≤ c'.block tag ∧ (c'.block tag = c.block tag ↔ ¬ Moves tag c d) := by
  obtain ⟨t, e⟩ := d
  by_cases ht : t = tag
  · subst ht
    rcases accepted_cases hstep with ⟨decl, hdecl⟩ | ⟨k, rfl⟩
    · exact block_zone hdecl hstep
    · have hsame := block_keyval hstep
      refine ⟨Nat.le_of_eq hsame.symm, iff_of_true hsame ?_⟩
      rintro ⟨-, hpush, -⟩
      cases hpush
  · have hsame := block_other hstep ht
    exact ⟨Nat.le_of_eq hsame.symm, iff_of_true hsame fun hmoves ↦ ht hmoves.1⟩

/-- **The array stays where it is** as long as no directive moves it. -/
theorem block_run (hacc : Accepted ngx c ds) :
    c.block tag ≤ (readConf ngx c ds).block tag ∧
      ((readConf ngx c ds).block tag = c.block tag ↔
        Machine.Meets (fun c d ↦ ¬ Moves tag c d) (directiveStep ngx) c ds) := by
  induction ds generalizing c with
  | nil => exact ⟨Nat.le_refl _, iff_of_true rfl trivial⟩
  | cons d ds ih =>
    have hstep : directiveStep ngx c d = (none, (directiveStep ngx c d).2) := Prod.ext hacc.1 rfl
    obtain ⟨hle, hiff⟩ := @block_step ngx c _ tag d hstep
    obtain ⟨hle', hiff'⟩ := ih hacc.2
    have hcons : readConf ngx c (d :: ds) = readConf ngx (directiveStep ngx c d).2 ds := rfl
    rw [hcons]
    refine ⟨hle.trans hle', ?_⟩
    rw [Machine.Meets, ← hiff, ← hiff']
    constructor
    · intro heq
      constructor <;> omega
    · rintro ⟨heq, heq'⟩
      exact heq'.trans heq

/-! ## What a variable captures -/

/-- No directive defines the nginx variable. -/
def NotDefined (tag : Tag) (n : Nat) (ds : List (Tag × Directive)) : Prop :=
  ∀ d ∈ ds, d.1 = tag → d.2.slot ≠ some n

/-- **What a request finds in an nginx variable** that a directive was the last to define: its
compiled key, and the address its zone had when it was read. -/
theorem variable_of_keyval (hlaw : ngx.Lawful) {pre post : List (Tag × Directive)} {k : Keyval}
    (hacc : Accepted ngx (.init shared) (pre ++ (tag, .keyval k) :: post)) (hslot : k.slot = some n)
    (hpost : NotDefined tag n post) :
    ∃ i decl keyString indexes, (declared ngx tag pre)[i]? = some decl ∧ decl.name = k.zoneName ∧
      compileKey k.getIndex k.alloc k.key = .ok (keyString, indexes) ∧
      let c := readConf ngx (.init shared) (pre ++ (tag, .keyval k) :: post)
      let q : Ptr := ⟨(readConf ngx (.init shared) pre).block tag, i⟩
      c.variable tag n = some ⟨indexes, keyString, k.var.drop 1, some q⟩ ∧ decl.At c tag q := by
  obtain ⟨hpre, hok, hrest⟩ := Machine.meets_append.mp hacc
  obtain ⟨n', p, keyString, indexes, zs, i, decl, hslot', hdata, hkey, hzones, hdecl, hname, hvar,
    hzone⟩ := keyval_at hlaw (holds_of_accepted hlaw hpre) (Prod.ext hok rfl)
  obtain rfl := Option.some.inj (hslot.symm.trans hslot')
  have hq : zs.ptr i = ⟨(readConf ngx (.init shared) pre).block tag, i⟩ := by
    rw [Cycle.block, hzones]
    rfl
  rw [hq] at hvar hzone
  have hend : readConf ngx (.init shared) (pre ++ (tag, .keyval k) :: post) =
      readConf ngx (directiveStep ngx (readConf ngx (.init shared) pre) (tag, .keyval k)).2
        post := by
    rw [readConf, Machine.final_append, Machine.final_cons]
  rw [hend]
  refine ⟨i, decl, keyString, indexes, hdecl, hname, hkey, ?_, hzone.run hlaw hrest⟩
  obtain ⟨vs, hvs, -, hmem⟩ := hvar.run hrest
  rw [Cycle.variable, data_run hrest hpost, hdata, Option.bind_some, hvs, Option.map_some, hmem]

theorem zoneOf_of_keyval (hlaw : ngx.Lawful) {pre post : List (Tag × Directive)} {k : Keyval}
    (hacc : Accepted ngx (.init shared) (pre ++ (tag, .keyval k) :: post)) (hslot : k.slot = some n)
    (hpost : NotDefined tag n post) :
    ∃ i decl, (declared ngx tag pre)[i]? = some decl ∧ decl.name = k.zoneName ∧
      let c := readConf ngx (.init shared) (pre ++ (tag, .keyval k) :: post)
      let q : Ptr := ⟨(readConf ngx (.init shared) pre).block tag, i⟩
      c.zoneOf tag n = some q ∧ decl.At c tag q := by
  obtain ⟨i, decl, keyString, indexes, hdecl, hname, -, hvar, hat⟩ :=
    variable_of_keyval hlaw hacc hslot hpost
  exact ⟨i, decl, hdecl, hname, by rw [Cycle.zoneOf, hvar, Option.bind_some], hat⟩

/-- An nginx variable that refers to a record was defined by a last directive. -/
theorem exists_keyval_of_data (hacc : Accepted ngx (.init shared) ds)
    (h : (readConf ngx (.init shared) ds).data tag n ≠ none) :
    ∃ pre k post, ds = pre ++ (tag, .keyval k) :: post ∧ k.slot = some n ∧
      NotDefined tag n post := by
  induction ds using List.reverseRecOn with
  | nil => exact absurd rfl h
  | append_singleton ds d ih =>
    obtain ⟨hacc', hok, -⟩ := Machine.meets_append.mp hacc
    by_cases hd : d.1 = tag ∧ d.2.slot = some n
    · obtain ⟨t, _ | _ | k⟩ := d
      · cases hd.2
      · cases hd.2
      · obtain rfl : t = tag := hd.1
        exact ⟨ds, k, [], rfl, hd.2, fun _ he ↦ by cases he⟩
    · have hslot : d.1 = tag → d.2.slot ≠ some n := fun ht hs ↦ hd ⟨ht, hs⟩
      rw [readConf, Machine.final_append, Machine.final_cons, Machine.final_nil,
        data_step (Prod.ext hok rfl) hslot] at h
      obtain ⟨pre, k, post, rfl, hk, hpost⟩ := ih hacc' h
      refine ⟨pre, k, post ++ [d], by simp, hk, fun e he ↦ ?_⟩
      rcases List.mem_append.mp he with he | he
      · exact hpost e he
      · rw [List.mem_singleton.mp he]
        exact hslot

theorem data_of_zoneOf {q : Ptr} (h : c.zoneOf tag n = some q) : c.data tag n ≠ none := by
  rintro hnone
  rw [Cycle.zoneOf, Cycle.variable, hnone] at h
  cases h

end

/-! ## Two variables of one zone -/

/-- No directive moves the zones array between two `keyval` directives of the module that name the
same Redis zone and whose nginx variables are not defined again. -/
def StaysPut (ngx : NgxConf) (shared : Segments) (ds : List (Tag × Directive)) (tag : Tag) : Prop :=
  ∀ pre k₁ mid k₂ post n₁ n₂, ds = pre ++ (tag, .keyval k₁) :: (mid ++ (tag, .keyval k₂) :: post) →
    k₁.slot = some n₁ → k₂.slot = some n₂ →
    NotDefined tag n₁ (mid ++ (tag, .keyval k₂) :: post) → NotDefined tag n₂ post →
    k₁.zoneName = k₂.zoneName →
    (∃ d ∈ declared ngx tag ds, d.type = .redis ∧ d.name = k₁.zoneName) →
    Machine.Meets (fun c d ↦ ¬ Moves tag c d) (directiveStep ngx)
      (readConf ngx (.init shared) (pre ++ [(tag, .keyval k₁)])) mid

section

variable {ngx : NgxConf} {shared : Segments} {ds : List (Tag × Directive)} {tag : Tag}

/-- The array is in the same block at two directives, the first of them a `keyval`, exactly when no
directive in between moves it. -/
theorem block_eq_iff {pre mid post : List (Tag × Directive)} {k : Keyval}
    (hacc : Accepted ngx (.init shared) (pre ++ (tag, .keyval k) :: (mid ++ post))) :
    (readConf ngx (.init shared) (pre ++ (tag, .keyval k) :: mid)).block tag =
        (readConf ngx (.init shared) pre).block tag ↔
      Machine.Meets (fun c d ↦ ¬ Moves tag c d) (directiveStep ngx)
        (readConf ngx (.init shared) (pre ++ [(tag, .keyval k)])) mid := by
  obtain ⟨-, hok, hrest⟩ := Machine.meets_append.mp hacc
  obtain ⟨hmid, -⟩ := Machine.meets_append.mp hrest
  have hfirst : readConf ngx (.init shared) (pre ++ [(tag, .keyval k)]) =
      (directiveStep ngx (readConf ngx (.init shared) pre) (tag, .keyval k)).2 := by
    rw [readConf, Machine.final_append, Machine.final_cons, Machine.final_nil]
  have hlast : readConf ngx (.init shared) (pre ++ (tag, .keyval k) :: mid) =
      readConf ngx (readConf ngx (.init shared) (pre ++ [(tag, .keyval k)])) mid := by
    rw [hfirst, readConf, Machine.final_append, Machine.final_cons]
  have hstep : directiveStep ngx (readConf ngx (.init shared) pre) (tag, .keyval k) =
      (none, (directiveStep ngx (readConf ngx (.init shared) pre) (tag, .keyval k)).2) :=
    Prod.ext hok rfl
  have hkeyval := (block_step hstep).2.mpr fun hmoves : Moves tag _ _ ↦ by
    cases hmoves.2.1
  rw [hlast, ← (block_run (hfirst ▸ hmid)).2, hfirst, hkeyval]

/-- **What a request finds in an nginx variable** is what its last directive captured. -/
theorem captured_of_zoneOf (hlaw : ngx.Lawful) (hacc : Accepted ngx (.init shared) ds) {n : Nat}
    {q : Ptr} (h : (readConf ngx (.init shared) ds).zoneOf tag n = some q) :
    ∃ pre k post i decl, ds = pre ++ (tag, .keyval k) :: post ∧ k.slot = some n ∧
      NotDefined tag n post ∧ (declared ngx tag ds)[i]? = some decl ∧ decl.name = k.zoneName ∧
      q = ⟨(readConf ngx (.init shared) pre).block tag, i⟩ ∧
      decl.At (readConf ngx (.init shared) ds) tag q := by
  obtain ⟨pre, k, post, rfl, hslot, hpost⟩ := exists_keyval_of_data hacc (data_of_zoneOf h)
  obtain ⟨i, decl, hdecl, hname, hq, hat⟩ := zoneOf_of_keyval hlaw hacc hslot hpost
  obtain rfl := Option.some.inj (h.symm.trans hq)
  refine ⟨pre, k, post, i, decl, rfl, hslot, hpost, ?_, hname, rfl, hat⟩
  obtain ⟨hlt, -⟩ := List.getElem?_eq_some_iff.mp hdecl
  rw [declared_append, List.getElem?_append_left hlt, hdecl]

theorem Decl.At.unique {c : Cycle} {d d' : Decl} {q : Ptr} (h : d.At c tag q) (h' : d'.At c tag q) :
    d.name = d'.name ∧ d.type = d'.type := by
  obtain ⟨zs, hzs, -, hdesc, -⟩ := h
  obtain ⟨zs', hzs', -, hdesc', -⟩ := h'
  obtain rfl := Option.some.inj (hzs.symm.trans hzs')
  exact ⟨hdesc.name.symm.trans hdesc'.name, hdesc.type.symm.trans hdesc'.type⟩

theorem unique_of_accepted (hlaw : ngx.Lawful) (hacc : Accepted ngx (.init shared) ds) {d d' : Decl}
    (hd : d ∈ declared ngx tag ds) (hd' : d' ∈ declared ngx tag ds) (hname : d.name = d'.name) :
    d = d' := by
  have hholds := holds_of_accepted hlaw hacc tag
  rw [ZonesHold] at hholds
  split at hholds
  · rw [hholds] at hd
    cases hd
  · exact hholds.unique hd hd' hname

theorem StaysPut.block_eq (h : StaysPut ngx shared ds tag) (hacc : Accepted ngx (.init shared) ds)
    {pre mid post₁ post₂ : List (Tag × Directive)} {k₁ k₂ : Keyval} {n₁ n₂ : Nat}
    (hds : ds = pre ++ (tag, .keyval k₁) :: post₁)
    (hpost : (tag, Directive.keyval k₁) :: post₁ = mid ++ (tag, .keyval k₂) :: post₂)
    (hslot₁ : k₁.slot = some n₁) (hslot₂ : k₂.slot = some n₂) (hpost₁ : NotDefined tag n₁ post₁)
    (hpost₂ : NotDefined tag n₂ post₂) (hzone : k₁.zoneName = k₂.zoneName)
    (hredis : ∃ d ∈ declared ngx tag ds, d.type = .redis ∧ d.name = k₁.zoneName) :
    (readConf ngx (.init shared) (pre ++ mid)).block tag =
      (readConf ngx (.init shared) pre).block tag := by
  rcases mid with _ | ⟨x, mid⟩
  · rw [List.append_nil]
  · obtain ⟨rfl, rfl⟩ := List.cons.inj hpost
    rw [hds] at hacc
    exact (block_eq_iff hacc).mpr
      (h pre k₁ mid k₂ post₂ n₁ n₂ hds hslot₁ hslot₂ hpost₁ hpost₂ hzone hredis)

/-- **When the variables of a Redis zone agree**: exactly when the zones array stays put between
them. -/
theorem staysPut_iff (hlaw : ngx.Lawful) (hacc : Accepted ngx (.init shared) ds) :
    let c := readConf ngx (.init shared) ds
    StaysPut ngx shared ds tag ↔
      ∀ (n₁ n₂ : Nat) (q₁ q₂ : Ptr) (d : Decl), d.type = .redis → c.zoneOf tag n₁ = some q₁ →
        c.zoneOf tag n₂ = some q₂ → d.At c tag q₁ → d.At c tag q₂ → q₁ = q₂ := by
  intro c
  constructor
  · intro hput n₁ n₂ q₁ q₂ d htype hn₁ hn₂ hd₁ hd₂
    obtain ⟨pre₁, k₁, post₁, i₁, d₁, hds₁, hslot₁, hpost₁, hi₁, hname₁, rfl, hat₁⟩ :=
      captured_of_zoneOf hlaw hacc hn₁
    obtain ⟨pre₂, k₂, post₂, i₂, d₂, hds₂, hslot₂, hpost₂, hi₂, hname₂, rfl, hat₂⟩ :=
      captured_of_zoneOf hlaw hacc hn₂
    have hname : d₁.name = d₂.name := (hat₁.unique hd₁).1.trans (hat₂.unique hd₂).1.symm
    have hzone : k₁.zoneName = k₂.zoneName := hname₁.symm.trans (hname.trans hname₂)
    have hredis₁ : ∃ d ∈ declared ngx tag ds, d.type = .redis ∧ d.name = k₁.zoneName :=
      ⟨d₁, List.mem_of_getElem? hi₁, (hat₁.unique hd₁).2.trans htype, hname₁⟩
    obtain ⟨zs, hzs, -⟩ := hd₁
    obtain rfl : i₁ = i₂ :=
      ((holds_of_accepted hlaw hacc tag).of_some hzs).index_unique hi₁ hi₂ hname
    -- one of the two directives stands before the other, or they are the same
    rcases List.append_eq_append_iff.mp (hds₁.symm.trans hds₂) with
      ⟨mid, rfl, hmid⟩ | ⟨mid, rfl, hmid⟩
    · rw [hput.block_eq hacc hds₁ hmid hslot₁ hslot₂ hpost₁ hpost₂ hzone hredis₁]
    · rw [hput.block_eq hacc hds₂ hmid hslot₂ hslot₁ hpost₂ hpost₁ hzone.symm (hzone ▸ hredis₁)]
  · rintro hsame pre k₁ mid k₂ post n₁ n₂ rfl hslot₁ hslot₂ hpost₁ hpost₂ hzone
      ⟨d, hd, htype, hname⟩
    have hsplit : pre ++ (tag, Directive.keyval k₁) :: (mid ++ (tag, .keyval k₂) :: post) =
        (pre ++ (tag, .keyval k₁) :: mid) ++ (tag, .keyval k₂) :: post := by simp
    obtain ⟨i₁, d₁, hi₁, hname₁, hq₁, hat₁⟩ := zoneOf_of_keyval hlaw hacc hslot₁ hpost₁
    have hacc' := hacc
    rw [hsplit] at hacc'
    obtain ⟨i₂, d₂, hi₂, hname₂, hq₂, hat₂⟩ := zoneOf_of_keyval hlaw hacc' hslot₂ hpost₂
    rw [← hsplit] at hq₂ hat₂
    -- both are the declaration of that name
    have hd₁ : d₁ = d := by
      refine unique_of_accepted hlaw hacc ?_ hd (hname₁.trans hname.symm)
      rw [declared_append]
      exact List.mem_append_left _ (List.mem_of_getElem? hi₁)
    have hd₂ : d₂ = d := by
      refine unique_of_accepted hlaw hacc ?_ hd (hname₂.trans (hzone.symm.trans hname.symm))
      rw [hsplit, declared_append]
      exact List.mem_append_left _ (List.mem_of_getElem? hi₂)
    have hptr := hsame n₁ n₂ _ _ d htype hq₁ hq₂ (hd₁ ▸ hat₁) (hd₂ ▸ hat₂)
    exact (block_eq_iff hacc).mp (congrArg Ptr.block hptr).symm

end

end NgxKeyval
