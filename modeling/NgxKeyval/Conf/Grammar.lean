import Mathlib.Data.List.TakeWhile
import NgxKeyval.Conf.Directives
import NgxKeyval.Conf.PlainConf
import NgxKeyval.Library.Separator

/-!
# What `keyval_zone` accepts

The parser of `keyval_zone` reads C strings with offsets counted by hand.  This is a grammar of byte
strings, if only the first argument has no `NUL`, and this file says which one.

* `argAfter_eq_some_iff` and `strchr_eq_some_iff` are the two string tests, as equations between
  byte strings.
* `confSetZone_fresh` says that in the absence of anything of that name, a `keyval_zone` is accepted
  when its arguments are, and registers its `ttl`.
* `ZoneGrammar` is the documented grammar, with one parameter at most; `zoneParams_ok_iff` is what
  the parameter loop accepts.  The two differ, and `confSetZone_grammar_iff` says where.
-/

set_option autoImplicit false

namespace NgxKeyval

/-! ## C strings -/

theorem cString_of_notMem {v : Bytes} (h : (0 : UInt8) ∉ v) : cString v = v := by
  rw [cString, List.takeWhile_eq_self_iff]
  exact fun c hc ↦ decide_eq_true fun hzero ↦ h (hzero ▸ hc)

/-- A comparison with a key of this length finds out whether the argument starts with it. -/
theorem strncmpEq_iff {v : Bytes} {key : String} {n : Nat} (h : (0 : UInt8) ∉ lit key)
    (hn : (lit key).length = n) : strncmpEq v key n = true ↔ ∃ s, v = lit key ++ s := by
  rw [strncmpEq, beq_iff_eq, List.take_of_length_le (Nat.le_of_eq hn)]
  constructor
  · intro htake
    have hpre : lit key <+: v := by
      rw [← htake]
      exact (List.take_prefix n _).trans (List.takeWhile_prefix _)
    obtain ⟨s, hs⟩ := hpre
    exact ⟨s, hs.symm⟩
  · rintro ⟨s, rfl⟩
    have hkey : ∀ c ∈ lit key, decide (c ≠ 0) = true :=
      fun c hc ↦ decide_eq_true fun hzero ↦ h (hzero ▸ hc)
    rw [cString, List.takeWhile_append_of_pos hkey]
    exact List.take_left' hn

theorem argAfter_eq_some_iff {v s : Bytes} {key : String} {n : Nat} (h : (0 : UInt8) ∉ lit key)
    (hn : (lit key).length = n) : argAfter v key n = some s ↔ v = lit key ++ s ∧ s ≠ [] := by
  rw [argAfter]
  split
  · rename_i htest
    rw [Bool.and_eq_true, strncmpEq_iff h hn, decide_eq_true_iff] at htest
    obtain ⟨⟨t, rfl⟩, hlt⟩ := htest
    rw [List.length_append, hn] at hlt
    rw [List.drop_left' hn, Option.some.injEq]
    constructor
    · rintro rfl
      refine ⟨rfl, ?_⟩
      rintro rfl
      exact Nat.lt_irrefl _ hlt
    · rintro ⟨heq, -⟩
      exact List.append_cancel_left heq
  · rename_i htest
    rw [Bool.and_eq_true, strncmpEq_iff h hn, decide_eq_true_iff, not_and] at htest
    refine ⟨nofun, ?_⟩
    rintro ⟨rfl, hne⟩
    refine absurd ?_ (htest ⟨s, rfl⟩)
    rw [List.length_append, hn]
    have hpos := List.length_pos_of_ne_nil hne
    omega

theorem strchr_eq_some_iff {v : Bytes} {c : UInt8} {p : Nat} (h : (0 : UInt8) ∉ v) :
    strchr v c = some p ↔ ∃ a b, v = a ++ c :: b ∧ c ∉ a ∧ a.length = p := by
  rw [strchr, cString_of_notMem h, List.findIdx?_eq_some_iff_getElem]
  constructor
  · rintro ⟨hlt, hc, hbefore⟩
    have hget : v[p] = c := of_decide_eq_true hc
    refine ⟨v.take p, v.drop (p + 1), ?_, fun hmem ↦ ?_, List.length_take_of_le hlt.le⟩
    · rw [← hget, ← List.drop_eq_getElem_cons hlt, List.take_append_drop]
    · obtain ⟨i, hi, heq⟩ := List.mem_iff_getElem.mp hmem
      rw [List.length_take] at hi
      refine hbefore i (by omega) (decide_eq_true ?_)
      rw [← heq, List.getElem_take]
  · rintro ⟨a, b, rfl, hnot, rfl⟩
    refine ⟨by simp, by simp, fun i hi hc ↦ ?_⟩
    rw [List.getElem_append_left hi, decide_eq_true_iff] at hc
    exact hnot (hc ▸ List.getElem_mem hi)

/-! ## Registering a zone -/

/-- There is memory for everything. -/
structure ZoneAlloc.Enough (o : ZoneAlloc) : Prop where
  array : o.array = true
  push : o.push ≠ .fail
  ctx : o.ctx = true
  segment : o.segment = true
  hostname : ∀ i, o.hostname i = true
  defaultHostname : o.defaultHostname = true

theorem ZoneAlloc.enough_plain {push : PushOutcome} (h : push ≠ .fail) :
    (ZoneAlloc.plain push).Enough := ⟨rfl, h, rfl, rfl, fun _ ↦ rfl, rfl⟩

/-- The name is that of no zone of the module, and of no segment. -/
def FreshName (ngx : NgxConf) (conf : Conf) (shared : Segments) (name : Bytes) : Prop :=
  confZoneGet ngx conf name = none ∧ segmentOf shared name = none

instance (ngx : NgxConf) (conf : Conf) (shared : Segments) (name : Bytes) :
    Decidable (FreshName ngx conf shared name) := inferInstanceAs (Decidable (_ ∧ _))

section

variable {ngx : NgxConf} {tag : Tag} {conf : Conf} {shared : Segments} {name first : Bytes}
  {args : List Bytes} {o : ZoneAlloc}

theorem exists_push (zs : GrowArray Zone) {out : PushOutcome} (h : out ≠ .fail) :
    ∃ p zs', zs.push out = some (p, zs') := by
  rw [GrowArray.push]
  split
  · exact ⟨_, _, rfl⟩
  · cases out with
    | inPlace => exact ⟨_, _, rfl⟩
    | move => exact ⟨_, _, rfl⟩
    | fail => exact absurd rfl h

theorem confZoneAdd_fresh (type : ZoneType) (ho : o.Enough)
    (hname : confZoneGet ngx conf name = none) :
    ∃ p zones, confZoneAdd ngx conf name type o =
        (.ok (p, zones), { conf with zones := some zones }) ∧
      0 < zones.nelts ∧ p = zones.ptr (zones.nelts - 1) ∧ (zones.mem p).name = name := by
  obtain ⟨zs, hzs, hget⟩ : ∃ zs, zonesOrCreate conf o 1 = some zs ∧
      confZoneGet ngx { conf with zones := some zs } name = none := by
    rw [zonesOrCreate]
    cases hz : conf.zones with
    | some zs =>
      refine ⟨zs, rfl, ?_⟩
      rw [confZoneGet, hz] at hname
      exact hname
    | none => exact ⟨_, if_pos ho.array, rfl⟩
  obtain ⟨p, zs', hpush⟩ := exists_push zs ho.push
  obtain ⟨hp, hn, -⟩ := GrowArray.push_cases hpush
  refine ⟨p, zs'.set p { zs'.mem p with name := name, type := type }, ?_, ?_, ?_, ?_⟩
  · rw [confZoneAdd, hzs]
    simp only [hget, hpush]
    rfl
  · show 0 < zs'.nelts
    omega
  · show p = zs'.ptr (zs'.nelts - 1)
    rw [hp, hn, Nat.add_sub_cancel]
  · rw [GrowArray.mem_set_self]

theorem sharedMemoryAdd_fresh (size : Int) (hname : segmentOf shared name = none) :
    sharedMemoryAdd shared name size tag true =
      (some shared.length, shared ++ [⟨name, size, tag, none, none⟩]) := by
  rw [sharedMemoryAdd, show shared.findIdx? (·.name = name) = none from hname]
  rfl

theorem modify_last (shared : Segments) (seg : ShmSegment) (f : ShmSegment → ShmSegment) :
    (shared ++ [seg]).modify shared.length f = shared ++ [f seg] := by
  induction shared with
  | nil => rfl
  | cons s shared ih => rw [List.cons_append, List.length_cons, List.modify_succ_cons, ih]; rfl

/-! ## `keyval_zone` -/

/-- `zone=name:size`, with a name and a size that is large enough. -/
def ZoneFirst (ngx : NgxConf) (first name : Bytes) (size : Int) : Prop :=
  ∃ text, first = lit "zone=" ++ (name ++ 58 :: text) ∧ name ≠ [] ∧ 58 ∉ name ∧
    size = ngx.parseSize text ∧ size ≠ -1 ∧ 8 * ngx.pagesize ≤ size

/-- `ttl=time` or `timeout=time`, with a time. -/
def ZoneParam (ngx : NgxConf) (v : Bytes) (ttl : Int) : Prop :=
  ∃ s, (v = lit "ttl=" ++ s ∨ v = lit "timeout=" ++ s) ∧ s ≠ [] ∧ ttl = ngx.parseTime s ∧
    ttl ≠ -1

/-- **The first argument.** -/
theorem zoneNameSize_ok_iff {size : Int} (hnul : (0 : UInt8) ∉ first) (hne : name ≠ []) :
    zoneNameSize ngx first = .ok (name, size) ↔ ZoneFirst ngx first name size := by
  rw [zoneNameSize]
  split
  · rename_i htest
    obtain ⟨rest, rfl⟩ := (strncmpEq_iff (by decide) rfl).mp htest
    have hrest : (0 : UInt8) ∉ rest := fun hmem ↦ hnul (List.mem_append_right _ hmem)
    have hlen : (lit "zone=").length = 5 := rfl
    simp only [List.drop_left' hlen]
    split
    · rename_i hnone
      refine ⟨nofun, ?_⟩
      rintro ⟨text, heq, -, hcolon, -⟩
      have hsome := (strchr_eq_some_iff hrest).mpr
        ⟨name, text, List.append_cancel_left heq, hcolon, rfl⟩
      rw [hnone] at hsome
      cases hsome
    · rename_i p hp
      obtain ⟨a, b, rfl, hnot, rfl⟩ := (strchr_eq_some_iff hrest).mp hp
      have hdrop : (a ++ 58 :: b).drop (a.length + 1) = b := by
        rw [← List.drop_drop, List.drop_left]
        rfl
      rw [hdrop, List.take_left]
      -- the name is what stands before the first colon
      have hsplit : ∀ text, lit "zone=" ++ (a ++ 58 :: b) = lit "zone=" ++ (name ++ 58 :: text) →
          58 ∉ name → a = name ∧ b = text := fun text heq hcolon ↦
        (Separator.free_of_notMem 58).join_inj hnot hcolon (List.append_cancel_left heq)
      constructor
      · intro hok
        split at hok
        · cases hok
        · rename_i hvalid
          split at hok
          · cases hok
          · rename_i hlarge
            obtain ⟨rfl, rfl⟩ := by simpa using hok
            exact ⟨b, rfl, hne, hnot, rfl, hvalid, Int.not_lt.mp hlarge⟩
      · rintro ⟨text, heq, -, hcolon, rfl, hvalid, hlarge⟩
        obtain ⟨rfl, rfl⟩ := hsplit text heq hcolon
        rw [if_neg hvalid, if_neg (Int.not_lt.mpr hlarge)]
  · rename_i htest
    constructor
    · intro hok
      obtain ⟨rfl, -⟩ := by simpa using hok
      exact absurd rfl hne
    · rintro ⟨text, heq, -⟩
      exact absurd ((strncmpEq_iff (by decide) rfl).mpr ⟨_, heq⟩) htest

/-- **In the absence of anything of that name**, a `keyval_zone` is accepted when its parameters
are, and its segment gets the `ttl` they leave. -/
theorem confSetZone_fresh (tag : Tag) (args : List Bytes) {size : Int} (ho : o.Enough)
    (hnul : (0 : UInt8) ∉ first) (hfirst : ZoneFirst ngx first name size)
    (hfresh : FreshName ngx conf shared name) :
    (confSetZone ngx tag conf shared first args o).1 = (zoneParams ngx args 0).1 ∧
      (confSetZone ngx tag conf shared first args o).2.2 =
        shared ++ [⟨name, size, tag, some .initZone, some (zoneParams ngx args 0).2⟩] := by
  have hne : name ≠ [] := hfirst.choose_spec.2.1
  obtain ⟨p, zones, hadd, -⟩ := confZoneAdd_fresh .shm ho hfresh.1
  rw [confSetZone, (zoneNameSize_ok_iff hnul hne).mpr hfirst]
  simp only
  rw [if_neg (fun hzero ↦ hne (List.eq_nil_of_length_eq_zero hzero)), hadd]
  simp only
  rw [if_pos ho.ctx, ho.segment, sharedMemoryAdd_fresh size hfresh.2]
  exact ⟨rfl, modify_last shared _ _⟩

theorem confSetZone_of_not_first (hnul : (0 : UInt8) ∉ first)
    (h : ∀ name size, ¬ ZoneFirst ngx first name size) :
    (confSetZone ngx tag conf shared first args o).1 ≠ none := by
  intro hacc
  obtain ⟨name, size, zs, zs', p, z, hname, hne, -⟩ :=
    confSetZone_ok (Prod.ext hacc rfl : _ = (none, _, _))
  exact h name size ((zoneNameSize_ok_iff hnul hne).mp hname)

theorem zoneParam_iff {v : Bytes} {ttl : Int} :
    ZoneParam ngx v ttl ↔ ∃ s, (argAfter v "ttl=" 4).or (argAfter v "timeout=" 8) = some s ∧
      ttl = ngx.parseTime s ∧ ttl ≠ -1 := by
  have hor : ∀ s, (argAfter v "ttl=" 4).or (argAfter v "timeout=" 8) = some s ↔
      (v = lit "ttl=" ++ s ∨ v = lit "timeout=" ++ s) ∧ s ≠ [] := by
    intro s
    have httl : (lit "ttl=").length = 4 := rfl
    have htimeout : (lit "timeout=").length = 8 := rfl
    rw [Option.or_eq_some_iff, argAfter_eq_some_iff (by decide) httl,
      argAfter_eq_some_iff (by decide) htimeout, or_and_right]
    refine or_congr Iff.rfl ⟨fun h ↦ h.2, fun h ↦ ⟨?_, h⟩⟩
    -- an argument does not start with both keys
    rcases hnone : argAfter v "ttl=" 4 with _ | s'
    · rfl
    · obtain ⟨heq, -⟩ := (argAfter_eq_some_iff (by decide) httl).mp hnone
      rw [heq] at h
      exact absurd (congrArg (fun l ↦ l[1]?) h.1) (by simp [lit])
  constructor
  · rintro ⟨s, hs, hne, hrest⟩
    exact ⟨s, (hor s).mpr ⟨hs, hne⟩, hrest⟩
  · rintro ⟨s, hs, hrest⟩
    obtain ⟨hs, hne⟩ := (hor s).mp hs
    exact ⟨s, hs, hne, hrest⟩

/-- What the parameter loop accepts: any number of parameters of which all but the last are zero. -/
inductive ZoneParamsOk (ngx : NgxConf) : List Bytes → Int → Prop
  | nil : ZoneParamsOk ngx [] 0
  | last {v : Bytes} {ttl : Int} (hv : ZoneParam ngx v ttl) : ZoneParamsOk ngx [v] ttl
  | zero {v v' : Bytes} {vs : List Bytes} {ttl : Int} (hv : ZoneParam ngx v 0)
      (h : ZoneParamsOk ngx (v' :: vs) ttl) : ZoneParamsOk ngx (v :: v' :: vs) ttl

/-- **The parameter loop.** -/
theorem zoneParams_ok_iff {ttl : Int} :
    zoneParams ngx args 0 = (none, ttl) ↔ ZoneParamsOk ngx args ttl := by
  induction args with
  | nil =>
    rw [zoneParams]
    constructor
    · intro heq
      cases heq
      exact .nil
    · rintro ⟨⟩
      rfl
  | cons v vs ih =>
    rw [zoneParams]
    constructor
    · intro heq
      split at heq
      · cases heq
      · rename_i s hs
        rw [if_neg (by simp)] at heq
        simp only at heq
        split at heq
        · cases heq
        · rename_i hvalid
          have hparam : ZoneParam ngx v (ngx.parseTime s) :=
            zoneParam_iff.mpr ⟨s, hs, rfl, hvalid⟩
          rcases vs with _ | ⟨v', vs⟩
          · cases heq
            exact .last hparam
          · -- another parameter is only read when this one was zero
            have hzero : ngx.parseTime s = 0 := by
              by_contra hne
              rw [zoneParams] at heq
              split at heq
              · cases heq
              · rw [if_pos hne] at heq
                cases heq
            rw [hzero] at heq hparam
            exact .zero hparam (ih.mp heq)
    · intro hok
      cases hok with
      | last hparam =>
        obtain ⟨s, hs, rfl, hvalid⟩ := zoneParam_iff.mp hparam
        simp only [hs, ne_eq, not_true_eq_false, if_false, if_neg hvalid]
        rfl
      | zero hparam hrest =>
        obtain ⟨s, hs, hzero, hvalid⟩ := zoneParam_iff.mp hparam
        simp only [hs, ne_eq, not_true_eq_false, if_false, ← hzero, if_neg hvalid]
        exact ih.mpr hrest

/-! ## The documented grammar -/

/-- `keyval_zone` as documented: a zone, and at most one parameter, which says the `ttl`. -/
def ZoneGrammar (ngx : NgxConf) (first : Bytes) (args : List Bytes) (ttl : Int) : Prop :=
  (∃ name size, ZoneFirst ngx first name size) ∧
    (args = [] ∧ ttl = 0 ∨ ∃ v, args = [v] ∧ ZoneParam ngx v ttl)

/-- The parameter is given more than once, and all but the last one are zero. -/
def ZeroRepeated (ngx : NgxConf) (args : List Bytes) : Prop :=
  ∃ zeros v ttl, zeros ≠ [] ∧ args = zeros ++ [v] ∧ (∀ u ∈ zeros, ZoneParam ngx u 0) ∧
    ZoneParam ngx v ttl

theorem ZoneParamsOk.of_zeros {zeros : List Bytes} {v : Bytes} {ttl : Int}
    (hzeros : ∀ u ∈ zeros, ZoneParam ngx u 0) (hv : ZoneParam ngx v ttl) :
    ZoneParamsOk ngx (zeros ++ [v]) ttl := by
  induction zeros with
  | nil => exact .last hv
  | cons u zeros ih =>
    have hrest := ih fun u' hu' ↦ hzeros u' (List.mem_cons_of_mem u hu')
    have hu := hzeros u List.mem_cons_self
    rcases zeros with _ | ⟨u', zeros⟩
    · exact .zero hu hrest
    · exact .zero hu hrest

/-- The loop accepts the documented parameters, and repeated zeros. -/
theorem ZoneParamsOk.cases_doc {ttl : Int} (h : ZoneParamsOk ngx args ttl) :
    (args = [] ∧ ttl = 0 ∨ ∃ v, args = [v] ∧ ZoneParam ngx v ttl) ∨
      2 ≤ args.length ∧ ZeroRepeated ngx args := by
  induction h with
  | nil => exact Or.inl (Or.inl ⟨rfl, rfl⟩)
  | @last v _ hv => exact Or.inl (Or.inr ⟨v, rfl, hv⟩)
  | @zero v v' vs ttl hv h ih =>
    refine Or.inr ⟨by simp, ?_⟩
    rcases ih with (⟨hnil, -⟩ | ⟨u, hu, hparam⟩) | ⟨-, zeros, u, ttl', -, heq, hzeros, hu⟩
    · cases hnil
    · refine ⟨[v], u, ttl, List.cons_ne_nil _ _, by rw [hu]; rfl, ?_, hparam⟩
      intro x hx
      rw [List.mem_singleton.mp hx]
      exact hv
    · refine ⟨v :: zeros, u, ttl', List.cons_ne_nil _ _, by rw [heq]; rfl, ?_, hu⟩
      intro x hx
      rcases List.mem_cons.mp hx with rfl | hx
      · exact hv
      · exact hzeros x hx

theorem ZeroRepeated.two_le (h : ZeroRepeated ngx args) : 2 ≤ args.length := by
  obtain ⟨zeros, v, ttl, hne, rfl, -⟩ := h
  have hpos := List.length_pos_of_ne_nil hne
  rw [List.length_append, List.length_singleton]
  omega

/-- **When `keyval_zone` accepts its documented grammar.**  With enough memory, on a first argument
without a `NUL`, and in the absence of a zone or a segment of that name: the directive is accepted
exactly when its arguments follow the grammar, and then its segment has the `ttl` they say, if and
only if they are not a zone with a repeated parameter of which all but the last one are zero. -/
theorem confSetZone_grammar_iff (ho : o.Enough) (hnul : (0 : UInt8) ∉ first)
    (hfresh : ∀ name size, ZoneFirst ngx first name size → FreshName ngx conf shared name) :
    (((confSetZone ngx tag conf shared first args o).1 = none ↔
        ∃ ttl, ZoneGrammar ngx first args ttl) ∧
      ∀ ttl, ZoneGrammar ngx first args ttl → ∃ name size, ZoneFirst ngx first name size ∧
        (confSetZone ngx tag conf shared first args o).2.2 =
          shared ++ [⟨name, size, tag, some .initZone, some ttl⟩]) ↔
      ¬ ((∃ name size, ZoneFirst ngx first name size) ∧ ZeroRepeated ngx args) := by
  by_cases hfirst : ∃ name size, ZoneFirst ngx first name size
  · obtain ⟨name, size, hzone⟩ := hfirst
    obtain ⟨hrc, hseg⟩ := confSetZone_fresh tag args ho hnul hzone (hfresh name size hzone)
    have haccept : (confSetZone ngx tag conf shared first args o).1 = none ↔
        ∃ ttl, ZoneParamsOk ngx args ttl := by
      rw [hrc]
      constructor
      · intro hnone
        exact ⟨_, zoneParams_ok_iff.mp (Prod.ext hnone rfl)⟩
      · rintro ⟨ttl, hok⟩
        rw [zoneParams_ok_iff.mpr hok]
    constructor
    · rintro ⟨hiff, -⟩ ⟨-, hzeros⟩
      -- what is accepted has two parameters
      obtain ⟨zeros, v, ttl, -, heq, hall, hv⟩ := id hzeros
      obtain ⟨ttl', -, hdoc⟩ := hiff.mp (haccept.mpr ⟨ttl, heq ▸ ZoneParamsOk.of_zeros hall hv⟩)
      have htwo := hzeros.two_le
      rcases hdoc with ⟨rfl, -⟩ | ⟨u, rfl, -⟩
      · simp at htwo
      · simp at htwo
    · intro hno
      have hdoc : ∀ ttl, ZoneParamsOk ngx args ttl ↔ ZoneGrammar ngx first args ttl := by
        intro ttl
        constructor
        · intro hok
          rcases hok.cases_doc with hdoc | ⟨-, hzeros⟩
          · exact ⟨⟨name, size, hzone⟩, hdoc⟩
          · exact absurd ⟨⟨name, size, hzone⟩, hzeros⟩ hno
        · rintro ⟨-, ⟨rfl, rfl⟩ | ⟨v, rfl, hv⟩⟩
          · exact .nil
          · exact .last hv
      refine ⟨haccept.trans (exists_congr hdoc), fun ttl hgrammar ↦ ⟨name, size, hzone, ?_⟩⟩
      rw [hseg, zoneParams_ok_iff.mpr ((hdoc ttl).mpr hgrammar)]
  · have hreject : (confSetZone ngx tag conf shared first args o).1 ≠ none :=
      confSetZone_of_not_first hnul fun name size h ↦ hfirst ⟨name, size, h⟩
    refine ⟨fun _ h ↦ hfirst h.1, fun _ ↦ ⟨⟨fun hnone ↦ absurd hnone hreject, ?_⟩, ?_⟩⟩
    · rintro ⟨ttl, h, -⟩
      exact absurd h hfirst
    · rintro ttl ⟨h, -⟩
      exact absurd h hfirst

end

/-- A zone with one parameter. -/
theorem confSetZone_grammar_ttl :
    (confSetZone plainConf .http .empty [] (lit "zone=z:65536") [lit "ttl=60"]
      (.plain .move)).1 = none ↔
      ∃ ttl, ZoneGrammar plainConf (lit "zone=z:65536") [lit "ttl=60"] ttl := by
  refine ((confSetZone_grammar_iff (ZoneAlloc.enough_plain (by decide)) (by decide)
    fun _ _ _ ↦ ⟨rfl, rfl⟩).mpr ?_).1
  rintro ⟨-, hzeros⟩
  exact absurd hzeros.two_le (by decide)

/-- **A second parameter goes unnoticed** when the first one was zero. -/
theorem confSetZone_accepts_both :
    (confSetZone plainConf .http .empty [] (lit "zone=z:65536") [lit "ttl=0", lit "timeout=5"]
      (.plain .move)).1 = none ∧
    (confSetZone plainConf .http .empty [] (lit "zone=z:65536") [lit "ttl=0", lit "timeout=5"]
      (.plain .move)).2.2 = [⟨lit "z", 65536, .http, some .initZone, some 5⟩] ∧
    ¬ ((confSetZone plainConf .http .empty [] (lit "zone=z:65536") [lit "ttl=0", lit "timeout=5"]
      (.plain .move)).1 = none ↔
        ∃ ttl, ZoneGrammar plainConf (lit "zone=z:65536") [lit "ttl=0", lit "timeout=5"] ttl) := by
  refine ⟨by decide, by decide, fun hiff ↦ ?_⟩
  obtain ⟨ttl, -, hdoc⟩ := hiff.mp (by decide)
  rcases hdoc with ⟨hnil, -⟩ | ⟨v, hone, -⟩
  · cases hnil
  · cases hone

end NgxKeyval
