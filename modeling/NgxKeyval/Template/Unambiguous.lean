import Mathlib.Data.Set.Function
import NgxKeyval.Library.Form
import NgxKeyval.Template.Correct

/-!
# Keys that say what they are made of

A compiled key has to say what its argument was, and a key that has been expanded ought to say what
its variables were: otherwise requests with different values share an entry.  A variable is known by
its index, and nginx gives names that differ in case only the same one; so names count as far as
their indexes go.

* `form` is a key as a form to fill in, with a blank for each reference that bears the index of its
  name; expanding the key is filling in the form.
* `compiled_eq_iff` — the compiler loses nothing else: two directives have one compiled form exactly
  if the forms of their keys are the same.
* `tells_values_iff` — the keys of a variable say what the values were exactly if between any two
  references there is a byte that no value has.
-/

set_option autoImplicit false

namespace NgxKeyval

/-! ## A key as a form -/

/-- A token as it was written. -/
def Token.text : Token → Bytes
  | .byte b => [b]
  | .ref name => dollar :: name

/-- A token as a piece of a form: names that have one index are one blank. -/
def Token.piece (indexOf : Bytes → Nat) : Token → Form.Piece Nat UInt8
  | .byte b => .letter b
  | .ref name => .blank (indexOf name)

/-- A key as a form to fill in. -/
def form (indexOf : Bytes → Nat) (key : Bytes) : List (Form.Piece Nat UInt8) :=
  (tokenize key).map (Token.piece indexOf)

section

variable {indexOf : Bytes → Nat} {key key' : Bytes}

theorem flatMap_text_tokenize (key : Bytes) : (tokenize key).flatMap Token.text = key := by
  induction key using tokenize.induct with
  | case1 => rw [tokenize_nil, List.flatMap_nil]
  | case2 rest ih =>
    rw [tokenize_dollar, List.flatMap_cons, ih, Token.text, List.cons_append,
      List.takeWhile_append_dropWhile]
  | case3 c rest hc ih =>
    rw [tokenize_byte hc, List.flatMap_cons, ih, Token.text, List.singleton_append]

theorem fill_pieces (val : Nat → Bytes) (ts : List Token) :
    Form.fill val (ts.map (Token.piece indexOf)) =
      ts.flatMap (·.subst fun name ↦ val (indexOf name)) := by
  induction ts with
  | nil => rfl
  | cons t ts ih =>
    rw [List.flatMap_cons, ← ih]
    rcases t with b | name
    · rfl
    · rfl

theorem blanks_pieces (ts : List Token) :
    Form.blanks (ts.map (Token.piece indexOf)) = (ts.filterMap Token.name?).map indexOf := by
  induction ts with
  | nil => rfl
  | cons t ts ih =>
    rcases t with b | name
    · exact ih
    · exact congrArg (indexOf name :: ·) ih

/-- Pieces can be told from the marks and the indexes of the tokens: no token is a byte that is a
`$`. -/
theorem pieces_eq {ts ts' : List Token} (hbyte : ∀ b, .byte b ∈ ts → b ≠ dollar)
    (hbyte' : ∀ b, .byte b ∈ ts' → b ≠ dollar) (hmark : ts.map Token.mark = ts'.map Token.mark)
    (hname : (ts.filterMap Token.name?).map indexOf = (ts'.filterMap Token.name?).map indexOf) :
    ts.map (Token.piece indexOf) = ts'.map (Token.piece indexOf) := by
  induction ts generalizing ts' with
  | nil => rw [List.map_eq_nil_iff.mp hmark.symm]
  | cons t ts ih =>
    rcases ts' with _ | ⟨t', ts'⟩
    · exact absurd hmark (List.cons_ne_nil _ _)
    · obtain ⟨hm, hmarks⟩ := List.cons.inj hmark
      have hrest := fun h ↦ ih (fun b hb ↦ hbyte b (List.mem_cons_of_mem _ hb))
        (fun b hb ↦ hbyte' b (List.mem_cons_of_mem _ hb)) hmarks h
      rw [List.map_cons, List.map_cons]
      rcases t with b | name
      · rcases t' with b' | name'
        · obtain rfl : b = b' := hm
          rw [hrest hname]
        · exact absurd hm (hbyte b List.mem_cons_self)
      · rcases t' with b' | name'
        · exact absurd hm.symm (hbyte' b' List.mem_cons_self)
        · obtain ⟨hindex, hindexes⟩ := List.cons.inj hname
          rw [hrest hindexes, Token.piece, Token.piece, hindex]

/-- The mark of a piece. -/
def pieceMark : Form.Piece Nat UInt8 → UInt8
  | .letter b => b
  | .blank _ => dollar

theorem map_pieceMark_form : (form indexOf key).map pieceMark = (tokenize key).map Token.mark := by
  rw [form, List.map_map]
  refine List.map_congr_left fun t _ ↦ ?_
  rcases t with b | name
  · rfl
  · rfl

theorem blanks_form : Form.blanks (form indexOf key) = (references key).map indexOf :=
  blanks_pieces (tokenize key)

theorem form_eq_iff : form indexOf key = form indexOf key' ↔
    (tokenize key).map Token.mark = (tokenize key').map Token.mark ∧
      (references key).map indexOf = (references key').map indexOf := by
  constructor
  · intro h
    refine ⟨?_, ?_⟩
    · rw [← @map_pieceMark_form indexOf key, h, map_pieceMark_form]
    · rw [← @blanks_form indexOf key, h, blanks_form]
  · rintro ⟨hmark, hindex⟩
    exact pieces_eq (fun b ↦ ne_dollar_of_mem_tokenize) (fun b ↦ ne_dollar_of_mem_tokenize) hmark
      hindex

/-- Names that have different indexes are told apart, and so are the keys then. -/
theorem form_inj (hinj : Set.InjOn indexOf {name | name ∈ references key ∨ name ∈ references key'})
    (h : form indexOf key = form indexOf key') : key = key' := by
  have hinv := hinj.leftInvOn_invFunOn
  generalize Function.invFunOn indexOf _ = nameOf at hinv
  have htext : ∀ key₁, (∀ name ∈ references key₁, nameOf (indexOf name) = name) →
      (form indexOf key₁).flatMap
        (fun | .letter b => [b] | .blank i => dollar :: nameOf i) = key₁ := by
    intro key₁ hnames
    refine Eq.trans ?_ (flatMap_text_tokenize key₁)
    rw [form, List.flatMap_map]
    refine List.flatMap_congr fun t ht ↦ ?_
    rcases t with b | name
    · rfl
    · exact congrArg (dollar :: ·) (hnames name (List.mem_filterMap.mpr ⟨_, ht, rfl⟩))
  rw [← htext key fun name hname ↦ hinv (Or.inl hname), h,
    htext key' fun name hname ↦ hinv (Or.inr hname)]

end

/-! ## The compiler loses nothing -/

section

variable {ngx ngx' : NgxConf} {tag tag' : Tag} {getIndex getIndex' : Nat → Bytes → Option Nat}
  {conf conf' conf₁ conf₁' : Conf} {shared shared' shared₁ shared₁' : Segments}
  {key var zone key' var' zone' : Bytes} {o o' : VarAlloc} {p p' : Ptr}
  {vs vs' : GrowArray Variable} {indexOf : Bytes → Nat}

theorem compiled_of_accepted_keyval
    (h : confSetVariable ngx tag getIndex conf shared key var zone o = (.ok p, conf₁, shared₁))
    (hvs : conf₁.vars = some vs)
    (hindex : ∀ k name i, getIndex k name = some i → i = indexOf name) :
    (vs.mem p).keyString = (tokenize key).map Token.mark ∧
      (vs.mem p).indexes = (references key).map indexOf := by
  obtain ⟨vars, vars', zones, q, keyString, indexes, -, -, hcompile, -, -, hvars, -⟩ :=
    confSetVariable_ok h
  obtain rfl := Option.some.inj (hvs.symm.trans hvars)
  obtain ⟨hks, hnames⟩ := compileKey_ok hcompile
  rw [GrowArray.mem_set_self]
  refine ⟨hks, ?_⟩
  rw [← map_indexes hindex hnames, List.map_id']

/-- **The compiler loses nothing** but how a name is spelt.  Two `keyval` directives, of any
configurations in which a name has the same index, are compiled to one form exactly if their keys
are the same but for names that share an index; so exactly if they have one key, where the names in
them share none. -/
theorem compiled_eq_iff
    (h : confSetVariable ngx tag getIndex conf shared key var zone o = (.ok p, conf₁, shared₁))
    (h' : confSetVariable ngx' tag' getIndex' conf' shared' key' var' zone' o' =
      (.ok p', conf₁', shared₁'))
    (hvs : conf₁.vars = some vs) (hvs' : conf₁'.vars = some vs')
    (hindex : ∀ k name i, getIndex k name = some i → i = indexOf name)
    (hindex' : ∀ k name i, getIndex' k name = some i → i = indexOf name) :
    ((vs.mem p).keyString = (vs'.mem p').keyString ∧ (vs.mem p).indexes = (vs'.mem p').indexes ↔
      form indexOf key = form indexOf key') ∧
    (Set.InjOn indexOf {name | name ∈ references key ∨ name ∈ references key'} →
      ((vs.mem p).keyString = (vs'.mem p').keyString ∧ (vs.mem p).indexes = (vs'.mem p').indexes ↔
        key = key')) := by
  obtain ⟨hks, hix⟩ := compiled_of_accepted_keyval h hvs hindex
  obtain ⟨hks', hix'⟩ := compiled_of_accepted_keyval h' hvs' hindex'
  rw [hks, hks', hix, hix', ← form_eq_iff]
  refine ⟨Iff.rfl, fun hinj ↦ ⟨form_inj hinj, ?_⟩⟩
  rintro rfl
  rfl

end

/-! ## What a key says -/

/-- The key of a compiled variable, over slots that have these values and keep them. -/
def keyOver (v : Variable) (val : Nat → Bytes) : KeyResult :=
  (variableGetKey (fun (s : Unit) i ↦ (some i, s)) (fun _ i ↦ ⟨val i, true, false, false⟩) v
    true true ()).1

/-- The keys of a variable say what the values were that they are made of, if these have no other
bytes than `ok`. -/
def TellsValues (v : Variable) (ok : UInt8 → Prop) : Prop :=
  ∀ val val' : Nat → Bytes, (∀ i ∈ v.indexes, ∀ b ∈ val i, ok b) →
    (∀ i ∈ v.indexes, ∀ b ∈ val' i, ok b) → keyOver v val = keyOver v val' →
      ∀ i ∈ v.indexes, val i = val' i

section

variable {ngx : NgxConf} {tag : Tag} {getIndex : Nat → Bytes → Option Nat} {conf conf' : Conf}
  {shared shared' : Segments} {key var zone : Bytes} {o : VarAlloc} {p : Ptr} {v : Variable}
  {indexOf : Bytes → Nat} {vs : GrowArray Variable}

theorem keyOver_eq (hks : v.keyString = (tokenize key).map Token.mark)
    (hix : v.indexes = (references key).map indexOf) (val : Nat → Bytes) :
    keyOver v val = .ok (Form.fill val (form indexOf key)) := by
  have hfix : Fixed (fun (s : Unit) i ↦ (some i, s))
      (fun _ i ↦ (⟨val i, true, false, false⟩ : VariableValue)) (fun i ↦ some (val i)) ()
      v.indexes := by
    refine ⟨fun is i b _ hb ↦ ⟨i, rfl, fun js _ ↦ ⟨rfl, Option.some.inj hb⟩⟩,
      fun is i r _ hnone ↦ ?_⟩
    exact absurd hnone (Option.some_ne_none _)
  have hvals : v.indexes.map (fun i ↦ some (val i)) =
      (references key).map fun name ↦ some (val (indexOf name)) := by
    rw [hix, List.map_map]
    rfl
  rw [keyOver, variableGetKey_found hks hvals hfix fun _ _ ↦ Option.some_ne_none _, form,
    fill_pieces]
  rfl

/-- **When keys say what they are made of.**  Take an accepted `keyval` directive, and values that
have certain bytes only.  If between any two references of its key there is a byte that is none of
these, requests with different values have different keys; and if no variable is referred to twice,
in any spelling, only then. -/
theorem tells_values_iff
    (h : confSetVariable ngx tag getIndex conf shared key var zone o = (.ok p, conf', shared'))
    (hvs : conf'.vars = some vs)
    (hindex : ∀ k name i, getIndex k name = some i → i = indexOf name)
    (ok : UInt8 → Prop) {c : UInt8} (hc : ok c) :
    (Form.Parted ok (form indexOf key) → TellsValues (vs.mem p) ok) ∧
      (((references key).map indexOf).Nodup → TellsValues (vs.mem p) ok →
        Form.Parted ok (form indexOf key)) := by
  obtain ⟨hks, hix⟩ := compiled_of_accepted_keyval h hvs hindex
  have hkey : ∀ val val', keyOver (vs.mem p) val = keyOver (vs.mem p) val' ↔
      Form.fill val (form indexOf key) = Form.fill val' (form indexOf key) := by
    intro val val'
    rw [keyOver_eq hks hix, keyOver_eq hks hix, KeyResult.ok.injEq]
  simp only [TellsValues, hkey, hix, ← blanks_form]
  exact ⟨fun hparted val val' ↦ hparted.fill_inj, fun hnodup ↦ (Form.parted_iff hc hnodup).mpr⟩

end

/-! ## Examples -/

/-- Two variables with an index, one of them in two spellings. -/
def spellings (_ : Nat) (name : Bytes) : Option Nat :=
  if name = lit "b" ∨ name = lit "B" then some 0 else if name = lit "cc" then some 1 else none

/-- The index of a spelling. -/
def spelt (name : Bytes) : Nat := if name = lit "cc" then 1 else 0

theorem spellings_eq_some (k : Nat) (name : Bytes) (i : Nat) (h : spellings k name = some i) :
    i = spelt name := by
  rw [spellings] at h
  rw [spelt]
  split at h
  · rename_i hb
    rcases hb with rfl | rfl
    · exact (Option.some.inj h).symm
    · exact (Option.some.inj h).symm
  · split at h
    · rename_i hcc
      rw [if_pos hcc, Option.some.inj h]
    · contradiction

/-- A `keyval` directive with this key, in a module that has one zone. -/
def keyvalOn (key : String) : Except ConfError Ptr × Conf × Segments :=
  confSetVariable plainConf .http spellings oneZone.1 oneZone.2 (lit key) (lit "$v") (lit "zone=z")
    (.plain .move)

/-- Two keys that differ in the spelling of a name: the indexes are the same.  Two that differ in a
name: the indexes say which. -/
theorem compiled_eq_iff_names : ∃ vs vs₁ vs₂, (keyvalOn "x$b").2.1.vars = some vs ∧
    (keyvalOn "x$B").2.1.vars = some vs₁ ∧ (keyvalOn "x$cc").2.1.vars = some vs₂ ∧
    (vs.mem ⟨0, 0⟩).keyString = (vs₂.mem ⟨0, 0⟩).keyString ∧
    (vs.mem ⟨0, 0⟩).indexes = (vs₁.mem ⟨0, 0⟩).indexes ∧
    (vs.mem ⟨0, 0⟩).indexes ≠ (vs₂.mem ⟨0, 0⟩).indexes := by
  have h : (keyvalOn "x$b").1 = .ok ⟨0, 0⟩ := rfl
  have h₁ : (keyvalOn "x$B").1 = .ok ⟨0, 0⟩ := rfl
  have h₂ : (keyvalOn "x$cc").1 = .ok ⟨0, 0⟩ := rfl
  have htokens : tokenize (lit "x$b") = [.byte 120, .ref [98]] := by
    rw [show lit "x$b" = [120, 36, 98] from rfl]
    simp [tokenize, dollar, isNameChar]
  have htokens₁ : tokenize (lit "x$B") = [.byte 120, .ref [66]] := by
    rw [show lit "x$B" = [120, 36, 66] from rfl]
    simp [tokenize, dollar, isNameChar]
  have htokens₂ : tokenize (lit "x$cc") = [.byte 120, .ref [99, 99]] := by
    rw [show lit "x$cc" = [120, 36, 99, 99] from rfl]
    simp [tokenize, dollar, isNameChar]
  refine ⟨_, _, _, rfl, rfl, rfl, rfl, ?_, fun hix ↦ ?_⟩
  · refine ((compiled_eq_iff (Prod.ext h rfl) (Prod.ext h₁ rfl) rfl rfl spellings_eq_some
      spellings_eq_some).1.mpr ?_).2
    rw [form, form, htokens, htokens₁]
    rfl
  · have hkey : lit "x$b" ≠ lit "x$cc" := by decide
    refine hkey (((compiled_eq_iff (Prod.ext h rfl) (Prod.ext h₂ rfl) rfl rfl spellings_eq_some
      spellings_eq_some).2 ?_).mp ⟨rfl, hix⟩)
    rw [references, references, htokens, htokens₂]
    intro name hname name' hname' hsame
    rcases hname with hname | hname
    · obtain rfl := List.mem_singleton.mp hname
      rcases hname' with hname' | hname'
      · exact (List.mem_singleton.mp hname').symm
      · obtain rfl := List.mem_singleton.mp hname'
        exact absurd hsame (by decide)
    · obtain rfl := List.mem_singleton.mp hname
      rcases hname' with hname' | hname'
      · obtain rfl := List.mem_singleton.mp hname'
        exact absurd hsame (by decide)
      · exact (List.mem_singleton.mp hname').symm

/-- A slash tells the values apart if they have none, also where it stands between two spellings of
one name; without it the values of two variables cannot be told apart. -/
theorem tells_values_iff_slash : ∃ vs vs', (keyvalOn "$b/$B").2.1.vars = some vs ∧
    (keyvalOn "$b$cc").2.1.vars = some vs' ∧
    TellsValues (vs.mem ⟨0, 0⟩) (· ≠ 47) ∧ ¬ TellsValues (vs'.mem ⟨0, 0⟩) (· ≠ 47) := by
  have h : (keyvalOn "$b/$B").1 = .ok ⟨0, 0⟩ := rfl
  have h' : (keyvalOn "$b$cc").1 = .ok ⟨0, 0⟩ := rfl
  have htokens : tokenize (lit "$b/$B") = [.ref [98], .byte 47, .ref [66]] := by
    rw [show lit "$b/$B" = [36, 98, 47, 36, 66] from rfl]
    simp [tokenize, dollar, isNameChar]
  have htokens' : tokenize (lit "$b$cc") = [.ref [98], .ref [99, 99]] := by
    rw [show lit "$b$cc" = [36, 98, 36, 99, 99] from rfl]
    simp [tokenize, dollar, isNameChar]
  have hc : (0 : UInt8) ≠ 47 := by decide
  obtain ⟨vs, hvs⟩ : ∃ vs, (keyvalOn "$b/$B").2.1.vars = some vs := ⟨_, rfl⟩
  obtain ⟨vs', hvs'⟩ : ∃ vs, (keyvalOn "$b$cc").2.1.vars = some vs := ⟨_, rfl⟩
  refine ⟨vs, vs', hvs, hvs', ?_, fun htells ↦ ?_⟩
  · refine (tells_values_iff (Prod.ext h rfl) hvs spellings_eq_some (· ≠ 47) hc).1 ?_
    rw [form, htokens]
    exact ⟨.inr ⟨47, List.mem_cons_self, not_not.mpr rfl⟩, .inl rfl, trivial⟩
  · have hparted :=
      (tells_values_iff (Prod.ext h' rfl) hvs' spellings_eq_some (· ≠ 47) hc).2 ?_ htells
    · rw [form, htokens'] at hparted
      rcases hparted.1 with hblanks | ⟨a, ha, -⟩
      · exact absurd hblanks (List.cons_ne_nil _ _)
      · exact absurd ha List.not_mem_nil
    · rw [references, htokens']
      decide

end NgxKeyval
