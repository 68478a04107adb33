import Mathlib.Algebra.GroupWithZero.Nat
import Mathlib.Algebra.Ring.Int.Defs
import Mathlib.Data.List.ReduceOption
import NgxKeyval.Template.Correct

/-!
# The buffers of a key

Three buffers are allocated for exactly as much as will be needed: the compiler's two are as long as
the argument, and the key is as long as the lengths that were measured say.  This file is about what
is written to them.

* `length_tokenize` and `count_marks` count what the compiler leaves of a key.
* `copyLoop_fill` is the second loop of the expansion, over any values: it writes what `fill` says,
  and stays inside the buffer exactly when that fits.
* `measureLoop_look` is the first loop, over any evaluator, in terms of what it was given (`look`).
* `template_well_formed` — the compiler stays inside its buffers, and an accepted directive has one
  index for each `$` of its key string.
* `variableGetKey_inside_iff` — the expansion stays inside the key exactly when the values do not
  grow between the two loops.
-/

set_option autoImplicit false

namespace NgxKeyval

/-! ## Counting tokens -/

theorem length_tokenize (key : Bytes) :
    (tokenize key).length + (references key).flatten.length = key.length := by
  induction key using tokenize.induct with
  | case1 => simp [references]
  | case2 rest ih =>
    have hsplit : (rest.takeWhile isNameChar).length + (rest.dropWhile isNameChar).length =
        rest.length := by
      rw [← List.length_append, List.takeWhile_append_dropWhile]
    rw [references] at ih ⊢
    rw [tokenize_dollar, filterMap_name?_ref, List.flatten_cons, List.length_append,
      List.length_cons, List.length_cons]
    omega
  | case3 c rest hc ih =>
    rw [references] at ih ⊢
    rw [tokenize_byte hc, filterMap_name?_byte, List.length_cons, List.length_cons]
    omega

/-- The key string has a `$` for each reference, and no other. -/
theorem count_marks {ts : List Token} (hbyte : ∀ b, .byte b ∈ ts → b ≠ dollar) :
    (ts.map Token.mark).count dollar = (ts.filterMap Token.name?).length := by
  induction ts with
  | nil => rfl
  | cons t ts ih =>
    have hrest := ih fun b hb ↦ hbyte b (List.mem_cons_of_mem t hb)
    cases t with
    | byte b =>
      have hb := hbyte b List.mem_cons_self
      rw [List.map_cons, Token.mark_byte, List.count_cons_of_ne hb, filterMap_name?_byte, hrest]
    | ref name =>
      rw [List.map_cons, Token.mark_ref, List.count_cons_self, filterMap_name?_ref,
        List.length_cons, hrest]

theorem references_ne_nil {key : Bytes} (h : dollar ∈ key) : references key ≠ [] := by
  intro hnil
  have hcount : ((tokenize key).map Token.mark).count dollar = _ :=
    count_marks fun b ↦ ne_dollar_of_mem_tokenize
  rw [← references, hnil, List.length_nil, List.count_eq_zero] at hcount
  refine hcount ?_
  clear hcount hnil
  induction key using tokenize.induct with
  | case1 => cases h
  | case2 rest ih => simp
  | case3 c rest hc ih =>
    rw [tokenize_byte hc, List.map_cons]
    exact List.mem_cons_of_mem _ (ih ((List.mem_cons.mp h).resolve_left (Ne.symm hc)))

/-! ## The compiler's buffers -/

section

variable {getIndex : Nat → Bytes → Option Nat} {o : VarAlloc} {cap : Nat}

theorem nameLoop_inside {rest name : Bytes} (hroom : name.length + rest.length ≤ cap) :
    nameLoop cap rest name =
      .ok (name ++ rest.takeWhile isNameChar, rest.dropWhile isNameChar) := by
  induction rest generalizing name with
  | nil => simp [nameLoop]
  | cons c rest ih =>
    rw [List.length_cons] at hroom
    rw [nameLoop]
    split
    · rename_i hc
      rw [if_pos (by omega), ih (by rw [List.length_append, List.length_singleton]; omega),
        List.takeWhile_cons_of_pos hc, List.dropWhile_cons_of_pos hc, List.append_assoc]
      rfl
    · rename_i hc
      rw [List.takeWhile_cons_of_neg hc, List.dropWhile_cons_of_neg hc, List.append_nil]

/-- The `$` itself leaves room for the `NUL` behind the name. -/
theorem scanName_inside {asked : Nat} {rest : Bytes} (hroom : rest.length < cap) :
    scanName cap getIndex o asked rest ≠ .error .outOfBounds := by
  have hname : (rest.takeWhile isNameChar).length ≤ rest.length :=
    (List.takeWhile_sublist isNameChar).length_le
  rw [scanName, nameLoop_inside (by rw [List.length_nil]; omega)]
  simp only [List.nil_append]
  rw [if_pos (by omega)]
  split
  · split <;> simp
  · simp

/-- **The outer loop** has written no more than it has read. -/
theorem scanLoop_inside {fuel : Nat} {rest ks : Bytes} {ix : List Nat}
    (hroom : ks.length + rest.length ≤ cap) :
    scanLoop cap getIndex o fuel rest ks ix ≠ .error .outOfBounds := by
  induction fuel generalizing rest ks ix with
  | zero => cases rest <;> simp [scanLoop]
  | succ fuel ih =>
    cases rest with
    | nil => simp [scanLoop]
    | cons c rest =>
      rw [List.length_cons] at hroom
      have hwrite : ∀ rest' : Bytes, rest'.length ≤ rest.length →
          (ks ++ [c]).length + rest'.length ≤ cap := by
        intro rest' hle
        rw [List.length_append, List.length_singleton]
        omega
      rw [scanLoop, if_pos (by omega)]
      split
      · have hscan : scanName cap getIndex o ix.length rest ≠ .error .outOfBounds :=
          scanName_inside (by omega)
        split
        · rename_i e he
          intro hout
          obtain rfl := Except.error.inj hout
          exact absurd he hscan
        · rename_i i rest' hok
          obtain ⟨-, rfl⟩ := scanName_ok hok
          exact ih (hwrite _ (List.dropWhile_sublist isNameChar).length_le)
      · exact ih (hwrite rest (Nat.le_refl _))

theorem ne_nil_of_names {ix : List Nat} {names : List Bytes} (hempty : ∀ k, getIndex k [] = none)
    (hnames : List.Forall₂ (Names getIndex) ix names) : ∀ name ∈ names, name ≠ [] := by
  induction hnames with
  | nil => simp
  | cons hname _ ih =>
    intro name hmem
    rcases List.mem_cons.mp hmem with rfl | hmem
    · rintro rfl
      obtain ⟨k, hk⟩ := hname
      rw [hempty k] at hk
      cases hk
    · exact ih name hmem

theorem length_lt_of_names {key : Bytes} {ix : List Nat} (hempty : ∀ k, getIndex k [] = none)
    (hdollar : dollar ∈ key) (hnames : List.Forall₂ (Names getIndex) ix (references key)) :
    ((tokenize key).map Token.mark).length < key.length := by
  have hne := ne_nil_of_names hempty hnames
  have hpos : 0 < (references key).flatten.length := by
    obtain ⟨name, rest, hrefs⟩ := List.exists_cons_of_ne_nil (references_ne_nil hdollar)
    have hname := hne name (by rw [hrefs]; exact List.mem_cons_self)
    rw [hrefs, List.flatten_cons, List.length_append]
    have hlen := List.length_pos_of_ne_nil hname
    omega
  have hkey := length_tokenize key
  rw [List.length_map]
  omega

/-- **The compiler stays inside its buffers.** -/
theorem compileKey_inside {key : Bytes} (hempty : ∀ k, getIndex k [] = none) :
    compileKey getIndex o key ≠ .error .outOfBounds := by
  rw [compileKey]
  split
  · simp
  · rename_i hdollar
    split
    · simp
    · split
      · simp
      · have hloop : scanLoop key.length getIndex o key.length key [] [] ≠ .error .outOfBounds :=
          scanLoop_inside (by simp)
        split
        · rename_i e he
          rw [he] at hloop
          exact hloop
        · rename_i ks ix hok
          obtain ⟨hks, new, hix, hnames⟩ := scanLoop_ok (Nat.le_refl _) hok
          obtain rfl : ks = _ := hks
          rw [List.nil_append,
            if_pos (length_lt_of_names hempty (not_not.mp hdollar) hnames)]
          simp

end

/-! ## The second loop -/

section

variable {ρ : Type}

/-- What the second loop writes. -/
def fill (look : ρ → VariableValue) : List ρ → List Token → Bytes
  | _, [] => []
  | vs, .byte b :: ts => b :: fill look vs ts
  | v :: vs, .ref _ :: ts => (look v).data ++ fill look vs ts
  | [], .ref _ :: ts => fill look [] ts

/-- The sum of the lengths of the values. -/
def totalLength (look : ρ → VariableValue) (vs : List ρ) : Nat :=
  (vs.map fun v ↦ (look v).data.length).sum

theorem length_fill (look : ρ → VariableValue) {vs : List ρ} {ts : List Token}
    (hlen : vs.length = (ts.filterMap Token.name?).length) :
    (fill look vs ts).length + vs.length = totalLength look vs + ts.length := by
  induction ts generalizing vs with
  | nil =>
    obtain rfl : vs = [] := List.eq_nil_of_length_eq_zero hlen
    rfl
  | cons t ts ih =>
    cases t with
    | byte b =>
      have hrest := ih hlen
      rw [fill, List.length_cons, List.length_cons]
      omega
    | ref name =>
      rw [filterMap_name?_ref, List.length_cons] at hlen
      obtain ⟨v, vs, rfl⟩ := List.exists_cons_of_length_eq_add_one hlen
      have hrest := ih (Nat.succ_injective hlen)
      rw [totalLength] at hrest ⊢
      rw [fill, List.map_cons, List.sum_cons, List.length_append, List.length_cons,
        List.length_cons]
      omega

theorem totalLength_of_forall₂ {look : ρ → VariableValue} {val : Nat → Bytes} {vs : List ρ}
    {is : List Nat} (h : List.Forall₂ (fun r i ↦ (look r).data = val i) vs is) :
    totalLength look vs = (is.flatMap val).length := by
  rw [totalLength]
  induction h with
  | nil => rfl
  | cons hv _ ih => rw [List.map_cons, List.sum_cons, hv, ih, List.flatMap_cons, List.length_append]

/-- **The second loop**, over any values: with a reference for each `$`, it writes what it should if
that fits, and runs over the end of the buffer otherwise. -/
theorem copyLoop_fill {look : ρ → VariableValue} {vs : List ρ} {size : Int} {ts : List Token}
    {current : Nat} {out : Bytes} (hbyte : ∀ b, .byte b ∈ ts → b ≠ dollar)
    (hlen : (vs.drop current).length = (ts.filterMap Token.name?).length) :
    copyLoop look vs size current out (ts.map Token.mark) =
      if ((out ++ fill look (vs.drop current) ts).length : Int) < size then
        .ok (out ++ fill look (vs.drop current) ts)
      else .overflow := by
  induction ts generalizing current out with
  | nil => simp [copyLoop, fill]
  | cons t ts ih =>
    have hbyte' : ∀ b, .byte b ∈ ts → b ≠ dollar := fun b hb ↦ hbyte b (List.mem_cons_of_mem t hb)
    cases t with
    | byte b =>
      have hb := hbyte b List.mem_cons_self
      have hout : out ++ fill look (vs.drop current) (.byte b :: ts) =
          (out ++ [b]) ++ fill look (vs.drop current) ts := by
        rw [fill, List.append_assoc]
        rfl
      rw [List.map_cons, Token.mark_byte, copyLoop, if_neg hb, hout]
      split
      · exact ih hbyte' hlen
      · rename_i hfull
        rw [if_neg]
        simp only [List.length_append]
        omega
    | ref name =>
      rw [filterMap_name?_ref, List.length_cons] at hlen
      obtain ⟨v, vs', hdrop⟩ := List.exists_cons_of_length_eq_add_one hlen
      have hget : vs[current]? = some v := by
        rw [← List.head?_drop, hdrop, List.head?_cons]
      have hnext : vs.drop (current + 1) = vs' := by
        rw [← List.tail_drop, hdrop, List.tail_cons]
      have hout : out ++ fill look (vs.drop current) (.ref name :: ts) =
          (out ++ (look v).data) ++ fill look (vs.drop (current + 1)) ts := by
        rw [hdrop, hnext, fill, List.append_assoc]
      rw [List.map_cons, Token.mark_ref, copyLoop, if_pos rfl, hget, hout]
      simp only
      split
      · refine ih hbyte' ?_
        rw [hdrop] at hlen
        rw [hnext]
        exact Nat.succ_injective hlen
      · rename_i hfull
        rw [if_neg]
        simp only [List.length_append] at hfull ⊢
        omega

end

/-! ## The first loop -/

section

variable {σ ρ : Type} (getIndexVariable : σ → Nat → Option ρ × σ) (deref : σ → ρ → VariableValue)

/-- Ask for a variable, and look at what is given out. -/
def look (s : σ) (i : Nat) : Option (ρ × VariableValue) × σ :=
  match getIndexVariable s i with
  | (none, s) => (none, s)
  | (some r, s) => (some (r, deref s r), s)

/-- What is given out for these variables, each looked at right away. -/
def looks (s : σ) (indexes : List Nat) : List (Option (ρ × VariableValue)) :=
  Machine.outputs (look getIndexVariable deref) s indexes

/-- Every variable is found. -/
def AllFound (s : σ) (indexes : List Nat) : Prop :=
  ∀ e ∈ looks getIndexVariable deref s indexes, ∃ r v, e = some (r, v) ∧ v.notFound = false

/-- By how many bytes the values have grown, in total, when all variables have been asked for: a
later one may rewrite the value that was given out for an earlier one. -/
def growth (s : σ) (indexes : List Nat) : Int :=
  ((looks getIndexVariable deref s indexes).reduceOption.map fun e ↦
    ((deref (Machine.final getIndexVariable s indexes) e.1).data.length : Int) -
      e.2.data.length).sum

variable {getIndexVariable deref}

/-- **The first loop** comes to its end exactly when everything is found; then it has the references
that were given out, and the sum of the lengths they had at the time. -/
theorem measureLoop_look (indexes : List Nat) (s : σ) :
    (AllFound getIndexVariable deref s indexes ∧
      measureLoop getIndexVariable deref indexes s =
        (some ((looks getIndexVariable deref s indexes).reduceOption.map Prod.fst,
          ((looks getIndexVariable deref s indexes).reduceOption.map fun e ↦
            e.2.data.length).sum), Machine.final getIndexVariable s indexes) ∧
      (looks getIndexVariable deref s indexes).reduceOption.length = indexes.length) ∨
    ¬ AllFound getIndexVariable deref s indexes ∧
      (measureLoop getIndexVariable deref indexes s).1 = none := by
  induction indexes generalizing s with
  | nil => exact Or.inl ⟨fun e he ↦ (List.not_mem_nil he).elim, rfl, rfl⟩
  | cons i is ih =>
    rcases hget : getIndexVariable s i with ⟨_ | r, s₁⟩
    · refine Or.inr ⟨fun hall ↦ ?_, by simp [measureLoop, hget]⟩
      obtain ⟨r, v, he, -⟩ := hall none (by simp [looks, look, hget])
      cases he
    · have hlooks : looks getIndexVariable deref s (i :: is) =
          some (r, deref s₁ r) :: looks getIndexVariable deref s₁ is := by
        simp [looks, look, hget]
      cases hnf : (deref s₁ r).notFound with
      | true =>
        refine Or.inr ⟨fun hall ↦ ?_, by simp [measureLoop, hget, hnf]⟩
        obtain ⟨r', v, he, hv⟩ := hall _ (by rw [hlooks]; exact List.mem_cons_self)
        obtain ⟨rfl, rfl⟩ := Prod.mk.inj (Option.some.inj he)
        rw [hnf] at hv
        cases hv
      | false =>
        rcases ih s₁ with ⟨hall, hloop, hlen⟩ | ⟨hnot, hloop⟩
        · refine Or.inl ⟨?_, ?_, ?_⟩
          · intro e he
            rw [hlooks] at he
            rcases List.mem_cons.mp he with rfl | he
            · exact ⟨r, _, rfl, hnf⟩
            · exact hall e he
          · simp [measureLoop, hget, hnf, hloop, hlooks, List.reduceOption_cons_of_some]
          · rw [hlooks, List.reduceOption_cons_of_some, List.length_cons, hlen, List.length_cons]
        · refine Or.inr ⟨fun hall ↦ hnot fun e he ↦ hall e ?_, ?_⟩
          · rw [hlooks]
            exact List.mem_cons_of_mem _ he
          · rcases hrest : measureLoop getIndexVariable deref is s₁ with ⟨_ | ⟨vs, size⟩, s₂⟩
            · simp [measureLoop, hget, hnf, hrest]
            · rw [hrest] at hloop
              cases hloop

theorem allFound_of_measureLoop {indexes : List Nat} {s s' : σ} {r : List ρ × Nat}
    (hloop : measureLoop getIndexVariable deref indexes s = (some r, s')) :
    AllFound getIndexVariable deref s indexes := by
  rcases @measureLoop_look _ _ getIndexVariable deref indexes s with ⟨hall, -⟩ | ⟨-, hnone⟩
  · exact hall
  · rw [hloop] at hnone
    cases hnone

/-! ## Accepted directives -/

theorem growth_eq (s : σ) (indexes : List Nat) :
    growth getIndexVariable deref s indexes =
      totalLength (deref (Machine.final getIndexVariable s indexes))
          ((looks getIndexVariable deref s indexes).reduceOption.map Prod.fst) -
        ((looks getIndexVariable deref s indexes).reduceOption.map
          fun e ↦ e.2.data.length).sum := by
  rw [growth, totalLength, List.map_map]
  induction (looks getIndexVariable deref s indexes).reduceOption with
  | nil => rfl
  | cons e es ih =>
    simp only [List.map_cons, List.sum_cons, Function.comp_apply] at ih ⊢
    omega

/-- **The expansion of a compiled key**: if everything is found, the second loop writes the values
as they are by then, and overruns the buffer if they do not fit. -/
theorem variableGetKey_fill {v : Variable} {key : Bytes}
    (hkey : v.keyString = (tokenize key).map Token.mark)
    (hlen : v.indexes.length = (references key).length) {s : σ}
    (hne : v.indexes ≠ []) (hall : AllFound getIndexVariable deref s v.indexes) :
    ∃ vs size, measureLoop getIndexVariable deref v.indexes s =
        (some (vs, size), Machine.final getIndexVariable s v.indexes) ∧
      vs.length = (references key).length ∧
      growth getIndexVariable deref s v.indexes =
        totalLength (deref (Machine.final getIndexVariable s v.indexes)) vs - size ∧
      (variableGetKey getIndexVariable deref v true true s).1 =
        if ((fill (deref (Machine.final getIndexVariable s v.indexes)) vs
          (tokenize key)).length : Int) < keySize size v then
          .ok (fill (deref (Machine.final getIndexVariable s v.indexes)) vs (tokenize key))
        else .overflow := by
  rcases measureLoop_look v.indexes s with ⟨-, hloop, hcount⟩ | ⟨hnot, -⟩
  · have hvs : ((looks getIndexVariable deref s v.indexes).reduceOption.map Prod.fst).length =
        (references key).length := by
      rw [List.length_map, hcount, hlen]
    refine ⟨_, _, hloop, hvs, growth_eq s v.indexes, ?_⟩
    have hpos : v.indexes.length ≠ 0 := fun hzero ↦ hne (List.eq_nil_of_length_eq_zero hzero)
    rw [variableGetKey, if_pos hpos, hloop, hkey]
    exact copyLoop_fill (fun b ↦ ne_dollar_of_mem_tokenize) hvs
  · exact absurd hall hnot

/-- What is written exceeds the buffer by as much as the values have grown. -/
theorem length_fill_sub_keySize {v : Variable} {key : Bytes}
    (hkey : v.keyString = (tokenize key).map Token.mark)
    (hlen : v.indexes.length = (references key).length) (look : ρ → VariableValue) {vs : List ρ}
    (hvs : vs.length = (references key).length) (size : Nat) :
    ((fill look vs (tokenize key)).length : Int) + 1 - keySize size v =
      totalLength look vs - size := by
  have hfill := length_fill look hvs
  rw [keySize, hkey, List.length_map, hlen]
  omega

variable {ngx : NgxConf} {tag : Tag} {getIndex : Nat → Bytes → Option Nat} {conf conf' : Conf}
  {shared shared' : Segments} {key var zone : Bytes} {o : VarAlloc} {p : Ptr}

/-- **What an accepted directive compiles its key to**: the marks of its tokens, with an index for
each reference. -/
theorem keyString_of_accepted
    (hacc : confSetVariable ngx tag getIndex conf shared key var zone o = (.ok p, conf', shared')) :
    ∃ vars, conf'.vars = some vars ∧ (vars.mem p).keyString = (tokenize key).map Token.mark ∧
      List.Forall₂ (Names getIndex) (vars.mem p).indexes (references key) := by
  obtain ⟨vars, vars', zones, q, keyString, indexes, -, -, hcompile, -, -, hvars, -⟩ :=
    confSetVariable_ok hacc
  obtain ⟨hks, hnames⟩ := compileKey_ok hcompile
  refine ⟨_, hvars, ?_⟩
  rw [GrowArray.mem_set_self]
  exact ⟨hks, hnames⟩

theorem bindZone_inside {vars : GrowArray Variable} {q : Ptr} {v : Option Ptr → Variable}
    {seg : Bool} :
    (bindZone ngx tag conf shared zone vars q v seg).1 ≠ .error .outOfBounds := by
  rw [bindZone]
  split
  · split
    · simp only
      split <;> simp
    · simp
  · simp

/-- **The directive stays inside its buffers.** -/
theorem confSetVariable_inside (hempty : ∀ k, getIndex k [] = none) :
    (confSetVariable ngx tag getIndex conf shared key var zone o).1 ≠ .error .outOfBounds := by
  rw [confSetVariable]
  split; · simp
  split; · simp
  split; · simp
  split
  · simp
  · split
    · simp
    · split
      · simp
      · have hkey : compileKey getIndex o key ≠ .error .outOfBounds := compileKey_inside hempty
        split
        · rename_i e he
          rw [he] at hkey
          intro hout
          exact hkey (congrArg Except.error (Except.error.inj hout))
        · exact bindZone_inside

/-- **Templates are well formed.**  For every key with a `$`, and every lookup of names that has no
index for the empty one: the directive stays inside its buffers.  If it is accepted, the key string
has as many `$` as there are indexes, so that it is at least as long; the expansion never finds one
too many; and over values that stay as they are it fills the key exactly. -/
theorem template_well_formed (hempty : ∀ k, getIndex k [] = none) (hdollar : dollar ∈ key) :
    (confSetVariable ngx tag getIndex conf shared key var zone o).1 ≠ .error .outOfBounds ∧
    ∀ p conf' shared',
      confSetVariable ngx tag getIndex conf shared key var zone o = (.ok p, conf', shared') →
      ∃ vars, conf'.vars = some vars ∧
        (vars.mem p).keyString.count dollar = (vars.mem p).indexes.length ∧
        (vars.mem p).indexes.length ≤ (vars.mem p).keyString.length ∧
        (∀ (s s' : σ) (vs : List ρ) (size : Nat),
          measureLoop getIndexVariable deref (vars.mem p).indexes s = (some (vs, size), s') →
          (variableGetKey getIndexVariable deref (vars.mem p) true true s).1 ≠ .error) ∧
        ∀ (val : Nat → Bytes) (s : σ),
          Fixed getIndexVariable deref (fun i ↦ some (val i)) s (vars.mem p).indexes →
          ∃ vs size out, (measureLoop getIndexVariable deref (vars.mem p).indexes s).1 =
              some (vs, size) ∧
            (variableGetKey getIndexVariable deref (vars.mem p) true true s).1 = .ok out ∧
            (out.length : Int) + 1 = keySize size (vars.mem p) := by
  refine ⟨confSetVariable_inside hempty, fun p conf' shared' hacc ↦ ?_⟩
  obtain ⟨vars, hvars, hkey, hnames⟩ := keyString_of_accepted hacc
  refine ⟨vars, hvars, ?_⟩
  generalize vars.mem p = v at hkey hnames
  have hlen := hnames.length_eq
  have hne : v.indexes ≠ [] := by
    intro hnil
    rw [hnil, List.length_nil] at hlen
    exact references_ne_nil hdollar (List.eq_nil_of_length_eq_zero hlen.symm)
  have hcount : v.keyString.count dollar = v.indexes.length := by
    rw [hkey, count_marks fun b ↦ ne_dollar_of_mem_tokenize, hlen, references]
  refine ⟨hcount, hcount ▸ List.count_le_length, fun s s' vs size hloop ↦ ?_,
    fun val s hfix ↦ ?_⟩
  · have hall := allFound_of_measureLoop hloop
    obtain ⟨vs', size', -, -, -, hres⟩ := variableGetKey_fill hkey hlen hne hall
    rw [hres]
    split <;> simp
  · have hval : ∀ i ∈ v.indexes, (fun i ↦ some (val i)) i = some (val i) := fun _ _ ↦ rfl
    obtain ⟨vs, hloop, hvs⟩ := measureLoop_found hfix hval
    have hall := allFound_of_measureLoop hloop
    obtain ⟨vs', size, hloop', hvs', -, hres⟩ := variableGetKey_fill hkey hlen hne hall
    obtain ⟨rfl, rfl⟩ : vs = vs' ∧ (v.indexes.flatMap val).length = size := by
      have hsome := congrArg Prod.fst (hloop.symm.trans hloop')
      exact ⟨congrArg Prod.fst (Option.some.inj hsome), congrArg Prod.snd (Option.some.inj hsome)⟩
    have htotal := totalLength_of_forall₂ hvs
    have hfit := length_fill_sub_keySize hkey hlen
      (deref (Machine.final getIndexVariable s v.indexes)) hvs' (v.indexes.flatMap val).length
    rw [htotal] at hfit
    refine ⟨vs, _, fill (deref (Machine.final getIndexVariable s v.indexes)) vs (tokenize key),
      congrArg Prod.fst hloop, ?_, ?_⟩
    · rw [hres, if_pos (by omega)]
    · omega

end

theorem twoNames_empty (k : Nat) : twoNames k [] = none := rfl

/-- A key with adjacent references, of which the last one ends it, over two values. -/
theorem template_well_formed_oneZone :
    ∃ vars, (confSetVariable plainConf .http twoNames oneZone.1 oneZone.2 (lit "$b$cc") (lit "$v")
        (lit "zone=z") (.plain .move)).2.1.vars = some vars ∧
      (vars.mem ⟨0, 0⟩).keyString.count dollar = (vars.mem ⟨0, 0⟩).indexes.length ∧
      ∃ vs size out, (measureLoop (fun (s : Unit) i ↦ (some i, s))
          (fun _ i ↦ ⟨if i = 0 then [36, 0] else [], true, false, false⟩)
          (vars.mem ⟨0, 0⟩).indexes ()).1 = some (vs, size) ∧
        (variableGetKey (fun (s : Unit) i ↦ (some i, s))
          (fun _ i ↦ ⟨if i = 0 then [36, 0] else [], true, false, false⟩)
          (vars.mem ⟨0, 0⟩) true true ()).1 = .ok out ∧
        (out.length : Int) + 1 = keySize size (vars.mem ⟨0, 0⟩) := by
  have hacc : (confSetVariable plainConf .http twoNames oneZone.1 oneZone.2 (lit "$b$cc")
      (lit "$v") (lit "zone=z") (.plain .move)).1 = .ok ⟨0, 0⟩ := by rfl
  obtain ⟨-, haccepted⟩ := @template_well_formed Unit Nat _ _ _ _ _ _ _ _ _ _ _ twoNames_empty
    (show dollar ∈ lit "$b$cc" by decide)
  obtain ⟨vars, hvars, hcount, -, -, hexact⟩ := haccepted _ _ _ (Prod.ext hacc rfl)
  exact ⟨vars, hvars, hcount, hexact (fun i ↦ if i = 0 then [36, 0] else []) ()
    ⟨fun is i b _ hb ↦ ⟨i, rfl, fun _ _ ↦ ⟨rfl, Option.some.inj hb⟩⟩,
      fun is i r _ hnone ↦ by cases hnone⟩⟩

/-! ## Any evaluator -/

section

variable {σ ρ : Type} {getIndexVariable : σ → Nat → Option ρ × σ} {deref : σ → ρ → VariableValue}
  {ngx : NgxConf} {tag : Tag} {getIndex : Nat → Bytes → Option Nat} {conf conf' : Conf}
  {shared shared' : Segments} {key var zone : Bytes} {o : VarAlloc} {p : Ptr}

/-- **When the expansion stays inside the key.**  Take the variable of any accepted directive, and
any evaluator.  The second loop stays inside the buffer if and only if, whenever all the variables
are found, their values are in total no longer when all have been asked for than they were when each
was given out. -/
theorem variableGetKey_inside_iff
    (hacc : confSetVariable ngx tag getIndex conf shared key var zone o = (.ok p, conf', shared')) :
    ∃ vars, conf'.vars = some vars ∧ ∀ s : σ,
      (variableGetKey getIndexVariable deref (vars.mem p) true true s).1 ≠ .overflow ↔
        (AllFound getIndexVariable deref s (vars.mem p).indexes →
          growth getIndexVariable deref s (vars.mem p).indexes ≤ 0) := by
  obtain ⟨vars, hvars, hkey, hnames⟩ := keyString_of_accepted hacc
  refine ⟨vars, hvars, fun s ↦ ?_⟩
  generalize vars.mem p = v at hkey hnames
  by_cases hne : v.indexes = []
  · simp [variableGetKey, hne, growth, looks]
  · by_cases hall : AllFound getIndexVariable deref s v.indexes
    · obtain ⟨vs, size, hloop, hvs, hgrowth, hres⟩ :=
        variableGetKey_fill hkey hnames.length_eq hne hall
      have hfit := length_fill_sub_keySize hkey hnames.length_eq
        (deref (Machine.final getIndexVariable s v.indexes)) hvs size
      rw [hres, forall_prop_of_true hall, hgrowth]
      split
      · rename_i hlt
        exact ⟨fun _ ↦ by omega, fun _ ↦ by simp⟩
      · rename_i hge
        exact ⟨fun h ↦ absurd rfl h, fun h ↦ by omega⟩
    · refine ⟨fun _ h ↦ absurd h hall, fun _ ↦ ?_⟩
      have hpos : v.indexes.length ≠ 0 := fun hzero ↦ hne (List.eq_nil_of_length_eq_zero hzero)
      rw [variableGetKey, if_pos hpos, if_neg (by decide)]
      split
      · simp
      · rename_i hsome
        exact absurd (allFound_of_measureLoop hsome) hall

end

/-- An evaluator for which asking for the second variable evaluates the first one again: its value
has become longer by then. -/
def flushing (s : Bool) (i : Nat) : Option Nat × Bool := (some i, s || decide (i = 1))

/-- The values, before and after. -/
def flushed (s : Bool) (i : Nat) : VariableValue :=
  ⟨if i = 0 ∧ s then lit "longer" else lit "m", true, true, false⟩

/-- A key over a variable that is evaluated again after it has been measured is safe when the second
value is as long as the first one. -/
theorem variableGetKey_inside_flushing :
    ∃ vars, (confSetVariable plainConf .http twoNames oneZone.1 oneZone.2 (lit "$b$cc") (lit "$v")
        (lit "zone=z") (.plain .move)).2.1.vars = some vars ∧
      (variableGetKey flushing flushed (vars.mem ⟨0, 0⟩) true true true).1 ≠ .overflow := by
  have hacc : (confSetVariable plainConf .http twoNames oneZone.1 oneZone.2 (lit "$b$cc")
      (lit "$v") (lit "zone=z") (.plain .move)).1 = .ok ⟨0, 0⟩ := by rfl
  obtain ⟨vars, hvars, hiff⟩ := @variableGetKey_inside_iff Bool Nat flushing flushed _ _ _ _ _ _ _ _
    _ _ _ _ (Prod.ext hacc rfl)
  refine ⟨vars, hvars, (hiff true).mpr fun _ ↦ ?_⟩
  obtain rfl := Option.some.inj hvars
  decide

/-- **A key is written past the end of its buffer.**  Three bytes are allocated for `$b$cc`, whose
two values had one byte each when they were measured; seven bytes and a `NUL` are written. -/
theorem variableGetKey_overruns :
    ∃ vars, (confSetVariable plainConf .http twoNames oneZone.1 oneZone.2 (lit "$b$cc") (lit "$v")
        (lit "zone=z") (.plain .move)).1 = .ok ⟨0, 0⟩ ∧
      (confSetVariable plainConf .http twoNames oneZone.1 oneZone.2 (lit "$b$cc") (lit "$v")
        (lit "zone=z") (.plain .move)).2.1.vars = some vars ∧
      measureLoop flushing flushed (vars.mem ⟨0, 0⟩).indexes false = (some ([0, 1], 2), true) ∧
      keySize 2 (vars.mem ⟨0, 0⟩) = 3 ∧
      fill (flushed true) [0, 1] (tokenize (lit "$b$cc")) = lit "longerm" ∧
      (variableGetKey flushing flushed (vars.mem ⟨0, 0⟩) true true false).1 = .overflow := by
  refine ⟨_, rfl, rfl, by rfl, by rfl, ?_, by rfl⟩
  rw [show lit "$b$cc" = [36, 98, 36, 99, 99] from rfl]
  simp [tokenize, dollar, isNameChar, fill, flushed, lit]

end NgxKeyval
