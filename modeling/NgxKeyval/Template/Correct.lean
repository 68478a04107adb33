import NgxKeyval.Conf.PlainConf
import NgxKeyval.Template.Expand

/-!
# Compiling and expanding a key is substituting in it

A key argument is read as a list of tokens: a byte that stands for itself, or a `$` followed by the
name of a variable.  `substitute` puts values in for the names, directly.  This file proves that
the module does the same in two steps, in two files and at two different times.

* `tokenize` is the reading, `substitute` the meaning.
* `compileKey_ok` says what the compiler makes of the tokens: the key string has a `$` for each
  reference and the byte itself for everything else, and the indexes are those of the names, in
  order.
* `copyLoop_tokens` says that the second loop of the expansion undoes that.
* `measureLoop_found` and `measureLoop_missing` are the first loop, over values that stay as they
  are (`Fixed`).
* `variableGetKey_compiled` puts the pieces together for an accepted directive.
-/

set_option autoImplicit false

namespace NgxKeyval

/-! ## Reading a key -/

/-- A piece of a key. -/
inductive Token where
  /-- A byte that stands for itself. -/
  | byte (b : UInt8)
  /-- A `$` and the name behind it. -/
  | ref (name : Bytes)
  deriving DecidableEq, Repr

theorem length_dropWhile_lt (p : UInt8 → Bool) (c : UInt8) (rest : Bytes) :
    (rest.dropWhile p).length < (c :: rest).length := by
  have hle := (List.dropWhile_sublist (l := rest) p).length_le
  rw [List.length_cons]
  omega

/-- Read a key from left to right; a name is as long as it can be. -/
def tokenize : Bytes → List Token
  | [] => []
  | c :: rest =>
    if c = dollar then .ref (rest.takeWhile isNameChar) :: tokenize (rest.dropWhile isNameChar)
    else .byte c :: tokenize rest
termination_by key => key.length
decreasing_by
  · exact length_dropWhile_lt _ _ _
  · simp

/-- What a token stands for. -/
def Token.subst (val : Bytes → Bytes) : Token → Bytes
  | .byte b => [b]
  | .ref name => val name

/-- What a key stands for: each reference replaced by the value of its variable. -/
def substitute (val : Bytes → Bytes) (key : Bytes) : Bytes := (tokenize key).flatMap (·.subst val)

/-- The name a token refers to, if any. -/
def Token.name? : Token → Option Bytes
  | .byte _ => none
  | .ref name => some name

/-- The names a key refers to, in order and with repetitions. -/
def references (key : Bytes) : List Bytes := (tokenize key).filterMap Token.name?

/-- What the compiler leaves of a token. -/
def Token.mark : Token → UInt8
  | .byte b => b
  | .ref _ => dollar

@[simp] theorem Token.subst_byte (val : Bytes → Bytes) (b : UInt8) :
    (Token.byte b).subst val = [b] := rfl

@[simp] theorem Token.subst_ref (val : Bytes → Bytes) (name : Bytes) :
    (Token.ref name).subst val = val name := rfl

@[simp] theorem Token.mark_byte (b : UInt8) : (Token.byte b).mark = b := rfl

@[simp] theorem Token.mark_ref (name : Bytes) : (Token.ref name).mark = dollar := rfl

@[simp] theorem filterMap_name?_byte (b : UInt8) (ts : List Token) :
    (.byte b :: ts).filterMap Token.name? = ts.filterMap Token.name? := rfl

@[simp] theorem filterMap_name?_ref (name : Bytes) (ts : List Token) :
    (.ref name :: ts).filterMap Token.name? = name :: ts.filterMap Token.name? := rfl

@[simp] theorem tokenize_nil : tokenize [] = [] := by rw [tokenize]

@[simp] theorem tokenize_dollar (rest : Bytes) :
    tokenize (dollar :: rest) =
      .ref (rest.takeWhile isNameChar) :: tokenize (rest.dropWhile isNameChar) := by
  rw [tokenize, if_pos rfl]

@[simp] theorem tokenize_byte {c : UInt8} (hc : c ≠ dollar) (rest : Bytes) :
    tokenize (c :: rest) = .byte c :: tokenize rest := by
  rw [tokenize, if_neg hc]

theorem ne_dollar_of_mem_tokenize {key : Bytes} {b : UInt8} (hb : .byte b ∈ tokenize key) :
    b ≠ dollar := by
  induction key using tokenize.induct with
  | case1 => simp at hb
  | case2 rest ih =>
    rw [tokenize_dollar] at hb
    rcases List.mem_cons.mp hb with hb | hb
    · cases hb
    · exact ih hb
  | case3 c rest hc ih =>
    rw [tokenize_byte hc] at hb
    rcases List.mem_cons.mp hb with hb | hb
    · cases hb; exact hc
    · exact ih hb

theorem tokenize_of_notMem {key : Bytes} (h : dollar ∉ key) : tokenize key = key.map .byte := by
  induction key with
  | nil => simp
  | cons c rest ih =>
    obtain ⟨hc, hrest⟩ := List.ne_and_not_mem_of_not_mem_cons h
    rw [tokenize_byte (Ne.symm hc), ih hrest, List.map_cons]

/-! ## The compiler -/

section

variable {getIndex : Nat → Bytes → Option Nat} {o : VarAlloc} {cap : Nat}

theorem nameLoop_ok {rest name name' rest' : Bytes}
    (h : nameLoop cap rest name = .ok (name', rest')) :
    name' = name ++ rest.takeWhile isNameChar ∧ rest' = rest.dropWhile isNameChar := by
  induction rest generalizing name with
  | nil =>
    simp only [nameLoop, Except.ok.injEq, Prod.mk.injEq] at h
    simp [← h.1, ← h.2]
  | cons c rest ih =>
    rw [nameLoop] at h
    split at h
    · rename_i hc
      split at h
      · obtain ⟨hname, hrest⟩ := ih h
        simp [hname, hrest, hc]
      · cases h
    · rename_i hc
      simp only [Except.ok.injEq, Prod.mk.injEq] at h
      simp [← h.1, ← h.2, hc]

theorem scanName_ok {asked i : Nat} {rest rest' : Bytes}
    (h : scanName cap getIndex o asked rest = .ok (i, rest')) :
    getIndex asked (rest.takeWhile isNameChar) = some i ∧ rest' = rest.dropWhile isNameChar := by
  rw [scanName] at h
  split at h
  · cases h
  · rename_i name rest₁ hname
    obtain ⟨rfl, rfl⟩ := nameLoop_ok hname
    split at h
    · split at h
      · split at h
        · cases h
        · rename_i j hj
          obtain ⟨rfl, rfl⟩ := by simpa using h
          exact ⟨by simpa using hj, rfl⟩
      · cases h
    · cases h

/-- An index was given out for a name. -/
def Names (getIndex : Nat → Bytes → Option Nat) (i : Nat) (name : Bytes) : Prop :=
  ∃ k, getIndex k name = some i

/-- **The outer loop**, once it has fuel for what is left. -/
theorem scanLoop_ok {fuel : Nat} {rest ks ks' : Bytes} {ix ix' : List Nat}
    (hfuel : rest.length ≤ fuel)
    (h : scanLoop cap getIndex o fuel rest ks ix = .ok (ks', ix')) :
    ks' = ks ++ (tokenize rest).map Token.mark ∧
      ∃ new, ix' = ix ++ new ∧ List.Forall₂ (Names getIndex) new (references rest) := by
  induction fuel generalizing rest ks ix with
  | zero =>
    obtain rfl : rest = [] := List.eq_nil_of_length_eq_zero (Nat.le_zero.mp hfuel)
    simp only [scanLoop, Except.ok.injEq, Prod.mk.injEq] at h
    exact ⟨by simp [h.1], [], by simp [h.2], by simp [references]⟩
  | succ fuel ih =>
    cases rest with
    | nil =>
      simp only [scanLoop, Except.ok.injEq, Prod.mk.injEq] at h
      exact ⟨by simp [h.1], [], by simp [h.2], by simp [references]⟩
    | cons c rest =>
      rw [scanLoop] at h
      split at h
      · split at h
        · rename_i hc
          subst hc
          split at h
          · cases h
          · rename_i i rest' hscan
            obtain ⟨hi, rfl⟩ := scanName_ok hscan
            have hlen : (rest.dropWhile isNameChar).length ≤ fuel := by
              have := length_dropWhile_lt isNameChar dollar rest
              omega
            obtain ⟨hks, new, hix, hnew⟩ := ih hlen h
            refine ⟨by simp [hks], i :: new, by simp [hix], ?_⟩
            simpa [references] using ⟨⟨_, hi⟩, hnew⟩
        · rename_i hc
          obtain ⟨hks, new, hix, hnew⟩ := ih (Nat.le_of_succ_le_succ hfuel) h
          refine ⟨by simp [hks, tokenize_byte hc], new, hix, ?_⟩
          rw [references, tokenize_byte hc, filterMap_name?_byte]
          exact hnew
      · cases h

/-- **What the compiler makes of a key**: the marks of its tokens, and an index for each name. -/
theorem compileKey_ok {key ks : Bytes} {ix : List Nat}
    (h : compileKey getIndex o key = .ok (ks, ix)) :
    ks = (tokenize key).map Token.mark ∧ List.Forall₂ (Names getIndex) ix (references key) := by
  rw [compileKey] at h
  split at h
  · rename_i hdollar
    obtain ⟨rfl, rfl⟩ := by simpa using h
    rw [references, tokenize_of_notMem hdollar]
    refine ⟨?_, ?_⟩
    · rw [List.map_map]
      exact (List.map_id key).symm
    · simp [List.filterMap_map, Function.comp_def, Token.name?]
  · split at h
    · cases h
    · split at h
      · cases h
      · split at h
        · cases h
        · rename_i ks₁ ix₁ hscan
          split at h
          · obtain ⟨rfl, rfl⟩ := by simpa using h
            obtain ⟨hks, new, hix, hnew⟩ := scanLoop_ok (Nat.le_refl _) hscan
            obtain rfl : ix₁ = new := by simpa using hix
            exact ⟨by simpa using hks, hnew⟩
          · cases h

/-- What holds of each index that is given out for a name holds of the lists. -/
theorem map_indexes {α : Type} {value : Nat → α} {val : Bytes → α} {ix : List Nat}
    {names : List Bytes} (hvalue : ∀ k name i, getIndex k name = some i → value i = val name)
    (h : List.Forall₂ (Names getIndex) ix names) : ix.map value = names.map val := by
  induction h with
  | nil => rfl
  | cons hfirst _ ih =>
    obtain ⟨k, hk⟩ := hfirst
    rw [List.map_cons, List.map_cons, ih, hvalue k _ _ hk]

end

/-! ## Values that stay as they are -/

section

variable {σ ρ : Type} {getIndexVariable : σ → Nat → Option ρ × σ} {deref : σ → ρ → VariableValue}

/-- While the variables of `indexes` are asked for in order, starting in `s₀`, each has the value
`value` says: a reference to a found value is given out, and it still has these bytes whenever it is
looked at; a variable without a value is reported as not found. -/
structure Fixed (getIndexVariable : σ → Nat → Option ρ × σ) (deref : σ → ρ → VariableValue)
    (value : Nat → Option Bytes) (s₀ : σ) (indexes : List Nat) : Prop where
  /-- A found value stays fixed from the time it is asked for. -/
  found : ∀ is i b, is ++ [i] <+: indexes → value i = some b →
    ∃ r, (getIndexVariable (Machine.final getIndexVariable s₀ is) i).1 = some r ∧
      ∀ js, is ++ i :: js <+: indexes →
        (deref (Machine.final getIndexVariable s₀ (is ++ i :: js)) r).notFound = false ∧
        (deref (Machine.final getIndexVariable s₀ (is ++ i :: js)) r).data = b
  /-- What has no value is not found when it is asked for. -/
  missing : ∀ is i r, is ++ [i] <+: indexes → value i = none →
    (getIndexVariable (Machine.final getIndexVariable s₀ is) i).1 = some r →
      (deref (Machine.final getIndexVariable s₀ (is ++ [i])) r).notFound = true

variable {value : Nat → Option Bytes} {val : Nat → Bytes} {s : σ} {i : Nat} {is : List Nat}

theorem Fixed.tail (h : Fixed getIndexVariable deref value s (i :: is)) :
    Fixed getIndexVariable deref value (getIndexVariable s i).2 is where
  found js j b hj hb :=
    have ⟨r, hr, hfix⟩ := h.found (i :: js) j b (List.cons_prefix_cons.mpr ⟨rfl, hj⟩) hb
    ⟨r, hr, fun ks hks ↦ hfix ks (List.cons_prefix_cons.mpr ⟨rfl, hks⟩)⟩
  missing js j r hj := h.missing (i :: js) j r (List.cons_prefix_cons.mpr ⟨rfl, hj⟩)

/-- **The first loop, when everything is found**: the lengths of the values add up, and the
references still have these values when the loop is over. -/
theorem measureLoop_found (h : Fixed getIndexVariable deref value s is)
    (hval : ∀ i ∈ is, value i = some (val i)) :
    ∃ vs, measureLoop getIndexVariable deref is s =
        (some (vs, (is.flatMap val).length), Machine.final getIndexVariable s is) ∧
      List.Forall₂ (fun r i ↦ (deref (Machine.final getIndexVariable s is) r).data = val i)
        vs is := by
  induction is generalizing s with
  | nil => exact ⟨[], rfl, List.Forall₂.nil⟩
  | cons i is ih =>
    obtain ⟨vs, hloop, hvs⟩ := ih h.tail fun j hj ↦ hval j (List.mem_cons_of_mem i hj)
    obtain ⟨r, hr, hfix⟩ := h.found [] i (val i) (by simp) (hval i List.mem_cons_self)
    obtain ⟨hnf, hdata⟩ := hfix [] (by simp)
    have hlast := (hfix is (List.prefix_refl _)).2
    refine ⟨r :: vs, ?_, List.Forall₂.cons hlast hvs⟩
    rcases hget : getIndexVariable s i with ⟨v, s₁⟩
    simp only [List.nil_append, Machine.final_cons, Machine.final_nil, hget] at hr hnf hdata hloop
    subst hr
    simp [measureLoop, hget, hnf, hdata, hloop]

theorem measureLoop_missing (h : Fixed getIndexVariable deref value s is)
    (hmiss : ∃ i ∈ is, value i = none) :
    (measureLoop getIndexVariable deref is s).1 = none := by
  induction is generalizing s with
  | nil => simp at hmiss
  | cons i is ih =>
    rcases hget : getIndexVariable s i with ⟨_ | r, s₁⟩
    · simp [measureLoop, hget]
    · cases hi : value i with
      | none =>
        have hnf := h.missing [] i r (by simp) hi (by simp [hget])
        simp only [List.nil_append, Machine.final_cons, Machine.final_nil, hget] at hnf
        simp [measureLoop, hget, hnf]
      | some b =>
        have hrest : ∃ j ∈ is, value j = none := by
          obtain ⟨j, hj, hnone⟩ := hmiss
          rcases List.mem_cons.mp hj with rfl | hj
          · rw [hi] at hnone
            cases hnone
          · exact ⟨j, hj, hnone⟩
        have hfail := ih h.tail hrest
        rw [hget] at hfail
        rw [measureLoop, hget]
        simp only
        split
        · rfl
        · split
          · rfl
          · rename_i hloop
            rw [hloop] at hfail
            cases hfail

/-- The first loop asks for some of the variables, from the first one on; for all of them if it
comes to its end. -/
theorem measureLoop_state (is : List Nat) (s : σ) :
    ∃ js, js <+: is ∧
      (measureLoop getIndexVariable deref is s).2 = Machine.final getIndexVariable s js ∧
      ((measureLoop getIndexVariable deref is s).1 ≠ none → js = is) := by
  induction is generalizing s with
  | nil => exact ⟨[], List.prefix_refl _, rfl, fun _ ↦ rfl⟩
  | cons i is ih =>
    have hfirst : [i] <+: i :: is := List.cons_prefix_cons.mpr ⟨rfl, List.nil_prefix⟩
    rcases hget : getIndexVariable s i with ⟨_ | r, s₁⟩
    · exact ⟨[i], hfirst, by simp [measureLoop, hget], by simp [measureLoop, hget]⟩
    · rcases hnf : (deref s₁ r).notFound with _ | _
      · obtain ⟨js, hjs, heq, hall⟩ := ih s₁
        refine ⟨i :: js, List.cons_prefix_cons.mpr ⟨rfl, hjs⟩, ?_⟩
        rw [Machine.final_cons, hget, ← heq]
        simp only [measureLoop, hget, hnf]
        rcases hloop : measureLoop getIndexVariable deref is s₁ with ⟨_ | ⟨vs, size⟩, s₂⟩
        · exact ⟨rfl, fun hne ↦ absurd rfl hne⟩
        · exact ⟨rfl, fun _ ↦ by rw [hall (by rw [hloop]; exact Option.some_ne_none _)]⟩
      · exact ⟨[i], hfirst, by simp [measureLoop, hget, hnf], by simp [measureLoop, hget, hnf]⟩

/-! ## Putting the values in -/

/-- **The second loop** puts the values in at the marks, and the buffer is large enough. -/
theorem copyLoop_tokens {look : ρ → VariableValue} {val : Bytes → Bytes} {vs : List ρ} {size : Int}
    {ts : List Token} {current : Nat} {out : Bytes} (hbyte : ∀ b, .byte b ∈ ts → b ≠ dollar)
    (hvs : List.Forall₂ (fun r n ↦ (look r).data = val n) (vs.drop current)
      (ts.filterMap Token.name?))
    (hsize : ((out ++ ts.flatMap (·.subst val)).length : Int) < size) :
    copyLoop look vs size current out (ts.map Token.mark) =
      .ok (out ++ ts.flatMap (·.subst val)) := by
  induction ts generalizing current out with
  | nil => simpa [copyLoop] using hsize
  | cons t ts ih =>
    have hbyte' : ∀ b, .byte b ∈ ts → b ≠ dollar := fun b hb ↦ hbyte b (List.mem_cons_of_mem t hb)
    cases t with
    | byte b =>
      have hb := hbyte b List.mem_cons_self
      have hroom : (out.length : Int) < size := by
        simp only [List.flatMap_cons, List.length_append] at hsize
        omega
      have hrest := @ih current (out ++ [b]) hbyte' hvs (by simpa using hsize)
      simpa [copyLoop, hb, hroom] using hrest
    | ref name =>
      rw [filterMap_name?_ref, List.forall₂_cons_right_iff] at hvs
      obtain ⟨v, vs', hv, hvs, hdrop⟩ := hvs
      have hget : vs[current]? = some v := by
        rw [← List.head?_drop, hdrop, List.head?_cons]
      have hnext : vs.drop (current + 1) = vs' := by
        rw [← List.tail_drop, hdrop, List.tail_cons]
      have hroom : ((out ++ val name).length : Int) ≤ size := by
        simp only [List.flatMap_cons, List.length_append, Token.subst_ref] at hsize ⊢
        omega
      have hrest := @ih (current + 1) (out ++ val name) hbyte' (hnext ▸ hvs) (by simpa using hsize)
      rw [List.map_cons, Token.mark_ref, copyLoop, if_pos rfl, hget]
      simp only [hv, if_pos hroom]
      simpa using hrest

/-- The size of what a key stands for: a byte for each token, except that a reference has the size
of its value. -/
theorem length_subst (val : Bytes → Bytes) (ts : List Token) :
    (ts.flatMap (·.subst val)).length + (ts.filterMap Token.name?).length =
      ((ts.filterMap Token.name?).flatMap val).length + ts.length := by
  induction ts with
  | nil => rfl
  | cons t ts ih =>
    cases t with
    | byte b =>
      rw [filterMap_name?_byte, List.flatMap_cons, List.length_append, List.length_cons,
        Token.subst, List.length_singleton]
      omega
    | ref name =>
      rw [filterMap_name?_ref, List.flatMap_cons, List.flatMap_cons, List.length_append,
        List.length_append, List.length_cons, List.length_cons, Token.subst]
      omega

theorem flatMap_subst_of_no_ref (val : Bytes → Bytes) {ts : List Token}
    (h : ts.filterMap Token.name? = []) : ts.flatMap (·.subst val) = ts.map Token.mark := by
  induction ts with
  | nil => rfl
  | cons t ts ih =>
    cases t with
    | byte b => rw [List.flatMap_cons, List.map_cons, ih h, Token.subst, Token.mark]; rfl
    | ref name => simp [Token.name?] at h

/-! ## The two passes together -/

variable {ngx : NgxConf} {tag : Tag} {getIndex : Nat → Bytes → Option Nat} {conf conf' : Conf}
  {shared shared' : Segments} {key var zone : Bytes} {o : VarAlloc} {p : Ptr}

/-- Expanding what the compiler made of a key, over values that stay as they are and are all found.
-/
theorem variableGetKey_found {v : Variable} (hkey : v.keyString = (tokenize key).map Token.mark)
    {val : Bytes → Option Bytes} (hix : v.indexes.map value = (references key).map val)
    (hfix : Fixed getIndexVariable deref value s v.indexes)
    (hfound : ∀ name ∈ references key, val name ≠ none) :
    (variableGetKey getIndexVariable deref v true true s).1 =
      .ok (substitute (fun name ↦ (val name).getD []) key) := by
  have hval : ∀ i ∈ v.indexes, value i = some ((value i).getD []) := by
    intro i hi
    obtain ⟨name, hname, heq⟩ := List.mem_map.mp (hix ▸ List.mem_map_of_mem (f := value) hi)
    obtain ⟨b, hb⟩ := Option.ne_none_iff_exists'.mp (hfound name hname)
    rw [← heq, hb, Option.getD_some]
  rw [variableGetKey]
  split
  · obtain ⟨vs, hloop, hvs⟩ := measureLoop_found hfix hval
    have hlen := length_subst (fun name ↦ (val name).getD []) (tokenize key)
    have hsum : (v.indexes.flatMap fun i ↦ (value i).getD []) =
        ((tokenize key).filterMap Token.name?).flatMap fun name ↦ (val name).getD [] := by
      rw [← references, ← List.flatMap_map (f := value) (g := fun x ↦ x.getD []), hix,
        List.flatMap_map]
    have hcount : v.indexes.length = ((tokenize key).filterMap Token.name?).length := by
      rw [← references, ← List.length_map (f := value), hix, List.length_map]
    rw [hloop, hkey]
    refine copyLoop_tokens (fun b ↦ ne_dollar_of_mem_tokenize) ?_ ?_
    · have hvals := (List.forall₂_map_right_iff (f := value)
        (R := fun r x ↦ (deref (Machine.final getIndexVariable s v.indexes) r).data =
          x.getD [])).mpr hvs
      rw [hix, List.forall₂_map_right_iff] at hvals
      exact hvals
    · rw [keySize, hsum, hcount, hkey, List.length_map, List.nil_append]
      omega
  · rename_i hzero
    have hnil : (tokenize key).filterMap Token.name? = [] := by
      have hno : v.indexes = [] := List.eq_nil_of_length_eq_zero (by omega)
      rw [hno, List.map_nil, eq_comm, List.map_eq_nil_iff] at hix
      exact hix
    rw [hkey, substitute, flatMap_subst_of_no_ref _ hnil]

/-- Expanding a key, over values that stay as they are, one of which is not found. -/
theorem variableGetKey_missing {v : Variable} {val : Bytes → Option Bytes}
    (hix : v.indexes.map value = (references key).map val)
    (hfix : Fixed getIndexVariable deref value s v.indexes)
    (hmiss : ∃ name ∈ references key, val name = none) (allocValues allocKey : Bool) :
    (variableGetKey getIndexVariable deref v allocValues allocKey s).1 = .error := by
  obtain ⟨name, hname, hnone⟩ := hmiss
  obtain ⟨i, hi, heq⟩ := List.mem_map.mp (hix ▸ List.mem_map_of_mem (f := val) hname)
  have hfail := measureLoop_missing hfix ⟨i, hi, heq.trans hnone⟩
  have hne : v.indexes.length ≠ 0 := List.length_pos_of_mem hi |>.ne'
  rw [variableGetKey, if_pos hne]
  split
  · rfl
  · split
    · rfl
    · rename_i hloop
      rw [hloop] at hfail
      cases hfail

/-- Expanding a key does nothing but ask for some of its variables; for all of them if there is a
key. -/
theorem variableGetKey_state (v : Variable) (allocValues allocKey : Bool) (s : σ) :
    ∃ js, js <+: v.indexes ∧
      (variableGetKey getIndexVariable deref v allocValues allocKey s).2 =
        Machine.final getIndexVariable s js ∧
      ((variableGetKey getIndexVariable deref v allocValues allocKey s).1 ≠ .error →
        js = v.indexes) := by
  rw [variableGetKey]
  split
  · split
    · exact ⟨[], List.nil_prefix, rfl, fun hne ↦ absurd rfl hne⟩
    · obtain ⟨js, hjs, heq, hall⟩ :=
        @measureLoop_state _ _ getIndexVariable deref v.indexes s
      refine ⟨js, hjs, heq ▸ ?_⟩
      rcases hloop : measureLoop getIndexVariable deref v.indexes s with ⟨_ | ⟨vs, size⟩, s₁⟩
      · exact ⟨rfl, fun hne ↦ absurd rfl hne⟩
      · simp only
        split
        · exact ⟨rfl, fun hne ↦ absurd rfl hne⟩
        · exact ⟨rfl, fun _ ↦ hall (by rw [hloop]; exact Option.some_ne_none _)⟩
  · rename_i hzero
    exact ⟨[], List.nil_prefix, rfl, fun _ ↦ (List.eq_nil_of_length_eq_zero (by omega)).symm⟩

/-- **Compiling a key and then expanding it is substituting in it.**  Take any accepted `keyval`
directive, and any later state in which the referenced variables stay as they are during the
expansion.  If all of them are found, the key is the argument with each reference replaced by its
value; if one of them is not, there is no key.  The value of a name is that of its index, so that
names may share one. -/
theorem variableGetKey_compiled
    (hacc : confSetVariable ngx tag getIndex conf shared key var zone o =
      (.ok p, conf', shared')) :
    ∃ vars, conf'.vars = some vars ∧
      ∀ (value : Nat → Option Bytes) (val : Bytes → Option Bytes) (s : σ),
      (∀ k name i, getIndex k name = some i → value i = val name) →
      Fixed getIndexVariable deref value s (vars.mem p).indexes →
      ((∀ name ∈ references key, val name ≠ none) →
        (variableGetKey getIndexVariable deref (vars.mem p) true true s).1 =
          .ok (substitute (fun name ↦ (val name).getD []) key)) ∧
      ((∃ name ∈ references key, val name = none) → ∀ allocValues allocKey,
        (variableGetKey getIndexVariable deref (vars.mem p) allocValues allocKey s).1 =
          .error) := by
  obtain ⟨vars, vars', zones, q, keyString, indexes, -, -, hcompile, -, -, hvars, -⟩ :=
    confSetVariable_ok hacc
  obtain ⟨hks, hnames⟩ := compileKey_ok hcompile
  refine ⟨_, hvars, fun value val s hvalue hfix ↦ ?_⟩
  rw [GrowArray.mem_set_self] at hfix ⊢
  have hvals : indexes.map value = (references key).map val := map_indexes hvalue hnames
  exact ⟨variableGetKey_found hks hvals hfix, variableGetKey_missing hvals hfix⟩

end

/-- The module after a directive has declared the Redis zone `z`. -/
def oneZone : Conf × Segments :=
  (confSetZoneRedis plainConf .http .empty [] (lit "zone=z") [] (.plain .move)).2

/-- Two names with an index. -/
def twoNames (_ : Nat) (name : Bytes) : Option Nat :=
  if name = lit "b" then some 0 else if name = lit "cc" then some 1 else none

theorem twoNames_eq_some {k : Nat} {name : Bytes} {i : Nat} (h : twoNames k name = some i) :
    i = if name = lit "b" then 0 else 1 := by
  rw [twoNames] at h
  split at h
  · rename_i hb
    rw [if_pos hb, Option.some.inj h]
  · rename_i hb
    rw [if_neg hb]
    split at h
    · exact (Option.some.inj h).symm
    · cases h

/-- A key that ends in a reference, over a value that holds a `$` and a `NUL` and an empty one. -/
theorem variableGetKey_compiled_oneZone :
    ∃ p conf' shared' vars,
      confSetVariable plainConf .http twoNames oneZone.1 oneZone.2 (lit "x$b$cc/$b") (lit "$v")
        (lit "zone=z") (.plain .move) = (.ok p, conf', shared') ∧ conf'.vars = some vars ∧
      (variableGetKey (fun (s : Unit) i ↦ (some i, s))
        (fun _ i ↦ ⟨if i = 0 then [36, 0] else [], true, false, false⟩)
        (vars.mem p) true true ()).1 = .ok (lit "x" ++ [36, 0] ++ lit "/" ++ [36, 0]) := by
  have hacc : (confSetVariable plainConf .http twoNames oneZone.1 oneZone.2 (lit "x$b$cc/$b")
      (lit "$v") (lit "zone=z") (.plain .move)).1 = .ok ⟨0, 0⟩ := by rfl
  obtain ⟨vars, hvars, hkey⟩ := @variableGetKey_compiled Unit Nat (fun s i ↦ (some i, s))
    (fun _ i ↦ ⟨if i = 0 then [36, 0] else [], true, false, false⟩) _ _ _ _ _ _ _ _ _ _ _ _
    (Prod.ext hacc rfl)
  let value : Nat → Option Bytes := fun i ↦ some (if i = 0 then [36, 0] else [])
  let val : Bytes → Option Bytes := fun name ↦ value (if name = lit "b" then 0 else 1)
  refine ⟨⟨0, 0⟩, _, _, vars, Prod.ext hacc rfl, hvars, ?_⟩
  rw [(hkey value val () ?_ ⟨?_, ?_⟩).1 fun name _ ↦ Option.some_ne_none _]
  · rw [show lit "x$b$cc/$b" = [120, 36, 98, 36, 99, 99, 47, 36, 98] from rfl, substitute]
    simp [tokenize, dollar, isNameChar, val, value, lit]
  · intro k name i hi
    rw [twoNames_eq_some hi]
  · intro is i b _ hb
    exact ⟨i, rfl, fun _ _ ↦ ⟨rfl, Option.some.inj hb⟩⟩
  · intro is i r _ hnone
    exact absurd hnone (Option.some_ne_none _)

end NgxKeyval
