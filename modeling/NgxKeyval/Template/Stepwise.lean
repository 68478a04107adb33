import NgxKeyval.Template.Bounds

/-!
# Expanding a key from left to right

The module takes two passes over a compiled key.  Here is what it comes to: one pass over the key as
it was written, which asks for each variable when its turn comes, puts in what it finds, and gives
up at the first variable that is not found.

* `expand` is this pass, over any way of asking for variables; `expand_settled` says that it is
  substituting, over values that stay as they are.
* `AnswersAs` says that a request answers like this other way does, and that what it has given out
  stays as it is.
* `measureLoop_expand` and `variableGetKey_expand` — then the two passes over the compiled key come
  to the same as the one over the text, and the buffer is large enough.
-/

set_option autoImplicit false

namespace NgxKeyval

section

variable {μ : Type} (ask : μ → Nat → Option Bytes × μ) (indexOf : Bytes → Nat)

/-- Expand a key: what it stands for, if all that it asks for is found. -/
def expand : List Token → μ → Option Bytes × μ
  | [], m => (some [], m)
  | .byte b :: ts, m => ((expand ts m).1.map (b :: ·), (expand ts m).2)
  | .ref name :: ts, m =>
    match ask m (indexOf name) with
    | (none, m) => (none, m)
    | (some val, m) => ((expand ts m).1.map (val ++ ·), (expand ts m).2)

theorem expand_induction {P : μ → Prop} (hask : ∀ m i, P m → P (ask m i).2) (ts : List Token)
    {m : μ} (h : P m) : P (expand ask indexOf ts m).2 := by
  induction ts generalizing m with
  | nil => exact h
  | cons t ts ih =>
    cases t with
    | byte b => exact ih h
    | ref name =>
      have hnext := hask m (indexOf name) h
      rw [expand]
      rcases hrun : ask m (indexOf name) with ⟨_ | val, m'⟩
      · rw [hrun] at hnext
        exact hnext
      · rw [hrun] at hnext
        exact ih hnext

end

section

variable {μ : Type} {ask : μ → Nat → Option Bytes × μ} {indexOf : Bytes → Nat} {m : μ}

theorem expand_settled {P : μ → Prop} (val : Bytes → Option Bytes) {ts : List Token}
    (hask : ∀ m, ∀ name ∈ ts.filterMap Token.name?, P m →
      (ask m (indexOf name)).1 = val name ∧ P (ask m (indexOf name)).2) (h : P m) :
    (expand ask indexOf ts m).1 =
        (if ∀ name ∈ ts.filterMap Token.name?, val name ≠ none then
          some (ts.flatMap (·.subst fun name ↦ (val name).getD [])) else none) ∧
      P (expand ask indexOf ts m).2 := by
  induction ts generalizing m with
  | nil => exact ⟨by simp [expand], h⟩
  | cons t ts ih =>
    cases t with
    | byte b =>
      obtain ⟨hvalue, hafter⟩ := ih hask h
      refine ⟨?_, hafter⟩
      rw [expand, hvalue, filterMap_name?_byte, List.flatMap_cons, Token.subst_byte]
      split
      · rfl
      · rfl
    | ref name =>
      obtain ⟨hval, hnext⟩ := hask m name List.mem_cons_self h
      rw [expand, filterMap_name?_ref]
      rcases hrun : ask m (indexOf name) with ⟨_ | b, m'⟩
      · rw [hrun] at hval hnext
        rw [if_neg fun hall ↦ hall name List.mem_cons_self hval.symm]
        exact ⟨rfl, hnext⟩
      · rw [hrun] at hval hnext
        obtain ⟨hvalue, hafter⟩ :=
          ih (fun m n hn ↦ hask m n (List.mem_cons_of_mem name hn)) hnext
        refine ⟨?_, hafter⟩
        have hval' : val name = some b := hval.symm
        dsimp only
        by_cases hall : ∀ n ∈ ts.filterMap Token.name?, val n ≠ none
        · rw [if_pos hall] at hvalue
          rw [hvalue, if_pos (List.forall_mem_cons.mpr ⟨hval' ▸ Option.some_ne_none b, hall⟩),
            List.flatMap_cons, Token.subst_ref, hval']
          rfl
        · rw [if_neg hall] at hvalue
          rw [hvalue, if_neg fun h ↦ hall (List.forall_mem_cons.mp h).2]
          rfl

end

section

variable {σ ρ μ : Type} {R : σ → μ → Prop} {has : σ → ρ → Bytes → Prop}
  {getIndexVariable : σ → Nat → Option ρ × σ} {deref : σ → ρ → VariableValue}
  {ask : μ → Nat → Option Bytes × μ} {indexOf : Bytes → Nat} {s : σ} {m : μ}

/-- In states that `R` relates, a request answers like `ask` does.  A reference it has given out has
its value, by `has`, whatever is asked for later. -/
structure AnswersAs (R : σ → μ → Prop) (has : σ → ρ → Bytes → Prop)
    (getIndexVariable : σ → Nat → Option ρ × σ) (deref : σ → ρ → VariableValue)
    (ask : μ → Nat → Option Bytes × μ) : Prop where
  value : ∀ s r b, has s r b → (deref s r).notFound = false ∧ (deref s r).data = b
  next : ∀ s m i, R s m → R (getIndexVariable s i).2 (ask m i).2
  found : ∀ s m i b, R s m → (ask m i).1 = some b →
    ∃ r, (getIndexVariable s i).1 = some r ∧ has (getIndexVariable s i).2 r b
  missing : ∀ s m i r, R s m → (ask m i).1 = none → (getIndexVariable s i).1 = some r →
    (deref (getIndexVariable s i).2 r).notFound = true
  stays : ∀ s m i r b, R s m → has s r b → has (getIndexVariable s i).2 r b

/-- **The first loop** comes to its end if everything is found.  Then it has references to what
`expand` puts in, and the sum of the lengths these values still have. -/
theorem measureLoop_expand (h : AnswersAs R has getIndexVariable deref ask) (hR : R s m)
    (indexOf : Bytes → Nat) (ts : List Token) :
    let l := measureLoop getIndexVariable deref ((ts.filterMap Token.name?).map indexOf) s
    let e := expand ask indexOf ts m
    R l.2 e.2 ∧ (∀ r b, has s r b → has l.2 r b) ∧
      (l.1 = none ∧ e.1 = none ∨
        ∃ vs, l.1 = some (vs, totalLength (deref l.2) vs) ∧
          vs.length = (ts.filterMap Token.name?).length ∧ e.1 = some (fill (deref l.2) vs ts)) := by
  induction ts generalizing s m with
  | nil => exact ⟨hR, fun _ _ ↦ id, .inr ⟨[], rfl, rfl, rfl⟩⟩
  | cons t ts ih =>
    cases t with
    | byte b =>
      obtain ⟨hnext, hstays, ⟨hnone, hmiss⟩ | ⟨vs, hvs, hlen, hfill⟩⟩ := ih hR
      · exact ⟨hnext, hstays, .inl ⟨hnone, by rw [expand, hmiss]; rfl⟩⟩
      · exact ⟨hnext, hstays, .inr ⟨vs, hvs, hlen, by rw [expand, hfill]; rfl⟩⟩
    | ref name =>
      have hnext := h.next s m (indexOf name) hR
      have hstays := fun r b ↦ h.stays s m (indexOf name) r b hR
      have hfound := fun b ↦ h.found s m (indexOf name) b hR
      have hmissing := fun r ↦ h.missing s m (indexOf name) r hR
      simp only [filterMap_name?_ref, List.map_cons, measureLoop, expand]
      rcases hget : getIndexVariable s (indexOf name) with ⟨r, s₁⟩
      rcases hask : ask m (indexOf name) with ⟨_ | val, m₁⟩
      · -- it is not found, and both give up
        rw [hget, hask] at hnext
        rw [hget] at hstays
        rcases r with _ | r
        · exact ⟨hnext, hstays, .inl ⟨rfl, rfl⟩⟩
        · have hnot : (deref s₁ r).notFound = true := by
            simpa only [hget, hask] using hmissing r (by rw [hask]) (by rw [hget])
          simp only [if_pos hnot]
          exact ⟨hnext, hstays, .inl ⟨trivial, trivial⟩⟩
      · obtain ⟨r', hr, hhas⟩ := hfound val (by rw [hask])
        rw [hget, hask] at hnext
        rw [hget] at hstays hr hhas
        obtain rfl : r = some r' := hr
        obtain ⟨hnf, hdata⟩ := h.value s₁ r' val hhas
        obtain ⟨hend, hlater, hloop⟩ := ih hnext
        simp only [hnf, Bool.false_eq_true, if_false]
        generalize measureLoop getIndexVariable deref ((ts.filterMap Token.name?).map indexOf) s₁ =
          l at hend hlater hloop
        obtain ⟨l, s₂⟩ := l
        dsimp only at hend hlater hloop
        have hlast := (h.value s₂ r' val (hlater r' val hhas)).2
        rcases hloop with ⟨hnone, hmiss⟩ | ⟨vs, hvs, hlen, hfill⟩
        · obtain rfl : l = none := hnone
          exact ⟨hend, fun r b hb ↦ hlater r b (hstays r b hb), .inl ⟨rfl, by rw [hmiss]; rfl⟩⟩
        · obtain rfl : l = _ := hvs
          refine ⟨hend, fun r b hb ↦ hlater r b (hstays r b hb), .inr ⟨r' :: vs, ?_, ?_, ?_⟩⟩
          · rw [hdata, ← hlast]
            rfl
          · rw [List.length_cons, List.length_cons, hlen]
          · rw [hfill, fill, hlast]
            rfl

/-- Without references, what the second loop writes is what the compiler leaves. -/
theorem fill_of_no_ref (look : ρ → VariableValue) (vs : List ρ) {ts : List Token}
    (h : ts.filterMap Token.name? = []) : fill look vs ts = ts.map Token.mark := by
  induction ts with
  | nil => rw [fill, List.map_nil]
  | cons t ts ih =>
    cases t with
    | byte b => rw [fill, ih h, List.map_cons, Token.mark_byte]
    | ref name => exact absurd h (List.cons_ne_nil _ _)

/-- **Expanding a compiled key** comes to the same as expanding the key as it was written. -/
theorem variableGetKey_expand (h : AnswersAs R has getIndexVariable deref ask) (hR : R s m)
    {v : Variable} {key : Bytes} (hkey : v.keyString = (tokenize key).map Token.mark)
    (hix : v.indexes = (references key).map indexOf) :
    let e := expand ask indexOf (tokenize key) m
    let r := variableGetKey getIndexVariable deref v true true s
    R r.2 e.2 ∧ r.1 = e.1.elim .error .ok := by
  obtain ⟨hend, -, hloop⟩ := measureLoop_expand h hR indexOf (tokenize key)
  rw [← references, ← hix] at hend hloop
  simp only [variableGetKey]
  split
  · generalize measureLoop getIndexVariable deref v.indexes s = l at hend hloop
    obtain ⟨l, s'⟩ := l
    dsimp only at hend hloop
    rcases hloop with ⟨hnone, hmiss⟩ | ⟨vs, hvs, hlen, hfill⟩
    · obtain rfl : l = none := hnone
      exact ⟨hend, by rw [hmiss]; rfl⟩
    · obtain rfl : l = _ := hvs
      refine ⟨hend, ?_⟩
      have hcount : v.indexes.length = (references key).length := by rw [hix, List.length_map]
      have hroom := length_fill_sub_keySize hkey hcount (deref s') hlen (totalLength (deref s') vs)
      rw [hfill, hkey]
      have hcopy := @copyLoop_fill ρ (deref s') vs (keySize (totalLength (deref s') vs) v)
        (tokenize key) 0 [] (fun b ↦ ne_dollar_of_mem_tokenize) hlen
      rw [List.drop_zero, List.nil_append, if_pos (by omega)] at hcopy
      exact hcopy
  · rename_i hzero
    have hnil : references key = [] := by
      have hno : v.indexes = [] := List.eq_nil_of_length_eq_zero (by omega)
      rwa [hix, List.map_eq_nil_iff] at hno
    rw [hix, hnil, List.map_nil] at hend hloop
    rcases hloop with ⟨hnone, -⟩ | ⟨vs, -, -, hfill⟩
    · exact absurd hnone (Option.some_ne_none _)
    · refine ⟨hend, ?_⟩
      rw [hfill, fill_of_no_ref _ _ hnil, hkey]
      rfl

end

end NgxKeyval
