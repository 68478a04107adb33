import NgxKeyval.Module.Chained

/-!
# Evaluating variables

The key of a variable is made of other variables, whose get handlers run in the middle of it, and
may fail at the depth limit.  These are the rules for what holds throughout.

* `variableInit_induction` and `getIndexedVariable_induction` — what the handlers keep is kept while
  a key is expanded, and by asking for a variable.
* `getIndexedVariable_some` — a variable that comes back is the one that was asked for.
* `variableGetKey_fails` — a key is not to be had of a variable that is never found.
-/

set_option autoImplicit false

namespace NgxKeyval

section

variable {σ ρ : Type} {get : σ → Nat → Option ρ × σ} {deref : σ → ρ → VariableValue}
  {I : σ → Prop} {D : Nat → Prop} {is : List Nat} {s : σ}

theorem measureLoop_fails (hkeep : ∀ s j, I s → I (get s j).2)
    (hmiss : ∀ s j r, I s → D j → (get s j).1 = some r → (deref (get s j).2 r).notFound)
    (hD : ∃ j ∈ is, D j) (h : I s) : (measureLoop get deref is s).1 = none := by
  induction is generalizing s with
  | nil =>
    obtain ⟨j, hj, -⟩ := hD
    exact absurd hj List.not_mem_nil
  | cons i is ih =>
    have hnext := hkeep s i h
    have hfound := hmiss s i
    rcases hget : get s i with ⟨_ | r, s₁⟩
    · simp only [measureLoop, hget]
    · rw [hget] at hnext hfound
      obtain ⟨j, hj, hDj⟩ := hD
      rcases List.mem_cons.mp hj with rfl | hj
      · simp only [measureLoop, hget, hfound r h hDj rfl, if_true]
      · have hrest := ih ⟨j, hj, hDj⟩ hnext
        simp only [measureLoop, hget]
        split
        · rfl
        · rcases hloop : measureLoop get deref is s₁ with ⟨_ | ⟨vs, size⟩, s₂⟩
          · rfl
          · rw [hloop] at hrest
            exact absurd hrest (Option.some_ne_none _)

theorem variableGetKey_fails {v : Variable} (hkeep : ∀ s j, I s → I (get s j).2)
    (hmiss : ∀ s j r, I s → D j → (get s j).1 = some r → (deref (get s j).2 r).notFound)
    (hD : ∃ j ∈ v.indexes, D j) (h : I s) (allocValues allocKey : Bool) :
    (variableGetKey get deref v allocValues allocKey s).1 = .error := by
  have hfail := measureLoop_fails hkeep hmiss hD h
  obtain ⟨j, hj, -⟩ := hD
  rw [variableGetKey, if_pos (List.length_pos_of_mem hj).ne']
  split
  · rfl
  · rcases hloop : measureLoop get deref v.indexes s with ⟨_ | r, s'⟩
    · rfl
    · rw [hloop] at hfail
      exact absurd hfail (Option.some_ne_none r)

end

section

variable {w : Nat} {σ : Type} {env : RequestEnv w σ} {o : RequestInput w} {s : Request w σ}
  {i depth : Nat} {data : Option Variable}

/-- **What expanding a key keeps**: whatever asking for a variable keeps. -/
theorem variableInit_induction {I : Request w σ → Prop}
    {getVariable : Request w σ → Nat → Option Nat × Request w σ}
    (hget : ∀ s j, I s → I (getVariable s j).2) (h : I s) (data : Option Variable) :
    I (variableInit getVariable o data s).2 := by
  rcases data with _ | v
  · exact h
  · obtain ⟨js, -, hstate, -⟩ :=
      @variableGetKey_state _ _ getVariable Request.slots v o.values o.key s
    have hkeeps : I (variableGetKey getVariable Request.slots v o.values o.key s).2 :=
      hstate ▸ Machine.final_induction (fun _ _ ↦ True) (fun s j h _ ↦ hget s j h) h
        (Machine.meets_of_forall fun _ _ _ ↦ trivial)
    rw [variableInit]
    split
    · rename_i key s' hrun
      rw [hrun] at hkeeps
      rcases v.zone with _ | q
      · exact hkeeps
      · exact hkeeps
    · rename_i s' hrun
      rw [hrun] at hkeeps
      exact hkeeps

theorem zone_of_variableInit {getVariable : Request w σ → Nat → Option Nat × Request w σ}
    {key : Bytes} {q : Ptr} (h : (variableInit getVariable o data s).1 = some (key, q)) :
    ∃ v, data = some v ∧ v.zone = some q := by
  rcases data with _ | v
  · exact absurd h.symm (Option.some_ne_none _)
  · refine ⟨v, rfl, ?_⟩
    rw [variableInit] at h
    split at h
    · rename_i key' s' hrun
      rcases hzone : v.zone with _ | q'
      · rw [hzone] at h
        exact absurd h.symm (Option.some_ne_none _)
      · rw [hzone] at h
        exact congrArg some (Prod.mk.inj (Option.some.inj h)).2
    · exact absurd h.symm (Option.some_ne_none _)

/-- **What asking for a variable keeps**: whatever the get handlers keep, and filling in the slots
of other modules. -/
theorem getIndexedVariable_induction {I : Request w σ → Prop}
    (hkeyval : ∀ depth s i data, env.indexed i = .keyval data →
      (∀ s j, I s → I (getIndexedVariable env o depth s j).2) → I s →
      let s' := variableGetHandler env (getIndexedVariable env o depth) o data i s
      I (s'.setSlot i { s'.slots i with noCacheable := true }))
    (hother : ∀ s i value, env.indexed i = .other value → I s → I (s.setSlot i (.ofValue value)))
    (depth : Nat) (s : Request w σ) (i : Nat) (h : I s) :
    I (getIndexedVariable env o depth s i).2 := by
  induction depth generalizing s i with
  | zero =>
    rw [getIndexedVariable]
    split
    · exact h
    · exact h
  | succ depth ih =>
    by_cases he : (s.slots i).evaluated = true
    · rw [getIndexedVariable_of_evaluated he]
      exact h
    · rw [Bool.not_eq_true] at he
      rcases hi : env.indexed i with data | value
      · rw [getIndexedVariable_of_keyval he hi]
        exact hkeyval depth s i data hi ih h
      · rw [getIndexedVariable_of_other he hi]
        exact hother s i value hi h

theorem evaluated_ofResult (r : GetResult) : (VariableValue.ofResult r).evaluated := by
  rcases r with _ | _ | _
  · rfl
  · rfl
  · rfl

/-- The slot of a variable that comes back is the one that was asked for, and filled in. -/
theorem getIndexedVariable_some {r : Nat} (hr : (getIndexedVariable env o depth s i).1 = some r) :
    r = i ∧ ((getIndexedVariable env o depth s i).2.slots r).evaluated := by
  by_cases he : (s.slots i).evaluated = true
  · rw [getIndexedVariable_of_evaluated he] at hr ⊢
    obtain rfl := Option.some.inj hr
    exact ⟨rfl, he⟩
  · rw [Bool.not_eq_true] at he
    rcases depth with _ | depth
    · rw [getIndexedVariable, if_neg (Bool.not_eq_true _ ▸ he)] at hr
      exact absurd hr.symm (Option.some_ne_none r)
    · rcases hi : env.indexed i with data | value
      · rw [getIndexedVariable_of_keyval he hi] at hr ⊢
        obtain rfl := Option.some.inj hr
        refine ⟨rfl, ?_⟩
        rw [slots_setSlot_self]
        show ((variableGetHandler env (getIndexedVariable env o depth) o data i s).slots
          i).evaluated
        rw [variableGetHandler]
        split
        · rw [slots_setSlot_self, VariableValue.evaluated, Bool.true_or]
        · dsimp only
          rw [slots_setSlot_self]
          exact evaluated_ofResult _
      · rw [getIndexedVariable_of_other he hi] at hr ⊢
        obtain rfl := Option.some.inj hr
        refine ⟨rfl, ?_⟩
        rw [slots_setSlot_self]
        rcases value with _ | _
        · rfl
        · rfl

theorem indexed_of_variable {c : Cycle} {tag : Tag} {core : NgxCore w} {hiredis : Hiredis σ}
    {other : Nat → Option Bytes} {n : Nat} {v : Variable} (h : c.variable tag n = some v) :
    (c.requestEnv tag core hiredis other).indexed n = .keyval (some v) := by
  simp only [Cycle.requestEnv, h]

end

end NgxKeyval
