import NgxKeyval.Module.Evaluation

/-!
# Variables whose keys go round in a circle

Nothing stops the directives from making the key of a variable of itself, directly or by way of
other variables.  nginx gives up on evaluating one when it has come to its depth limit, which leaves
not-found values in slots on the way back.  This file says what becomes of such variables.

* `RequestEnv.Circular` is a set of variables with one of them in the key of each.
* `Request.Without` is the invariant: none of them has a value in its slot.
* `variableInit_circular` — over such slots, none of them has a key.
* `circular_never_found` — so that a request reads nothing from them and its writes to them go
  nowhere, whatever else it does, and whatever memory and the servers do.
-/

set_option autoImplicit false

namespace NgxKeyval

section

variable {w : Nat} {σ : Type} {env : RequestEnv w σ} {o : RequestInput w} {s : Request w σ}
  {i depth : Nat} {data : Option Variable}

/-! ## Circles -/

/-- Each of these variables is one of this module, and has one of them in its key. -/
def RequestEnv.Circular (env : RequestEnv w σ) (D : Nat → Prop) : Prop :=
  ∀ i, D i → ∃ v, env.indexed i = .keyval (some v) ∧ ∃ j ∈ v.indexes, D j

/-- None of these variables has a value in its slot. -/
def Request.Without (D : Nat → Prop) (s : Request w σ) : Prop :=
  ∀ i, D i → (s.slots i).evaluated → (s.slots i).notFound

variable {D : Nat → Prop}

theorem Request.Without.setSlot (h : s.Without D) {v : VariableValue}
    (hv : D i → v.evaluated → v.notFound) : (s.setSlot i v).Without D :=
  (Function.forall_update_iff s.slots fun j v ↦ D j → v.evaluated → v.notFound).mpr
    ⟨hv, fun j _ ↦ h j⟩

theorem Request.Without.flush (h : s.Without D) (i : Nat) : (s.flush i).Without D := by
  rw [Request.flush]
  split
  · exact h.setSlot fun _ he ↦ absurd he Bool.false_ne_true
  · exact h

/-- **Over slots without values, a variable of a circle has no key.** -/
theorem variableInit_circular (hcircular : env.Circular D)
    (hkeep : ∀ s j, s.Without D → (getIndexedVariable env o depth s j).2.Without D)
    (hi : env.indexed i = .keyval data) (hD : D i) (h : s.Without D) :
    (variableInit (getIndexedVariable env o depth) o data s).1 = none := by
  obtain ⟨v, hv, hrefs⟩ := hcircular i hD
  obtain rfl := IndexedVariable.keyval.inj (hi.symm.trans hv)
  have hmiss : ∀ s j r, s.Without D → D j → (getIndexedVariable env o depth s j).1 = some r →
      ((getIndexedVariable env o depth s j).2.slots r).notFound := by
    intro s j r hs hDj hr
    obtain ⟨rfl, he⟩ := getIndexedVariable_some hr
    exact hkeep s r hs r hDj he
  have hkey : (variableGetKey (getIndexedVariable env o depth) Request.slots v o.values o.key s).1 =
      .error := variableGetKey_fails hkeep hmiss hrefs h o.values o.key
  rw [variableInit]
  split
  · rename_i hrun
    rw [hrun] at hkey
    contradiction
  · rfl

/-- **Asking for any variable** leaves the slots of a circle without values. -/
theorem getIndexedVariable_without (hcircular : env.Circular D) (depth : Nat) (s : Request w σ)
    (i : Nat) (h : s.Without D) : (getIndexedVariable env o depth s i).2.Without D := by
  refine getIndexedVariable_induction (fun depth s i data hi hget h ↦ ?_)
    (fun s i value hi h ↦ ?_) depth s i h
  · have hkeeps := variableInit_induction (o := o) hget h data
    have hnone := fun hD ↦ variableInit_circular hcircular hget hi hD h
    simp only [variableGetHandler]
    generalize variableInit (getIndexedVariable env o depth) o data s = r at hkeeps hnone ⊢
    obtain ⟨_ | ⟨key, q⟩, s'⟩ := r
    · rw [setSlot_setSlot, slots_setSlot_self]
      exact hkeeps.setSlot fun _ _ ↦ rfl
    · rw [setSlot_setSlot, slots_setSlot_self]
      refine Request.Without.setSlot hkeeps fun hD _ ↦ ?_
      exact absurd (hnone hD) (Option.some_ne_none _)
  · refine h.setSlot fun hD _ ↦ ?_
    obtain ⟨v, hv, -⟩ := hcircular i hD
    have heq := hi.symm.trans hv
    contradiction

/-! ## Requests -/

/-- An access of a request, over what others have made of the store meanwhile. -/
def sharedStep (env : RequestEnv w σ) (depth : Nat) (s : Request w σ)
    (a : StoreState w σ × RequestInput w × RequestAccess) :
    (Option Bytes × Option Bytes) × Request w σ :=
  accessStep env depth { s with store := a.1 } a.2

/-- **An access** leaves the slots of a circle without values; and one of a variable of the circle
uses no key, and returns no value. -/
theorem sharedStep_circular (hcircular : env.Circular D) (h : s.Without D)
    (a : StoreState w σ × RequestInput w × RequestAccess) :
    (sharedStep env depth s a).2.Without D ∧
      (D a.2.2.index → (sharedStep env depth s a).1 = (none, none)) := by
  obtain ⟨store, o, a⟩ := a
  have hstore : ({ s with store := store } : Request w σ).Without D := h
  simp only [sharedStep]
  generalize ({ s with store := store } : Request w σ) = s' at hstore ⊢
  have hget := getIndexedVariable_without (o := o) hcircular
  rcases a with i | ⟨i, val⟩
  · have hkeeps := hget depth _ i (hstore.flush i)
    refine ⟨hkeeps, fun hD ↦ Prod.ext ?_ ?_⟩
    · obtain ⟨v, hv, -⟩ := hcircular i hD
      simp only [accessStep, accessKey, handlerKey, hv,
        variableInit_circular hcircular (hget _) hv hD (hstore.flush i), Option.map_none]
    · simp only [accessStep, requestStep, getFlushedVariable]
      rcases hr : (getIndexedVariable env o depth (s'.flush i) i).1 with _ | r
      · rfl
      · obtain ⟨rfl, he⟩ := getIndexedVariable_some hr
        rw [Option.bind_some, VariableValue.value?, if_pos (hkeeps r hD he)]
  · rcases hi : env.indexed i with data | value
    · have hkeeps := variableInit_induction (o := o) (hget depth) hstore data
      refine ⟨?_, fun hD ↦ Prod.ext ?_ ?_⟩
      · simp only [accessStep, requestStep, hi, variableSetHandler]
        generalize variableInit (getIndexedVariable env o depth) o data s' = r at hkeeps ⊢
        obtain ⟨_ | ⟨key, q⟩, s''⟩ := r
        · exact hkeeps
        · exact hkeeps
      · simp only [accessStep, accessKey, handlerKey, hi,
          variableInit_circular hcircular (hget depth) hi hD hstore, Option.map_none]
      · simp only [accessStep, requestStep, hi]
    · refine ⟨?_, fun hD ↦ ?_⟩
      · simp only [accessStep, requestStep, hi]
        exact hstore
      · obtain ⟨v, hv, -⟩ := hcircular i hD
        have heq := hi.symm.trans hv
        contradiction

theorem final_without (hcircular : env.Circular D) (store : StoreState w σ)
    (as : List (StoreState w σ × RequestInput w × RequestAccess)) :
    (Machine.final (sharedStep env depth) (.new store) as).Without D := by
  have hnew : (Request.new store).Without D := fun _ _ he ↦ absurd he Bool.false_ne_true
  exact Machine.final_induction (P := Request.Without D) (fun _ _ ↦ True)
    (fun _ a h _ ↦ (sharedStep_circular hcircular h a).1) hnew
    (Machine.meets_of_forall fun _ _ _ ↦ trivial)

end

/-! ## Configurations -/

/-- The key of an nginx variable refers to another one: its last `keyval` directive has a reference
that nginx gives this number. -/
def Refers (tag : Tag) (ds : List (Tag × Directive)) (i j : Nat) : Prop :=
  ∃ pre k post, ds = pre ++ (tag, .keyval k) :: post ∧ k.slot = some i ∧ NotDefined tag i post ∧
    ∃ name ∈ references k.key, ∀ asked n, k.getIndex asked name = some n → n = j

section

variable {ngx : NgxConf} {shared : Segments} {ds : List (Tag × Directive)} {tag : Tag} {w : Nat}
  {σ : Type} {D : Nat → Prop}

theorem mem_indexes_of_references {getIndex : Nat → Bytes → Option Nat} {ix : List Nat}
    {names : List Bytes} {name : Bytes} {j : Nat} (h : List.Forall₂ (Names getIndex) ix names)
    (hname : name ∈ names) (hj : ∀ asked n, getIndex asked name = some n → n = j) : j ∈ ix := by
  induction h with
  | nil => exact absurd hname List.not_mem_nil
  | cons hfirst _ ih =>
    rcases List.mem_cons.mp hname with rfl | hrest
    · obtain ⟨asked, hasked⟩ := hfirst
      exact hj asked _ hasked ▸ List.mem_cons_self
    · exact List.mem_cons_of_mem _ (ih hrest)

/-- **Requests find a circle** where the directives have one. -/
theorem circular_of_accepted (hlaw : ngx.Lawful) (hacc : Accepted ngx (.init shared) ds)
    (hD : ∀ i, D i → ∃ j, Refers tag ds i j ∧ D j) (core : NgxCore w) (hiredis : Hiredis σ)
    (other : Nat → Option Bytes) :
    ((readConf ngx (.init shared) ds).requestEnv tag core hiredis other).Circular D := by
  intro i hi
  obtain ⟨j, ⟨pre, k, post, rfl, hslot, hpost, name, hname, hindex⟩, hj⟩ := hD i hi
  obtain ⟨_, _, keyString, indexes, -, -, hcompile, hvar, -⟩ :=
    variable_of_keyval hlaw hacc hslot hpost
  have hmem : j ∈ indexes := mem_indexes_of_references (compileKey_ok hcompile).2 hname hindex
  exact ⟨_, indexed_of_variable hvar, j, hmem, hj⟩

/-- **Variables whose keys go round in a circle are never found.**  In every accepted configuration,
take nginx variables each of which refers to one of them in its key.  Whatever a request accesses,
whatever others do to the stores meanwhile, and whatever memory, the servers and the clock do: an
access of one of them uses no key and returns no value. -/
theorem circular_never_found (hlaw : ngx.Lawful) (hacc : Accepted ngx (.init shared) ds)
    (hD : ∀ i, D i → ∃ j, Refers tag ds i j ∧ D j) (core : NgxCore w) (hiredis : Hiredis σ)
    (other : Nat → Option Bytes) (depth : Nat) (store : StoreState w σ)
    (as : List (StoreState w σ × RequestInput w × RequestAccess))
    (a : StoreState w σ × RequestInput w × RequestAccess) (ha : D a.2.2.index) :
    let env := (readConf ngx (.init shared) ds).requestEnv tag core hiredis other
    (sharedStep env depth (Machine.final (sharedStep env depth) (.new store) as) a).1 =
      (none, none) := by
  have hcircular := circular_of_accepted hlaw hacc hD core hiredis other
  exact (sharedStep_circular hcircular (final_without hcircular store as) a).2 ha

end

/-- `$a` under the value of `$b`, and `$b` under that of `$a`. -/
def circle : List (Tag × Directive) :=
  [(.http, .zone (lit "zone=z:65536") [] (.plain .move)),
    (.http, .keyval { plainKeyval "$b" "$a" "zone=z" 0 .move with
      getIndex := fun _ name ↦ some (chainIndex name) }),
    (.http, .keyval { plainKeyval "$a" "$b" "zone=z" 1 .move with
      getIndex := fun _ name ↦ some (chainIndex name) })]

theorem circle_refers : Refers .http circle 0 1 ∧ Refers .http circle 1 0 := by
  constructor
  · refine ⟨circle.take 1, _, circle.drop 2, rfl, rfl, ?_, lit "b", ?_, ?_⟩
    · intro d hd _
      obtain rfl := List.mem_singleton.mp hd
      decide
    · show lit "b" ∈ references (lit "$b")
      rw [show lit "$b" = [36, 98] from rfl, references]
      simp [tokenize, dollar, isNameChar, lit]
    · intro _ n hn
      exact (Option.some.inj hn).symm
  · refine ⟨circle.take 2, _, [], rfl, rfl, ?_, lit "a", ?_, ?_⟩
    · intro d hd
      exact absurd hd List.not_mem_nil
    · exact references_chain.2 ▸ List.mem_cons_self
    · intro _ n hn
      exact (Option.some.inj hn).symm

/-- What its requests find. -/
def circleEnv : RequestEnv 64 Server :=
  (readConf plainConf (.init []) circle).requestEnv .http (plainCore 64) serverHiredis fun _ ↦ none

/-- `$a` is set, and then `$b` is read. -/
theorem circular_never_found_circle :
    (sharedStep circleEnv 100 (Machine.final (sharedStep circleEnv 100) chainRequest
      [(chainRequest.store, plainAccess (.write 0 [1]))])
      (chainRequest.store, plainAccess (.read 1))).1 = (none, none) := by
  have hacc : Accepted plainConf (.init []) circle := ⟨by decide, by decide, by decide, trivial⟩
  refine circular_never_found (D := fun i ↦ i = 0 ∨ i = 1) plainConf_lawful hacc ?_ (plainCore 64)
    serverHiredis (fun _ ↦ none) 100 chainRequest.store _ _ (Or.inr rfl)
  rintro i (rfl | rfl)
  · exact ⟨1, circle_refers.1, Or.inr rfl⟩
  · exact ⟨0, circle_refers.2, Or.inl rfl⟩

end NgxKeyval
