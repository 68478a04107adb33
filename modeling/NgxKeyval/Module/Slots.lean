import NgxKeyval.Module.Templates
import NgxKeyval.Store.Entry

/-!
# The slots of a request are a cache

The get handler of a variable fills in its slot, and a filled slot answers for the variable from
then on.  So asking for a variable yields its value as long as what it finds in the slots on the way
is up to date, in the sense of `Cache.UpToDate`.

* `Templates.Compiled` says that nginx has a set of variables, compiled, with one shared memory zone
  that has no `ttl`.
* `OverTable` is the invariant of a request: the segment holds the table, and the slots are as the
  handlers leave them.
* `variableInit_spec` — over slots that are up to date, the key of a variable is its current key.
* `getIndexedVariable_answers` — asking for a variable that is up to date yields its value, and
  fills in slots with values.
-/

set_option autoImplicit false

namespace NgxKeyval

section

variable {w : Nat} {σ : Type}

/-- nginx has these variables, those that are kept in the table with the zone of this segment. -/
structure Templates.Compiled (t : Templates) (env : RequestEnv w σ) (seg : Nat) : Prop where
  /-- A variable of the module has its compiled key, and a record of the zone. -/
  keyval : ∀ i text, t.key i = some text → ∃ v q, env.indexed i = .keyval (some v) ∧
    v.keyString = (tokenize text).map Token.mark ∧ v.indexes = t.refs i ∧ v.zone = some q ∧
    env.store.ShmAt q seg 0
  /-- Another variable has its value. -/
  other : ∀ i, t.key i = none → env.indexed i = .other (t.other i)

/-- What the slots remember. -/
def Request.cache (s : Request w σ) (i : Nat) : Option (Option Bytes) :=
  if (s.slots i).evaluated then some (s.slots i).value? else none

/-- The values a segment holds. -/
def Request.table (s : Request w σ) (seg : Nat) : Table := fun k ↦
  (content (s.store.shm seg) k).map Prod.fst

/-- No answer of an allocator is a failure. -/
structure RequestInput.Ample (o : RequestInput w) : Prop where
  values : o.values = true
  key : o.key = true
  access : o.access = .enough

/-- The segment holds this table, without deadlines, and the slots are as the handlers leave them:
what the module has filled in must not be cached, and what another module has filled in is its
value. -/
structure OverTable (t : Templates) (env : RequestEnv w σ) (seg : Nat) (m : Table)
    (s : Request w σ) : Prop where
  wf : (s.store.shm seg).WF env.store.ngx
  content : ∀ k, content (s.store.shm seg) k = (m k).map fun val ↦ (val, 0)
  noCacheable : ∀ i, t.key i ≠ none → (s.slots i).evaluated → (s.slots i).noCacheable
  other : ∀ i, t.key i = none → (s.slots i).evaluated → (s.slots i).value? = (t.other i).map lenBits

/-- Asking for a variable in this state yields its value, and fills in slots with values. -/
structure Answers (t : Templates) (env : RequestEnv w σ) (seg : Nat) (m : Table)
    (getVariable : Request w σ → Nat → Option Nat × Request w σ) (s : Request w σ) (i : Nat) :
    Prop where
  index : (getVariable s i).1 = some i
  after : OverTable t env seg m (getVariable s i).2
  fills : Cache.Fills (t.current m) s.cache (getVariable s i).2.cache
  value : (getVariable s i).2.cache i = some (t.current m i)

variable {t : Templates} {env : RequestEnv w σ} {seg : Nat} {m : Table} {s : Request w σ}
  {i j : Nat} {text : Bytes} {o : RequestInput w}
  {getVariable : Request w σ → Nat → Option Nat × Request w σ}

/-! ## Slots -/

theorem cache_eq_some {x : Option Bytes} :
    s.cache i = some x ↔ (s.slots i).evaluated ∧ (s.slots i).value? = x := by
  rw [Request.cache]
  split <;> simp [*]

theorem cache_eq_none : s.cache i = none ↔ (s.slots i).evaluated = false := by
  rw [Request.cache]
  split <;> simp [*]

@[simp] theorem slots_setSlot_self (v : VariableValue) : (s.setSlot i v).slots i = v :=
  Function.update_self ..

theorem slots_setSlot_of_ne (hj : j ≠ i) (v : VariableValue) :
    (s.setSlot i v).slots j = s.slots j :=
  Function.update_of_ne hj ..

theorem cache_setSlot_of_ne (hj : j ≠ i) (v : VariableValue) :
    (s.setSlot i v).cache j = s.cache j := by
  rw [Request.cache, Request.cache, slots_setSlot_of_ne hj]

@[simp] theorem setSlot_setSlot (v v' : VariableValue) :
    (s.setSlot i v).setSlot i v' = s.setSlot i v' := by
  simp [Request.setSlot]

theorem OverTable.setSlot (h : OverTable t env seg m s) {v : VariableValue}
    (hkeyval : t.key i ≠ none → v.evaluated → v.noCacheable)
    (hother : t.key i = none → v.evaluated → v.value? = (t.other i).map lenBits) :
    OverTable t env seg m (s.setSlot i v) where
  wf := h.wf
  content := h.content
  noCacheable j hj he := by
    by_cases hji : j = i
    · subst hji
      rw [slots_setSlot_self] at he ⊢
      exact hkeyval hj he
    · rw [slots_setSlot_of_ne hji] at he ⊢
      exact h.noCacheable j hj he
  other j hj he := by
    by_cases hji : j = i
    · subst hji
      rw [slots_setSlot_self] at he ⊢
      exact hother hj he
    · rw [slots_setSlot_of_ne hji] at he ⊢
      exact h.other j hj he

/-- **Filling in a slot** that was empty with the value of its variable, after other slots have been
filled in. -/
theorem OverTable.fill {s' : Request w σ} (h : OverTable t env seg m s') (hi : s.cache i = none)
    (hfills : Cache.Fills (t.current m) s.cache s'.cache) {v : VariableValue} (he : v.evaluated)
    (hvalue : v.value? = t.current m i) (hno : t.key i ≠ none → v.noCacheable) :
    OverTable t env seg m (s'.setSlot i v) ∧
      Cache.Fills (t.current m) s.cache (s'.setSlot i v).cache ∧
      (s'.setSlot i v).cache i = some (t.current m i) := by
  have hself : (s'.setSlot i v).cache i = some (t.current m i) := by
    rw [cache_eq_some, slots_setSlot_self]
    exact ⟨he, hvalue⟩
  refine ⟨h.setSlot (fun hkey _ ↦ hno hkey) fun hkey _ ↦ ?_, fun j ↦ ?_, hself⟩
  · rw [hvalue, Templates.current_of_other hkey]
  · by_cases hji : j = i
    · subst hji
      exact Or.inr ⟨hi, hself⟩
    · rw [cache_setSlot_of_ne hji]
      exact hfills j

/-- The slot of a variable of the module is empty after a flush, and the others are as before. -/
theorem OverTable.flush (h : OverTable t env seg m s) (hkey : t.key i ≠ none) :
    OverTable t env seg m (s.flush i) ∧ (s.flush i).cache i = none ∧
      ∀ j, j ≠ i → (s.flush i).cache j = s.cache j := by
  rw [Request.flush]
  split
  · refine ⟨h.setSlot (fun _ he ↦ ?_) (fun hnone ↦ absurd hnone hkey), ?_,
      fun j hj ↦ cache_setSlot_of_ne hj _⟩
    · simp [VariableValue.evaluated] at he
    · rw [cache_eq_none, slots_setSlot_self]
      rfl
  · rename_i hdrop
    refine ⟨h, cache_eq_none.mpr ?_, fun _ _ ↦ rfl⟩
    rcases he : (s.slots i).evaluated with _ | _
    · rfl
    · exact absurd (by rw [he, h.noCacheable i hkey he]; rfl) hdrop

theorem OverTable.table (h : OverTable t env seg m s) : s.table seg = m := by
  funext k
  rw [Request.table, h.content, Option.map_map]
  exact Option.map_id_apply

/-- A request that starts on a segment without deadlines. -/
theorem overTable_new {store : StoreState w σ} (hwf : (store.shm seg).WF env.store.ngx)
    (hstays : ∀ k val d, NgxKeyval.content (store.shm seg) k = some (val, d) → d = 0) :
    OverTable t env seg ((Request.new store).table seg) (.new store) where
  wf := hwf
  content k := by
    show NgxKeyval.content (store.shm seg) k =
      ((NgxKeyval.content (store.shm seg) k).map Prod.fst).map fun val ↦ (val, 0)
    rcases hk : NgxKeyval.content (store.shm seg) k with _ | ⟨val, d⟩
    · rfl
    · rw [hstays k val d hk]
      rfl
  noCacheable _ _ he := by cases he
  other _ _ he := by cases he

/-! ## Expanding a key -/

theorem final_answers {is : List Nat}
    (hget : ∀ i ∈ is, ∀ s, OverTable t env seg m s → Cache.UpToDate t.refs (t.current m) s.cache i →
      Answers t env seg m getVariable s i)
    (h : OverTable t env seg m s) (hup : ∀ i ∈ is, Cache.UpToDate t.refs (t.current m) s.cache i) :
    OverTable t env seg m (Machine.final getVariable s is) ∧
      Cache.Fills (t.current m) s.cache (Machine.final getVariable s is).cache ∧
      ∀ i ∈ is, (Machine.final getVariable s is).cache i = some (t.current m i) := by
  induction is generalizing s with
  | nil => exact ⟨h, Cache.Fills.refl _, fun _ hi ↦ by cases hi⟩
  | cons i is ih =>
    have hfirst := hget i List.mem_cons_self s h (hup i List.mem_cons_self)
    obtain ⟨hover, hfills, hvalues⟩ := ih (fun j hj ↦ hget j (List.mem_cons_of_mem i hj))
      hfirst.after fun j hj ↦ (hup j (List.mem_cons_of_mem i hj)).of_fills hfirst.fills
    refine ⟨hover, hfirst.fills.trans hfills, fun j hj ↦ ?_⟩
    rcases List.mem_cons.mp hj with rfl | hj
    · exact hfills.eq_some hfirst.value
    · exact hvalues j hj

theorem fixed_of_answers {is : List Nat}
    (hget : ∀ i ∈ is, ∀ s, OverTable t env seg m s → Cache.UpToDate t.refs (t.current m) s.cache i →
      Answers t env seg m getVariable s i)
    (h : OverTable t env seg m s) (hup : ∀ i ∈ is, Cache.UpToDate t.refs (t.current m) s.cache i) :
    Fixed getVariable Request.slots (t.current m) s is := by
  -- any number of them, from the first one on
  have hprefix : ∀ js, js <+: is → OverTable t env seg m (Machine.final getVariable s js) ∧
      Cache.Fills (t.current m) s.cache (Machine.final getVariable s js).cache ∧
      ∀ i ∈ js, (Machine.final getVariable s js).cache i = some (t.current m i) := by
    intro js hjs
    exact final_answers (fun i hi ↦ hget i (hjs.subset hi)) h fun i hi ↦ hup i (hjs.subset hi)
  have hindex : ∀ js i, js ++ [i] <+: is →
      (getVariable (Machine.final getVariable s js) i).1 = some i := by
    intro js i hjs
    obtain ⟨hover, hfills, -⟩ := hprefix js ((List.prefix_append js [i]).trans hjs)
    have hi : i ∈ is := hjs.subset (by simp)
    exact (hget i hi _ hover ((hup i hi).of_fills hfills)).index
  constructor
  · intro js i b hjs hb
    refine ⟨i, hindex js i hjs, fun ks hks ↦ ?_⟩
    obtain ⟨-, -, hvalues⟩ := hprefix _ hks
    obtain ⟨-, hvalue⟩ := cache_eq_some.mp (hvalues i (by simp))
    rw [hb, VariableValue.value?] at hvalue
    split at hvalue
    · cases hvalue
    · rename_i hfound
      exact ⟨by simpa using hfound, Option.some.inj hvalue⟩
  · intro js i r hjs hnone hr
    obtain rfl : i = r := Option.some.inj ((hindex js i hjs).symm.trans hr)
    obtain ⟨-, -, hvalues⟩ := hprefix _ hjs
    obtain ⟨-, hvalue⟩ := cache_eq_some.mp (hvalues i (by simp))
    rw [hnone, VariableValue.value?] at hvalue
    split at hvalue
    · assumption
    · cases hvalue

/-- **The key of a variable**, over slots that are up to date, is its current key. -/
theorem variableInit_spec (hc : t.Compiled env seg) (ho : o.Ample) (htext : t.key i = some text)
    (hget : ∀ j ∈ t.refs i, ∀ s, OverTable t env seg m s →
      Cache.UpToDate t.refs (t.current m) s.cache j → Answers t env seg m getVariable s j)
    (h : OverTable t env seg m s)
    (hup : ∀ j ∈ t.refs i, Cache.UpToDate t.refs (t.current m) s.cache j) :
    ∃ v q, env.indexed i = .keyval (some v) ∧ env.store.ShmAt q seg 0 ∧
      let r := variableInit getVariable o (some v) s
      r.1 = (t.currentKey m i).map (fun key ↦ (key, q)) ∧ OverTable t env seg m r.2 ∧
      Cache.Fills (t.current m) s.cache r.2.cache ∧
      (t.currentKey m i ≠ none → ∀ j ∈ t.refs i, r.2.cache j = some (t.current m j)) := by
  obtain ⟨v, q, hv, hks, hix, hzone, hshm⟩ := hc.keyval i text htext
  refine ⟨v, q, hv, hshm, ?_⟩
  have hnames : v.indexes.map (t.current m) =
      (references text).map fun name ↦ t.current m (t.indexOf name) := by
    rw [hix, Templates.refs_of_key htext, List.map_map]
    rfl
  have hfix : Fixed getVariable Request.slots (t.current m) s v.indexes :=
    fixed_of_answers (hix ▸ hget) h (hix ▸ hup)
  obtain ⟨js, hjs, hstate, hall⟩ :=
    @variableGetKey_state _ _ getVariable Request.slots v o.values o.key s
  obtain ⟨hover, hfills, hvalues⟩ := final_answers
    (fun j hj ↦ hget j (hix ▸ hjs.subset hj)) h fun j hj ↦ hup j (hix ▸ hjs.subset hj)
  rw [← hstate] at hover hfills hvalues
  rw [Templates.currentKey, htext, Option.bind_some, expandKey]
  split
  · rename_i hsome
    have hkey : (variableGetKey getVariable Request.slots v o.values o.key s).1 =
        .ok (substitute (fun name ↦ (t.current m (t.indexOf name)).getD []) text) := by
      rw [ho.values, ho.key]
      exact variableGetKey_found hks hnames hfix hsome
    rcases hrun : variableGetKey getVariable Request.slots v o.values o.key s with ⟨res, s'⟩
    rw [hrun] at hkey hover hfills hvalues hall
    obtain rfl : res = _ := hkey
    simp only [variableInit, hrun, hzone]
    exact ⟨rfl, hover, hfills, fun _ j hj ↦ hvalues j (by rw [hall (by simp), hix]; exact hj)⟩
  · rename_i hnot
    obtain ⟨name, hname, hnone⟩ :
        ∃ name ∈ references text, t.current m (t.indexOf name) = none := by
      simpa using hnot
    have hkey := variableGetKey_missing hnames hfix ⟨name, hname, hnone⟩ o.values o.key
    rcases hrun : variableGetKey getVariable Request.slots v o.values o.key s with ⟨res, s'⟩
    rw [hrun] at hkey hover hfills
    obtain rfl : res = _ := hkey
    simp only [variableInit, hrun]
    exact ⟨rfl, hover, hfills, fun hne ↦ absurd rfl hne⟩

/-! ## The handlers -/

/-- **Reading the store** yields what the table has. -/
theorem storeGet_overTable (hlaw : env.store.ngx.Lawful) {q : Ptr} (hshm : env.store.ShmAt q seg 0)
    (h : OverTable t env seg m s) (key : Bytes) (now : BitVec w) :
    let r := storeGet env.store (some q) key now .enough s.store
    (VariableValue.ofResult r.1).value? = (m key).map lenBits ∧
      OverTable t env seg m { s with store := r.2 } := by
  obtain ⟨hresult, hwf, hcontent, -⟩ := storeGet_shm hlaw hshm h.wf key now
  rw [KvMap.get, h.content] at hresult hcontent
  rcases hm : m key with _ | val
  · rw [hm] at hresult hcontent
    refine ⟨?_, ⟨hwf, fun k ↦ ?_, h.noCacheable, h.other⟩⟩
    · rw [hresult]
      rfl
    · rw [hcontent]
      exact h.content k
  · have hlive : KvMap.Live now (0 : BitVec w) := Or.inl rfl
    simp only [hm, Option.map_some, if_pos hlive] at hresult hcontent
    refine ⟨?_, ⟨hwf, fun k ↦ ?_, h.noCacheable, h.other⟩⟩
    · rw [hresult]
      rfl
    · rw [hcontent]
      exact h.content k

/-- **Writing the store** binds the key in the table. -/
theorem storeSet_overTable (hlaw : env.store.ngx.Lawful) {q : Ptr} (hshm : env.store.ShmAt q seg 0)
    (h : OverTable t env seg m s) (key val : Bytes) (now : BitVec w) :
    OverTable t env seg (Function.update m key (some val))
      { s with store := storeSet env.store (some q) key val now .enough s.store } := by
  obtain ⟨hwf, hcontent, -⟩ := storeSet_shm hlaw hshm h.wf key val now
  refine ⟨hwf, fun k ↦ ?_, h.noCacheable, h.other⟩
  rw [hcontent]
  by_cases hk : k = key
  · rw [hk, Function.update_self, Function.update_self]
    rfl
  · rw [Function.update_of_ne hk, Function.update_of_ne hk]
    exact h.content k

/-- **The get handler** fills in the value of the variable. -/
theorem variableGetHandler_spec (hlaw : env.store.ngx.Lawful) (hc : t.Compiled env seg)
    (ho : o.Ample) (htext : t.key i = some text)
    (hget : ∀ j ∈ t.refs i, ∀ s, OverTable t env seg m s →
      Cache.UpToDate t.refs (t.current m) s.cache j → Answers t env seg m getVariable s j)
    (h : OverTable t env seg m s) (hi : s.cache i = none)
    (hup : ∀ j ∈ t.refs i, Cache.UpToDate t.refs (t.current m) s.cache j) :
    ∃ v, env.indexed i = .keyval (some v) ∧
      let s' := variableGetHandler env getVariable o (some v) i s
      let s'' := s'.setSlot i { s'.slots i with noCacheable := true }
      OverTable t env seg m s'' ∧ Cache.Fills (t.current m) s.cache s''.cache ∧
        s''.cache i = some (t.current m i) := by
  obtain ⟨v, q, hv, hshm, hkey, hover, hfills, -⟩ := variableInit_spec hc ho htext hget h hup
  refine ⟨v, hv, ?_⟩
  rw [variableGetHandler]
  rcases hinit : variableInit getVariable o (some v) s with ⟨r, s₁⟩
  rw [hinit] at hkey hover hfills
  obtain rfl : r = _ := hkey
  have hcurrent : t.current m i = _ := Templates.current_of_key htext
  rcases hcur : t.currentKey m i with _ | key
  · -- there is no key
    simp only [Option.map_none, slots_setSlot_self, setSlot_setSlot]
    refine hover.fill hi hfills ?_ ?_ fun _ ↦ rfl
    · simp [VariableValue.evaluated]
    · rw [hcurrent, hcur]
      rfl
  · obtain ⟨hvalue, hover'⟩ := storeGet_overTable hlaw hshm hover key o.now
    simp only [Option.map_some, slots_setSlot_self, setSlot_setSlot, ho.access]
    refine hover'.fill hi hfills ?_ ?_ fun _ ↦ rfl
    · rcases (storeGet env.store (some q) key o.now .enough s₁.store).1 <;> rfl
    · rw [hcurrent, hcur]
      exact hvalue

/-! ## nginx -/

theorem getIndexedVariable_of_evaluated {depth : Nat} (he : (s.slots i).evaluated = true) :
    getIndexedVariable env o depth s i = (some i, s) := by
  rcases depth with _ | depth <;> rw [getIndexedVariable, if_pos he]

theorem getIndexedVariable_of_keyval {depth : Nat} (he : (s.slots i).evaluated = false)
    {data : Option Variable} (hi : env.indexed i = .keyval data) :
    getIndexedVariable env o (depth + 1) s i =
      let s' := variableGetHandler env (getIndexedVariable env o depth) o data i s
      (some i, s'.setSlot i { s'.slots i with noCacheable := true }) := by
  rw [getIndexedVariable, if_neg (by simp [he])]
  simp only [hi]

theorem getIndexedVariable_of_other {depth : Nat} (he : (s.slots i).evaluated = false)
    {value : Option Bytes} (hi : env.indexed i = .other value) :
    getIndexedVariable env o (depth + 1) s i = (some i, s.setSlot i (.ofValue value)) := by
  rw [getIndexedVariable, if_neg (by simp [he])]
  simp only [hi]

/-- **Asking for a variable** that is up to date yields its value. -/
theorem getIndexedVariable_answers (hlaw : env.store.ngx.Lawful) (hc : t.Compiled env seg)
    (ho : o.Ample) {depth : Nat} (hdepth : t.rank i < depth) (h : OverTable t env seg m s)
    (hup : Cache.UpToDate t.refs (t.current m) s.cache i) :
    Answers t env seg m (getIndexedVariable env o depth) s i := by
  induction depth generalizing i s with
  | zero => omega
  | succ depth ih =>
    rcases hup with ⟨_, hcached⟩ | ⟨_, hnone, hrefs⟩
    · -- the slot answers
      have hrun := @getIndexedVariable_of_evaluated _ _ env s i o (depth + 1)
        (cache_eq_some.mp hcached).1
      exact ⟨by rw [hrun], by rw [hrun]; exact h, by rw [hrun]; exact Cache.Fills.refl _,
        by rw [hrun]; exact hcached⟩
    · have he := cache_eq_none.mp hnone
      rcases htext : t.key i with _ | text
      · -- a variable of another module
        have hrun := @getIndexedVariable_of_other _ _ env s i o depth he _ (hc.other i htext)
        have hshown : (VariableValue.ofValue (t.other i)).evaluated ∧
            (VariableValue.ofValue (t.other i)).value? = t.current m i := by
          rw [Templates.current_of_other htext]
          rcases t.other i <;> exact ⟨rfl, rfl⟩
        obtain ⟨hover, hfills, hvalue⟩ := h.fill hnone (Cache.Fills.refl _) hshown.1 hshown.2
          fun hkey ↦ absurd htext hkey
        exact ⟨by rw [hrun], by rw [hrun]; exact hover, by rw [hrun]; exact hfills,
          by rw [hrun]; exact hvalue⟩
      · have hbelow : ∀ j ∈ t.refs i, t.rank j < depth := fun j hj ↦ by
          have := Templates.rank_lt_of_mem_refs hj
          omega
        obtain ⟨v, hv, hover, hfills, hvalue⟩ := variableGetHandler_spec hlaw hc ho htext
          (fun j hj s hs hups ↦ ih (hbelow j hj) hs hups) h hnone hrefs
        have hrun := @getIndexedVariable_of_keyval _ _ env s i o depth he _ hv
        exact ⟨by rw [hrun], by rw [hrun]; exact hover, by rw [hrun]; exact hfills,
          by rw [hrun]; exact hvalue⟩

end

end NgxKeyval
