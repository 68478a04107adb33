import NgxKeyval.Conf.Captured
import NgxKeyval.Conf.Served
import NgxKeyval.Module.Slots
import NgxKeyval.Redis.Server
import NgxKeyval.Shm.PlainCore

/-!
# Variables whose keys are made of each other

The key of a variable is expanded with what the slots hold.  A write goes to the store and leaves
the slots alone, so a slot may hold a value that is not there any more, and a key made of it is not
the current one.

* `Templates.Describes` says of a set of variables that `keyval` directives define it, and
  `compiled_of_accepted` that requests then find it compiled.
* `accessStep` is an access of a request that also says which key its handler uses.
* `Fresh` says of an access that the variables its key is made of are up to date.
* `chained_keys_current` — as long as every access is fresh, every access uses the current key.
* `chained_key_stale` — a variable that is written after it has been used in a key is enough for a
  write to go to an old one.
-/

set_option autoImplicit false

namespace NgxKeyval

/-! ## The directives -/

/-- The key of the last `keyval` directive for an nginx variable. -/
def templateOf (tag : Tag) (ds : List (Tag × Directive)) (n : Nat) : Option Bytes :=
  ds.reverse.findSome? fun
    | (t, .keyval k) => if t = tag ∧ k.slot = some n then some k.key else none
    | _ => none

/-- The directives of a module define these variables, and nginx numbers variables like this. -/
structure Templates.Describes (t : Templates) (tag : Tag) (ds : List (Tag × Directive)) : Prop where
  key : ∀ n, t.key n = templateOf tag ds n
  index : ∀ k asked name i, (tag, .keyval k) ∈ ds → k.getIndex asked name = some i →
    i = t.indexOf name

/-- A module has one zone, in the shared memory of this segment, and it has no `ttl`. -/
structure SingleZone (ngx : NgxConf) (shared : Segments) (ds : List (Tag × Directive)) (tag : Tag)
    (seg : Nat) : Prop where
  declared : ∃ d, declared ngx tag ds = [d] ∧ d.type = .shm ∧
    segmentOf (readConf ngx (.init shared) ds).shared d.name = some seg
  ttl : (readConf ngx (.init shared) ds).shared[seg]?.bind ShmSegment.data = some 0

/-- What the requests of a module find; `other` has the values of variables of other modules. -/
def Cycle.requestEnv {w : Nat} {σ : Type} (c : Cycle) (tag : Tag) (core : NgxCore w)
    (hiredis : Hiredis σ) (other : Nat → Option Bytes) : RequestEnv w σ where
  store := c.env tag core hiredis
  indexed n :=
    match c.variable tag n with
    | some v => .keyval (some v)
    | none => .other (other n)

section

variable {ngx : NgxConf} {shared : Segments} {ds : List (Tag × Directive)} {tag : Tag} {seg n : Nat}
  {text : Bytes} {t : Templates}

theorem exists_keyval_of_templateOf (h : templateOf tag ds n = some text) :
    ∃ pre k post, ds = pre ++ (tag, .keyval k) :: post ∧ k.slot = some n ∧ NotDefined tag n post ∧
      k.key = text := by
  obtain ⟨post, d, pre, hds, hd, hnone⟩ := List.findSome?_eq_some_iff.mp h
  obtain ⟨t, _ | _ | k⟩ := d
  · cases hd
  · cases hd
  · simp only [Option.ite_none_right_eq_some, Option.some.injEq] at hd
    obtain ⟨⟨rfl, hslot⟩, hkey⟩ := hd
    refine ⟨pre.reverse, k, post.reverse, ?_, hslot, ?_, hkey⟩
    · rw [← List.reverse_inj, hds]
      simp
    · rintro ⟨t', e⟩ he rfl hs
      rcases e with _ | _ | k'
      · cases hs
      · cases hs
      · have hk' : k'.slot = some n := hs
        have hnot := hnone _ (List.mem_reverse.mp he)
        simp only [true_and] at hnot
        rw [if_pos hk'] at hnot
        cases hnot

theorem templateOf_ne_none {pre post : List (Tag × Directive)} {k : Keyval}
    (hslot : k.slot = some n) : templateOf tag (pre ++ (tag, .keyval k) :: post) n ≠ none := by
  intro hnone
  have hnot := List.findSome?_eq_none_iff.mp hnone (tag, .keyval k) (by simp)
  simp only [true_and] at hnot
  rw [if_pos hslot] at hnot
  cases hnot

/-- **Requests find the variables compiled**, with the one zone. -/
theorem compiled_of_accepted {w : Nat} {σ : Type} (hlaw : ngx.Lawful)
    (hacc : Accepted ngx (.init shared) ds) (hzone : SingleZone ngx shared ds tag seg)
    (ht : t.Describes tag ds) (core : NgxCore w) (hiredis : Hiredis σ) :
    t.Compiled ((readConf ngx (.init shared) ds).requestEnv tag core hiredis t.other) seg where
  keyval i text htext := by
    rw [ht.key] at htext
    obtain ⟨pre, k, post, rfl, hslot, hpost, rfl⟩ := exists_keyval_of_templateOf htext
    obtain ⟨j, decl, keyString, indexes, hdecl, -, hcompile, hvar, hat⟩ :=
      variable_of_keyval hlaw hacc hslot hpost
    obtain ⟨hks, hnames⟩ := compileKey_ok hcompile
    -- the zone is the only one
    obtain ⟨⟨d, hd, htype, hseg⟩, httl⟩ := hzone
    have hmem : decl ∈ declared ngx tag (pre ++ (tag, .keyval k) :: post) := by
      rw [declared_append]
      exact List.mem_append_left _ (List.mem_of_getElem? hdecl)
    obtain rfl : decl = d := by
      rw [hd] at hmem
      exact List.mem_singleton.mp hmem
    have hindexed : ((readConf ngx (.init shared) (pre ++ (tag, .keyval k) :: post)).requestEnv
        tag core hiredis t.other).indexed i = .keyval (some ⟨indexes, keyString, k.var.drop 1,
          some ⟨(readConf ngx (.init shared) pre).block tag, j⟩⟩) := by
      simp only [Cycle.requestEnv, hvar]
    refine ⟨_, _, hindexed, hks, ?_, rfl, ?_, ?_, httl⟩
    · have hix : indexes = (references k.key).map t.indexOf := by
        refine List.forall₂_eq_eq_eq ▸ ?_
        rw [List.forall₂_map_right_iff]
        exact hnames.imp fun i name ⟨asked, hi⟩ ↦ ht.index k asked name i (by simp) hi
      rw [Templates.refs_of_key ((ht.key i).trans htext)]
      exact hix
    · exact (hat.describes_env core hiredis).store.trans (by rw [htype]; rfl)
    · obtain ⟨zs, hzs, -, -, hshm⟩ := hat
      obtain ⟨seg', hseg', hof⟩ := hshm htype
      obtain rfl := Option.some.inj (hof.symm.trans hseg)
      simp only [Cycle.requestEnv, Cycle.env, hzs, Option.elim_some]
      exact hseg'
  other i hi := by
    have hdata : (readConf ngx (.init shared) ds).data tag i = none := by
      by_contra hsome
      obtain ⟨pre, k, post, rfl, hslot, -⟩ := exists_keyval_of_data hacc hsome
      exact templateOf_ne_none hslot ((ht.key i).symm.trans hi)
    simp only [Cycle.requestEnv, Cycle.variable, hdata, Option.bind_none]

end

/-! ## The accesses -/

/-- The variable an access is of. -/
def RequestAccess.index : RequestAccess → Nat
  | .read i => i
  | .write i _ => i

section

variable {w : Nat} {σ : Type}

/-- The key the handlers of a variable use. -/
def handlerKey (getVariable : Request w σ → Nat → Option Nat × Request w σ) (o : RequestInput w) :
    IndexedVariable → Request w σ → Option Bytes
  | .keyval data, s => (variableInit getVariable o data s).1.map Prod.fst
  | .other _, _ => none

/-- The key an access uses, if it has one. -/
def accessKey (env : RequestEnv w σ) (depth : Nat) (s : Request w σ) :
    RequestInput w × RequestAccess → Option Bytes
  | (o, .read i) =>
    handlerKey (getIndexedVariable env o (depth - 1)) o (env.indexed i) (s.flush i)
  | (o, .write i _) => handlerKey (getIndexedVariable env o depth) o (env.indexed i) s

/-- One access, with the key it uses. -/
def accessStep (env : RequestEnv w σ) (depth : Nat) (s : Request w σ)
    (a : RequestInput w × RequestAccess) : (Option Bytes × Option Bytes) × Request w σ :=
  ((accessKey env depth s a, (requestStep env depth s a).1), (requestStep env depth s a).2)

/-- The variables that the key of an access is made of are up to date: each of them has its value in
its slot, or an empty slot and a key that is made of such variables in turn. -/
def Fresh (t : Templates) (seg : Nat) (s : Request w σ)
    (a : RequestInput w × RequestAccess) : Prop :=
  ∀ j ∈ t.refs a.2.index, Cache.UpToDate t.refs (t.current (s.table seg)) s.cache j

variable {t : Templates} {env : RequestEnv w σ} {seg depth : Nat} {m : Table} {s : Request w σ}
  {a : RequestInput w × RequestAccess}

/-- **A fresh read** uses the current key, and returns the value. -/
theorem accessStep_read (hlaw : env.store.ngx.Lawful) (hc : t.Compiled env seg)
    (hdepth : ∀ i, t.rank i < depth) {o : RequestInput w} {i : Nat} (ho : o.Ample)
    (hkey : t.key i ≠ none) (h : OverTable t env seg m s) (hfresh : Fresh t seg s (o, .read i)) :
    (accessStep env depth s (o, .read i)).1 = (t.currentKey m i, t.current m i) ∧
      OverTable t env seg m (accessStep env depth s (o, .read i)).2 := by
  obtain ⟨text, htext⟩ := Option.ne_none_iff_exists'.mp hkey
  rw [Fresh, h.table] at hfresh
  obtain ⟨hflush, hempty, hother⟩ := h.flush hkey
  -- emptying the slot of the variable does not matter for those below
  have hup : ∀ j ∈ t.refs i, Cache.UpToDate t.refs (t.current m) (s.flush i).cache j := by
    intro j hj
    refine (hfresh j hj).of_rank (fun _ _ ↦ Templates.rank_lt_of_mem_refs) fun k hk ↦ hother k ?_
    rintro rfl
    exact absurd (Templates.rank_lt_of_mem_refs hj) (Nat.not_lt.mpr hk)
  obtain ⟨v, q, hv, -, hinit, -⟩ := variableInit_spec hc ho htext
    (fun j hj s hs hups ↦ getIndexedVariable_answers hlaw hc ho (Nat.lt_of_lt_of_le
      (Templates.rank_lt_of_mem_refs hj) (Nat.le_sub_one_of_lt (hdepth i))) hs hups)
    hflush hup
  have hread := getIndexedVariable_answers hlaw hc ho (hdepth i) hflush (.computed i hempty hup)
  obtain ⟨-, hvalue⟩ := cache_eq_some.mp hread.value
  refine ⟨?_, hread.after⟩
  simp only [accessStep, accessKey, handlerKey, hv, hinit, requestStep, getFlushedVariable,
    hread.index, Option.bind_some, hvalue, Option.map_map]
  rw [show (Prod.fst ∘ fun key : Bytes ↦ (key, q)) = id from rfl, Option.map_id, id_eq]

/-- **A fresh write** uses the current key, and binds it; the variables its key is made of are in
their slots then, if there is a key. -/
theorem accessStep_write (hlaw : env.store.ngx.Lawful) (hc : t.Compiled env seg)
    (hdepth : ∀ i, t.rank i < depth) {o : RequestInput w} {i : Nat} {val : Bytes} (ho : o.Ample)
    (hkey : t.key i ≠ none) (h : OverTable t env seg m s)
    (hfresh : Fresh t seg s (o, .write i val)) :
    (accessStep env depth s (o, .write i val)).1 = (t.currentKey m i, none) ∧
      OverTable t env seg (t.step m (.write i val)).2 (accessStep env depth s (o, .write i val)).2 ∧
      (t.currentKey m i ≠ none → ∀ j ∈ t.refs i,
        (accessStep env depth s (o, .write i val)).2.cache j = some (t.current m j)) := by
  obtain ⟨text, htext⟩ := Option.ne_none_iff_exists'.mp hkey
  rw [Fresh, h.table] at hfresh
  obtain ⟨v, q, hv, hshm, hinit, hover, -, hcached⟩ := variableInit_spec hc ho htext
    (fun j hj s hs hups ↦ getIndexedVariable_answers hlaw hc ho (hdepth j) hs hups) h hfresh
  rcases hrun : variableInit (getIndexedVariable env o depth) o (some v) s with ⟨r, s₁⟩
  rw [hrun] at hinit hover hcached
  obtain rfl : r = _ := hinit
  simp only [accessStep, accessKey, handlerKey, requestStep, variableSetHandler, Templates.step, hv,
    hrun]
  rcases hcur : t.currentKey m i with _ | key
  · exact ⟨rfl, hover, fun hne ↦ absurd rfl hne⟩
  · simp only [Option.map_some, ho.access]
    exact ⟨trivial, storeSet_overTable hlaw hshm hover key (lenBits val) o.now,
      fun _ ↦ hcached (by rw [hcur]; exact Option.some_ne_none key)⟩

/-- **A fresh access** uses the current key, and does to the request what it does to the table. -/
theorem accessStep_fresh (hlaw : env.store.ngx.Lawful) (hc : t.Compiled env seg)
    (hdepth : ∀ i, t.rank i < depth) (ho : a.1.Ample) (hkey : t.key a.2.index ≠ none)
    (h : OverTable t env seg m s) (hfresh : Fresh t seg s a) :
    (accessStep env depth s a).1 = (t.step m a.2).1 ∧
      OverTable t env seg (t.step m a.2).2 (accessStep env depth s a).2 := by
  obtain ⟨o, i | ⟨i, val⟩⟩ := a
  · exact accessStep_read hlaw hc hdepth ho hkey h hfresh
  · obtain ⟨hout, hover, -⟩ := accessStep_write hlaw hc hdepth ho hkey h hfresh
    exact ⟨hout, hover⟩

/-- **A value that is written is read back**, by a read that is fresh too. -/
theorem read_of_write (hlaw : env.store.ngx.Lawful) (hc : t.Compiled env seg)
    (hdepth : ∀ i, t.rank i < depth) {o o' : RequestInput w} {i : Nat} {val : Bytes} (ho : o.Ample)
    (ho' : o'.Ample) (hkey : t.key i ≠ none) (h : OverTable t env seg m s)
    (hwrite : Fresh t seg s (o, .write i val))
    (hread : Fresh t seg (accessStep env depth s (o, .write i val)).2 (o', .read i))
    (hused : accessKey env depth s (o, .write i val) ≠ none) :
    (accessStep env depth (accessStep env depth s (o, .write i val)).2 (o', .read i)).1.2 =
      some (lenBits val) := by
  obtain ⟨hout, hover, hcached⟩ := accessStep_write hlaw hc hdepth ho hkey h hwrite
  obtain ⟨hout', -⟩ := accessStep_read hlaw hc hdepth ho' hkey hover hread
  obtain ⟨text, htext⟩ := Option.ne_none_iff_exists'.mp hkey
  have hused' : accessKey env depth s (o, .write i val) = t.currentKey m i := congrArg Prod.fst hout
  rw [hused'] at hused
  obtain ⟨key, hcur⟩ := Option.ne_none_iff_exists'.mp hused
  rw [hout']
  rw [Fresh, hover.table] at hread
  simp only [Templates.step, hcur] at hread ⊢
  refine Templates.current_update htext hcur fun j hj ↦ ?_
  -- the slot has the value from before the write, and is up to date after it
  rcases hread j hj with ⟨_, hvalue⟩ | ⟨_, hnone, -⟩
  · rw [hcached hused j hj] at hvalue
    exact (Option.some.inj hvalue).symm
  · rw [hcached hused j hj] at hnone
    cases hnone

end

/-! ## The requests -/

section

variable {ngx : NgxConf} {shared : Segments} {ds : List (Tag × Directive)} {tag : Tag}
  {seg depth w : Nat} {σ : Type} {core : NgxCore w} {t : Templates}

/-- **When every access uses the current key.**  A module whose variables are kept in one shared
memory zone without a `ttl`, their keys made of each other without a cycle, and a request that runs
alone, with memory that does not run out.  As long as every access finds the slots of the variables
its key is made of up to date, the accesses of the request use the keys, return the values and leave
the table that the directives say; and what is written through a variable is what the next read of
it returns. -/
theorem chained_keys_current (hngx : ngx.Lawful) (hcore : core.Lawful) (hiredis : Hiredis σ)
    (hacc : Accepted ngx (.init shared) ds) (hzone : SingleZone ngx shared ds tag seg)
    (ht : t.Describes tag ds) (hdepth : ∀ i, t.rank i < depth) {store : StoreState w σ}
    (hwf : (store.shm seg).WF core)
    (hstays : ∀ k val d, content (store.shm seg) k = some (val, d) → d = 0)
    {accesses : List (RequestInput w × RequestAccess)}
    (hin : ∀ a ∈ accesses, a.1.Ample ∧ t.key a.2.index ≠ none)
    (hfresh : Machine.Meets (Fresh t seg)
      (accessStep ((readConf ngx (.init shared) ds).requestEnv tag core hiredis t.other) depth)
      (.new store) accesses) :
    let env := (readConf ngx (.init shared) ds).requestEnv tag core hiredis t.other
    let run := Machine.final (accessStep env depth) (.new store)
    let table := (Request.new store).table seg
    Machine.outputs (accessStep env depth) (.new store) accesses =
        Machine.outputs (fun m a ↦ t.step m a.2) table accesses ∧
      (run accesses).table seg = Machine.final (fun m a ↦ t.step m a.2) table accesses ∧
      ∀ pre o i val o' post, accesses = pre ++ (o, .write i val) :: (o', .read i) :: post →
        accessKey env depth (run pre) (o, .write i val) ≠ none →
          (accessStep env depth (run (pre ++ [(o, .write i val)])) (o', .read i)).1.2 =
            some (lenBits val) := by
  intro env run table
  have hc : t.Compiled env seg := compiled_of_accepted hngx hacc hzone ht core hiredis
  have hsim : ∀ s m (a : RequestInput w × RequestAccess), OverTable t env seg m s →
      ((a.1.Ample ∧ t.key a.2.index ≠ none) ∧ Fresh t seg s a) →
      (accessStep env depth s a).1 = (t.step m a.2).1 ∧
        OverTable t env seg (t.step m a.2).2 (accessStep env depth s a).2 :=
    fun s m a h ⟨⟨ho, hkey⟩, hf⟩ ↦ accessStep_fresh hcore hc hdepth ho hkey h hf
  have hstart : OverTable t env seg table (.new store) := overTable_new hwf hstays
  have hmeets : Machine.Meets (fun s a ↦ (a.1.Ample ∧ t.key a.2.index ≠ none) ∧ Fresh t seg s a)
      (accessStep env depth) (.new store) accesses :=
    (Machine.meets_of_forall fun _ a ha ↦ hin a ha).and hfresh
  obtain ⟨houts, hfinal⟩ :=
    Machine.simulation _ (fun s m ↦ OverTable t env seg m s) hsim hstart hmeets
  refine ⟨houts, hfinal.table, ?_⟩
  rintro pre o i val o' post rfl hused
  obtain ⟨hpre, ⟨⟨ho, hkey⟩, hwrite⟩, ⟨⟨ho', -⟩, hread⟩, -⟩ := Machine.meets_append.mp hmeets
  obtain ⟨-, hover⟩ := Machine.simulation _ (fun s m ↦ OverTable t env seg m s) hsim hstart hpre
  rw [show run (pre ++ [(o, .write i val)]) =
    (accessStep env depth (run pre) (o, .write i val)).2 from Machine.final_append ..]
  exact read_of_write hcore hc hdepth ho ho' hkey hover hwrite hread hused

end

/-- How nginx numbers the two variables. -/
def chainIndex (name : Bytes) : Nat := if name = lit "a" then 0 else 1

/-- The variable `$a` under the key `k`, and the variable `$b` under the value of `$a`. -/
def chain : List (Tag × Directive) :=
  [(.http, .zone (lit "zone=z:65536") [] (.plain .move)),
    (.http, .keyval (plainKeyval "k" "$a" "zone=z" 0 .move)),
    (.http, .keyval { plainKeyval "$a" "$b" "zone=z" 1 .move with
      getIndex := fun _ name ↦ some (chainIndex name) })]

theorem chain_accepted : Accepted plainConf (.init []) chain :=
  ⟨by decide, by decide, by decide, trivial⟩

theorem chain_singleZone : SingleZone plainConf [] chain .http 0 :=
  ⟨⟨⟨lit "z", .shm, redisDefault⟩, by decide, rfl, by decide⟩, by decide⟩

theorem references_chain :
    references (lit "k") = [] ∧ references (lit "$a") = [lit "a"] := by
  rw [show lit "k" = [107] from rfl, show lit "$a" = [36, 97] from rfl, references, references]
  simp [tokenize, dollar, isNameChar, lit]

/-- The two variables. -/
def chainTemplates : Templates where
  key n := templateOf .http chain n
  other _ := none
  indexOf := chainIndex
  rank n := if n = 1 then 1 else 0
  acyclic := by
    intro i text htext name hname
    obtain ⟨pre, k, post, hds, hslot, -, rfl⟩ := exists_keyval_of_templateOf htext
    have hmem : (Tag.http, Directive.keyval k) ∈ chain := by rw [hds]; simp
    simp only [chain, List.mem_cons, List.not_mem_nil, or_false, Prod.mk.injEq, reduceCtorEq,
      and_false, false_or, true_and, Directive.keyval.injEq] at hmem
    rcases hmem with rfl | rfl
    · rw [plainKeyval, references_chain.1] at hname
      cases hname
    · rw [plainKeyval, references_chain.2, List.mem_singleton] at hname
      obtain rfl := Option.some.inj hslot
      rw [hname]
      decide

theorem chainTemplates_describes : chainTemplates.Describes .http chain where
  key _ := rfl
  index k asked name i hmem hi := by
    simp only [chain, List.mem_cons, List.not_mem_nil, or_false, Prod.mk.injEq, reduceCtorEq,
      and_false, false_or, true_and, Directive.keyval.injEq] at hmem
    rcases hmem with rfl | rfl
    · cases hi
    · exact (Option.some.inj hi).symm

/-- What the requests of the module find. -/
def chainEnv : RequestEnv 64 Server :=
  (readConf plainConf (.init []) chain).requestEnv .http (plainCore 64) serverHiredis fun _ ↦ none

/-- A request that starts on an empty store. -/
def chainRequest : Request 64 Server := .new ⟨fun _ ↦ ⟨.leaf, ⟨[], 0, []⟩⟩, .new .empty⟩

/-- An access, with enough memory. -/
def plainAccess (a : RequestAccess) : RequestInput 64 × RequestAccess :=
  (⟨0, true, true, .enough⟩, a)

theorem chainTemplates_rank (i : Nat) : chainTemplates.rank i < 100 := by
  show (if i = 1 then 1 else 0) < 100
  split <;> omega

theorem chain_current (m : Table) :
    chainTemplates.currentKey m 0 = some (lit "k") ∧
      chainTemplates.current m 0 = (m (lit "k")).map lenBits := by
  have htext : chainTemplates.key 0 = some (lit "k") := by rfl
  have hkey : chainTemplates.currentKey m 0 = some (lit "k") := by
    rw [Templates.currentKey, htext, Option.bind_some, expandKey, references_chain.1,
      if_pos (by simp)]
    simp [substitute, tokenize, dollar, lit]
  exact ⟨hkey, by rw [Templates.current_of_key htext, hkey, Option.bind_some]⟩

theorem chain_current_one (m : Table) :
    chainTemplates.currentKey m 1 = (m (lit "k")).map lenBits ∧
      chainTemplates.current m 1 = (((m (lit "k")).map lenBits).bind m).map lenBits := by
  have htext : chainTemplates.key 1 = some (lit "$a") := by rfl
  have hindex : chainTemplates.indexOf [97] = 0 := by decide
  have hkey : chainTemplates.currentKey m 1 = (m (lit "k")).map lenBits := by
    rw [Templates.currentKey, htext, Option.bind_some, expandKey, references_chain.2,
      show lit "a" = [97] from rfl]
    simp only [List.mem_singleton, forall_eq, hindex, (chain_current m).2]
    rcases hval : (m (lit "k")).map lenBits with _ | b
    · rw [if_neg (by simp)]
    · rw [if_pos (by simp), show lit "$a" = [36, 97] from rfl, substitute]
      simp [tokenize, dollar, isNameChar, hindex, chain_current, hval]
  exact ⟨hkey, by rw [Templates.current_of_key htext, hkey]⟩

theorem chain_refs : chainTemplates.refs 0 = [] ∧ chainTemplates.refs 1 = [0] := by
  rw [Templates.refs_of_key (by rfl : chainTemplates.key 0 = some (lit "k")),
    Templates.refs_of_key (by rfl : chainTemplates.key 1 = some (lit "$a")), references_chain.1,
    references_chain.2]
  decide

/-- `$a` is set, and then `$b` is set and read. -/
def freshRun : List (RequestInput 64 × RequestAccess) :=
  [plainAccess (.write 0 (lit "x")), plainAccess (.write 1 (lit "v")), plainAccess (.read 1)]

/-- The condition at work: the slot of `$a` is filled in once it has the value it keeps. -/
theorem chained_keys_current_chain :
    Machine.outputs (accessStep chainEnv 100) chainRequest freshRun =
        Machine.outputs (fun m a ↦ chainTemplates.step m a.2) (chainRequest.table 0) freshRun ∧
      (accessStep chainEnv 100 (Machine.final (accessStep chainEnv 100) chainRequest
        [plainAccess (.write 0 (lit "x")), plainAccess (.write 1 (lit "v"))])
          (plainAccess (.read 1))).1.2 = some (lit "v") := by
  have hin : ∀ a ∈ freshRun, a.1.Ample ∧ chainTemplates.key a.2.index ≠ none := by
    intro a ha
    simp only [freshRun, List.mem_cons, List.not_mem_nil, or_false] at ha
    rcases ha with rfl | rfl | rfl <;> exact ⟨⟨rfl, rfl, rfl⟩, by decide⟩
  have hfresh : Machine.Meets (Fresh chainTemplates 0) (accessStep chainEnv 100) chainRequest
      freshRun := by
    refine ⟨fun j hj ↦ ?_, fun j hj ↦ ?_, fun j hj ↦ ?_, trivial⟩
    · rw [show (plainAccess (.write 0 (lit "x"))).2.index = 0 from rfl, chain_refs.1] at hj
      cases hj
    · -- the slot is empty, and its key is made of nothing
      rw [show (plainAccess (.write 1 (lit "v"))).2.index = 1 from rfl, chain_refs.2] at hj
      obtain rfl := List.mem_singleton.mp hj
      refine .computed 0 (by decide) fun k hk ↦ ?_
      rw [chain_refs.1] at hk
      cases hk
    · -- the slot has been filled in by the write
      rw [show (plainAccess (.read 1)).2.index = 1 from rfl, chain_refs.2] at hj
      obtain rfl := List.mem_singleton.mp hj
      refine .cached 0 ?_
      rw [(chain_current _).2]
      decide
  obtain ⟨houts, -, hread⟩ := chained_keys_current plainConf_lawful (plainCore_lawful 64)
    serverHiredis chain_accepted chain_singleZone chainTemplates_describes chainTemplates_rank
    (wf_leaf _) (fun _ _ _ h ↦ by cases h) hin hfresh
  exact ⟨houts, hread [plainAccess (.write 0 (lit "x"))] _ 1 (lit "v") _ [] rfl (by decide)⟩

/-- `$a` is set, `$b` is read, `$a` is set again, and `$b` is set; then both are read. -/
def staleRun : List (RequestInput 64 × RequestAccess) :=
  [plainAccess (.write 0 (lit "x")), plainAccess (.read 1), plainAccess (.write 0 (lit "y")),
    plainAccess (.write 1 (lit "v")), plainAccess (.read 0), plainAccess (.read 1)]

/-- **A write to an old key.**  The slot of `$a` still has the first value when `$b` is set, so the
value of `$b` goes to the key that `$b` had before; once `$a` has been read, it is not found. -/
theorem chained_key_stale :
    Accepted plainConf (.init []) chain ∧ SingleZone plainConf [] chain .http 0 ∧
      chainTemplates.Describes .http chain ∧ (∀ i, chainTemplates.rank i < 100) ∧
      (∀ a ∈ staleRun, a.1.Ample ∧ chainTemplates.key a.2.index ≠ none) ∧
      Machine.outputs (accessStep chainEnv 100) chainRequest staleRun =
        [(some (lit "k"), none), (some (lit "x"), none), (some (lit "k"), none),
          (some (lit "x"), none), (some (lit "k"), some (lit "y")), (some (lit "y"), none)] ∧
      Machine.outputs (fun m a ↦ chainTemplates.step m a.2) (chainRequest.table 0) staleRun =
        [(some (lit "k"), none), (some (lit "x"), none), (some (lit "k"), none),
          (some (lit "y"), none), (some (lit "k"), some (lit "y")),
          (some (lit "y"), some (lit "v"))] := by
  refine ⟨chain_accepted, chain_singleZone, chainTemplates_describes, chainTemplates_rank, ?_,
    by decide, ?_⟩
  · intro a ha
    simp only [staleRun, List.mem_cons, List.not_mem_nil, or_false] at ha
    rcases ha with rfl | rfl | rfl | rfl | rfl | rfl <;> exact ⟨⟨rfl, rfl, rfl⟩, by decide⟩
  · have hempty : chainRequest.table 0 = fun _ ↦ none := rfl
    rw [hempty]
    have hbits : ∀ c : UInt8, lenBits [c] = [c] := fun c ↦ rfl
    simp [staleRun, plainAccess, Machine.outputs, Templates.step, chain_current, chain_current_one,
      lit, hbits, Function.update_apply]

end NgxKeyval
