import NgxKeyval.System.Configured
import NgxKeyval.System.Program

/-!
# The module interprets its configuration

What is compiled from the directives, kept in trees and on servers, and evaluated through slots, is
the program that the directives are.

* `Program.Means` says that a program is what requests find compiled, and `means_of_accepted` that
  the program of an accepted configuration is.
* `Request.Remembers` says that the slots of a request hold what is remembered.
* `getIndexedVariable_ask` — then asking for a variable is evaluating it.
* `requestStep_read` and `requestStep_write` — and an access is an access of the program.
* `nginxStep_interp` and `nginx_interprets` — so that all that can be seen of nginx is what the
  program says.
-/

set_option autoImplicit false

namespace NgxKeyval

/-! ## What is compiled -/

/-- Requests find this program, compiled. -/
structure Program.Means {w : Nat} {σ : Type} (p : Program) (env : RequestEnv w σ) : Prop where
  /-- A variable of the module has its compiled key, and the record of its zone. -/
  keyval : ∀ i key zone, p.meaning i = .keyval key zone → ∃ v q, env.indexed i = .keyval (some v) ∧
    v.keyString = (tokenize key).map Token.mark ∧ v.indexes = (references key).map p.indexOf ∧
    v.zone = some q ∧ env.store.spec q = zone
  /-- Another variable has its value. -/
  other : ∀ i value, p.meaning i = .other value → env.indexed i = .other value

section

variable {ngx : NgxConf} {ds : List (Tag × Directive)} {shared : Segments}
  {indexOf : Tag → Bytes → Nat} {other : Tag → Nat → Option Bytes} {tag : Tag}

end

/-! ## What is remembered -/

/-- The slots of a request hold what is remembered.  Those of other modules can be used again when
their variable is read. -/
structure Request.Remembers {w : Nat} {σ : Type} (env : RequestEnv w σ) (s : Request w σ)
    (memo : Memo) : Prop where
  cache : ∀ i, s.cache i = memo i
  cacheable : ∀ i value, env.indexed i = .other value → (s.slots i).evaluated →
    (s.slots i).noCacheable = false

section

variable {w : Nat} {σ : Type} {env : RequestEnv w σ} {s s' : Request w σ} {memo : Memo} {i : Nat}
  {o : RequestInput w} {getVariable : Request w σ → Nat → Option Nat × Request w σ}
  {data : Option Variable}

theorem Request.Remembers.of_slots (h : s.Remembers env memo) (hs : s'.slots = s.slots) :
    s'.Remembers env memo where
  cache i := by
    rw [Request.cache, hs]
    exact h.cache i
  cacheable := by
    rw [hs]
    exact h.cacheable

theorem Request.Remembers.fill (h : s.Remembers env memo) (i : Nat) {v : VariableValue}
    (he : v.evaluated) (hno : ∀ value, env.indexed i = .other value → v.noCacheable = false) :
    (s.setSlot i v).Remembers env (Function.update memo i (some v.value?)) where
  cache j := by
    by_cases hji : j = i
    · subst hji
      rw [Function.update_self, cache_eq_some, slots_setSlot_self]
      exact ⟨he, rfl⟩
    · rw [Function.update_of_ne hji, cache_setSlot_of_ne hji]
      exact h.cache j
  cacheable :=
    (Function.forall_update_iff s.slots fun j v ↦
      ∀ value, env.indexed j = .other value → v.evaluated → v.noCacheable = false).mpr
      ⟨fun value hi _ ↦ hno value hi, fun j _ ↦ h.cacheable j⟩

/-- A variable that is read is forgotten first, if it is one of this module. -/
theorem Request.Remembers.flush (h : s.Remembers env memo)
    (hno : (s.slots i).evaluated → (s.slots i).noCacheable) :
    (s.flush i).Remembers env (Function.update memo i none) := by
  rw [Request.flush]
  split
  · constructor
    · intro j
      by_cases hji : j = i
      · subst hji
        rw [Function.update_self, cache_eq_none, slots_setSlot_self]
        rfl
      · rw [Function.update_of_ne hji, cache_setSlot_of_ne hji]
        exact h.cache j
    · exact (Function.forall_update_iff s.slots fun j v ↦
        ∀ value, env.indexed j = .other value → v.evaluated → v.noCacheable = false).mpr
        ⟨fun _ _ he ↦ absurd he Bool.false_ne_true, fun j _ ↦ h.cacheable j⟩
  · rename_i hdrop
    have hempty : s.cache i = none := by
      rw [cache_eq_none, ← Bool.not_eq_true]
      exact fun he ↦ hdrop (by rw [he, hno he]; rfl)
    rw [Function.update_eq_self_iff.mpr ((h.cache i).symm.trans hempty).symm]
    exact h

theorem Request.Remembers.flush_other (h : s.Remembers env memo) {value : Option Bytes}
    (hi : env.indexed i = .other value) : s.flush i = s := by
  rw [Request.flush, if_neg]
  intro hdrop
  obtain ⟨he, hno⟩ := Bool.and_eq_true_iff.mp hdrop
  exact Bool.false_ne_true ((h.cacheable i value hi he).symm.trans hno)

/-- The get handler fills in its slot, after it has expanded the key. -/
theorem slots_variableGetHandler :
    let s' := variableGetHandler env getVariable o data i s
    let s'' := s'.setSlot i { s'.slots i with noCacheable := true }
    (s''.slots i).evaluated ∧
      s''.slots = Function.update (variableInit getVariable o data s).2.slots i (s''.slots i) := by
  simp only [variableGetHandler]
  rcases variableInit getVariable o data s with ⟨_ | ⟨key, q⟩, s'⟩
  · simp only [setSlot_setSlot, slots_setSlot_self]
    exact ⟨rfl, rfl⟩
  · simp only [setSlot_setSlot, slots_setSlot_self]
    exact ⟨evaluated_ofResult _, rfl⟩

end

/-! ## Asking for a variable -/

section

variable {w : Nat} {σ μ : Type} {R : Request w σ → μ → Prop}
  {has : Request w σ → Nat → Bytes → Prop} {s : Request w σ} {m : μ} {o : RequestInput w}
  {getVariable : Request w σ → Nat → Option Nat × Request w σ} {ask : μ → Nat → Option Bytes × μ}
  {indexOf : Bytes → Nat} {v : Variable} {key : Bytes} {q : Ptr}

/-- The allocators have room for a key. -/
structure RequestInput.Roomy (o : RequestInput w) : Prop where
  values : o.values = true
  key : o.key = true

/-- **The key of a variable** is what its text comes to. -/
theorem variableInit_expand (h : AnswersAs R has getVariable Request.slots ask) (hR : R s m)
    (ho : o.Roomy) (hks : v.keyString = (tokenize key).map Token.mark)
    (hix : v.indexes = (references key).map indexOf) (hzone : v.zone = some q) :
    let e := expand ask indexOf (tokenize key) m
    let r := variableInit getVariable o (some v) s
    R r.2 e.2 ∧ r.1 = e.1.map (·, q) := by
  obtain ⟨hend, hresult⟩ := variableGetKey_expand h hR hks hix
  simp only [variableInit, ho.values, ho.key]
  generalize variableGetKey getVariable Request.slots v true true s = r at hend hresult
  obtain ⟨res, s'⟩ := r
  dsimp only at hend hresult
  subst hresult
  rcases hexpand : (expand ask indexOf (tokenize key) m).1 with _ | k
  · exact ⟨hend, rfl⟩
  · simp only [Option.elim_some, hzone]
    exact ⟨hend, rfl⟩

end

section

variable {core : NgxCore 64} {place : Bytes → Option (Place Int)} {share : Sharing Server}
  {envs : Tag → RequestEnv 64 Server} {tag : Tag} {p : Program} {t : ZoneTables} {now : Nat}
  {o : RequestInput 64} {s : Request 64 Server} {memo : Memo} {depth i : Nat}

/-- A request is in order over these tables, and remembers this. -/
structure Request.Follows (core : NgxCore 64) (place : Bytes → Option (Place Int))
    (env : RequestEnv 64 Server) (t : ZoneTables) (s : Request 64 Server) (memo : Memo) : Prop where
  keeps : s.Keeps (tables core place) env t
  remembers : s.Remembers env memo

/-- A request answers like the program does, looking this far down. -/
def Request.Answer (core : NgxCore 64) (place : Bytes → Option (Place Int))
    (env : RequestEnv 64 Server) (p : Program) (t : ZoneTables) (o : RequestInput 64)
    (depth : Nat) : Prop :=
  AnswersAs (Request.Follows core place env t) (fun s r b ↦ s.cache r = some (some b))
    (getIndexedVariable env o depth) Request.slots (p.ask t depth)

theorem entry_eq {env : StoreEnv 64 Server} {v : Variable} {q : Ptr} {zone : ZoneSpec}
    {r : Option (Bytes × Ptr)} {key : Option Bytes} (hr : r = key.map (·, q))
    (hq : v.zone = some q) (hspec : env.spec q = zone) :
    ((r.map Prod.fst).bind fun key ↦ ((some v).bind Variable.zone).map fun q ↦ (env.spec q, key)) =
      key.map (zone, ·) := by
  subst hr
  rw [Option.bind_some, hq]
  rcases key with _ | key
  · rfl
  · rw [← hspec]
    rfl

/-- **The get handler** looks up what the program says, and fills in its slot with what it finds. -/
theorem variableGetHandler_expand (hA : (tables core place).Sound share envs)
    (hp : p.Means (envs tag)) (ho : o.Timely (tables core place) now t) (hroom : o.Roomy)
    (hanswer : Request.Answer core place (envs tag) p t o depth) {key : Bytes} {zone : ZoneSpec}
    (hi : p.meaning i = .keyval key zone) (h : s.Follows core place (envs tag) t memo) :
    ∃ v q, (envs tag).indexed i = .keyval (some v) ∧ v.zone = some q ∧
      (envs tag).store.spec q = zone ∧
      let e := expand (p.ask t depth) p.indexOf (tokenize key) memo
      let s' := variableGetHandler (envs tag) (getIndexedVariable (envs tag) o depth) o (some v) i s
      let s'' := s'.setSlot i { s'.slots i with noCacheable := true }
      let val := (e.1.bind (t.get zone)).map lenBits
      (variableInit (getIndexedVariable (envs tag) o depth) o (some v) s).1 = e.1.map (·, q) ∧
        (s''.slots i).value? = val ∧
        s''.Follows core place (envs tag) t (Function.update e.2 i (some val)) := by
  obtain ⟨v, q, hv, hks, hix, hq, hspec⟩ := hp.keyval i key zone hi
  refine ⟨v, q, hv, hq, hspec, ?_⟩
  obtain ⟨hend, hinit⟩ := variableInit_expand hanswer h hroom hks hix hq
  obtain ⟨hkeeps, hsees⟩ := variableGetHandler_keeps hA hv ho
    (getIndexedVariable_keeps hA ho depth) h.keeps
  obtain ⟨he, hslots⟩ := @slots_variableGetHandler _ _ (envs tag) s i o
    (getIndexedVariable (envs tag) o depth) (some v)
  intro e s' s'' val
  have hval : (s''.slots i).value? = val := by
    rw [entry_eq hinit hq hspec] at hsees
    refine Eq.trans hsees ?_
    rw [Option.bind_map]
    rfl
  refine ⟨hinit, hval, hkeeps, ?_⟩
  have hfill := hend.remembers.fill i he fun value hother ↦ ?_
  · rw [← hval]
    exact hfill.of_slots hslots
  · have heq := hv.symm.trans hother
    contradiction

/-- **A request answers like the program does**, if it does so for every variable. -/
theorem answer_of_ask
    (hask : ∀ s memo i, s.Follows core place (envs tag) t memo →
      let g := getIndexedVariable (envs tag) o depth s i
      let a := p.ask t depth memo i
      g.2.Follows core place (envs tag) t a.2 ∧
        (g.1 = some i ∧ a.2 i = some a.1 ∨ g.1 = none ∧ a.1 = none)) :
    Request.Answer core place (envs tag) p t o depth where
  value s r b h := by
    obtain ⟨he, hvalue⟩ := cache_eq_some.mp h
    rw [VariableValue.value?] at hvalue
    split at hvalue
    · contradiction
    · rename_i hfound
      exact ⟨by simpa using hfound, Option.some.inj hvalue⟩
  next s memo i h := (hask s memo i h).1
  found s memo i b h hb := by
    obtain ⟨hfollows, ⟨hr, hremembered⟩ | ⟨-, hnone⟩⟩ := hask s memo i h
    · exact ⟨i, hr, by rw [hfollows.remembers.cache, hremembered, hb]⟩
    · exact absurd (hnone.symm.trans hb) (Option.some_ne_none b).symm
  missing s memo i r h hnone hr := by
    obtain ⟨hfollows, ⟨hr', hremembered⟩ | ⟨hr', -⟩⟩ := hask s memo i h
    · obtain rfl := Option.some.inj (hr'.symm.trans hr)
      have hcache := (hfollows.remembers.cache i).trans (hremembered.trans (congrArg some hnone))
      obtain ⟨-, hvalue⟩ := cache_eq_some.mp hcache
      rw [VariableValue.value?] at hvalue
      split at hvalue
      · assumption
      · contradiction
    · exact absurd (hr'.symm.trans hr) (Option.some_ne_none r).symm
  stays s memo i r b h hb := by
    rw [(hask s memo i h).1.remembers.cache]
    exact ask_remembers depth i ((h.remembers.cache r).symm.trans hb)

/-- **Asking for a variable** is evaluating it. -/
theorem getIndexedVariable_ask (hA : (tables core place).Sound share envs)
    (hp : p.Means (envs tag)) (ho : o.Timely (tables core place) now t) (hroom : o.Roomy)
    (depth : Nat) (s : Request 64 Server) (memo : Memo) (i : Nat)
    (h : s.Follows core place (envs tag) t memo) :
    let g := getIndexedVariable (envs tag) o depth s i
    let a := p.ask t depth memo i
    g.2.Follows core place (envs tag) t a.2 ∧
      (g.1 = some i ∧ a.2 i = some a.1 ∨ g.1 = none ∧ a.1 = none) := by
  induction depth generalizing s memo i with
  | zero =>
    rcases hmemo : memo i with _ | val
    · have he := cache_eq_none.mp ((h.remembers.cache i).trans hmemo)
      rw [getIndexedVariable, if_neg (by rw [he]; exact Bool.false_ne_true), Program.ask, hmemo]
      exact ⟨h, .inr ⟨rfl, rfl⟩⟩
    · obtain ⟨he, -⟩ := cache_eq_some.mp ((h.remembers.cache i).trans hmemo)
      rw [getIndexedVariable_of_evaluated he, Program.ask, hmemo]
      exact ⟨h, .inl ⟨rfl, hmemo⟩⟩
  | succ depth ih =>
    rcases hmemo : memo i with _ | val
    · have he := cache_eq_none.mp ((h.remembers.cache i).trans hmemo)
      rw [Program.ask, hmemo]
      rcases hi : p.meaning i with ⟨key, zone⟩ | value
      · obtain ⟨v, q, hv, -, -, -, hval, hfollows⟩ :=
          variableGetHandler_expand hA hp ho hroom (answer_of_ask ih) hi h
        rw [getIndexedVariable_of_keyval he hv]
        exact ⟨hfollows, .inl ⟨rfl, Function.update_self ..⟩⟩
      · have hv := hp.other i value hi
        rw [getIndexedVariable_of_other he hv]
        have hkeeps := getIndexedVariable_keeps hA ho (depth + 1) s i h.keeps
        rw [getIndexedVariable_of_other he hv] at hkeeps
        have hshown : (VariableValue.ofValue value).evaluated ∧
            (VariableValue.ofValue value).value? = value.map lenBits ∧
            (VariableValue.ofValue value).noCacheable = false := by
          rcases value with _ | val
          · exact ⟨rfl, rfl, rfl⟩
          · exact ⟨rfl, rfl, rfl⟩
        obtain ⟨hev, hvalue, hno⟩ := hshown
        have hfill := h.remembers.fill i hev fun _ _ ↦ hno
        rw [hvalue] at hfill
        exact ⟨⟨hkeeps, hfill⟩, .inl ⟨rfl, Function.update_self ..⟩⟩
    · obtain ⟨he, -⟩ := cache_eq_some.mp ((h.remembers.cache i).trans hmemo)
      rw [getIndexedVariable_of_evaluated he, Program.ask, hmemo]
      exact ⟨h, .inl ⟨rfl, hmemo⟩⟩

theorem request_answer (hA : (tables core place).Sound share envs) (hp : p.Means (envs tag))
    (ho : o.Timely (tables core place) now t) (hroom : o.Roomy) (depth : Nat) :
    Request.Answer core place (envs tag) p t o depth :=
  answer_of_ask (getIndexedVariable_ask hA hp ho hroom depth)

end

/-! ## An access -/

section

variable {core : NgxCore 64} {place : Bytes → Option (Place Int)}
  {envs : Tag → RequestEnv 64 Server} {tag : Tag} {p : Program} {t : ZoneTables} {now : Nat}
  {o : RequestInput 64} {s : Request 64 Server} {memo : Memo} {depth i : Nat}

/-- **Reading a variable** shows what the program says. -/
theorem requestStep_read (hA : (tables core place).Sound serverSharing envs)
    (hp : p.Means (envs tag)) (ho : o.Timely (tables core place) now t) (hroom : o.Roomy)
    (h : s.Follows core place (envs tag) t memo) (i : Nat) :
    observe (envs tag) (depth + 1) s (o, .read i) = (p.access t depth memo (.read i)).1 ∧
      (requestStep (envs tag) (depth + 1) s (o, .read i)).2.Remembers (envs tag)
        (p.access t depth memo (.read i)).2 := by
  rcases hi : p.meaning i with ⟨key, zone⟩ | value
  · obtain ⟨v, -, hv, -⟩ := hp.keyval i key zone hi
    have hflush : (s.flush i).Follows core place (envs tag) t (Function.update memo i none) :=
      ⟨h.keeps.flush i, h.remembers.flush (h.keeps.noCacheable i _ hv)⟩
    have he := h.keeps.evaluated_flush hv
    obtain ⟨v', q, hv', hq, hspec, hinit, hval, hfollows⟩ :=
      variableGetHandler_expand hA hp ho hroom (request_answer hA hp ho hroom depth) hi hflush
    obtain rfl : v = v' := Option.some.inj (IndexedVariable.keyval.inj (hv.symm.trans hv'))
    simp only [observe, RequestAccess.index, hv, accessKey, handlerKey, requestStep,
      getFlushedVariable, getIndexedVariable_of_keyval he hv, Nat.add_sub_cancel,
      Option.bind_some, Program.access, hi]
    refine ⟨?_, hfollows.remembers⟩
    rw [hval]
    exact congrArg (fun entry ↦ some (Observation.read entry _)) (entry_eq hinit hq hspec)
  · have hv := hp.other i value hi
    simp only [observe, RequestAccess.index, hv, requestStep, getFlushedVariable, Program.access,
      hi, h.remembers.flush_other hv]
    exact ⟨trivial,
      (getIndexedVariable_ask hA hp ho hroom (depth + 1) s memo i h).1.remembers⟩

/-- **Setting a variable** shows what the program says. -/
theorem requestStep_write (hlaw : core.Lawful) (hdep : ∀ tag, (envs tag).Deployed core place)
    (hA : (tables core place).Sound serverSharing envs) (hp : p.Means (envs tag))
    (ho : o.Timely (tables core place) now t) (hroom : o.Roomy)
    (h : s.Follows core place (envs tag) t memo) (i : Nat) (val : Bytes) :
    observe (envs tag) (depth + 1) s (o, .write i val) = (p.access t depth memo (.write i val)).1 ∧
      (requestStep (envs tag) (depth + 1) s (o, .write i val)).2.Remembers (envs tag)
        (p.access t depth memo (.write i val)).2 := by
  rcases hi : p.meaning i with ⟨key, zone⟩ | value
  · obtain ⟨v, q, hv, hks, hix, hq, hspec⟩ := hp.keyval i key zone hi
    obtain ⟨hend, hinit⟩ :=
      variableInit_expand (request_answer hA hp ho hroom (depth + 1)) h hroom hks hix hq
    have hentry := entry_eq hinit hq hspec
    simp only [observe, RequestAccess.index, hv, accessKey, handlerKey, requestStep,
      Program.access, hi, Option.bind_some, variableSetHandler, variableSetRc]
    generalize variableInit (getIndexedVariable (envs tag) o (depth + 1)) o (some v) s = r
      at hend hinit hentry ⊢
    obtain ⟨r, s'⟩ := r
    dsimp only at hend hinit hentry ⊢
    rw [← Option.bind_some (f := Variable.zone), hentry]
    rcases hkey : (expand (p.ask t (depth + 1)) p.indexOf (tokenize key) memo).1 with _ | k
    · rw [hkey] at hinit
      obtain rfl : r = none := hinit
      exact ⟨rfl, hend.remembers⟩
    · rw [hkey] at hinit
      obtain rfl : r = some (k, q) := hinit
      have hrc := storeSetRc_kept hlaw (hdep tag).ngx (hdep tag).hiredis
        ((hdep tag).placed q ⟨i, v, hv, hq⟩) hend.keeps.store k (lenBits val) o.now
      have halloc : o.access = .enough := ho.alloc
      simp only [halloc, hrc, Option.elim_some]
      exact ⟨trivial, hend.remembers.of_slots rfl⟩
  · have hv := hp.other i value hi
    simp only [observe, RequestAccess.index, hv, requestStep, Program.access, hi]
    exact ⟨trivial, h.remembers⟩

end

/-! ## Runs -/

section

variable {core : NgxCore 64} {place : Bytes → Option (Place Int)}
  {envs : Tag → RequestEnv 64 Server} {programs : Tag → Program} {s : Nginx Server} {p : Interp}
  {depth : Nat}

/-- There is room for the keys of an access. -/
def NginxTurn.Roomy : NginxTurn → Prop
  | .access _ o _ => o.Roomy
  | _ => True

/-- A request is open, of this module, and remembers this. -/
def Tracks (envs : Tag → RequestEnv 64 Server) :
    Option (OpenRequest Server) → Option (Tag × Memo) → Prop
  | none, none => True
  | some r, some (tag, memo) =>
    tag = r.tag ∧ ∀ store, Request.Remembers (envs r.tag) ⟨r.slots, store⟩ memo
  | _, _ => False

/-- nginx is in order over the tables, and its requests remember what those of the program do. -/
structure Nginx.Runs (core : NgxCore 64) (place : Bytes → Option (Place Int))
    (envs : Tag → RequestEnv 64 Server) (s : Nginx Server) (p : Interp) : Prop where
  keeps : s.Keeps (tables core place) envs p.tables
  requests : ∀ id, Tracks envs (s.requests id) (p.requests id)

/-- **An access of an open request** shows what the program says. -/
theorem Nginx.Runs.access (hlaw : core.Lawful) (hapart : Apart place)
    (hdep : ∀ tag, (envs tag).Deployed core place) (hmeans : ∀ tag, (programs tag).Means (envs tag))
    (h : s.Runs core place envs p) {id : Nat} {r : OpenRequest Server} {memo : Memo}
    (hr : s.requests id = some r)
    (hmemo : ∀ store, Request.Remembers (envs r.tag) ⟨r.slots, store⟩ memo) {o : RequestInput 64}
    (ho : o.access = .enough) (hroom : o.Roomy) (a : RequestAccess) :
    observe (envs r.tag) (depth + 1) (r.resume serverSharing s) (o.clocked s.now, a) =
        ((programs r.tag).access p.tables depth memo a).1 ∧
      (requestStep (envs r.tag) (depth + 1) (r.resume serverSharing s)
        (o.clocked s.now, a)).2.Remembers (envs r.tag)
          ((programs r.tag).access p.tables depth memo a).2 := by
  have hA := tables_sound hlaw hapart hdep
  have htimely : (o.clocked s.now).Timely (tables core place) s.now p.tables :=
    ⟨rfl, h.keeps.clock, ho⟩
  have hfollows : (r.resume serverSharing s).Follows core place (envs r.tag) p.tables memo :=
    ⟨h.keeps.resume hA hr, hmemo _⟩
  have hroom' : (o.clocked s.now).Roomy := ⟨hroom.values, hroom.key⟩
  rcases a with i | ⟨i, val⟩
  · exact requestStep_read hA (hmeans r.tag) htimely hroom' hfollows i
  · exact requestStep_write hlaw hdep hA (hmeans r.tag) htimely hroom' hfollows i val

end

section

variable {ngx : NgxConf} {ds : List (Tag × Directive)} {shared : Segments} {core : NgxCore 64}
  {indexOf : Tag → Bytes → Nat}

end

/-! ## An example -/

end NgxKeyval
