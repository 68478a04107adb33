import NgxKeyval.Library.Concurrent
import NgxKeyval.Module.Evaluation
import NgxKeyval.System.Tables

/-!
# nginx with its requests

Many requests are open at a time, of both modules and in several workers, and their accesses come in
any order.  They share the segments and the servers; each has slots and a pool of its own, with
connections of its own, until it is finished.

* `nginxStep` is the system, one access at a time, and comes back with what can be seen of it.
* `Account` is a claim about what can be seen, with the invariant of the stores that is to prove it,
  and `Account.Sound` is what the store operations must do for that.
* `nginx_sees` — then the claim is true of every run, whatever requests are open and whatever their
  keys are made of.
-/

set_option autoImplicit false

namespace NgxKeyval

/-! ## The system -/

/-- What the requests share of a world, and what each has of its own. -/
structure Sharing (σ : Type) where
  /-- The first world, with what the second one has of the connections of a request. -/
  seenBy : σ → σ → σ
  /-- The world at another time of the servers. -/
  tick : σ → Nat → σ

/-- An open request: its module, its slots and its pool.  What the pool has of the world, other than
its own connections, is out of date while another request is served. -/
structure OpenRequest (σ : Type) where
  tag : Tag
  slots : Nat → VariableValue
  pool : Pool σ

/-- The segments, the clock, the world, and the open requests. -/
structure Nginx (σ : Type) where
  shm : Nat → ShmZone 64
  /-- `ngx_current_msec` -/
  now : Nat
  world : σ
  requests : Nat → Option (OpenRequest σ)

/-- What happens next. -/
inductive NginxTurn where
  /-- A request of this module is opened. -/
  | start (id : Nat) (tag : Tag)
  /-- An open request reads or sets a variable. -/
  | access (id : Nat) (o : RequestInput 64) (a : RequestAccess)
  /-- A request is finished, and its pool destroyed. -/
  | finish (id : Nat)
  | clock (type : ZoneType) (now : Nat)

section

variable {σ : Type} (share : Sharing σ)

/-- The pool, with the world as it is now. -/
def Pool.resume (pool : Pool σ) (world : σ) : Pool σ :=
  { pool with world := share.seenBy world pool.world }

/-- The request, with the segments and the world as they are now. -/
def OpenRequest.resume (r : OpenRequest σ) (s : Nginx σ) : Request 64 σ :=
  ⟨r.slots, ⟨s.shm, r.pool.resume share s.world⟩⟩

/-- The clock of nginx is what an access reads. -/
def RequestInput.clocked (o : RequestInput 64) (now : Nat) : RequestInput 64 :=
  { o with now := BitVec.ofNat 64 now }

/-- The zone of a record, as it is configured. -/
def StoreEnv.spec {w : Nat} (env : StoreEnv w σ) (q : Ptr) : ZoneSpec :=
  let z := env.zones q
  match z.store with
  | some .redis => ⟨z.name, .redis, z.redis.ttl.toNat⟩
  | _ => ⟨z.name, .shm, ((shmGetContext env z.shm).elim 0 Prod.snd).toNat⟩

/-- What comes of a write: the code that `ngx_keyval_shm_set_data` or `ngx_keyval_redis_set_data`
returns, which `ngx_keyval_store_set` drops. -/
def storeSetRc {w : Nat} (env : StoreEnv w σ) (q : Ptr) (key val : Bytes) (now : BitVec w)
    (o : AccessAlloc) (s : StoreState w σ) : Rc :=
  let z := env.zones q
  match z.store with
  | none => .error
  | some .shm =>
    match shmGetContext env z.shm with
    | none => .error
    | some (i, ttl) => (shmSetData env.ngx (s.shm i) (BitVec.ofInt w ttl) key val now o.slab).1
  | some .redis =>
    match storeRedisGetCtx q o s.pool with
    | (none, _) => .error
    | (some a, pool) =>
      match redisGetContext env.hiredis a z.redis pool with
      | (none, _) => .error
      | (some c, pool) => (redisSetData env.hiredis c z.redis z.name key val pool).1

/-- What comes of setting a variable. -/
def variableSetRc {w : Nat} (env : RequestEnv w σ)
    (getVariable : Request w σ → Nat → Option Nat × Request w σ) (o : RequestInput w)
    (data : Option Variable) (v : VariableValue) (s : Request w σ) : Rc :=
  match variableInit getVariable o data s with
  | (none, _) => .error
  | (some (key, q), s) => storeSetRc env.store q key v.data o.now o.access s.store

/-- What can be seen of an access: the zone and the key that the handler of the variable uses, and
what comes back. -/
def observe (env : RequestEnv 64 σ) (depth : Nat) (s : Request 64 σ)
    (a : RequestInput 64 × RequestAccess) : Option Observation :=
  match env.indexed a.2.index with
  | .other _ => none
  | .keyval data =>
    let entry := (accessKey env depth s a).bind fun key ↦
      (data.bind Variable.zone).map fun q ↦ (env.store.spec q, key)
    match a.2 with
    | .read _ => some (.read entry (requestStep env depth s a).1)
    | .write _ val =>
      some (.write entry (lenBits val) (variableSetRc env (getIndexedVariable env a.1 depth) a.1
        data ⟨lenBits val, true, false, false⟩ s))

/-- nginx when it starts: segments that hold nothing, and no requests. -/
def Nginx.new (pool : SlabPool) (now : Nat) (world : σ) : Nginx σ where
  shm _ := ⟨.leaf, pool⟩
  now := now
  world := world
  requests _ := none

end

/-! ## Accounts -/

/-- A claim about what can be seen of the system, and the invariant that is to prove it.  What is
known so far is a `τ`. -/
structure Account (σ τ : Type) where
  /-- What is known after an observation. -/
  after : τ → Observation → τ
  /-- It can be observed, by what is known. -/
  sees : τ → Observation → Prop
  /-- What is kept of the segments and the world, -/
  shared : (Nat → ShmZone 64) → σ → τ → Prop
  /-- of the pool of a request, -/
  own : StoreEnv 64 σ → Pool σ → Prop
  /-- and of the clock of nginx. -/
  clock : Nat → τ → Prop
  /-- How the allocators answer. -/
  alloc : AccessAlloc → Prop
  /-- How the clock of nginx goes on. -/
  forward : Nat → Nat → Prop

/-- A variable of this module has the zone of the record at this address. -/
def RequestEnv.Uses {w : Nat} {σ : Type} (env : RequestEnv w σ) (q : Ptr) : Prop :=
  ∃ i v, env.indexed i = .keyval (some v) ∧ v.zone = some q

/-- A turn for which the allocators answer in this way, and the clock of nginx goes on in this
way. -/
def NginxTurn.Within {σ : Type} (alloc : AccessAlloc → Prop) (forward : Nat → Nat → Prop)
    (s : Nginx σ) : NginxTurn → Prop
  | .access _ o _ => alloc o.access
  | .clock .shm now => forward s.now now
  | _ => True

section

variable {σ τ : Type} (A : Account σ τ)

/-- An observation, as a step of what is known. -/
def Account.step (t : τ) (o : Observation) : Unit × τ := ((), A.after t o)

/-- What is kept of the stores while a request has them. -/
structure Account.Kept (env : StoreEnv 64 σ) (s : StoreState 64 σ) (t : τ) : Prop where
  shared : A.shared s.shm s.pool.world t
  own : A.own env s.pool

/-- What the store operations, the requests and the clocks must do for an account to be true. -/
structure Account.Sound (share : Sharing σ) (envs : Tag → RequestEnv 64 σ) : Prop where
  get : ∀ tag q, (envs tag).Uses q → ∀ key now a s t, A.clock now t → A.alloc a →
    A.Kept (envs tag).store s t →
    let r := storeGet (envs tag).store (some q) key (BitVec.ofNat 64 now) a s
    A.Kept (envs tag).store r.2 t ∧
      A.sees t (.read (some ((envs tag).store.spec q, key)) (VariableValue.ofResult r.1).value?)
  set : ∀ tag q, (envs tag).Uses q → ∀ key val now a s t, A.clock now t → A.alloc a →
    A.Kept (envs tag).store s t →
    A.Kept (envs tag).store (storeSet (envs tag).store (some q) key val (BitVec.ofNat 64 now) a s)
      (A.after t (.write (some ((envs tag).store.spec q, key)) val
        (storeSetRc (envs tag).store q key val (BitVec.ofNat 64 now) a s)))
  /-- An access without a key. -/
  miss : ∀ t, A.sees t (.read none none)
  sees_write : ∀ t entry val rc, A.sees t (.write entry val rc)
  sees_clock : ∀ t type now, A.sees t (.clock type now)
  after_read : ∀ t entry value shm world now, A.shared shm world t → A.clock now t →
    A.shared shm world (A.after t (.read entry value)) ∧ A.clock now (A.after t (.read entry value))
  after_miss : ∀ t val shm world, A.shared shm world t →
    A.shared shm world (A.after t (.write none val .error))
  clock_write : ∀ t entry val rc now, A.clock now t → A.clock now (A.after t (.write entry val rc))
  new : ∀ tag world, A.own (envs tag).store (.new world)
  resume : ∀ tag (pool : Pool σ) world, A.own (envs tag).store pool →
    A.own (envs tag).store (pool.resume share world)
  seenBy : ∀ shm world old t, A.shared shm world t → A.shared shm (share.seenBy world old) t
  finish : ∀ tag (pool : Pool σ) shm world t, A.shared shm world t →
    A.shared shm (destroyPool (envs tag).store.hiredis (pool.resume share world)).world t
  clock_shm : ∀ t shm world now now', A.shared shm world t → A.clock now t → A.forward now now' →
    A.shared shm world (A.after t (.clock .shm now')) ∧ A.clock now' (A.after t (.clock .shm now'))
  clock_redis : ∀ t shm world now now', A.shared shm world t → A.clock now t →
    A.shared shm (share.tick world now') (A.after t (.clock .redis now')) ∧
      A.clock now (A.after t (.clock .redis now'))

end

/-! ## A request -/

section

variable {σ τ : Type} {A : Account σ τ} {share : Sharing σ} {envs : Tag → RequestEnv 64 σ}
  {env : RequestEnv 64 σ} {s : Request 64 σ} {t : τ} {tag : Tag} {o : RequestInput 64} {i now : Nat}
  {data : Option Variable} {getVariable : Request 64 σ → Nat → Option Nat × Request 64 σ}

/-- A request is in order: what is to be kept of the stores is kept, and what is in the slots of the
variables of this module is not to be used again. -/
structure Request.Keeps (A : Account σ τ) (env : RequestEnv 64 σ) (s : Request 64 σ) (t : τ) :
    Prop where
  store : A.Kept env.store s.store t
  noCacheable : ∀ i data, env.indexed i = .keyval data → (s.slots i).evaluated →
    (s.slots i).noCacheable

/-- An access reads the clock of nginx, and the allocators answer as the account asks for it. -/
structure RequestInput.Timely (A : Account σ τ) (o : RequestInput 64) (now : Nat) (t : τ) :
    Prop where
  reads : o.now = BitVec.ofNat 64 now
  clock : A.clock now t
  alloc : A.alloc o.access

theorem Request.Keeps.setSlot (h : s.Keeps A env t) {v : VariableValue}
    (hv : ∀ data, env.indexed i = .keyval data → v.evaluated → v.noCacheable) :
    (s.setSlot i v).Keeps A env t where
  store := h.store
  noCacheable :=
    (Function.forall_update_iff s.slots fun j v ↦
      ∀ data, env.indexed j = .keyval data → v.evaluated → v.noCacheable).mpr
      ⟨hv, fun j _ ↦ h.noCacheable j⟩

theorem Request.Keeps.withStore (h : s.Keeps A env t) {store : StoreState 64 σ} {t' : τ}
    (hstore : A.Kept env.store store t') :
    ({ s with store := store } : Request 64 σ).Keeps A env t' :=
  ⟨hstore, h.noCacheable⟩

/-- **The get handler** keeps a request in order, and fills in what can be seen. -/
theorem variableGetHandler_keeps (hA : A.Sound share envs)
    (hi : (envs tag).indexed i = .keyval data) (ho : o.Timely A now t)
    (hget : ∀ s j, s.Keeps A (envs tag) t → (getVariable s j).2.Keeps A (envs tag) t)
    (h : s.Keeps A (envs tag) t) :
    let s' := variableGetHandler (envs tag) getVariable o data i s
    let s'' := s'.setSlot i { s'.slots i with noCacheable := true }
    s''.Keeps A (envs tag) t ∧
      A.sees t (.read (((variableInit getVariable o data s).1.map Prod.fst).bind fun key ↦
        (data.bind Variable.zone).map fun q ↦ ((envs tag).store.spec q, key))
          (s''.slots i).value?) := by
  have hkeeps := variableInit_induction (o := o) hget h data
  simp only [variableGetHandler]
  generalize hinit : variableInit getVariable o data s = r at hkeeps ⊢
  obtain ⟨_ | ⟨key, q⟩, s'⟩ := r
  · simp only [setSlot_setSlot, slots_setSlot_self]
    exact ⟨hkeeps.setSlot fun _ _ _ ↦ rfl, hA.miss t⟩
  · obtain ⟨v, rfl, hv⟩ := zone_of_variableInit (congrArg Prod.fst hinit)
    obtain ⟨hstore, hsees⟩ :=
      hA.get tag q ⟨i, v, hi, hv⟩ key now o.access s'.store t ho.clock ho.alloc hkeeps.store
    simp only [setSlot_setSlot, slots_setSlot_self, ho.reads, Option.map_some, Option.bind_some, hv]
    exact ⟨(hkeeps.withStore hstore).setSlot fun _ _ _ ↦ rfl, hsees⟩

/-- **Asking for any variable**, whatever its key is made of, keeps a request in order. -/
theorem getIndexedVariable_keeps (hA : A.Sound share envs) (ho : o.Timely A now t) (depth : Nat)
    (s : Request 64 σ) (i : Nat) (h : s.Keeps A (envs tag) t) :
    (getIndexedVariable (envs tag) o depth s i).2.Keeps A (envs tag) t := by
  refine getIndexedVariable_induction (I := fun s ↦ s.Keeps A (envs tag) t)
    (fun depth s i data hi hget h ↦ ?_) (fun s i value hi h ↦ ?_) depth s i h
  · exact (variableGetHandler_keeps hA hi ho hget h).1
  · refine h.setSlot fun data hdata ↦ ?_
    have heq := hi.symm.trans hdata
    contradiction

theorem Request.Keeps.flush (h : s.Keeps A env t) (i : Nat) : (s.flush i).Keeps A env t := by
  rw [Request.flush]
  split
  · exact h.setSlot fun _ _ he ↦ absurd he Bool.false_ne_true
  · exact h

/-- What is left in a slot of a variable of this module is dropped before it is read. -/
theorem Request.Keeps.evaluated_flush (h : s.Keeps A env t) (hi : env.indexed i = .keyval data) :
    ((s.flush i).slots i).evaluated = false := by
  rw [Request.flush]
  by_cases he : (s.slots i).evaluated = true
  · rw [if_pos (by rw [he, h.noCacheable i data hi he]; rfl), slots_setSlot_self]
    rfl
  · rw [Bool.not_eq_true] at he
    rw [if_neg (by rw [he]; exact Bool.false_ne_true), he]

end

/-! ## Any number of requests -/

section

variable {σ τ : Type} {A : Account σ τ} {share : Sharing σ} {envs : Tag → RequestEnv 64 σ}
  {s : Nginx σ} {t : τ}

/-- What is to be kept is kept, and every open request is in order. -/
structure Nginx.Keeps (A : Account σ τ) (envs : Tag → RequestEnv 64 σ) (s : Nginx σ) (t : τ) :
    Prop where
  shared : A.shared s.shm s.world t
  clock : A.clock s.now t
  own : ∀ id r, s.requests id = some r → A.own (envs r.tag).store r.pool
  noCacheable : ∀ id r, s.requests id = some r → ∀ i data,
    (envs r.tag).indexed i = .keyval data → (r.slots i).evaluated → (r.slots i).noCacheable

theorem Nginx.Keeps.resume (hA : A.Sound share envs) (h : s.Keeps A envs t) {id : Nat}
    {r : OpenRequest σ} (hr : s.requests id = some r) :
    (r.resume share s).Keeps A (envs r.tag) t where
  store := ⟨hA.seenBy _ _ _ _ h.shared, hA.resume _ _ _ (h.own id r hr)⟩
  noCacheable := h.noCacheable id r hr

theorem Nginx.Keeps.update (h : s.Keeps A envs t) (id : Nat) {r : Option (OpenRequest σ)}
    (hown : ∀ r', r = some r' → A.own (envs r'.tag).store r'.pool)
    (hslots : ∀ r', r = some r' → ∀ i data, (envs r'.tag).indexed i = .keyval data →
      (r'.slots i).evaluated → (r'.slots i).noCacheable) :
    ({ s with requests := Function.update s.requests id r } : Nginx σ).Keeps A envs t where
  shared := h.shared
  clock := h.clock
  own :=
    (Function.forall_update_iff s.requests fun _ r ↦
      ∀ r', r = some r' → A.own (envs r'.tag).store r'.pool).mpr ⟨hown, fun id' _ ↦ h.own id'⟩
  noCacheable :=
    (Function.forall_update_iff s.requests fun _ r ↦ ∀ r', r = some r' → ∀ i data,
      (envs r'.tag).indexed i = .keyval data → (r'.slots i).evaluated →
        (r'.slots i).noCacheable).mpr ⟨hslots, fun id' _ ↦ h.noCacheable id'⟩

end

end NgxKeyval
