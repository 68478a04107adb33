import NgxKeyval.Library.Concurrent

/-!
# Code that works under a lock

Workers share a state and a lock.  Each runs code of its own, which takes the lock, gives it back,
looks at the shared state and changes it; between any two steps of one worker, the others may take
any number of steps.

* `Code` is the code of a call, with a place for what must not happen, `Code.fault`.
* `lockStep` is the system: a worker makes a call, or takes the next step of the one it is in.
* `Code.finish` is what the rest of a critical section comes to, run alone.  `Implements` says of
  the code of each call that it is one critical section, and comes to what an operation says.
* `Follows` is the invariant, and `lockStep_follows` its step lemma: the operation happens when the
  lock is taken, and the shared state catches up until the lock is given back.
* `linearizable` is the result of it, `no_fault` and `running_of_not_holder` say what never happens,
  and `released` and `completes` what happens in the end.
-/

set_option autoImplicit false

universe u v w x y

namespace Concurrent

/-- The code of a call. -/
inductive Code (σ : Type u) (ρ : Type v) where
  /-- Wait for the lock and take it. -/
  | lock (rest : Code σ ρ)
  /-- Give the lock back. -/
  | unlock (rest : Code σ ρ)
  /-- Change the shared state, and go on as what it was says. -/
  | act (update : σ → σ) (rest : σ → Code σ ρ)
  /-- Return. -/
  | ret (r : ρ)
  /-- An access that has no meaning. -/
  | fault

namespace Code

variable {σ : Type u} {ρ : Type v}

/-- What the rest of a critical section comes to when it runs alone: what the call returns, and the
shared state when the lock is given back.  `none` if it faults, asks for the lock it has, or does
not return right after it gives the lock back. -/
def finish : Code σ ρ → σ → Option (ρ × σ)
  | act update rest, s => (rest s).finish (update s)
  | unlock (ret r), s => some (r, s)
  | _, _ => none

/-- The number of steps until the lock is given back. -/
def steps : Code σ ρ → σ → Nat
  | act update rest, s => (rest s).steps (update s) + 1
  | unlock _, _ => 1
  | _, _ => 0

@[simp] theorem finish_act (update : σ → σ) (rest : σ → Code σ ρ) (s : σ) :
    (act update rest).finish s = (rest s).finish (update s) := by
  simp only [finish]

@[simp] theorem steps_act (update : σ → σ) (rest : σ → Code σ ρ) (s : σ) :
    (act update rest).steps s = (rest s).steps (update s) + 1 := rfl

@[simp] theorem steps_unlock (rest : Code σ ρ) (s : σ) : (unlock rest).steps s = 1 := rfl

/-- Code that comes to something takes a step, or gives the lock back and returns. -/
theorem finish_cases {c : Code σ ρ} {s s' : σ} {r : ρ} (h : c.finish s = some (r, s')) :
    (∃ update rest, c = act update rest ∧ (rest s).finish (update s) = some (r, s')) ∨
      c = unlock (ret r) ∧ s = s' := by
  rcases c with rest | rest | ⟨update, rest⟩ | r' | _
  · exact absurd h.symm (Option.some_ne_none _)
  · rcases rest with _ | _ | _ | r' | _
    · exact absurd h.symm (Option.some_ne_none _)
    · exact absurd h.symm (Option.some_ne_none _)
    · exact absurd h.symm (Option.some_ne_none _)
    · obtain ⟨rfl, rfl⟩ := Prod.mk.inj (Option.some.inj h)
      exact .inr ⟨rfl, rfl⟩
    · exact absurd h.symm (Option.some_ne_none _)
  · exact .inl ⟨update, rest, rfl, (finish_act update rest s).symm.trans h⟩
  · exact absurd h.symm (Option.some_ne_none _)
  · exact absurd h.symm (Option.some_ne_none _)

end Code

/-! ## The system -/

/-- The shared state, the lock, and what is left of the call of each worker. -/
structure System (π : Type u) (σ : Type v) (ρ : Type w) where
  shared : σ
  holder : Option π
  running : π → Option (Code σ ρ)

/-- Who takes a step. -/
inductive Turn (π : Type u) (ι : Type v) where
  /-- A worker that is in no call makes one. -/
  | call (p : π) (i : ι)
  /-- A worker takes the next step of its call. -/
  | run (p : π)
  deriving DecidableEq, Repr

/-- The worker whose turn it is. -/
def Turn.worker {π : Type u} {ι : Type v} : Turn π ι → π
  | .call p _ => p
  | .run p => p

section

variable {π : Type u} {σ : Type v} {τ : Type w} {ι : Type x} {ρ : Type y}

/-- A system in which nobody has made a call. -/
def System.new (s : σ) : System π σ ρ := ⟨s, none, fun _ ↦ none⟩

/-- One turn.  A worker that waits for a lock that is taken stays where it is, and so does one that
has faulted. -/
def lockStep [DecidableEq π] (code : ι → Code σ ρ) (m : System π σ ρ) :
    Turn π ι → Option (Sign π ι ρ) × System π σ ρ
  | .call p i =>
    match m.running p with
    | none => (some (.call p i), { m with running := Function.update m.running p (some (code i)) })
    | some _ => (none, m)
  | .run p =>
    match m.running p with
    | none => (none, m)
    | some (.lock rest) =>
      match m.holder with
      | none => (none, ⟨m.shared, some p, Function.update m.running p (some rest)⟩)
      | some _ => (none, m)
    | some (.unlock rest) =>
      (none, ⟨m.shared, if m.holder = some p then none else m.holder,
        Function.update m.running p (some rest)⟩)
    | some (.act update rest) =>
      (none, ⟨update m.shared, m.holder, Function.update m.running p (some (rest m.shared))⟩)
    | some (.ret r) =>
      (some (.back p r), { m with running := Function.update m.running p none })
    | some .fault => (none, m)

section

variable [DecidableEq π] {code : ι → Code σ ρ} {m : System π σ ρ} {p q : π} {c rest : Code σ ρ}

theorem lockStep_call (h : m.running p = none) (i : ι) :
    lockStep code m (.call p i) =
      (some (.call p i), { m with running := Function.update m.running p (some (code i)) }) := by
  simp only [lockStep, h]

theorem lockStep_call_busy (h : m.running p = some c) (i : ι) :
    lockStep code m (.call p i) = (none, m) := by
  simp only [lockStep, h]

theorem lockStep_run_idle (h : m.running p = none) :
    lockStep code m (.run p) = (none, m) := by
  simp only [lockStep, h]

theorem lockStep_lock (h : m.running p = some (.lock rest)) (hfree : m.holder = none) :
    lockStep code m (.run p) =
      (none, ⟨m.shared, some p, Function.update m.running p (some rest)⟩) := by
  simp only [lockStep, h, hfree]

theorem lockStep_wait (h : m.running p = some (.lock rest)) (hheld : m.holder = some q) :
    lockStep code m (.run p) = (none, m) := by
  simp only [lockStep, h, hheld]

theorem lockStep_unlock (h : m.running p = some (.unlock rest)) (hheld : m.holder = some p) :
    lockStep code m (.run p) =
      (none, ⟨m.shared, none, Function.update m.running p (some rest)⟩) := by
  simp only [lockStep, h, hheld, if_true]

theorem lockStep_act {update : σ → σ} {rest : σ → Code σ ρ}
    (h : m.running p = some (.act update rest)) :
    lockStep code m (.run p) = (none, ⟨update m.shared, m.holder,
      Function.update m.running p (some (rest m.shared))⟩) := by
  simp only [lockStep, h]

theorem lockStep_ret {r : ρ} (h : m.running p = some (.ret r)) :
    lockStep code m (.run p) =
      (some (.back p r), { m with running := Function.update m.running p none }) := by
  simp only [lockStep, h]

end

/-! ## One critical section for each call -/

/-- The code of each call takes the lock once, keeps it for so many steps at most, and comes to what
the operation says, on states that are related. -/
def Implements (code : ι → Code σ ρ) (op : τ → ι → ρ × τ) (ok : ι → Prop) (R : σ → τ → Prop)
    (bound : Nat) : Prop :=
  ∀ i, ok i → ∃ body, code i = .lock body ∧ ∀ s t, R s t → body.steps s ≤ bound ∧
    ∃ s', body.finish s = some ((op t i).1, s') ∧ R s' (op t i).2

/-- A turn whose call, if there is one, is among these. -/
def Turn.Ok (ok : ι → Prop) : Turn π ι → Prop
  | .call _ i => ok i
  | .run _ => True

/-- What a worker that does not hold the lock has left to do, next to where it is with the object
whose operations happen at once. -/
inductive Outside (code : ι → Code σ ρ) (ok : ι → Prop) :
    Option (Code σ ρ) → Phase ι ρ → Prop
  | idle : Outside code ok none .idle
  | waiting (i : ι) (h : ok i) : Outside code ok (some (code i)) (.called i)
  | done (r : ρ) : Outside code ok (some (.ret r)) (.done r)

/-- The system follows the object: for the worker that holds the lock the operation has happened,
and what is left of its critical section makes the shared state what the object says. -/
structure Follows (code : ι → Code σ ρ) (ok : ι → Prop) (R : σ → τ → Prop) (bound : Nat)
    (m : System π σ ρ) (a : Object π τ ι ρ) : Prop where
  free : m.holder = none → R m.shared a.state
  inside : ∀ p, m.holder = some p → ∃ c r s', m.running p = some c ∧ a.phase p = .done r ∧
    c.steps m.shared ≤ bound ∧ c.finish m.shared = some (r, s') ∧ R s' a.state
  outside : ∀ p, m.holder ≠ some p → Outside code ok (m.running p) (a.phase p)

section

variable {code : ι → Code σ ρ} {op : τ → ι → ρ × τ} {ok : ι → Prop} {R : σ → τ → Prop}
  {bound : Nat} {m : System π σ ρ} {a : Object π τ ι ρ} {p q : π}

theorem follows_new {s : σ} {t : τ} (h : R s t) :
    Follows code ok R bound (System.new s : System π σ ρ) (Object.new t : Object π τ ι ρ) where
  free _ := h
  inside _ hp := absurd hp.symm (Option.some_ne_none _)
  outside _ _ := .idle

variable [DecidableEq π]

/-- A worker outside the lock moves on; the holder, if there is one, stays where it is. -/
theorem Follows.move (h : Follows code ok R bound m a) (hp : m.holder ≠ some p)
    {c : Option (Code σ ρ)} {phase : Phase ι ρ} (hc : Outside code ok c phase) :
    Follows code ok R bound { m with running := Function.update m.running p c }
      ⟨a.state, Function.update a.phase p phase⟩ where
  free := h.free
  inside q hq := by
    have hne : q ≠ p := fun heq ↦ hp (heq ▸ hq)
    obtain ⟨c', r, s', hrun, hphase, hrest⟩ := h.inside q hq
    refine ⟨c', r, s', ?_, ?_, hrest⟩
    · exact (Function.update_of_ne hne ..).trans hrun
    · exact (Function.update_of_ne hne ..).trans hphase
  outside q hq := by
    by_cases hqp : q = p
    · subst hqp
      simp only [Function.update_self]
      exact hc
    · simp only [Function.update_of_ne hqp]
      exact h.outside q hq

/-- A worker takes the lock, and its operation happens. -/
theorem Follows.acquire (h : Follows code ok R bound m a) (himpl : Implements code op ok R bound)
    (hfree : m.holder = none) {i : ι} (hi : ok i) {body : Code σ ρ} (hbody : code i = .lock body) :
    Follows code ok R bound ⟨m.shared, some p, Function.update m.running p (some body)⟩
      ⟨(op a.state i).2, Function.update a.phase p (.done (op a.state i).1)⟩ where
  free hnone := absurd hnone (Option.some_ne_none p)
  inside q hq := by
    obtain rfl : p = q := Option.some.inj hq
    obtain ⟨body', hbody', hfinish⟩ := himpl i hi
    obtain rfl : body' = body := Code.lock.inj (hbody'.symm.trans hbody)
    obtain ⟨hsteps, s', hs', hrel⟩ := hfinish m.shared a.state (h.free hfree)
    exact ⟨body', _, s', Function.update_self .., Function.update_self .., hsteps, hs', hrel⟩
  outside q hq := by
    have hqp : q ≠ p := fun heq ↦ hq (heq ▸ rfl)
    simp only [Function.update_of_ne hqp]
    exact h.outside q fun hsome ↦ Option.some_ne_none q (hsome.symm.trans hfree)

/-- The holder takes a step of its critical section. -/
theorem Follows.advance (h : Follows code ok R bound m a) (hp : m.holder = some p) {c : Code σ ρ}
    {s s' : σ} {r : ρ} (hphase : a.phase p = .done r) (hsteps : c.steps s ≤ bound)
    (hfinish : c.finish s = some (r, s')) (hrel : R s' a.state) :
    Follows code ok R bound ⟨s, m.holder, Function.update m.running p (some c)⟩ a where
  free hnone := absurd (hp.symm.trans hnone) (Option.some_ne_none p)
  inside q hq := by
    obtain rfl : p = q := Option.some.inj (hp.symm.trans hq)
    exact ⟨c, r, s', Function.update_self .., hphase, hsteps, hfinish, hrel⟩
  outside q hq := by
    have hqp : q ≠ p := fun heq ↦ hq (heq ▸ hp)
    simp only [Function.update_of_ne hqp]
    exact h.outside q hq

/-- The holder gives the lock back, and the shared state has caught up. -/
theorem Follows.release (h : Follows code ok R bound m a) (hp : m.holder = some p) {r : ρ}
    (hphase : a.phase p = .done r) (hrel : R m.shared a.state) :
    Follows code ok R bound ⟨m.shared, none, Function.update m.running p (some (.ret r))⟩ a where
  free _ := hrel
  inside q hq := absurd hq.symm (Option.some_ne_none _)
  outside q _ := by
    by_cases hqp : q = p
    · subst hqp
      simp only [Function.update_self, hphase]
      exact .done r
    · simp only [Function.update_of_ne hqp]
      exact h.outside q fun hq ↦ hqp (Option.some.inj (hq.symm.trans hp))

/-- **One turn** is answered by at most one move of the object: the operation happens when the lock
is taken. -/
theorem lockStep_follows (himpl : Implements code op ok R bound) (m : System π σ ρ)
    (a : Object π τ ι ρ) (turn : Turn π ι) (h : Follows code ok R bound m a) (hok : turn.Ok ok) :
    ∃ moves, Machine.trace (atomicStep op) a moves = (lockStep code m turn).1.toList ∧
      Follows code ok R bound (lockStep code m turn).2 (Machine.final (atomicStep op) a moves) := by
  rcases turn with ⟨p, i⟩ | p
  · rcases hrun : m.running p with _ | c
    · -- nothing is left of a call, so the worker does not hold the lock
      have hp : m.holder ≠ some p := by
        intro hp
        obtain ⟨c, _, _, hc, _⟩ := h.inside p hp
        exact Option.some_ne_none c (hc.symm.trans hrun)
      have hphase : a.phase p = .idle := by
        have hout := h.outside p hp
        rw [hrun] at hout
        generalize a.phase p = phase at hout ⊢
        obtain _ | _ | _ := hout
        rfl
      refine ⟨[.call p i], ?_, ?_⟩
      · rw [Machine.trace_cons, atomicStep_call hphase, lockStep_call hrun]
        rfl
      · rw [Machine.final_cons, atomicStep_call hphase, lockStep_call hrun]
        exact h.move hp (.waiting i hok)
    · rw [lockStep_call_busy hrun]
      exact ⟨[], rfl, h⟩
  · by_cases hp : m.holder = some p
    · obtain ⟨c, r, s', hrun, hphase, hsteps, hfinish, hrel⟩ := h.inside p hp
      refine ⟨[], ?_⟩
      rcases Code.finish_cases hfinish with ⟨update, rest, rfl, hrest⟩ | ⟨rfl, rfl⟩
      · rw [lockStep_act hrun]
        rw [Code.steps_act] at hsteps
        exact ⟨rfl, h.advance hp hphase (by omega) hrest hrel⟩
      · rw [lockStep_unlock hrun hp]
        exact ⟨rfl, h.release hp hphase hrel⟩
    · have hout := h.outside p hp
      generalize hcode : m.running p = c, hphase : a.phase p = phase at hout
      obtain _ | ⟨i, hi⟩ | ⟨r⟩ := hout
      · rw [lockStep_run_idle hcode]
        exact ⟨[], rfl, h⟩
      · obtain ⟨body, hbody, _⟩ := himpl i hi
        rw [hbody] at hcode
        rcases hheld : m.holder with _ | q
        · refine ⟨[.perform p], ?_, ?_⟩
          · rw [Machine.trace_cons, atomicStep_perform hphase, lockStep_lock hcode hheld]
            rfl
          · rw [Machine.final_cons, atomicStep_perform hphase, lockStep_lock hcode hheld]
            exact h.acquire himpl hheld hi hbody
        · rw [lockStep_wait hcode hheld]
          exact ⟨[], rfl, h⟩
      · refine ⟨[.back p], ?_, ?_⟩
        · rw [Machine.trace_cons, atomicStep_back hphase, lockStep_ret hcode]
          rfl
        · rw [Machine.final_cons, atomicStep_back hphase, lockStep_ret hcode]
          exact h.move hp .idle

/-! ## Whole runs -/

/-- **Code under a lock is linearizable.**  Whatever the turns are, what is seen of them can be seen
of an object whose operations happen at once; and the system follows it. -/
theorem linearizable (himpl : Implements code op ok R bound) {s : σ} {t : τ} (h0 : R s t)
    (turns : List (Turn π ι)) (hok : ∀ turn ∈ turns, turn.Ok ok) :
    ∃ moves : List (Move π ι),
      Machine.trace (atomicStep op) (Object.new t) moves =
          Machine.trace (lockStep code) (System.new s) turns ∧
        Follows code ok R bound (Machine.final (lockStep code) (System.new s) turns)
          (Machine.final (atomicStep op) (Object.new t) moves) :=
  Machine.trace_simulation (fun _ turn ↦ turn.Ok ok) (Follows code ok R bound)
    (lockStep_follows himpl) (follows_new h0) (Machine.meets_of_forall fun _ ↦ hok)

omit [DecidableEq π] in
theorem Follows.running_of_not_holder (h : Follows code ok R bound m a) (hp : m.holder ≠ some p) :
    m.running p = none ∨ (∃ i, ok i ∧ m.running p = some (code i)) ∨
      ∃ r, m.running p = some (.ret r) := by
  have hout := h.outside p hp
  generalize m.running p = c, a.phase p = phase at hout ⊢
  obtain _ | ⟨i, hi⟩ | ⟨r⟩ := hout
  · exact .inl rfl
  · exact .inr (.inl ⟨i, hi, rfl⟩)
  · exact .inr (.inr ⟨r, rfl⟩)

/-- **No access is without meaning.** -/
theorem Follows.no_fault (himpl : Implements code op ok R bound)
    (h : Follows code ok R bound m a) (p : π) : m.running p ≠ some .fault := by
  intro hfault
  by_cases hp : m.holder = some p
  · obtain ⟨c, r, s', hrun, _, _, hfinish, _⟩ := h.inside p hp
    rw [Option.some.inj (hrun.symm.trans hfault)] at hfinish
    exact Option.some_ne_none _ hfinish.symm
  · rcases h.running_of_not_holder hp with hrun | ⟨i, hi, hrun⟩ | ⟨r, hrun⟩
    · exact Option.some_ne_none _ (hfault.symm.trans hrun)
    · obtain ⟨body, hbody, _⟩ := himpl i hi
      rw [hbody] at hrun
      exact nomatch hrun.symm.trans hfault
    · exact nomatch hrun.symm.trans hfault

/-! ## The lock is given back -/

/-- Is it a step of the call of this worker? -/
def Turn.runs (p : π) : Turn π ι → Bool
  | .run q => decide (q = p)
  | .call _ _ => false

theorem Follows.step_of_ne (himpl : Implements code op ok R bound)
    (h : Follows code ok R bound m a) (hp : m.holder = some p) {turn : Turn π ι}
    (hne : turn.worker ≠ p) :
    let m' := (lockStep code m turn).2
    m'.shared = m.shared ∧ m'.holder = some p ∧ m'.running p = m.running p := by
  have hq : m.holder ≠ some turn.worker := fun hq ↦ hne (Option.some.inj (hq.symm.trans hp))
  rcases turn with ⟨q, i⟩ | q
  · rcases hrun : m.running q with _ | c
    · rw [lockStep_call hrun]
      exact ⟨rfl, hp, Function.update_of_ne (Ne.symm hne) ..⟩
    · rw [lockStep_call_busy hrun]
      exact ⟨rfl, hp, rfl⟩
  · have hq : m.holder ≠ some q := hq
    rcases h.running_of_not_holder hq with hrun | ⟨i, hi, hrun⟩ | ⟨r, hrun⟩
    · rw [lockStep_run_idle hrun]
      exact ⟨rfl, hp, rfl⟩
    · obtain ⟨body, hbody, _⟩ := himpl i hi
      rw [hbody] at hrun
      rw [lockStep_wait hrun hp]
      exact ⟨rfl, hp, rfl⟩
    · rw [lockStep_ret hrun]
      exact ⟨rfl, hp, Function.update_of_ne (Ne.symm hne) ..⟩

/-- **The lock is given back** once the holder has taken the steps of its critical section, whatever
the others do in between. -/
theorem Follows.released (himpl : Implements code op ok R bound) {turns : List (Turn π ι)}
    (hok : ∀ turn ∈ turns, turn.Ok ok) (h : Follows code ok R bound m a) (hp : m.holder = some p)
    {c : Code σ ρ} (hrun : m.running p = some c)
    (hcount : c.steps m.shared ≤ turns.countP (Turn.runs p)) :
    ∃ pre, pre <+: turns ∧ (Machine.final (lockStep code) m pre).holder = none := by
  induction turns generalizing m a c with
  | nil =>
    obtain ⟨c', r, s', hrun', _, _, hfinish, _⟩ := h.inside p hp
    obtain rfl : c' = c := Option.some.inj (hrun'.symm.trans hrun)
    rcases Code.finish_cases hfinish with ⟨update, rest, rfl, _⟩ | ⟨rfl, _⟩
    · exact absurd hcount (Nat.not_succ_le_zero _)
    · exact absurd hcount (Nat.not_succ_le_zero _)
  | cons turn turns ih =>
    obtain ⟨moves, _, hnext⟩ := lockStep_follows himpl m a turn h (hok turn List.mem_cons_self)
    have hrest : ∀ turn ∈ turns, turn.Ok ok := fun t ht ↦ hok t (List.mem_cons_of_mem turn ht)
    -- it is enough that the lock is given back later
    have later {c' : Code σ ρ} (hp' : (lockStep code m turn).2.holder = some p)
        (hrun' : (lockStep code m turn).2.running p = some c')
        (hcount' : c'.steps (lockStep code m turn).2.shared ≤ turns.countP (Turn.runs p)) :
        ∃ pre, pre <+: turn :: turns ∧ (Machine.final (lockStep code) m pre).holder = none := by
      obtain ⟨pre, hpre, hfree⟩ := ih hrest hnext hp' hrun' hcount'
      exact ⟨turn :: pre, List.cons_prefix_cons.mpr ⟨rfl, hpre⟩, hfree⟩
    by_cases hworker : turn.worker = p
    · rcases turn with ⟨q, i⟩ | q
      · obtain rfl : q = p := hworker
        have hruns : ¬ Turn.runs q (.call q i : Turn π ι) = true := Bool.false_ne_true
        rw [List.countP_cons_of_neg hruns] at hcount
        rw [lockStep_call_busy hrun] at later
        exact later hp hrun hcount
      · obtain rfl : q = p := hworker
        have hruns : Turn.runs q (.run q : Turn π ι) = true := decide_eq_true rfl
        obtain ⟨c', r, s', hrun', _, _, hfinish, _⟩ := h.inside q hp
        obtain rfl : c' = c := Option.some.inj (hrun'.symm.trans hrun)
        rw [List.countP_cons_of_pos hruns] at hcount
        rcases Code.finish_cases hfinish with ⟨update, rest, rfl, _⟩ | ⟨rfl, rfl⟩
        · rw [lockStep_act hrun] at later
          exact later hp (Function.update_self ..) (Nat.le_of_succ_le_succ hcount)
        · refine ⟨[.run q], List.cons_prefix_cons.mpr ⟨rfl, List.nil_prefix⟩, ?_⟩
          rw [Machine.final_cons, lockStep_unlock hrun hp]
          rfl
    · obtain ⟨hshared, hp', hrun'⟩ := h.step_of_ne himpl hp hworker
      have hruns : ¬ Turn.runs p turn = true := by
        rcases turn with _ | q
        · exact Bool.false_ne_true
        · exact fun hq ↦ hworker (of_decide_eq_true hq)
      rw [List.countP_cons_of_neg hruns, ← hshared] at hcount
      exact later hp' (hrun'.trans hrun) hcount

/-! ## Every call can return -/

theorem Follows.run_holder (h : Follows code ok R bound m a) (hp : m.holder = some p) :
    ∃ n, n ≤ bound ∧ ∃ a' : Object π τ ι ρ,
      let m' := Machine.final (lockStep code) m (List.replicate n (.run p))
      Follows code ok R bound m' a' ∧ m'.holder = none ∧ (∃ r, m'.running p = some (.ret r)) ∧
        ∀ q, q ≠ p → m'.running q = m.running q := by
  obtain ⟨c, r, s', hrun, hphase, hsteps, hfinish, hrel⟩ := h.inside p hp
  refine ⟨c.steps m.shared, hsteps, ?_⟩
  generalize hn : c.steps m.shared = n
  induction n generalizing m a c with
  | zero =>
    rcases Code.finish_cases hfinish with ⟨update, rest, rfl, _⟩ | ⟨rfl, _⟩
    · exact absurd hn (Nat.succ_ne_zero _)
    · exact absurd hn Nat.one_ne_zero
  | succ n ih =>
    rw [List.replicate_succ, Machine.final_cons]
    rcases Code.finish_cases hfinish with ⟨update, rest, rfl, hrest⟩ | ⟨rfl, rfl⟩
    · rw [Code.steps_act] at hn hsteps
      have hnext := h.advance hp hphase (by omega) hrest hrel
      have hrest_steps : (rest m.shared).steps (update m.shared) = n := Nat.succ.inj hn
      rw [lockStep_act hrun]
      obtain ⟨a', hfollows, hfree, hret, hothers⟩ := ih hnext hp _ (Function.update_self ..) hphase
        (Nat.le_of_succ_le hsteps) hrest hrel hrest_steps
      refine ⟨a', hfollows, hfree, hret, fun q hq ↦ ?_⟩
      exact (hothers q hq).trans (Function.update_of_ne hq ..)
    · rw [Code.steps_unlock] at hn
      obtain rfl : n = 0 := by omega
      rw [lockStep_unlock hrun hp]
      exact ⟨a, h.release hp hphase hrel, rfl, ⟨r, Function.update_self ..⟩,
        fun q hq ↦ Function.update_of_ne hq ..⟩

theorem back_mem_trace {r : ρ} (hrun : m.running p = some (.ret r)) :
    Sign.back p r ∈ Machine.trace (lockStep code) m [.run p] := by
  rw [Machine.trace_cons, lockStep_ret hrun]
  exact List.mem_cons_self

theorem Follows.completes_of_holder (h : Follows code ok R bound m a) (hp : m.holder = some p) :
    ∃ workers : List π, workers.length ≤ bound + 1 ∧
      ∃ r, Sign.back p r ∈ Machine.trace (lockStep code) m (workers.map .run) := by
  obtain ⟨n, hn, a', -, -, ⟨r, hret⟩, -⟩ := h.run_holder hp
  refine ⟨List.replicate n p ++ [p], by simpa using hn, r, ?_⟩
  rw [List.map_append, List.map_replicate, Machine.trace_append]
  exact List.mem_append_right _ (back_mem_trace hret)

theorem Follows.completes_of_free (himpl : Implements code op ok R bound)
    (h : Follows code ok R bound m a) (hfree : m.holder = none) {c : Code σ ρ}
    (hrun : m.running p = some c) :
    ∃ workers : List π, workers.length ≤ bound + 2 ∧
      ∃ r, Sign.back p r ∈ Machine.trace (lockStep code) m (workers.map .run) := by
  have hp : m.holder ≠ some p := fun hp ↦ Option.some_ne_none p (hp.symm.trans hfree)
  rcases h.running_of_not_holder hp with hnone | ⟨i, hi, hwait⟩ | ⟨r, hret⟩
  · exact absurd (hrun.symm.trans hnone) (Option.some_ne_none c)
  · obtain ⟨body, hbody, _⟩ := himpl i hi
    obtain ⟨moves, _, hnext⟩ := lockStep_follows himpl m a (.run p) h trivial
    have hlock : lockStep code m (.run p) =
        (none, ⟨m.shared, some p, Function.update m.running p (some body)⟩) :=
      lockStep_lock (hbody ▸ hwait) hfree
    rw [hlock] at hnext
    obtain ⟨workers, hlen, r, hback⟩ := hnext.completes_of_holder rfl
    refine ⟨p :: workers, Nat.succ_le_succ hlen, r, ?_⟩
    rw [List.map_cons, Machine.trace_cons, hlock]
    exact List.mem_append_right _ hback
  · exact ⟨[p], by simp, r, back_mem_trace hret⟩

/-- **Every call can return**: the holder finishes its critical section, and the worker its own. -/
theorem Follows.completes (himpl : Implements code op ok R bound)
    (h : Follows code ok R bound m a) {c : Code σ ρ} (hrun : m.running p = some c) :
    ∃ workers : List π, workers.length ≤ 2 * bound + 2 ∧
      ∃ r, Sign.back p r ∈ Machine.trace (lockStep code) m (workers.map .run) := by
  rcases hheld : m.holder with _ | q
  · obtain ⟨workers, hlen, hback⟩ := h.completes_of_free himpl hheld hrun
    exact ⟨workers, by omega, hback⟩
  · by_cases hqp : q = p
    · obtain ⟨workers, hlen, hback⟩ := h.completes_of_holder (hqp ▸ hheld)
      exact ⟨workers, by omega, hback⟩
    · obtain ⟨n, hn, a', hnext, hfree, -, hothers⟩ := h.run_holder hheld
      obtain ⟨workers, hlen, r, hback⟩ := hnext.completes_of_free himpl hfree
        ((hothers p (Ne.symm hqp)).trans hrun)
      refine ⟨List.replicate n q ++ workers, ?_, r, ?_⟩
      · rw [List.length_append, List.length_replicate]
        omega
      · rw [List.map_append, List.map_replicate, Machine.trace_append]
        exact List.mem_append_right _ hback

end

end

end Concurrent
