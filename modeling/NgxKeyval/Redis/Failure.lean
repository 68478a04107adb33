import NgxKeyval.Redis.Session

/-!
# After a network failure

When a connection fails, the module keeps it, with its error, and tries nothing more for that zone
until the request is over.  That holds for every stage but one: when `SELECT` gets no reply, the
connection is freed and forgotten, and the next access opens a new one.

* `Pool.Dead` says that the zone is left with a connection that has an error; `Access.dead` and
  `Access.eq_of_dead` say that this lasts, and that nothing happens then.
* `failure_sticky_iff` — a failure is the last thing a request does for a zone exactly when the step
  that failed was not `SELECT`.
-/

set_option autoImplicit false

namespace NgxKeyval

/-- A network step that failed: a connection that was made with an error, or a command without a
reply. -/
def Event.networkFailure : Event → Bool
  | .connect _ (some _) _ _ _ err => err
  | .command _ _ none err => err
  | _ => false

/-- A database was being selected. -/
def Event.isSelect : Event → Bool
  | .command _ (.select _) _ _ => true
  | _ => false

section

variable {σ : Type} {hiredis : Hiredis σ} {s s₁ s' : Pool σ} {zone p : Ptr} {conf : RedisConf}
  {cmd : Command} {reply : Option Reply} {new : List Event} {e : Event} {c : Nat}

/-- The zone is left with a connection that has an error. -/
def Pool.Dead (s : Pool σ) (zone : Ptr) : Prop :=
  ∃ a ∈ s.cleanup, (s.ctx a).zone = zone ∧ ∃ c, (s.ctx a).redis = some c ∧ s.err c = true

/-- The zone has a context without a connection. -/
def Pool.Unconnected (s : Pool σ) (zone : Ptr) : Prop :=
  ∃ a ∈ s.cleanup, (s.ctx a).zone = zone ∧ (s.ctx a).redis = none

/-- Opening fails for good, unless it is `SELECT` that fails. -/
theorem Opening.of_failure {result redis : Option Nat} {err : Bool}
    (h : Opening zone conf c new result redis err) (he : e ∈ new)
    (hfail : e.networkFailure = true) :
    result = none ∧ if e.isSelect then redis = none else redis = some c ∧ err = true := by
  cases h with
  | refused =>
    obtain rfl := List.mem_singleton.mp he
    exact ⟨rfl, rfl, rfl⟩
  | selectLost hdb err err' =>
    simp only [List.mem_cons, List.not_mem_nil, or_false] at he
    rcases he with rfl | rfl | rfl | rfl
    · cases hfail
    · cases hfail
    · exact ⟨rfl, rfl⟩
    · cases hfail
  | _ =>
    have hmem := List.mem_filter.mpr ⟨he, hfail⟩
    simp [Event.networkFailure] at hmem

theorem Sending.of_failure {err : Bool} (h : Sending c cmd new reply err) (he : e ∈ new)
    (hfail : e.networkFailure = true) :
    err = true ∧ ∃ err', e = .command c cmd none err' := by
  cases h with
  | lost err =>
    obtain rfl := List.mem_singleton.mp he
    exact ⟨hfail, err, rfl⟩
  | answered r reply err =>
    have hmem := List.mem_filter.mpr ⟨he, hfail⟩
    simp [Event.networkFailure] at hmem

/-- **What a failure leaves behind**: a connection with an error, or none at all after `SELECT`. -/
theorem Access.of_failure (h : Access hiredis zone conf cmd s s' new reply) (hs : s.Sane)
    (hcmd : cmd.carriesData = true) (he : e ∈ new) (hfail : e.networkFailure = true) :
    if e.isSelect then s'.Unconnected zone else s'.Dead zone := by
  have hnot : ∀ d err', (Event.command d cmd none err').isSelect = false := by
    cases cmd with
    | select => cases hcmd
    | _ => exact fun _ _ ↦ rfl
  cases h with
  | noContext => cases he
  | stuck => cases he
  | reused a d _ _ ha hzone hredis _ hext hctx hsend _ =>
    obtain ⟨herr, err', rfl⟩ := hsend.of_failure he hfail
    rw [hnot]
    refine ⟨a, hext.cleanup ▸ ha, ?_, d, ?_, herr⟩
    · rw [hctx, hzone]
    · rw [hctx, hredis]
  | failed s₁ a _ hfound _ hext hopen _ =>
    obtain ⟨-, ha, hzone, -⟩ := hfound.spec hs
    rw [← hext.cleanup] at ha
    rw [← hext.zone] at hzone
    obtain ⟨-, hredis⟩ := hopen.of_failure he hfail
    split
    · rename_i hselect
      rw [if_pos hselect] at hredis
      exact ⟨a, ha, hzone, hredis⟩
    · rename_i hselect
      rw [if_neg hselect] at hredis
      exact ⟨a, ha, hzone, s₁.next, hredis⟩
  | opened s₁ a new₁ new' _ err hfound _ hext hopen hredis _ hsend _ =>
    obtain ⟨-, ha, hzone, -⟩ := hfound.spec hs
    rw [← hext.cleanup] at ha
    rw [← hext.zone] at hzone
    rcases List.mem_append.mp he with he | he
    · cases (hopen.of_failure he hfail).1
    · obtain ⟨herr, err', rfl⟩ := hsend.of_failure he hfail
      rw [hnot]
      exact ⟨a, ha, hzone, s₁.next, hredis, herr⟩

/-- **Nothing happens for a dead zone.** -/
theorem Access.eq_of_dead (h : Access hiredis zone conf cmd s s' new reply) (hs : s.Sane)
    (hdead : s.Dead zone) : s' = s ∧ reply = none := by
  obtain ⟨a, ha, hzone, c, hredis, herr⟩ := hdead
  -- a context that was found is the dead one
  have hfound_eq : ∀ s₁ b, Found zone s s₁ b → (s₁.ctx b).redis = some c := by
    intro s₁ b hfound
    rcases hfound with ⟨hb, hbz, rfl⟩ | ⟨hno, -, -⟩
    · rw [hs.zone_inj b hb a ha (hbz.trans hzone.symm)]
      exact hredis
    · exact absurd hzone (hno a ha)
  cases h with
  | noContext hno => exact absurd hzone (hno a ha)
  | stuck _ _ _ _ _ _ hs' => exact ⟨hs', rfl⟩
  | reused b d _ _ hb hbz hd hderr =>
    have hcd := hfound_eq s b (Or.inl ⟨hb, hbz, rfl⟩)
    rw [hd, Option.some.injEq] at hcd
    rw [hcd, herr] at hderr
    cases hderr
  | failed s₁ b _ hfound hnone =>
    rw [hfound_eq s₁ b hfound] at hnone
    cases hnone
  | opened s₁ b _ _ _ _ hfound hnone =>
    rw [hfound_eq s₁ b hfound] at hnone
    cases hnone

/-- **A dead zone stays dead**, whichever zone is accessed. -/
theorem Access.dead (h : Access hiredis zone conf cmd s s' new reply) (hs : s.Sane)
    (hdead : s.Dead p) : s'.Dead p := by
  by_cases hzp : zone = p
  · rw [(h.eq_of_dead hs (hzp ▸ hdead)).1]
    exact hdead
  obtain ⟨a, ha, hzone, c, hredis, herr⟩ := hdead
  -- another context, with another connection, is worked on
  have hextends : ∀ s₁ b d new', Found zone s s₁ b → ((s₁.ctx b).redis = some d ∨ d = s₁.next) →
      Extends s₁ s' b d new' → s'.Dead p := by
    intro s₁ b d new' hfound hd hext
    obtain ⟨hs₁, hb, hbz, -, herr₁, hnext, hctx, -⟩ := hfound.spec hs
    obtain ⟨ha₁, hctxa⟩ := hctx a ha
    have hab : a ≠ b := by
      rintro rfl
      rw [hctxa] at hbz
      exact hzp (hbz.symm.trans hzone)
    have hcd : c ≠ d := by
      rintro rfl
      rcases hd with hd | rfl
      · exact hab (hs₁.redis_inj a ha₁ b hb c (hctxa ▸ hredis) hd)
      · have hlt := hs.redis_lt a ha s₁.next hredis
        omega
    refine ⟨a, hext.cleanup ▸ ha₁, ?_, c, ?_, ?_⟩
    · rw [hext.ctx a hab, hctxa, hzone]
    · rw [hext.ctx a hab, hctxa, hredis]
    · rw [hext.err c hcd, herr₁, herr]
  cases h with
  | noContext _ hs' =>
    rcases hs' with rfl | rfl
    · exact ⟨a, ha, hzone, c, hredis, herr⟩
    · have hctx := abandon_ctx_of_mem hs zone ha
      exact ⟨a, ha, by rw [hctx, hzone], c, by rw [hctx, hredis], herr⟩
  | stuck _ _ _ _ _ _ hs' =>
    rw [hs']
    exact ⟨a, ha, hzone, c, hredis, herr⟩
  | reused b d _ _ hb hbz hd _ hext =>
    exact hextends s b d new (Or.inl ⟨hb, hbz, rfl⟩) (Or.inl hd) hext
  | failed s₁ b _ hfound _ hext => exact hextends s₁ b s₁.next new hfound (Or.inr rfl) hext
  | opened s₁ b _ _ _ _ hfound _ hext => exact hextends s₁ b s₁.next _ hfound (Or.inr rfl) hext

/-- **A zone without a connection is connected again**, so something happens. -/
theorem Access.ne_of_unconnected (h : Access hiredis zone conf cmd s s' new reply) (hs : s.Sane)
    (hun : s.Unconnected zone) : s' ≠ s := by
  have htrace := h.trace hs
  obtain ⟨a, ha, hzone, hredis⟩ := hun
  have hstuck : ∀ b ∈ s.cleanup, (s.ctx b).zone = zone → ∀ c, (s.ctx b).redis ≠ some c := by
    intro b hb hbz c hc
    rw [hs.zone_inj b hb a ha (hbz.trans hzone.symm), hredis] at hc
    cases hc
  rintro rfl
  have hnil : new = [] := List.self_eq_append_right.mp htrace
  cases h with
  | noContext hno => exact hno a ha hzone
  | stuck b c hb hbz hc => exact hstuck b hb hbz c hc
  | reused b c _ _ hb hbz hc => exact hstuck b hb hbz c hc
  | failed s₁ b _ _ _ _ hopen =>
    rw [hnil] at hopen
    cases hopen
  | opened s₁ b _ _ _ _ _ _ _ hopen =>
    rw [(List.append_eq_nil_iff.mp hnil).1] at hopen
    cases hopen

end

/-! ## Within one request -/

section

variable {w : Nat} {σ : Type} {env : StoreEnv w σ}

/-- **A dead zone stays dead**, whatever is called. -/
theorem storeStep_dead {p : Ptr} {s : StoreState w σ} (call : StoreCall w)
    (h : s.pool.Sane ∧ s.pool.Dead p) :
    (storeStep env s call).2.pool.Sane ∧ (storeStep env s call).2.pool.Dead p := by
  refine ⟨storeStep_sane s call h.1, ?_⟩
  rcases storeStep_pool_cases h.1 call with heq | ⟨q, new, reply, -, -, haccess⟩
  · exact heq ▸ h.2
  · exact haccess.dead h.1 h.2

/-- **When a failure is the last thing that happens.**  Let a network step fail during a call, at
any point of a request and whatever the client library answers.  Every later call for the zone then
fails without doing anything, whatever is called in between, exactly when the step was not
`SELECT`. -/
theorem failure_sticky_iff {shm : Nat → ShmZone w} {world : σ} {s : StoreState w σ}
    (hs : Machine.Reachable (storeStep env) ⟨shm, Pool.new world⟩ s) {call : StoreCall w} {p : Ptr}
    (hzone : call.zone = some p) {new : List Event} {e : Event}
    (htrace : (storeStep env s call).2.pool.trace = s.pool.trace ++ new) (he : e ∈ new)
    (hfail : e.networkFailure = true) :
    (∀ (later : List (StoreCall w)) (next : StoreCall w), next.zone = some p →
      let t := Machine.final (storeStep env) (storeStep env s call).2 later
      storeStep env t next = (next.result none, t)) ↔ e.isSelect = false := by
  have hsane := sane_of_reachable hs
  -- something was recorded, so this is a Redis zone
  have hstore : (env.zones p).store = some .redis := by
    by_contra hno
    rw [storeStep_pool fun q hq ↦ by rw [← Option.some.inj (hzone.symm.trans hq)]; exact hno]
      at htrace
    rw [List.self_eq_append_right.mp htrace] at he
    cases he
  obtain ⟨new', haccess⟩ := redisAccess_cases env.hiredis hsane p (env.zones p).redis
    (call.command (env.zones p)) call.alloc
  rw [storeStep_redis hzone hstore] at htrace ⊢
  have hnew : new' = new := by
    rw [haccess.trace hsane, List.append_cancel_left_eq] at htrace
    exact htrace
  rw [hnew] at haccess
  have hsane' := haccess.sane hsane
  have hleft := haccess.of_failure hsane (StoreCall.carriesData_command _ call) he hfail
  constructor
  · intro hsticky
    by_contra hselect
    rw [if_pos (by simpa using hselect)] at hleft
    -- the next call of the same kind opens a connection
    have hnext := congrArg (fun r ↦ r.2.pool) (hsticky [] call hzone)
    simp only [Machine.final_nil, storeStep_redis hzone hstore] at hnext
    obtain ⟨new₂, haccess₂⟩ := redisAccess_cases env.hiredis hsane' p (env.zones p).redis
      (call.command (env.zones p)) call.alloc
    exact haccess₂.ne_of_unconnected hsane' hleft hnext
  · intro hselect later next hnext
    rw [if_neg (by simp [hselect])] at hleft
    intro t
    have hreach : Machine.Reachable (storeStep env) _ t := ⟨later, rfl⟩
    obtain ⟨hsane₂, hdead⟩ := hreach.induction (P := fun t ↦ t.pool.Sane ∧ t.pool.Dead p)
      ⟨hsane', hleft⟩ fun t i h ↦ storeStep_dead i h
    obtain ⟨new₂, haccess₂⟩ := redisAccess_cases env.hiredis hsane₂ p (env.zones p).redis
      (next.command (env.zones p)) next.alloc
    obtain ⟨hpool, hreply⟩ := haccess₂.eq_of_dead hsane₂ hdead
    rw [storeStep_redis hnext hstore, hpool, hreply]

end

/-- A client library that connects to a server that never answers. -/
def hungHiredis : Hiredis Unit where
  connect _ _ _ _ _ := (some false, ())
  setTimeout _ _ _ := (true, ())
  command _ _ _ := ((none, true), ())
  free _ _ := ()

/-- A request of a configuration with one Redis zone, whose server never answers. -/
def hungEnv (args : List Bytes) : StoreEnv 64 Unit where
  ngx := plainCore 64
  hiredis := hungHiredis
  shared := []
  zones := (redisEnv args).zones

/-- The request after it has read a key of the zone. -/
def hungRead (args : List Bytes) : StoreState 64 Unit :=
  (storeStep (hungEnv args) ⟨fun _ ↦ ⟨.leaf, ⟨[], 0, []⟩⟩, Pool.new ()⟩ readK).2

/-- The condition at work: a zone that selects no database gives up after its first `GET`. -/
theorem failure_sticky_default :
    storeStep (hungEnv []) (hungRead []) readK = (some .error, hungRead []) := by
  have hreach : Machine.Reachable (storeStep (hungEnv []))
      ⟨fun _ ↦ ⟨.leaf, ⟨[], 0, []⟩⟩, Pool.new ()⟩ ⟨fun _ ↦ ⟨.leaf, ⟨[], 0, []⟩⟩, Pool.new ()⟩ :=
    ⟨[], rfl⟩
  have htrace : (storeStep (hungEnv []) ⟨fun _ ↦ ⟨.leaf, ⟨[], 0, []⟩⟩, Pool.new ()⟩
      readK).2.pool.trace = [] ++ [.connect ⟨0, 0⟩ (some 1) (some (lit "127.0.0.1")) 6379 3 false,
        .setTimeout 1 3 true, .command 1 (.get (lit "z:k")) none true] := by decide
  have hzone : readK.zone = some ⟨0, 0⟩ := rfl
  have hget : Event.command 1 (.get (lit "z:k")) none true ∈
      [.connect ⟨0, 0⟩ (some 1) (some (lit "127.0.0.1")) 6379 3 false, .setTimeout 1 3 true,
        .command 1 (.get (lit "z:k")) none true] := by simp
  exact (failure_sticky_iff hreach hzone htrace hget rfl).mpr rfl [] readK rfl

/-- **`SELECT` is tried again.**  With `database=2`, the first read fails at `SELECT`; the second
one connects and sends `SELECT` again, and blocks for as long again. -/
theorem select_failure_not_sticky :
    let env := hungEnv [lit "database=2"]
    let s := hungRead [lit "database=2"]
    .command 1 (.select 2) none true ∈ s.pool.trace ∧
      (storeStep env s readK).2.pool.trace = s.pool.trace ++
        [.connect ⟨0, 0⟩ (some 2) (some (lit "127.0.0.1")) 6379 3 false, .setTimeout 2 3 true,
          .command 2 (.select 2) none true, .free 2] ∧
      storeStep env s readK ≠ (some .error, s) := by
  refine ⟨by decide, by decide, fun h ↦ ?_⟩
  have htrace := congrArg (fun r ↦ r.2.pool.trace) h
  exact absurd htrace (by decide)

end NgxKeyval
