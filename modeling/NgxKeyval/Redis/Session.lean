import NgxKeyval.Library.Machine
import NgxKeyval.Conf.PlainConf
import NgxKeyval.Redis.Pool
import NgxKeyval.Redis.Server
import NgxKeyval.Store.Ops

/-!
# Sessions with a Redis server

Whatever the client library answers, and in whatever order the zones of a request are accessed, a
command that carries data is sent on a connection that was opened for its zone and is in order.

* `Session` is what the history of such a connection looks like, for the port and the database that
  were really sent; `Ready` is the same for those that were configured.
* `Access.usable` — what is `Historical` about a connection stays true of every connection that can
  be used again, through any access.
* `Sessions` is the invariant: every connection that can be used again has such a history.
* `storeStep_command_ready_iff` — the two agree exactly when the port and the database fit into a C
  `int`, which is what they are sent as.
-/

set_option autoImplicit false

namespace NgxKeyval

/-! ## The history of a connection -/

/-- The commands other than `SELECT`. -/
def Command.carriesData : Command → Bool
  | .select _ => false
  | _ => true

/-- A command that carries data was sent. -/
def Event.carriesData : Event → Bool
  | .command _ cmd _ _ => cmd.carriesData
  | _ => false

/-- The events about a connection. -/
def history (c : Nat) (trace : List Event) : List Event :=
  trace.filter fun e ↦ decide (e.conn = some c)

/-- A command that carries data was sent, and answered. -/
def Answered (c : Nat) (e : Event) : Prop :=
  ∃ cmd r err, e = .command c cmd (some r) err ∧ cmd.carriesData = true

/-- A database was selected, and the server did not object; without a database, none was. -/
inductive Selects (conf : RedisConf) (db : Int) (c : Nat) : List Event → Prop
  | default (hdb : ¬ conf.db > 0) : Selects conf db c []
  | selected (hdb : conf.db > 0) (r reply err) (hreply : ∀ msg, reply ≠ .error msg) :
      Selects conf db c [.command c (.select db) (some (r, reply)) err]

/-- A connection that is ready for the next command.  It was opened to the host and `port` with the
connect timeout; then the command timeout was set; then `db` was selected, if a database is
configured; and every command since has been answered.  It has not been freed. -/
def Session (conf : RedisConf) (port db : Int) (c : Nat) (trace : List Event) : Prop :=
  ∃ zone select data, Selects conf db c select ∧ (∀ e ∈ data, Answered c e) ∧
    history c trace =
      .connect zone (some c) conf.hostname port conf.connectTimeout false ::
        .setTimeout c conf.commandTimeout true :: (select ++ data)

/-- The same, for the port and the database that are really sent. -/
def Sent (conf : RedisConf) (c : Nat) (trace : List Event) : Prop :=
  Session conf (cInt conf.port) (cInt conf.db) c trace

/-- The same, for the port and the database of the zone. -/
def Ready (conf : RedisConf) (c : Nat) (trace : List Event) : Prop :=
  Session conf conf.port conf.db c trace

/-- The port and the database, if there is one, are values of a C `int`. -/
def RedisConf.FitsInt (conf : RedisConf) : Prop :=
  cInt conf.port = conf.port ∧ (conf.db > 0 → cInt conf.db = conf.db)

instance (conf : RedisConf) : Decidable conf.FitsInt := inferInstanceAs (Decidable (_ ∧ _))

theorem cInt_eq_iff {n : Int} (h : 0 ≤ n) : cInt n = n ↔ n < 2 ^ 31 := by
  rw [cInt, Int.bmod]
  omega

/-- For the settings the parser accepts, this is a bound on the database. -/
theorem RedisConf.Valid.fitsInt_iff {conf : RedisConf} (h : conf.Valid) :
    conf.FitsInt ↔ conf.db < 2 ^ 31 := by
  have hport := h.port_pos
  have hport' := h.port_le
  rw [RedisConf.FitsInt, cInt_eq_iff (by omega), and_iff_right (by omega),
    cInt_eq_iff h.db_nonneg]
  omega

theorem history_append (c : Nat) (t t' : List Event) :
    history c (t ++ t') = history c t ++ history c t' := List.filter_append ..

theorem history_eq_nil {c : Nat} {t : List Event} (h : ∀ e ∈ t, e.conn ≠ some c) :
    history c t = [] := by
  rw [history, List.filter_eq_nil_iff]
  exact fun e he ↦ by simpa using h e he

theorem Session.unique {conf : RedisConf} {port db port' db' : Int} {c : Nat} {t : List Event}
    (h : Session conf port db c t) (h' : Session conf port' db' c t) :
    port = port' ∧ (conf.db > 0 → db = db') := by
  obtain ⟨zone, select, data, hsel, -, hhist⟩ := h
  obtain ⟨zone', select', data', hsel', -, hhist'⟩ := h'
  rw [hhist, List.cons.injEq, List.cons.injEq, Event.connect.injEq] at hhist'
  obtain ⟨⟨-, -, -, hport, -, -⟩, -, hrest⟩ := hhist'
  refine ⟨hport, fun hdb ↦ ?_⟩
  cases hsel with
  | default hdb' => exact absurd hdb hdb'
  | selected _ r reply err _ =>
    cases hsel' with
    | default hdb' => exact absurd hdb hdb'
    | selected _ r' reply' err' _ =>
      simp only [List.cons_append, List.cons.injEq, Event.command.injEq, Command.select.injEq]
        at hrest
      exact hrest.1.2.1

/-- **What was sent is what was configured** exactly when both fit into an `int`. -/
theorem Sent.ready_iff {conf : RedisConf} {c : Nat} {t : List Event}
    (h : Sent conf c t) : Ready conf c t ↔ conf.FitsInt := by
  constructor
  · exact fun hready ↦ h.unique hready
  · rintro ⟨hport, hdb⟩
    obtain ⟨zone, select, data, hsel, hdata, hhist⟩ := h
    refine ⟨zone, select, data, ?_, hdata, hport ▸ hhist⟩
    cases hsel with
    | default hno => exact Selects.default hno
    | selected hyes r reply err hreply =>
      rw [hdb hyes]
      exact Selects.selected hyes r reply err hreply

section

variable {σ : Type} {s s₁ s' : Pool σ} {a c d : Nat} {new : List Event}

theorem Extends.history_eq (h : Extends s s' a c new) (hd : d ≠ c) :
    history d s'.trace = history d s.trace := by
  have hnew : history d new = [] := history_eq_nil fun e he hconn ↦ hd (h.conn e he d hconn).1
  rw [h.trace, history_append, hnew, List.append_nil]

theorem Opening.session {zone : Ptr} {conf : RedisConf} {result redis : Option Nat} {err : Bool}
    (h : Opening zone conf c new result redis err) {t : List Event}
    (ht : ∀ e ∈ t, e.conn ≠ some c) (hresult : result = some d) :
    d = c ∧ Sent conf c (t ++ new) := by
  rw [Sent, Session]
  simp only [history_append, history_eq_nil ht, List.nil_append]
  cases h with
  | selected hdb r reply err hreply =>
    refine ⟨(Option.some.inj hresult).symm, zone, _, [], Selects.selected hdb r reply err hreply,
      ?_⟩
    simp [history, Event.conn]
  | opened hdb =>
    refine ⟨(Option.some.inj hresult).symm, zone, [], [], Selects.default hdb, ?_⟩
    simp [history, Event.conn]
  | _ => cases hresult

theorem Opening.err {zone : Ptr} {conf : RedisConf} {redis : Option Nat} {err : Bool}
    (h : Opening zone conf c new none redis err) (hredis : redis = some d) : err = true := by
  cases h <;> simp_all

theorem Opening.not_carriesData {zone : Ptr} {conf : RedisConf} {result redis : Option Nat}
    {err : Bool} (h : Opening zone conf c new result redis err) :
    ∀ e ∈ new, e.carriesData = false := by
  cases h <;> simp [Event.carriesData, Command.carriesData]

theorem Session.append {conf : RedisConf} {port db : Int} {cmd : Command} {reply : Option Reply}
    {err : Bool} {t : List Event} (h : Session conf port db c t) (hcmd : cmd.carriesData = true)
    (hsend : Sending c cmd new reply err) (hreply : reply ≠ none) :
    Session conf port db c (t ++ new) := by
  obtain ⟨zone, select, data, hsel, hdata, hhist⟩ := h
  cases hsend with
  | lost err => exact absurd rfl hreply
  | answered r reply err =>
    refine ⟨zone, select, data ++ [.command c cmd (some (r, reply)) err], hsel, ?_, ?_⟩
    · intro e he
      rcases List.mem_append.mp he with he | he
      · exact hdata e he
      · exact ⟨cmd, _, err, List.mem_singleton.mp he, hcmd⟩
    · rw [history_append, hhist]
      simp [history, Event.conn]

/-! ## Connections that can be used again -/

/-- Every connection that can be used again satisfies `P`, with the settings of its zone. -/
def Pool.Usable (P : RedisConf → Nat → List Event → Prop) (conf : Ptr → RedisConf)
    (s : Pool σ) : Prop :=
  ∀ a ∈ s.cleanup, ∀ c, (s.ctx a).redis = some c → s.err c = false →
    P (conf (s.ctx a).zone) c s.trace

/-- What is asked of `P`: it is about the history of the connection, holds when one was opened, and
survives a command that leaves the connection in order. -/
structure Historical (hiredis : Hiredis σ) (P : RedisConf → Nat → List Event → Prop) : Prop where
  congr : ∀ {conf c t t'}, history c t = history c t' → P conf c t → P conf c t'
  opened : ∀ {zone conf c new err t}, Opening zone conf c new (some c) (some c) err →
    (∀ e ∈ t, e.conn ≠ some c) → P conf c (t ++ new)
  sent : ∀ {conf c t cmd new reply}, P conf c t → cmd.carriesData = true →
    Sending c cmd new reply false → (hiredis.Lawful → reply ≠ none) → P conf c (t ++ new)

variable {hiredis : Hiredis σ} {zone : Ptr} {conf : Ptr → RedisConf} {cmd : Command}
  {reply : Option Reply} {P : RedisConf → Nat → List Event → Prop}

theorem usable_new (conf : Ptr → RedisConf) (world : σ) : (Pool.new world).Usable P conf :=
  fun _ ha ↦ (by cases ha)

theorem Pool.Sane.conn_ne_next (h : s.Sane) : ∀ e ∈ s.trace, e.conn ≠ some s.next :=
  fun e he hconn ↦ Nat.lt_irrefl _ (h.fresh e he s.next hconn)

theorem Pool.Usable.found (h : s.Usable P conf) (hs : s.Sane) (hfound : Found zone s s₁ a) :
    s₁.Usable P conf := by
  obtain ⟨-, ha, hzone, htrace, herr, -, hctx, hmem⟩ := hfound.spec hs
  intro b hb c hredis hc
  rw [htrace]
  rw [herr] at hc
  by_cases hbs : b ∈ s.cleanup
  · rw [(hctx b hbs).2] at hredis ⊢
    exact h b hbs c hredis hc
  · rcases hfound with ⟨ha', -, rfl⟩ | ⟨-, rfl, rfl⟩
    · exact absurd hb hbs
    · obtain rfl := (hmem b hb).resolve_right hbs
      rw [register_ctx_self] at hredis
      cases hredis

/-- What an operation on a registered context must show: that `P` holds of its own connection. -/
theorem Pool.Usable.extends (hP : Historical hiredis P) (h : s.Usable P conf) (hs : s.Sane)
    (hext : Extends s s' a c new) (ha : a ∈ s.cleanup)
    (hown : (s.ctx a).redis = some c ∨ c = s.next)
    (hredis : ∀ d, (s'.ctx a).redis = some d → d = c)
    (hnew : (s'.ctx a).redis = some c → s'.err c = false → P (conf (s.ctx a).zone) c s'.trace) :
    s'.Usable P conf := by
  intro b hb d hd herr
  rw [hext.cleanup] at hb
  by_cases hba : b = a
  · subst hba
    obtain rfl := hredis d hd
    rw [hext.zone]
    exact hnew hd herr
  · rw [hext.ctx b hba] at hd ⊢
    have hdc : d ≠ c := by
      rintro rfl
      rcases hown with hown | rfl
      · exact hba (hs.redis_inj b hb a ha d hd hown)
      · exact Nat.lt_irrefl _ (hs.redis_lt b hb s.next hd)
    rw [hext.err d hdc] at herr
    exact hP.congr (hext.history_eq hdc).symm (h b hb d hd herr)

theorem Access.usable (hP : Historical hiredis P)
    (h : Access hiredis zone (conf zone) cmd s s' new reply) (hs : s.Sane)
    (hu : s.Usable P conf) (hcmd : cmd.carriesData = true) : s'.Usable P conf := by
  cases h with
  | noContext _ hs₁ =>
    rcases hs₁ with rfl | rfl
    · exact hu
    · intro b hb c hredis herr
      have hctx := abandon_ctx_of_mem hs zone hb
      rw [hctx] at hredis ⊢
      exact hu b hb c hredis herr
  | stuck _ _ _ _ _ _ hs₁ => exact hs₁ ▸ hu
  | reused a c _ _ ha hzone hredis herr hext hctx hsend hlost =>
    refine hu.extends hP hs hext ha (Or.inl hredis) ?_ ?_
    · intro d hd
      rw [hctx, hredis] at hd
      exact (Option.some.inj hd).symm
    · intro _ herr'
      rw [herr'] at hsend hlost
      rw [hext.trace]
      exact hP.sent (hu a ha c hredis herr) hcmd hsend fun hlaw hnone ↦ nomatch hlost hlaw hnone
  | failed s₁ a _ hfound hredis hext hopen hlt =>
    obtain ⟨hs₁, ha, hzone, -⟩ := hfound.spec hs
    refine (hu.found hs hfound).extends hP hs₁ hext ha (Or.inr rfl) ?_ ?_
    · intro d hd
      rcases hopen.redis_eq with hnone | hsome
      · rw [hnone] at hd
        cases hd
      · rw [hsome] at hd
        exact (Option.some.inj hd).symm
    · intro hredis' herr'
      rw [hopen.err hredis'] at herr'
      cases herr'
  | opened s₁ a new new' _ err hfound hnone hext hopen hredis hlt hsend hlost =>
    obtain ⟨hs₁, ha, hzone, -⟩ := hfound.spec hs
    refine (hu.found hs hfound).extends hP hs₁ hext ha (Or.inr rfl) ?_ ?_
    · intro d hd
      rw [hredis] at hd
      exact (Option.some.inj hd).symm
    · intro _ herr'
      rw [herr'] at hsend hlost
      rw [hext.trace, ← List.append_assoc, hzone]
      exact hP.sent (hP.opened hopen hs₁.conn_ne_next) hcmd hsend
        fun hlaw hnone ↦ nomatch hlost hlaw hnone

theorem Sending.eq_of_command {err err' : Bool} {pre post : List Event} {cmd' : Command}
    {r : Option (Nat × Reply)} (h : Sending c cmd new reply err)
    (hnew : new = pre ++ .command d cmd' r err' :: post) : pre = [] ∧ d = c := by
  cases h with
  | lost err =>
    rcases pre with _ | ⟨e, pre⟩
    · exact ⟨rfl, by simp_all⟩
    · simp at hnew
  | answered r' reply err =>
    rcases pre with _ | ⟨e, _ | ⟨e', pre⟩⟩
    · exact ⟨rfl, by simp_all⟩
    · simp at hnew
    · simp at hnew

/-- **Data is sent on a connection that satisfies `P`.** -/
theorem Access.usable_sent (hP : Historical hiredis P)
    (h : Access hiredis zone (conf zone) cmd s s' new reply) (hs : s.Sane)
    (hu : s.Usable P conf) {pre post : List Event} {cmd' : Command} {r : Option (Nat × Reply)}
    {err : Bool} (hnew : new = pre ++ .command c cmd' r err :: post)
    (hdata : cmd'.carriesData = true) : P (conf zone) c (s.trace ++ pre) := by
  cases h with
  | noContext => simp at hnew
  | stuck => simp at hnew
  | reused a d _ _ ha hzone hredis herr _ _ hsend _ =>
    obtain ⟨rfl, rfl⟩ := hsend.eq_of_command hnew
    rw [List.append_nil, ← hzone]
    exact hu a ha c hredis herr
  | failed s₁ a _ _ _ _ hopen _ =>
    have hno := hopen.not_carriesData (.command c cmd' r err) (by rw [hnew]; simp)
    rw [Event.carriesData, hdata] at hno
    cases hno
  | opened s₁ a new₁ new' _ err' hfound _ _ hopen _ _ hsend _ =>
    obtain ⟨hs₁, -, -, htrace, -⟩ := hfound.spec hs
    have hsess := hP.opened hopen hs₁.conn_ne_next
    rw [htrace] at hsess
    -- the command is not one of those that open the connection
    have hnot : .command c cmd' r err ∉ new₁ := by
      intro he
      have hno := hopen.not_carriesData _ he
      rw [Event.carriesData, hdata] at hno
      cases hno
    rcases List.append_eq_append_iff.mp hnew with ⟨pre', rfl, hnew'⟩ | ⟨rest, hnew₁, hrest⟩
    · obtain ⟨rfl, rfl⟩ := hsend.eq_of_command hnew'
      rw [List.append_nil]
      exact hsess
    · rcases rest with _ | ⟨e, rest⟩
      · obtain ⟨-, rfl⟩ := hsend.eq_of_command
          (show new' = [] ++ .command c cmd' r err :: post from hrest.symm)
        rw [List.append_nil] at hnew₁
        rw [← hnew₁]
        exact hsess
      · obtain ⟨rfl, -⟩ := List.cons.inj hrest
        exact absurd (by rw [hnew₁]; simp) hnot

/-! ## The invariant -/

/-- Every connection that can be used again is ready for the zone of its context. -/
structure Sessions (conf : Ptr → RedisConf) (s : Pool σ) : Prop where
  sane : s.Sane
  sent : ∀ a ∈ s.cleanup, ∀ c, (s.ctx a).redis = some c → s.err c = false →
    Sent (conf (s.ctx a).zone) c s.trace

/-- With a lawful library, a connection that is in order has answered everything. -/
theorem historical_sent (hlaw : hiredis.Lawful) : Historical hiredis Sent where
  congr heq h := by
    obtain ⟨zone, select, data, hsel, hdata, hhist⟩ := h
    exact ⟨zone, select, data, hsel, hdata, heq ▸ hhist⟩
  opened hopen ht := (hopen.session ht rfl).2
  sent h hcmd hsend hreply := h.append hcmd hsend (hreply hlaw)

end

/-! ## Calls of the store operations -/

section

variable {w : Nat} {σ : Type} {env : StoreEnv w σ}

/-- The command a call sends to the zone of a record. -/
def StoreCall.command (z : Zone) : StoreCall w → Command
  | .get _ key _ _ => .get (redisKey z.name key)
  | .set _ key val _ _ => setCommand z.redis z.name key val

/-- What the allocators answer during a call. -/
def StoreCall.alloc : StoreCall w → AccessAlloc
  | .get _ _ _ o => o
  | .set _ _ _ _ o => o

/-- What a call makes of the reply. -/
def StoreCall.result (reply : Option Reply) : StoreCall w → Option GetResult
  | .get _ _ _ o => some (getResult o reply)
  | .set .. => none

theorem StoreCall.carriesData_command (z : Zone) (call : StoreCall w) :
    (call.command z).carriesData = true := by
  cases call with
  | get => rfl
  | set =>
    rw [StoreCall.command, setCommand]
    split <;> rfl

theorem storeStep_redis {s : StoreState w σ} {call : StoreCall w} {p : Ptr}
    (hzone : call.zone = some p) (hstore : (env.zones p).store = some .redis) :
    storeStep env s call =
      (call.result (redisAccess env.hiredis p (env.zones p).redis (call.command (env.zones p))
        call.alloc s.pool).1,
      { s with pool := (redisAccess env.hiredis p (env.zones p).redis
        (call.command (env.zones p)) call.alloc s.pool).2 }) := by
  cases call with
  | get zone key now o =>
    obtain rfl : zone = some p := hzone
    simp only [storeStep, storeGet, hstore, storeRedisGet_eq]
    rfl
  | set zone key val now o =>
    obtain rfl : zone = some p := hzone
    simp only [storeStep, storeSet, hstore, storeRedisSet_eq]
    rfl

theorem storeStep_pool {s : StoreState w σ} {call : StoreCall w}
    (h : ∀ p, call.zone = some p → (env.zones p).store ≠ some .redis) :
    (storeStep env s call).2.pool = s.pool := by
  cases call with
  | get zone key now o =>
    rcases zone with _ | p
    · rfl
    · have hp := h p rfl
      rcases hstore : (env.zones p).store with _ | _ | _
      · simp only [storeStep, storeGet, hstore]
      · simp only [storeStep, storeGet, hstore, storeShmGet]
        split <;> rfl
      · exact absurd hstore hp
  | set zone key val now o =>
    rcases zone with _ | p
    · rfl
    · have hp := h p rfl
      rcases hstore : (env.zones p).store with _ | _ | _
      · simp only [storeStep, storeSet, hstore]
      · simp only [storeStep, storeSet, hstore, storeShmSet]
        split <;> rfl
      · exact absurd hstore hp

/-- The settings of the zone at an address. -/
def StoreEnv.redisConf (env : StoreEnv w σ) (p : Ptr) : RedisConf := (env.zones p).redis

/-- **What a call does to the pool**: nothing, or what an access of the Redis zone it is about does.
-/
theorem storeStep_pool_cases {s : StoreState w σ} (hs : s.pool.Sane) (call : StoreCall w) :
    (storeStep env s call).2.pool = s.pool ∨
      ∃ p new reply, call.zone = some p ∧ (env.zones p).store = some .redis ∧
        Access env.hiredis p (env.redisConf p) (call.command (env.zones p)) s.pool
          (storeStep env s call).2.pool new reply := by
  by_cases hredis : ∃ p, call.zone = some p ∧ (env.zones p).store = some .redis
  · obtain ⟨p, hzone, hstore⟩ := hredis
    obtain ⟨new, haccess⟩ := redisAccess_cases env.hiredis hs p (env.redisConf p)
      (call.command (env.zones p)) call.alloc
    rw [storeStep_redis hzone hstore]
    exact Or.inr ⟨p, new, _, hzone, hstore, haccess⟩
  · exact Or.inl (storeStep_pool fun p hp hstore ↦ hredis ⟨p, hp, hstore⟩)

/-- **Every call keeps contexts and connections apart.** -/
theorem storeStep_sane (s : StoreState w σ) (call : StoreCall w) (h : s.pool.Sane) :
    (storeStep env s call).2.pool.Sane := by
  rcases storeStep_pool_cases h call with heq | ⟨p, new, reply, -, -, haccess⟩
  · exact heq ▸ h
  · exact haccess.sane h

theorem sane_of_reachable {shm : Nat → ShmZone w} {world : σ} {s : StoreState w σ}
    (hs : Machine.Reachable (storeStep env) ⟨shm, Pool.new world⟩ s) : s.pool.Sane :=
  hs.induction (sane_new world) storeStep_sane

theorem storeStep_usable {P : RedisConf → Nat → List Event → Prop} (hP : Historical env.hiredis P)
    (s : StoreState w σ) (call : StoreCall w)
    (h : s.pool.Sane ∧ s.pool.Usable P env.redisConf) :
    (storeStep env s call).2.pool.Sane ∧
      (storeStep env s call).2.pool.Usable P env.redisConf := by
  refine ⟨storeStep_sane s call h.1, ?_⟩
  rcases storeStep_pool_cases h.1 call with heq | ⟨p, new, reply, -, -, haccess⟩
  · exact heq ▸ h.2
  · exact haccess.usable hP h.1 h.2 (StoreCall.carriesData_command _ call)

theorem usable_of_reachable {P : RedisConf → Nat → List Event → Prop}
    (hP : Historical env.hiredis P) {shm : Nat → ShmZone w} {world : σ} {s : StoreState w σ}
    (hs : Machine.Reachable (storeStep env) ⟨shm, Pool.new world⟩ s) :
    s.pool.Usable P env.redisConf :=
  (Machine.Reachable.induction (P := fun s ↦ s.pool.Sane ∧ s.pool.Usable P env.redisConf) hs
    ⟨sane_new world, usable_new _ world⟩ (storeStep_usable hP)).2

/-- The invariant holds throughout a request. -/
theorem sessions_of_reachable (hlaw : env.hiredis.Lawful) {shm : Nat → ShmZone w} {world : σ}
    {s : StoreState w σ} (hs : Machine.Reachable (storeStep env) ⟨shm, Pool.new world⟩ s) :
    Sessions env.redisConf s.pool :=
  ⟨sane_of_reachable hs, usable_of_reachable (historical_sent hlaw) hs⟩

/-- **Which commands go where they should.**  In every request, and whatever the client library
answers: a command that carries data is sent for a zone on a connection that is ready for that
zone, exactly when the port and the database of the zone fit into a C `int`. -/
theorem storeStep_command_ready_iff (hlaw : env.hiredis.Lawful) {shm : Nat → ShmZone w} {world : σ}
    {s : StoreState w σ} (hs : Machine.Reachable (storeStep env) ⟨shm, Pool.new world⟩ s)
    {call : StoreCall w} {p : Ptr} (hzone : call.zone = some p) {pre post : List Event} {c : Nat}
    {cmd : Command} {r : Option (Nat × Reply)} {err : Bool}
    (htrace : (storeStep env s call).2.pool.trace =
      s.pool.trace ++ pre ++ .command c cmd r err :: post)
    (hdata : cmd.carriesData = true) :
    Ready (env.zones p).redis c (s.pool.trace ++ pre) ↔ (env.zones p).redis.FitsInt := by
  have hsess := sessions_of_reachable hlaw hs
  by_cases hstore : (env.zones p).store = some .redis
  · obtain ⟨new, haccess⟩ := redisAccess_cases env.hiredis hsess.sane p (env.redisConf p)
      (call.command (env.zones p)) call.alloc
    have hnew := haccess.trace hsess.sane
    rw [storeStep_redis hzone hstore] at htrace
    rw [StoreEnv.redisConf, htrace, List.append_assoc, List.append_cancel_left_eq] at hnew
    exact (haccess.usable_sent (historical_sent hlaw) hsess.sane hsess.sent hnew.symm
      hdata).ready_iff
  · rw [storeStep_pool fun q hq ↦ by rw [← Option.some.inj (hzone.symm.trans hq)]; exact hstore,
      List.append_assoc] at htrace
    exact absurd (congrArg List.length htrace) (by simp)

end

/-- A request of a configuration with one Redis zone, declared with these parameters. -/
def redisEnv (args : List Bytes) : StoreEnv 64 Server where
  ngx := plainCore 64
  hiredis := serverHiredis
  shared := []
  zones p :=
    (confSetZoneRedis plainConf .http .empty [] (lit "zone=z") args (.plain .move)).2.1.zones.elim
      junkZone (·.mem p)

/-- A request that has not accessed anything. -/
def newRequest : StoreState 64 Server := ⟨fun _ ↦ ⟨.leaf, ⟨[], 0, []⟩⟩, Pool.new Server.empty⟩

/-- A read of the key `k` in that zone. -/
def readK : StoreCall 64 := .get (some ⟨0, 0⟩) (lit "k") 0 ⟨true, true, true, true⟩

/-- The condition at work: the first read of a zone with a small database number. -/
theorem storeStep_command_ready_small :
    Ready ((redisEnv [lit "database=2"]).zones ⟨0, 0⟩).redis 1
      [.connect ⟨0, 0⟩ (some 1) (some (lit "127.0.0.1")) 6379 3 false, .setTimeout 1 3 true,
        .command 1 (.select 2) (some (2, .status (lit "OK"))) false, .freeReply 2] := by
  have htrace : (storeStep (redisEnv [lit "database=2"]) newRequest readK).2.pool.trace =
      newRequest.pool.trace ++ [.connect ⟨0, 0⟩ (some 1) (some (lit "127.0.0.1")) 6379 3 false,
        .setTimeout 1 3 true, .command 1 (.select 2) (some (2, .status (lit "OK"))) false,
        .freeReply 2] ++
        .command 1 (.get (lit "z:k")) (some (3, .nil)) false :: [.freeReply 3] := by
    decide
  have hreach : Machine.Reachable (storeStep (redisEnv [lit "database=2"])) newRequest newRequest :=
    ⟨[], rfl⟩
  exact (storeStep_command_ready_iff serverHiredis_lawful hreach rfl htrace rfl).mpr (by decide)

/-- **The wrong database.**  `database=4294967297` is accepted, database 1 is selected, and the read
goes there: the connection is not ready for the zone. -/
theorem select_truncates_database :
    let env := redisEnv [lit "database=4294967297"]
    (confSetZoneRedis plainConf .http .empty [] (lit "zone=z") [lit "database=4294967297"]
        (.plain .move)).1 = none ∧
      (env.zones ⟨0, 0⟩).redis.db = 4294967297 ∧
      ∃ pre post, (storeStep env newRequest readK).2.pool.trace =
          pre ++ .command 1 (.get (lit "z:k")) (some (3, .nil)) false :: post ∧
        .command 1 (.select 1) (some (2, .status (lit "OK"))) false ∈ pre ∧
        ¬ Ready (env.zones ⟨0, 0⟩).redis 1 pre := by
  refine ⟨by decide, by decide, [.connect ⟨0, 0⟩ (some 1) (some (lit "127.0.0.1")) 6379 3 false,
    .setTimeout 1 3 true, .command 1 (.select 1) (some (2, .status (lit "OK"))) false,
    .freeReply 2], [.freeReply 3], by decide, by decide, fun hready ↦ ?_⟩
  have hsent : Session ((redisEnv [lit "database=4294967297"]).zones ⟨0, 0⟩).redis 6379 1 1
      [.connect ⟨0, 0⟩ (some 1) (some (lit "127.0.0.1")) 6379 3 false,
        .setTimeout 1 3 true, .command 1 (.select 1) (some (2, .status (lit "OK"))) false,
        .freeReply 2] :=
    ⟨⟨0, 0⟩, _, [], Selects.selected (by decide) 2 (.status (lit "OK")) false (by simp), by simp,
      by decide⟩
  have hdb := (hready.unique hsent).2 (by decide)
  exact absurd hdb (by decide)

end NgxKeyval
