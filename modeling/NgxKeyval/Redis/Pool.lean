import NgxKeyval.Redis.Store

/-!
# What an access does to the pool

Whatever the client library answers, an access works on one context and one connection and leaves
the rest of the pool alone.

* `redisAccess` is what a read and a write have in common: open the connection of the zone, send one
  command.
* `Opening` and `Sending` list what the two halves can do, once and for all; `Extends` says what
  they leave alone.
* `Pool.Sane` is the invariant that keeps contexts and connections apart: a zone has at most one
  context, and a connection belongs to at most one.
-/

set_option autoImplicit false

namespace NgxKeyval

section

variable {σ : Type} (hiredis : Hiredis σ)

/-! ## One access -/

/-- Send a command, and free its reply. -/
def sendCommand (c : Nat) (cmd : Command) (s : Pool σ) : Option Reply × Pool σ :=
  match redisCommand hiredis c cmd s with
  | (none, s) => (none, s)
  | (some (r, reply), s) => (some reply, freeReplyObject r s)

/-- Find or register the context of a zone, and open its connection if there is none. -/
def openRedis (zone : Ptr) (conf : RedisConf) (o : AccessAlloc) (s : Pool σ) :
    Option Nat × Pool σ :=
  match storeRedisGetCtx zone o s with
  | (none, s) => (none, s)
  | (some a, s) => redisGetContext hiredis a conf s

/-- Open the connection of a zone and send a command on it. -/
def redisAccess (zone : Ptr) (conf : RedisConf) (cmd : Command) (o : AccessAlloc) (s : Pool σ) :
    Option Reply × Pool σ :=
  match openRedis hiredis zone conf o s with
  | (none, s) => (none, s)
  | (some c, s) => sendCommand hiredis c cmd s

/-- What a read makes of the reply. -/
def getResult (o : AccessAlloc) : Option Reply → GetResult
  | some (.string str) => if o.value then .ok str else .error
  | _ => .error

theorem redisGetData_eq (c : Nat) (zone key : Bytes) (o : AccessAlloc) (s : Pool σ) :
    redisGetData hiredis c zone key o s =
      (getResult o (sendCommand hiredis c (.get (redisKey zone key)) s).1,
        (sendCommand hiredis c (.get (redisKey zone key)) s).2) := by
  rw [redisGetData, sendCommand]
  rcases redisCommand hiredis c (.get (redisKey zone key)) s with ⟨_ | ⟨r, reply⟩, s'⟩
  · rfl
  · cases reply <;> rfl

theorem redisSetData_eq (c : Nat) (conf : RedisConf) (zone key val : Bytes) (s : Pool σ) :
    (redisSetData hiredis c conf zone key val s).2 =
      (sendCommand hiredis c (setCommand conf zone key val) s).2 := by
  rw [redisSetData, sendCommand]
  rcases redisCommand hiredis c (setCommand conf zone key val) s with ⟨_ | ⟨r, reply⟩, s'⟩ <;> rfl

theorem storeRedisGet_eq (zone : Ptr) (z : Zone) (key : Bytes) (o : AccessAlloc) (s : Pool σ) :
    storeRedisGet hiredis zone z key o s =
      (getResult o (redisAccess hiredis zone z.redis (.get (redisKey z.name key)) o s).1,
        (redisAccess hiredis zone z.redis (.get (redisKey z.name key)) o s).2) := by
  rw [storeRedisGet, redisAccess, openRedis]
  rcases storeRedisGetCtx zone o s with ⟨_ | a, s⟩
  · rfl
  · simp only
    rcases redisGetContext hiredis a z.redis s with ⟨_ | c, s⟩
    · rfl
    · exact redisGetData_eq hiredis c z.name key o s

theorem storeRedisSet_eq (zone : Ptr) (z : Zone) (key val : Bytes) (o : AccessAlloc)
    (s : Pool σ) :
    storeRedisSet hiredis zone z key val o s =
      (redisAccess hiredis zone z.redis (setCommand z.redis z.name key val) o s).2 := by
  rw [storeRedisSet, redisAccess, openRedis]
  rcases storeRedisGetCtx zone o s with ⟨_ | a, s⟩
  · rfl
  · simp only
    rcases redisGetContext hiredis a z.redis s with ⟨_ | c, s⟩
    · rfl
    · exact redisSetData_eq hiredis c z.redis z.name key val s

end

/-! ## What one operation does

Every operation works on one context and one connection. -/

/-- The connection an event is about. -/
def Event.conn : Event → Option Nat
  | .connect _ c _ _ _ _ => c
  | .setTimeout c _ _ => some c
  | .command c _ _ _ => some c
  | .free c => some c
  | .freeReply _ => none

section

variable {σ : Type}

/-- From `s` to `s'`, only context `a` and connection `c` were touched, and `new` was recorded; what
it says about a connection is about `c`, which is in use by then. -/
structure Extends (s s' : Pool σ) (a c : Nat) (new : List Event) : Prop where
  trace : s'.trace = s.trace ++ new
  cleanup : s'.cleanup = s.cleanup
  ctx : ∀ b, b ≠ a → s'.ctx b = s.ctx b
  zone : (s'.ctx a).zone = (s.ctx a).zone
  err : ∀ d, d ≠ c → s'.err d = s.err d
  next : s.next ≤ s'.next
  conn : ∀ e ∈ new, ∀ d, e.conn = some d → d = c ∧ c < s'.next

/-- What opening a connection for a context can do: the events, the connection that is returned, the
one the context is left with, and its `err`. -/
inductive Opening (zone : Ptr) (conf : RedisConf) (c : Nat) :
    List Event → Option Nat → Option Nat → Bool → Prop
  /-- No connection object. -/
  | null (err) : Opening zone conf c
      [.connect zone none conf.hostname (cInt conf.port) conf.connectTimeout true] none none err
  /-- A connection object with an error, which is kept. -/
  | refused : Opening zone conf c
      [.connect zone (some c) conf.hostname (cInt conf.port) conf.connectTimeout true]
      none (some c) true
  /-- The command timeout cannot be set. -/
  | noTimeout (err) : Opening zone conf c
      [.connect zone (some c) conf.hostname (cInt conf.port) conf.connectTimeout false,
        .setTimeout c conf.commandTimeout false, .free c] none none err
  /-- No reply to `SELECT`. -/
  | selectLost (hdb : conf.db > 0) (err err') : Opening zone conf c
      [.connect zone (some c) conf.hostname (cInt conf.port) conf.connectTimeout false,
        .setTimeout c conf.commandTimeout true,
        .command c (.select (cInt conf.db)) none err, .free c] none none err'
  /-- An error reply to `SELECT`. -/
  | selectRefused (hdb : conf.db > 0) (r msg err err') : Opening zone conf c
      [.connect zone (some c) conf.hostname (cInt conf.port) conf.connectTimeout false,
        .setTimeout c conf.commandTimeout true,
        .command c (.select (cInt conf.db)) (some (r, .error msg)) err, .freeReply r, .free c]
      none none err'
  /-- Any other reply to `SELECT`. -/
  | selected (hdb : conf.db > 0) (r reply err) (hreply : ∀ msg, reply ≠ .error msg) :
      Opening zone conf c
      [.connect zone (some c) conf.hostname (cInt conf.port) conf.connectTimeout false,
        .setTimeout c conf.commandTimeout true,
        .command c (.select (cInt conf.db)) (some (r, reply)) err, .freeReply r]
      (some c) (some c) err
  /-- A zone without a database does not select one. -/
  | opened (hdb : ¬ conf.db > 0) : Opening zone conf c
      [.connect zone (some c) conf.hostname (cInt conf.port) conf.connectTimeout false,
        .setTimeout c conf.commandTimeout true] (some c) (some c) false

variable {s s₁ s₂ s' : Pool σ} {a c : Nat} {new new' : List Event}

theorem Extends.trans (h : Extends s s₁ a c new) (h' : Extends s₁ s₂ a c new') :
    Extends s s₂ a c (new ++ new') where
  trace := by rw [h'.trace, h.trace, List.append_assoc]
  cleanup := h'.cleanup.trans h.cleanup
  ctx b hb := (h'.ctx b hb).trans (h.ctx b hb)
  zone := h'.zone.trans h.zone
  err d hd := (h'.err d hd).trans (h.err d hd)
  next := h.next.trans h'.next
  conn e he d hd := by
    rcases List.mem_append.mp he with he | he
    · exact ⟨(h.conn e he d hd).1, Nat.lt_of_lt_of_le (h.conn e he d hd).2 h'.next⟩
    · exact h'.conn e he d hd

theorem extends_setRedis (s : Pool σ) (a c : Nat) (redis : Option Nat) :
    Extends s (s.setRedis a redis) a c [] where
  trace := (List.append_nil _).symm
  cleanup := rfl
  ctx b hb := Function.update_of_ne hb _ _
  zone := by simp [Pool.setRedis]
  err _ _ := rfl
  next := Nat.le_refl _
  conn := by simp

@[simp] theorem setRedis_redis (s : Pool σ) (a : Nat) (redis : Option Nat) :
    ((s.setRedis a redis).ctx a).redis = redis := by
  simp [Pool.setRedis]

theorem redisConnect_cases (hiredis : Hiredis σ) (a : Nat) (zone : Ptr) (hostname : Option Bytes)
    (port timeout : Int) (s : Pool σ) :
    ∃ result err s', redisConnectWithTimeout hiredis zone hostname port timeout s = (result, s') ∧
      Extends s s' a s.next [.connect zone result hostname port timeout err] ∧ s'.ctx = s.ctx ∧
      (result = none ∧ err = true ∨ result = some s.next ∧ s.next < s'.next) ∧
      (result = some s.next → s'.err s.next = err) := by
  rw [redisConnectWithTimeout]
  rcases hiredis.connect s.world s.next hostname port timeout with ⟨_ | err, world⟩
  · refine ⟨none, true, _, rfl, ⟨rfl, rfl, fun _ _ ↦ rfl, rfl, fun _ _ ↦ rfl, Nat.le_refl _, ?_⟩,
      rfl, Or.inl ⟨rfl, rfl⟩, fun h ↦ by cases h⟩
    intro e he d hd
    rw [List.mem_singleton] at he
    subst he
    cases hd
  · refine ⟨some s.next, err, _, rfl, ⟨rfl, rfl, fun _ _ ↦ rfl, rfl,
      fun d hd ↦ Function.update_of_ne hd _ _, Nat.le_succ _, ?_⟩, rfl,
      Or.inr ⟨rfl, Nat.lt_succ_self _⟩, fun _ ↦ Function.update_self ..⟩
    intro e he d hd
    rw [List.mem_singleton] at he
    subst he
    exact ⟨(Option.some.inj hd).symm, Nat.lt_succ_self _⟩

theorem redisSetTimeout_cases (hiredis : Hiredis σ) (a : Nat) (timeout : Int) (hc : c < s.next) :
    ∃ ok s', redisSetTimeout hiredis c timeout s = (ok, s') ∧
      Extends s s' a c [.setTimeout c timeout ok] ∧ s'.ctx = s.ctx ∧ s'.err = s.err := by
  rw [redisSetTimeout]
  rcases hiredis.setTimeout s.world c timeout with ⟨ok, world⟩
  refine ⟨ok, _, rfl, ⟨rfl, rfl, fun _ _ ↦ rfl, rfl, fun _ _ ↦ rfl, Nat.le_refl _, ?_⟩, rfl, rfl⟩
  intro e he d hd
  rw [List.mem_singleton] at he
  subst he
  exact ⟨(Option.some.inj hd).symm, hc⟩

theorem redisCommand_cases (hiredis : Hiredis σ) (a : Nat) (cmd : Command) (hc : c < s.next) :
    ∃ reply err s', redisCommand hiredis c cmd s = (reply, s') ∧
      Extends s s' a c [.command c cmd reply err] ∧ s'.ctx = s.ctx ∧ s'.err c = err ∧
      (hiredis.Lawful → reply = none → err = true) := by
  rw [redisCommand]
  rcases h : hiredis.command s.world c cmd with ⟨⟨_ | reply, err⟩, world⟩
  · refine ⟨none, err, _, rfl, ⟨rfl, rfl, fun _ _ ↦ rfl, rfl,
      fun d hd ↦ Function.update_of_ne hd _ _, Nat.le_refl _, ?_⟩, rfl, Function.update_self .., ?_⟩
    · intro e he d hd
      rw [List.mem_singleton] at he
      subst he
      exact ⟨(Option.some.inj hd).symm, hc⟩
    · intro hlaw _
      have herr := hlaw.err_of_null s.world c cmd
      rw [h] at herr
      exact herr rfl
  · refine ⟨some (s.next, reply), err, _, rfl, ⟨rfl, rfl, fun _ _ ↦ rfl, rfl,
      fun d hd ↦ Function.update_of_ne hd _ _, Nat.le_succ _, ?_⟩, rfl, Function.update_self ..,
      fun _ hnone ↦ by cases hnone⟩
    intro e he d hd
    rw [List.mem_singleton] at he
    subst he
    exact ⟨(Option.some.inj hd).symm, Nat.lt_succ_of_lt hc⟩

theorem extends_freeReply (s : Pool σ) (a c r : Nat) :
    Extends s (freeReplyObject r s) a c [.freeReply r] :=
  ⟨rfl, rfl, fun _ _ ↦ rfl, rfl, fun _ _ ↦ rfl, Nat.le_refl _, by simp [Event.conn]⟩

theorem extends_freeRedis (hiredis : Hiredis σ) (a : Nat) (hc : c < s.next) :
    Extends s (freeRedis hiredis a c s) a c [.free c] where
  trace := rfl
  cleanup := rfl
  ctx b hb := Function.update_of_ne hb _ _
  zone := by simp [freeRedis, Pool.setRedis, redisFree]
  err _ _ := rfl
  next := Nat.le_refl _
  conn e he d hd := by
    rw [List.mem_singleton] at he
    subst he
    exact ⟨(Option.some.inj hd).symm, hc⟩

theorem freeRedis_redis (hiredis : Hiredis σ) (s : Pool σ) (a c : Nat) :
    ((freeRedis hiredis a c s).ctx a).redis = none := by
  simp [freeRedis, Pool.setRedis]

/-- What sending a command records. -/
inductive Sending (c : Nat) (cmd : Command) : List Event → Option Reply → Bool → Prop
  /-- No reply. -/
  | lost (err) : Sending c cmd [.command c cmd none err] none err
  /-- A reply, which is freed. -/
  | answered (r reply err) :
      Sending c cmd [.command c cmd (some (r, reply)) err, .freeReply r] (some reply) err

/-- **Sending a command.** -/
theorem sendCommand_spec (hiredis : Hiredis σ) (a : Nat) (cmd : Command) (hc : c < s.next) :
    ∃ new, Extends s (sendCommand hiredis c cmd s).2 a c new ∧
      (sendCommand hiredis c cmd s).2.ctx = s.ctx ∧
      Sending c cmd new (sendCommand hiredis c cmd s).1 ((sendCommand hiredis c cmd s).2.err c) ∧
      (hiredis.Lawful → (sendCommand hiredis c cmd s).1 = none →
        (sendCommand hiredis c cmd s).2.err c = true) := by
  obtain ⟨reply, err, s', heq, hext, hctx, herr, hlaw⟩ := redisCommand_cases hiredis a cmd hc
  rw [sendCommand, heq]
  rcases reply with _ | ⟨r, reply⟩
  · refine ⟨_, hext, hctx, ?_, fun hl _ ↦ herr.trans (hlaw hl rfl)⟩
    rw [herr]
    exact Sending.lost err
  · refine ⟨_, hext.trans (extends_freeReply s' a c r), hctx, ?_, fun _ hnone ↦ by cases hnone⟩
    rw [show (freeReplyObject r s').err c = err from herr]
    exact Sending.answered r reply err

/-- The last stage of opening is `SELECT`, on the connection `c` of the context `a`. -/
theorem redisSelect_spec (hiredis : Hiredis σ) (zone : Ptr) {conf : RedisConf} (hdb : conf.db > 0)
    (hredis : (s.ctx a).redis = some c) (hc : c < s.next) :
    ∃ new, Extends s (redisSelect hiredis a c conf s).2 a c new ∧
      Opening zone conf c
        (.connect zone (some c) conf.hostname (cInt conf.port) conf.connectTimeout false ::
          .setTimeout c conf.commandTimeout true :: new)
        (redisSelect hiredis a c conf s).1 ((redisSelect hiredis a c conf s).2.ctx a).redis
        ((redisSelect hiredis a c conf s).2.err c) := by
  obtain ⟨reply, err, s', heq, hext, hctx, herr, -⟩ :=
    redisCommand_cases hiredis a (.select (cInt conf.db)) hc
  rw [redisSelect, heq]
  rcases reply with _ | ⟨r, reply⟩
  · refine ⟨_, hext.trans (extends_freeRedis hiredis a (Nat.lt_of_lt_of_le hc hext.next)), ?_⟩
    rw [freeRedis_redis]
    exact Opening.selectLost hdb err _
  · have hfree := extends_freeReply s' a c r
    by_cases hreply : ∃ msg, reply = .error msg
    · obtain ⟨msg, rfl⟩ := hreply
      refine ⟨_, hext.trans (hfree.trans (extends_freeRedis hiredis a
        (Nat.lt_of_lt_of_le hc hext.next))), ?_⟩
      rw [freeRedis_redis]
      exact Opening.selectRefused hdb r msg err _
    · have hne : ∀ msg, reply ≠ .error msg := fun msg h ↦ hreply ⟨msg, h⟩
      simp only
      refine ⟨_, hext.trans hfree, ?_⟩
      rw [show ((freeReplyObject r s').ctx a).redis = some c by rw [freeReplyObject, hctx, hredis],
        show (freeReplyObject r s').err c = err from herr]
      exact Opening.selected hdb r reply err hne

/-- The stages after the connect, on the connection `c` of the context `a`. -/
theorem redisPrepare_spec (hiredis : Hiredis σ) (zone : Ptr) (conf : RedisConf)
    (hredis : (s.ctx a).redis = some c) (herr : s.err c = false) (hc : c < s.next) :
    ∃ new, Extends s (redisPrepare hiredis a c conf s).2 a c new ∧
      Opening zone conf c
        (.connect zone (some c) conf.hostname (cInt conf.port) conf.connectTimeout false :: new)
        (redisPrepare hiredis a c conf s).1 ((redisPrepare hiredis a c conf s).2.ctx a).redis
        ((redisPrepare hiredis a c conf s).2.err c) := by
  obtain ⟨ok, s', heq, hext, hctx, herr'⟩ :=
    redisSetTimeout_cases hiredis a conf.commandTimeout hc
  rw [redisPrepare, heq]
  cases ok with
  | false =>
    refine ⟨_, hext.trans (extends_freeRedis hiredis a (Nat.lt_of_lt_of_le hc hext.next)), ?_⟩
    rw [freeRedis_redis]
    exact Opening.noTimeout _
  | true =>
    rw [← hctx] at hredis
    by_cases hdb : conf.db > 0
    · obtain ⟨new, hselect, hopening⟩ := redisSelect_spec hiredis zone hdb hredis
        (Nat.lt_of_lt_of_le hc hext.next)
      simp only [if_pos hdb]
      exact ⟨_, hext.trans hselect, hopening⟩
    · simp only [if_neg hdb]
      refine ⟨_, hext, ?_⟩
      rw [hredis, herr', herr]
      exact Opening.opened hdb

/-- **Opening a connection.**  A context that has a connection keeps it, and it is used unless it
has an error.  Otherwise a new one is opened, with the next address. -/
theorem redisGetContext_cases (hiredis : Hiredis σ) (a : Nat) (conf : RedisConf) (s : Pool σ) :
    (∃ c, (s.ctx a).redis = some c ∧
      redisGetContext hiredis a conf s = (if s.err c then none else some c, s)) ∨
    (s.ctx a).redis = none ∧ ∃ new,
      Extends s (redisGetContext hiredis a conf s).2 a s.next new ∧
      Opening (s.ctx a).zone conf s.next new (redisGetContext hiredis a conf s).1
        ((redisGetContext hiredis a conf s).2.ctx a).redis
        ((redisGetContext hiredis a conf s).2.err s.next) ∧
      (((redisGetContext hiredis a conf s).2.ctx a).redis = none ∨
        s.next < (redisGetContext hiredis a conf s).2.next) := by
  rw [redisGetContext]
  cases hredis : (s.ctx a).redis with
  | some c =>
    refine Or.inl ⟨c, rfl, ?_⟩
    simp only
    split <;> rfl
  | none =>
    refine Or.inr ⟨rfl, ?_⟩
    obtain ⟨result, err, s₁, heq, hext, hctx, hnext, herr⟩ :=
      redisConnect_cases hiredis a (s.ctx a).zone conf.hostname (cInt conf.port)
        conf.connectTimeout s
    rw [heq]
    rcases hnext with ⟨rfl, rfl⟩ | ⟨rfl, hlt⟩
    · have hnone : (s₁.ctx a).redis = none := by rw [hctx, hredis]
      refine ⟨_, hext, ?_, Or.inl hnone⟩
      rw [hnone]
      exact Opening.null _
    · have hset := hext.trans (extends_setRedis s₁ a s.next (some s.next))
      have herr' : (s₁.setRedis a (some s.next)).err s.next = err := herr rfl
      simp only [herr']
      cases err with
      | true =>
        rw [if_pos rfl]
        refine ⟨_, hset, ?_, Or.inr hlt⟩
        rw [setRedis_redis, herr']
        exact Opening.refused
      | false =>
        rw [if_neg (by decide)]
        obtain ⟨new, hprep, hopening⟩ := redisPrepare_spec hiredis (s.ctx a).zone conf
          (setRedis_redis s₁ a (some s.next)) herr' hlt
        exact ⟨_, hset.trans hprep, hopening, Or.inr (Nat.lt_of_lt_of_le hlt hprep.next)⟩

theorem Opening.redis_eq {zone : Ptr} {conf : RedisConf} {result redis : Option Nat} {err : Bool}
    (h : Opening zone conf c new result redis err) : redis = none ∨ redis = some c := by
  cases h <;> simp

/-! ## Finding the context -/

/-- The pool with a new context, registered. -/
def Pool.register (s : Pool σ) (zone : Ptr) : Pool σ :=
  { s with ctx := Function.update s.ctx s.next ⟨zone, none⟩, next := s.next + 1,
           cleanup := s.next :: s.cleanup }

/-- The pool with a new context that could not be registered. -/
def Pool.abandon (s : Pool σ) (zone : Ptr) : Pool σ :=
  { s with ctx := Function.update s.ctx s.next ⟨zone, none⟩, next := s.next + 1 }

/-- **Finding a context.**  A registered context of the zone is used; if there is none, one is
registered, or memory runs out. -/
theorem storeRedisGetCtx_cases (zone : Ptr) (o : AccessAlloc) (s : Pool σ) :
    (∃ a ∈ s.cleanup, (s.ctx a).zone = zone ∧ storeRedisGetCtx zone o s = (some a, s)) ∨
    (∀ a ∈ s.cleanup, (s.ctx a).zone ≠ zone) ∧
      (storeRedisGetCtx zone o s = (some s.next, s.register zone) ∨
        storeRedisGetCtx zone o s = (none, s.abandon zone) ∨
        storeRedisGetCtx zone o s = (none, s)) := by
  rw [storeRedisGetCtx]
  cases hfind : s.cleanup.find? fun a ↦ decide ((s.ctx a).zone = zone) with
  | some a =>
    have hzone := List.find?_some hfind
    exact Or.inl ⟨a, List.mem_of_find?_eq_some hfind, of_decide_eq_true hzone, rfl⟩
  | none =>
    refine Or.inr ⟨fun a ha ↦ ?_, ?_⟩
    · simpa using List.find?_eq_none.mp hfind a ha
    · cases o.ctx with
      | false => exact Or.inr (Or.inr rfl)
      | true =>
        cases o.cleanup with
        | false => exact Or.inr (Or.inl rfl)
        | true => exact Or.inl rfl

/-! ## Contexts and connections are kept apart -/

/-- The invariant of a pool: addresses in use are below the next one, each zone has at most one
context, and each connection belongs to at most one. -/
structure Pool.Sane (s : Pool σ) : Prop where
  fresh : ∀ e ∈ s.trace, ∀ c, e.conn = some c → c < s.next
  cleanup_lt : ∀ a ∈ s.cleanup, a < s.next
  redis_lt : ∀ a ∈ s.cleanup, ∀ c, (s.ctx a).redis = some c → c < s.next
  zone_inj : ∀ a ∈ s.cleanup, ∀ b ∈ s.cleanup, (s.ctx a).zone = (s.ctx b).zone → a = b
  redis_inj : ∀ a ∈ s.cleanup, ∀ b ∈ s.cleanup, ∀ c, (s.ctx a).redis = some c →
    (s.ctx b).redis = some c → a = b

theorem sane_new (world : σ) : (Pool.new world).Sane where
  fresh e he := by cases he
  cleanup_lt a ha := by cases ha
  redis_lt a ha := by cases ha
  zone_inj a ha := by cases ha
  redis_inj a ha := by cases ha

/-- An operation on a registered context keeps the invariant, if the connection it works on is the
one of that context or a new one. -/
theorem Pool.Sane.extends (h : s.Sane) (hext : Extends s s' a c new) (ha : a ∈ s.cleanup)
    (hown : (s.ctx a).redis = some c ∨ c = s.next)
    (hredis : ∀ d, (s'.ctx a).redis = some d → d = c ∧ d < s'.next) : s'.Sane := by
  -- the contexts other than `a` have another connection than `c`
  have hother : ∀ b ∈ s.cleanup, b ≠ a → ∀ d, (s'.ctx b).redis = some d →
      (s.ctx b).redis = some d ∧ d ≠ c := by
    intro b hb hba d hd
    rw [hext.ctx b hba] at hd
    refine ⟨hd, ?_⟩
    rintro rfl
    rcases hown with hown | rfl
    · exact hba (h.redis_inj b hb a ha d hd hown)
    · exact Nat.lt_irrefl _ (h.redis_lt b hb s.next hd)
  have hzone : ∀ b, (s'.ctx b).zone = (s.ctx b).zone := by
    intro b
    by_cases hba : b = a
    · rw [hba, hext.zone]
    · rw [hext.ctx b hba]
  refine ⟨?_, ?_, ?_, ?_, ?_⟩
  · intro e he d hd
    rw [hext.trace] at he
    rcases List.mem_append.mp he with he | he
    · exact Nat.lt_of_lt_of_le (h.fresh e he d hd) hext.next
    · obtain ⟨rfl, hlt⟩ := hext.conn e he d hd
      exact hlt
  · intro b hb
    rw [hext.cleanup] at hb
    exact Nat.lt_of_lt_of_le (h.cleanup_lt b hb) hext.next
  · intro b hb d hd
    rw [hext.cleanup] at hb
    by_cases hba : b = a
    · exact (hredis d (hba ▸ hd)).2
    · exact Nat.lt_of_lt_of_le (h.redis_lt b hb d (hother b hb hba d hd).1) hext.next
  · intro b hb b' hb' he
    rw [hext.cleanup] at hb hb'
    rw [hzone, hzone] at he
    exact h.zone_inj b hb b' hb' he
  · intro b hb b' hb' d hd hd'
    rw [hext.cleanup] at hb hb'
    by_cases hba : b = a <;> by_cases hba' : b' = a
    · rw [hba, hba']
    · exact absurd (hredis d (hba ▸ hd)).1 (hother b' hb' hba' d hd').2
    · exact absurd (hredis d (hba' ▸ hd')).1 (hother b hb hba d hd).2
    · exact h.redis_inj b hb b' hb' d (hother b hb hba d hd).1 (hother b' hb' hba' d hd').1

theorem register_ctx_of_mem (h : s.Sane) (zone : Ptr) (ha : a ∈ s.cleanup) :
    (s.register zone).ctx a = s.ctx a :=
  Function.update_of_ne (Nat.ne_of_lt (h.cleanup_lt a ha)) _ _

theorem register_ctx_self (s : Pool σ) (zone : Ptr) :
    (s.register zone).ctx s.next = ⟨zone, none⟩ := Function.update_self ..

theorem abandon_ctx_of_mem (h : s.Sane) (zone : Ptr) (ha : a ∈ s.cleanup) :
    (s.abandon zone).ctx a = s.ctx a :=
  Function.update_of_ne (Nat.ne_of_lt (h.cleanup_lt a ha)) _ _

theorem Pool.Sane.abandon (h : s.Sane) (zone : Ptr) : (s.abandon zone).Sane := by
  refine ⟨?_, ?_, ?_, ?_, ?_⟩
  · exact fun e he c hc ↦ Nat.lt_succ_of_lt (h.fresh e he c hc)
  · exact fun a ha ↦ Nat.lt_succ_of_lt (h.cleanup_lt a ha)
  · intro a ha c hc
    rw [abandon_ctx_of_mem h zone ha] at hc
    exact Nat.lt_succ_of_lt (h.redis_lt a ha c hc)
  · intro a ha b hb he
    rw [abandon_ctx_of_mem h zone ha, abandon_ctx_of_mem h zone hb] at he
    exact h.zone_inj a ha b hb he
  · intro a ha b hb c hc hc'
    rw [abandon_ctx_of_mem h zone ha] at hc
    rw [abandon_ctx_of_mem h zone hb] at hc'
    exact h.redis_inj a ha b hb c hc hc'

theorem Pool.Sane.cons (h : s.Sane) (hlt : a < s.next) (hredis : (s.ctx a).redis = none)
    (hzone : ∀ b ∈ s.cleanup, (s.ctx b).zone ≠ (s.ctx a).zone) :
    { s with cleanup := a :: s.cleanup }.Sane := by
  refine ⟨h.fresh, ?_, ?_, ?_, ?_⟩
  · intro b hb
    rcases List.mem_cons.mp hb with rfl | hb
    · exact hlt
    · exact h.cleanup_lt b hb
  · intro b hb c hc
    rcases List.mem_cons.mp hb with rfl | hb
    · rw [hredis] at hc
      cases hc
    · exact h.redis_lt b hb c hc
  · intro b hb b' hb' he
    rcases List.mem_cons.mp hb with rfl | hmem <;> rcases List.mem_cons.mp hb' with rfl | hmem'
    · rfl
    · exact absurd he.symm (hzone b' hmem')
    · exact absurd he (hzone b hmem)
    · exact h.zone_inj b hmem b' hmem' he
  · intro b hb b' hb' c hc hc'
    rcases List.mem_cons.mp hb with rfl | hb
    · rw [hredis] at hc
      cases hc
    · rcases List.mem_cons.mp hb' with rfl | hb'
      · rw [hredis] at hc'
        cases hc'
      · exact h.redis_inj b hb b' hb' c hc hc'

theorem Pool.Sane.register (h : s.Sane) {zone : Ptr}
    (hzone : ∀ a ∈ s.cleanup, (s.ctx a).zone ≠ zone) : (s.register zone).Sane := by
  refine (h.abandon zone).cons (Nat.lt_succ_self s.next) ?_ fun b hb ↦ ?_
  · exact congrArg RedisCtx.redis (register_ctx_self s zone)
  · rw [abandon_ctx_of_mem h zone hb]
    exact fun he ↦ hzone b hb (he.trans (congrArg RedisCtx.zone (register_ctx_self s zone)))

/-! ## What an access can do -/

/-- `a` is the context of the zone in `s₁`, which is `s` with that context registered if need be. -/
def Found (zone : Ptr) (s s₁ : Pool σ) (a : Nat) : Prop :=
  a ∈ s.cleanup ∧ (s.ctx a).zone = zone ∧ s₁ = s ∨
    (∀ b ∈ s.cleanup, (s.ctx b).zone ≠ zone) ∧ s₁ = s.register zone ∧ a = s.next

/-- **What an access can do**: the pool it leaves, the events and the reply. -/
inductive Access (hiredis : Hiredis σ) (zone : Ptr) (conf : RedisConf) (cmd : Command)
    (s s' : Pool σ) : List Event → Option Reply → Prop
  /-- There is no context and no memory for one. -/
  | noContext (hno : ∀ a ∈ s.cleanup, (s.ctx a).zone ≠ zone) (hs : s' = s ∨ s' = s.abandon zone) :
      Access hiredis zone conf cmd s s' [] none
  /-- The connection of the zone has an error, and nothing is tried. -/
  | stuck (a c : Nat) (ha : a ∈ s.cleanup) (hzone : (s.ctx a).zone = zone)
      (hredis : (s.ctx a).redis = some c) (herr : s.err c = true) (hs : s' = s) :
      Access hiredis zone conf cmd s s' [] none
  /-- The zone has a connection, and the command is sent. -/
  | reused (a c : Nat) (new : List Event) (reply : Option Reply) (ha : a ∈ s.cleanup)
      (hzone : (s.ctx a).zone = zone)
      (hredis : (s.ctx a).redis = some c) (herr : s.err c = false)
      (hext : Extends s s' a c new) (hctx : s'.ctx = s.ctx)
      (hsend : Sending c cmd new reply (s'.err c))
      (hlost : hiredis.Lawful → reply = none → s'.err c = true) :
      Access hiredis zone conf cmd s s' new reply
  /-- A connection cannot be opened, and nothing is sent. -/
  | failed (s₁ : Pool σ) (a : Nat) (new : List Event) (hfound : Found zone s s₁ a)
      (hredis : (s₁.ctx a).redis = none)
      (hext : Extends s₁ s' a s₁.next new)
      (hopen : Opening zone conf s₁.next new none (s'.ctx a).redis (s'.err s₁.next))
      (hlt : (s'.ctx a).redis = none ∨ s₁.next < s'.next) :
      Access hiredis zone conf cmd s s' new none
  /-- A connection is opened, and the command is sent. -/
  | opened (s₁ : Pool σ) (a : Nat) (new new' : List Event) (reply : Option Reply) (err : Bool)
      (hfound : Found zone s s₁ a) (hnone : (s₁.ctx a).redis = none)
      (hext : Extends s₁ s' a s₁.next (new ++ new'))
      (hopen : Opening zone conf s₁.next new (some s₁.next) (some s₁.next) err)
      (hredis : (s'.ctx a).redis = some s₁.next) (hlt : s₁.next < s'.next)
      (hsend : Sending s₁.next cmd new' reply (s'.err s₁.next))
      (hlost : hiredis.Lawful → reply = none → s'.err s₁.next = true) :
      Access hiredis zone conf cmd s s' (new ++ new') reply

theorem Found.spec {zone : Ptr} (h : Found zone s s₁ a) (hs : s.Sane) :
    s₁.Sane ∧ a ∈ s₁.cleanup ∧ (s₁.ctx a).zone = zone ∧ s₁.trace = s.trace ∧ s₁.err = s.err ∧
      s.next ≤ s₁.next ∧ (∀ b ∈ s.cleanup, b ∈ s₁.cleanup ∧ s₁.ctx b = s.ctx b) ∧
      ∀ b ∈ s₁.cleanup, b = a ∨ b ∈ s.cleanup := by
  rcases h with ⟨ha, hzone, rfl⟩ | ⟨hno, rfl, rfl⟩
  · exact ⟨hs, ha, hzone, rfl, rfl, Nat.le_refl _, fun b hb ↦ ⟨hb, rfl⟩, fun b hb ↦ Or.inr hb⟩
  · refine ⟨hs.register hno, List.mem_cons_self, ?_, rfl, rfl, Nat.le_succ _, ?_, ?_⟩
    · rw [register_ctx_self]
    · exact fun b hb ↦ ⟨List.mem_cons_of_mem _ hb, register_ctx_of_mem hs zone hb⟩
    · exact fun b hb ↦ List.mem_cons.mp hb

/-- **Every access is one of these.** -/
theorem redisAccess_cases (hiredis : Hiredis σ) (hs : s.Sane) (zone : Ptr) (conf : RedisConf)
    (cmd : Command) (o : AccessAlloc) :
    ∃ new, Access hiredis zone conf cmd s (redisAccess hiredis zone conf cmd o s).2 new
      (redisAccess hiredis zone conf cmd o s).1 := by
  rw [redisAccess, openRedis]
  -- what happens once the context is there
  have hcontext : ∀ s₁ a, Found zone s s₁ a → ∃ new, Access hiredis zone conf cmd s
      (match redisGetContext hiredis a conf s₁ with
        | (none, s) => (none, s)
        | (some c, s) => sendCommand hiredis c cmd s).2 new
      (match redisGetContext hiredis a conf s₁ with
        | (none, s) => (none, s)
        | (some c, s) => sendCommand hiredis c cmd s).1 := by
    intro s₁ a hfound
    obtain ⟨hs₁, ha₁, hzone₁, -⟩ := hfound.spec hs
    rcases redisGetContext_cases hiredis a conf s₁ with
      ⟨c, hredis, heq⟩ | ⟨hredis, new, hext, hopen, hlt⟩
    · obtain ⟨ha, hzone, rfl⟩ : a ∈ s.cleanup ∧ (s.ctx a).zone = zone ∧ s₁ = s := by
        rcases hfound with hfound | ⟨hno, rfl, rfl⟩
        · exact hfound
        · rw [register_ctx_self] at hredis
          cases hredis
      rw [heq]
      cases herr : s₁.err c with
      | true => exact ⟨_, Access.stuck a c ha hzone hredis herr rfl⟩
      | false =>
        obtain ⟨new, hext, hctx, hsend, hlost⟩ :=
          sendCommand_spec hiredis a cmd (hs.redis_lt a ha c hredis)
        exact ⟨_, Access.reused a c new _ ha hzone hredis herr hext hctx hsend hlost⟩
    · rw [hzone₁] at hopen
      rcases heq : redisGetContext hiredis a conf s₁ with ⟨_ | c, s₂⟩
      · rw [heq] at hext hopen hlt
        exact ⟨new, Access.failed s₁ a new hfound hredis hext hopen hlt⟩
      · rw [heq] at hext hopen hlt
        obtain ⟨rfl, hredis₂⟩ : c = s₁.next ∧ (s₂.ctx a).redis = some s₁.next := by
          simp only at hopen
          generalize (s₂.ctx a).redis = redis, s₂.err s₁.next = err at hopen
          cases hopen <;> exact ⟨rfl, rfl⟩
        have hlt₂ : s₁.next < s₂.next := hlt.resolve_left (by simp [hredis₂])
        obtain ⟨new', hext', hctx, hsend, hlost⟩ := sendCommand_spec hiredis a cmd hlt₂
        simp only [hredis₂] at hopen
        refine ⟨_, Access.opened s₁ a new new' _ _ hfound hredis (hext.trans hext') hopen ?_
          (Nat.lt_of_lt_of_le hlt₂ hext'.next) hsend hlost⟩
        rw [hctx, hredis₂]
  rcases storeRedisGetCtx_cases zone o s with ⟨a, ha, hzone, heq⟩ | ⟨hno, heq | heq | heq⟩
  · rw [heq]
    exact hcontext s a (Or.inl ⟨ha, hzone, rfl⟩)
  · rw [heq]
    exact hcontext _ _ (Or.inr ⟨hno, rfl, rfl⟩)
  · rw [heq]
    exact ⟨[], Access.noContext hno (Or.inr rfl)⟩
  · rw [heq]
    exact ⟨[], Access.noContext hno (Or.inl rfl)⟩

section

variable {hiredis : Hiredis σ} {zone : Ptr} {conf : RedisConf} {cmd : Command}
  {reply : Option Reply}

theorem Access.trace (h : Access hiredis zone conf cmd s s' new reply) (hs : s.Sane) :
    s'.trace = s.trace ++ new := by
  cases h with
  | noContext _ hs' => rcases hs' with rfl | rfl <;> exact (List.append_nil _).symm
  | stuck _ _ _ _ _ _ hs' => rw [hs', List.append_nil]
  | reused _ _ _ _ _ _ _ _ hext => exact hext.trace
  | failed s₁ a _ hfound _ hext =>
    obtain ⟨-, -, -, htrace, -⟩ := hfound.spec hs
    rw [hext.trace, htrace]
  | opened s₁ a _ _ _ _ hfound _ hext =>
    obtain ⟨-, -, -, htrace, -⟩ := hfound.spec hs
    rw [hext.trace, htrace]

/-- **An access keeps contexts and connections apart.** -/
theorem Access.sane (h : Access hiredis zone conf cmd s s' new reply) (hs : s.Sane) : s'.Sane := by
  cases h with
  | noContext _ hs' =>
    rcases hs' with rfl | rfl
    · exact hs
    · exact hs.abandon zone
  | stuck _ _ _ _ _ _ hs' => exact hs' ▸ hs
  | reused a c _ _ ha _ hredis _ hext hctx =>
    refine hs.extends hext ha (Or.inl hredis) fun d hd ↦ ?_
    rw [hctx, hredis, Option.some.injEq] at hd
    exact ⟨hd.symm, hd ▸ Nat.lt_of_lt_of_le (hs.redis_lt a ha c hredis) hext.next⟩
  | failed s₁ a _ hfound _ hext hopen hlt =>
    obtain ⟨hs₁, ha, -⟩ := hfound.spec hs
    refine hs₁.extends hext ha (Or.inr rfl) fun d hd ↦ ?_
    have hc : d = s₁.next := by
      rcases hopen.redis_eq with hnone | hsome
      · rw [hnone] at hd
        cases hd
      · rw [hsome] at hd
        exact (Option.some.inj hd).symm
    rw [hc]
    exact ⟨rfl, hlt.resolve_left (by simp [hd])⟩
  | opened s₁ a _ _ _ _ hfound _ hext _ hredis hlt =>
    obtain ⟨hs₁, ha, -⟩ := hfound.spec hs
    refine hs₁.extends hext ha (Or.inr rfl) fun d hd ↦ ?_
    rw [hredis, Option.some.injEq] at hd
    exact ⟨hd.symm, hd ▸ hlt⟩

end

end

end NgxKeyval
