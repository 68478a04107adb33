import NgxKeyval.Library.Unreliable
import NgxKeyval.Redis.Working

/-!
# Servers that may fail

Connections are refused, replies are lost, servers forget, and a command that nobody waits for any
more may still arrive.  What the store can rely on is little, and here it is said of any world and
any client library.

* `Database` is what the commands of a connection are executed in, and `RedisConf.target` is the one
  that the settings of a zone name.
* A `Wire` says what may be bound in the databases, which writes may be late, and which database
  each connection is in; `Wire.Carries` is what the client library must do for that to be true.
* `Tuned` — every connection that can be used is in the database of its zone.
* `redisAccess_wire` — so a command is sent to the database of its zone, or not at all.
-/

set_option autoImplicit false

namespace NgxKeyval

open Unreliable (Memory Attempt)

/-! ## The wire -/

/-- A database, as a connection gets there. -/
structure Database where
  hostname : Option Bytes
  port : Int
  db : Int
  deriving DecidableEq, Repr

/-- Another database of the same server. -/
def Database.select (d : Database) (db : Int) : Database := { d with db := db }

/-- The database that the settings of a zone name. -/
def RedisConf.target (conf : RedisConf) : Database := ⟨conf.hostname, cInt conf.port, conf.database⟩

/-- The key and the value of a command that writes. -/
def Command.binding : Command → Option (Bytes × Bytes)
  | .set key val => some (key, val)
  | .setex key _ val => some (key, val)
  | _ => none

/-- What comes of a write, by the reply. -/
def writeRc : Option Reply → Rc
  | none => .error
  | some (.error _) => .error
  | some _ => .ok

/-- What can be said of the databases and the connections in a world. -/
structure Wire (σ : Type) where
  memory : σ → Memory (Database × Bytes) Bytes
  database : σ → Nat → Database

section

variable {σ : Type} (wire : Wire σ)

/-- Nothing was written, and only connection `c` may have gone to another database. -/
structure Wire.Keeps (c : Nat) (world world' : σ) : Prop where
  settles : (wire.memory world).Settles (wire.memory world')
  database : ∀ d, d ≠ c → wire.database world' d = wire.database world d

/-- What the client library does, whatever goes wrong.  Nobody else writes to the databases. -/
structure Wire.Carries (hiredis : Hiredis σ) : Prop where
  connect : ∀ world c hostname port timeout,
    wire.Keeps c world (hiredis.connect world c hostname port timeout).2
  /-- A connection that is open is in the default database. -/
  connected : ∀ world c hostname port timeout,
    (hiredis.connect world c hostname port timeout).1 = some false →
      wire.database (hiredis.connect world c hostname port timeout).2 c = ⟨hostname, port, 0⟩
  setTimeout : ∀ world c timeout,
    let world' := (hiredis.setTimeout world c timeout).2
    (wire.memory world).Settles (wire.memory world') ∧ wire.database world' = wire.database world
  free : ∀ world c, wire.Keeps c world (hiredis.free world c)
  select : ∀ world c n, wire.Keeps c world (hiredis.command world c (.select n)).2
  /-- A `SELECT` that the server does not object to is done. -/
  selected : ∀ world c n reply, (hiredis.command world c (.select n)).1.1 = some reply →
    (∀ msg, reply ≠ .error msg) →
      wire.database (hiredis.command world c (.select n)).2 c =
        (wire.database world c).select n
  /-- No other command selects a database. -/
  stays : ∀ world c cmd, cmd.carriesData = true →
    wire.database (hiredis.command world c cmd).2 = wire.database world
  /-- A `GET` finds what is bound, if it finds anything. -/
  get : ∀ world c key,
    (wire.memory world).Settles (wire.memory (hiredis.command world c (.get key)).2) ∧
      ∀ val, (hiredis.command world c (.get key)).1.1 = some (.string val) →
        (wire.memory world).bound (wire.database world c, key) val ∨
          (wire.memory world).late (wire.database world c, key) val
  /-- A write may be done, now or later, and certainly was if the server says so. -/
  set : ∀ world c cmd key val, cmd.binding = some (key, val) →
    (wire.memory world).Writes (fun _ ↦ False)
      (wire.memory (hiredis.command world c cmd).2)
      ⟨(wire.database world c, key), val,
        decide (writeRc (hiredis.command world c cmd).1.1 = .ok)⟩

end

/-! ## Opening a connection -/

section

variable {σ : Type} {wire : Wire σ} {hiredis : Hiredis σ} {conf : Ptr → RedisConf} {s s' : Pool σ}
  {a c : Nat} {new : List Event} {world world' world'' : σ}

theorem Wire.Keeps.refl (wire : Wire σ) (c : Nat) (world : σ) : wire.Keeps c world world :=
  ⟨.refl _, fun _ _ ↦ rfl⟩

theorem Wire.Keeps.trans (h : wire.Keeps c world world') (h' : wire.Keeps c world' world'') :
    wire.Keeps c world world'' where
  settles := h.settles.trans h'.settles
  database d hd := (h'.database d hd).trans (h.database d hd)

theorem redisCommand_world (hiredis : Hiredis σ) (c : Nat) (cmd : Command) (s : Pool σ) :
    (redisCommand hiredis c cmd s).1.map Prod.snd = (hiredis.command s.world c cmd).1.1 ∧
      (redisCommand hiredis c cmd s).2.world = (hiredis.command s.world c cmd).2 := by
  rw [redisCommand]
  rcases hiredis.command s.world c cmd with ⟨⟨_ | reply, err⟩, world⟩
  · exact ⟨rfl, rfl⟩
  · exact ⟨rfl, rfl⟩

theorem sendCommand_world (hiredis : Hiredis σ) (c : Nat) (cmd : Command) (s : Pool σ) :
    (sendCommand hiredis c cmd s).1 = (hiredis.command s.world c cmd).1.1 ∧
      (sendCommand hiredis c cmd s).2.world = (hiredis.command s.world c cmd).2 := by
  obtain ⟨hreply, hworld⟩ := redisCommand_world hiredis c cmd s
  rw [sendCommand]
  rcases hcommand : redisCommand hiredis c cmd s with ⟨_ | ⟨r, reply⟩, s'⟩
  · rw [hcommand] at hreply hworld
    exact ⟨hreply, hworld⟩
  · rw [hcommand] at hreply hworld
    exact ⟨hreply, hworld⟩

/-- `SELECT` goes to the database of the zone, or the connection is not used. -/
theorem redisSelect_wire (h : wire.Carries hiredis) (rc : RedisConf) (s : Pool σ) :
    let r := redisSelect hiredis a c rc s
    wire.Keeps c s.world r.2.world ∧ ∀ d, r.1 = some d →
      wire.database r.2.world c = (wire.database s.world c).select (cInt rc.db) := by
  obtain ⟨hreply, hworld⟩ := redisCommand_world hiredis c (.select (cInt rc.db)) s
  have hkeeps := h.select s.world c (cInt rc.db)
  rw [← hworld] at hkeeps
  have hselected := h.selected s.world c (cInt rc.db)
  rw [← hworld, ← hreply] at hselected
  rw [redisSelect]
  rcases hcommand : redisCommand hiredis c (.select (cInt rc.db)) s with ⟨_ | ⟨r, reply⟩, s'⟩
  · rw [hcommand] at hkeeps
    exact ⟨hkeeps.trans (h.free _ c), fun d hd ↦ absurd hd.symm (Option.some_ne_none d)⟩
  · rw [hcommand] at hkeeps hselected
    by_cases herror : ∃ msg, reply = .error msg
    · obtain ⟨msg, rfl⟩ := herror
      exact ⟨hkeeps.trans (h.free _ c), fun d hd ↦ absurd hd.symm (Option.some_ne_none d)⟩
    · have hne : ∀ msg, reply ≠ .error msg := fun msg heq ↦ herror ⟨msg, heq⟩
      simp only
      exact ⟨hkeeps, fun d _ ↦ hselected reply rfl hne⟩

theorem redisPrepare_wire (h : wire.Carries hiredis) (rc : RedisConf) {s : Pool σ}
    (hdatabase : wire.database s.world c = ⟨rc.hostname, cInt rc.port, 0⟩) :
    let r := redisPrepare hiredis a c rc s
    wire.Keeps c s.world r.2.world ∧ ∀ d, r.1 = some d →
      wire.database r.2.world c = rc.target := by
  obtain ⟨hsettles, hsame⟩ := h.setTimeout s.world c rc.commandTimeout
  have hworld : (redisSetTimeout hiredis c rc.commandTimeout s).2.world =
      (hiredis.setTimeout s.world c rc.commandTimeout).2 := rfl
  have hkeeps : wire.Keeps c s.world (redisSetTimeout hiredis c rc.commandTimeout s).2.world :=
    ⟨hsettles, fun d _ ↦ congrFun hsame d⟩
  rw [← hworld] at hsame
  rw [redisPrepare]
  rcases htimeout : redisSetTimeout hiredis c rc.commandTimeout s with ⟨_ | _, s'⟩
  · rw [htimeout] at hkeeps
    exact ⟨hkeeps.trans (h.free _ c), fun d hd ↦ absurd hd.symm (Option.some_ne_none d)⟩
  · rw [htimeout] at hkeeps hsame
    dsimp only at hkeeps hsame ⊢
    rw [← hsame] at hdatabase
    by_cases hdb : rc.db > 0
    · rw [if_pos hdb]
      obtain ⟨hselect, htarget⟩ := redisSelect_wire (a := a) (c := c) h rc s'
      refine ⟨hkeeps.trans hselect, fun d hd ↦ ?_⟩
      rw [htarget d hd, hdatabase, RedisConf.target, RedisConf.database, if_pos hdb,
        Database.select]
    · rw [if_neg hdb]
      refine ⟨hkeeps, fun d _ ↦ ?_⟩
      rw [hdatabase, RedisConf.target, RedisConf.database, if_neg hdb]

theorem redisConnect_wire (h : wire.Carries hiredis) (zone : Ptr) (hostname : Option Bytes)
    (port timeout : Int) (s : Pool σ) :
    let r := redisConnectWithTimeout hiredis zone hostname port timeout s
    wire.Keeps s.next s.world r.2.world ∧ ∀ c, r.1 = some c → c = s.next ∧
      (r.2.err c = false → wire.database r.2.world c = ⟨hostname, port, 0⟩) := by
  have hkeeps := h.connect s.world s.next hostname port timeout
  have hconnected := h.connected s.world s.next hostname port timeout
  rw [redisConnectWithTimeout]
  rcases hconnect : hiredis.connect s.world s.next hostname port timeout with ⟨_ | err, world⟩
  · rw [hconnect] at hkeeps
    exact ⟨hkeeps, fun c hc ↦ absurd hc.symm (Option.some_ne_none c)⟩
  · rw [hconnect] at hkeeps hconnected
    refine ⟨hkeeps, fun c hc ↦ ?_⟩
    obtain rfl := Option.some.inj hc
    exact ⟨rfl, fun herr ↦ hconnected (congrArg some ((Function.update_self ..).symm.trans herr))⟩

/-- **A new connection that can be used is in the database of the zone.** -/
theorem redisGetContext_wire (h : wire.Carries hiredis) (rc : RedisConf)
    (hnone : (s.ctx a).redis = none) :
    let r := redisGetContext hiredis a rc s
    wire.Keeps s.next s.world r.2.world ∧ ∀ d, r.1 = some d →
      wire.database r.2.world s.next = rc.target := by
  obtain ⟨hkeeps, hconnected⟩ := redisConnect_wire h (s.ctx a).zone rc.hostname (cInt rc.port)
    rc.connectTimeout s
  rw [redisGetContext, hnone]
  rcases hconnect : redisConnectWithTimeout hiredis (s.ctx a).zone rc.hostname (cInt rc.port)
    rc.connectTimeout s with ⟨_ | c, s₁⟩
  · rw [hconnect] at hkeeps
    exact ⟨hkeeps, fun d hd ↦ absurd hd.symm (Option.some_ne_none d)⟩
  · rw [hconnect] at hkeeps hconnected
    obtain ⟨rfl, hdatabase⟩ := hconnected c rfl
    dsimp only
    by_cases herr : (s₁.setRedis a (some s.next)).err s.next = true
    · rw [if_pos herr]
      exact ⟨hkeeps, fun d hd ↦ absurd hd.symm (Option.some_ne_none d)⟩
    · rw [if_neg herr]
      rw [Bool.not_eq_true] at herr
      obtain ⟨hprepare, htarget⟩ := redisPrepare_wire (a := a) h rc
        (s := s₁.setRedis a (some s.next)) (hdatabase herr)
      exact ⟨hkeeps.trans hprepare, htarget⟩

end

/-! ## The connections of a request -/

/-- Contexts and connections are kept apart, and every connection that can be used is in the
database of its zone. -/
structure Tuned {σ : Type} (wire : Wire σ) (conf : Ptr → RedisConf) (s : Pool σ) : Prop where
  sane : s.Sane
  tuned : ∀ a ∈ s.cleanup, ∀ c, (s.ctx a).redis = some c → s.err c = false →
    wire.database s.world c = (conf (s.ctx a).zone).target

section

variable {σ : Type} {wire : Wire σ} {hiredis : Hiredis σ} {conf : Ptr → RedisConf}
  {s s₁ s' : Pool σ} {a c : Nat} {new : List Event} {zone : Ptr} {cmd : Command}

/-- What happens to one context and its connection leaves the others where they are. -/
theorem Tuned.extends (h : Tuned wire conf s) (hext : Extends s s' a c new) (ha : a ∈ s.cleanup)
    (hown : (s.ctx a).redis = some c ∨ c = s.next)
    (hkeeps : ∀ d, d ≠ c → wire.database s'.world d = wire.database s.world d)
    (hredis : ∀ d, (s'.ctx a).redis = some d → d = c ∧ d < s'.next)
    (htarget : ∀ d, (s'.ctx a).redis = some d → s'.err c = false →
      wire.database s'.world c = (conf (s.ctx a).zone).target) : Tuned wire conf s' where
  sane := h.sane.extends hext ha hown hredis
  tuned b hb d hd herr := by
    rw [hext.cleanup] at hb
    by_cases hba : b = a
    · subst hba
      obtain ⟨rfl, -⟩ := hredis d hd
      rw [hext.zone]
      exact htarget d hd herr
    · rw [hext.ctx b hba] at hd ⊢
      have hdc : d ≠ c := by
        rintro rfl
        rcases hown with hown | rfl
        · exact hba (h.sane.redis_inj b hb a ha d hd hown)
        · exact Nat.lt_irrefl _ (h.sane.redis_lt b hb s.next hd)
      rw [hext.err d hdc] at herr
      rw [hkeeps d hdc]
      exact h.tuned b hb d hd herr

theorem Tuned.register (h : Tuned wire conf s) (hzone : ∀ b ∈ s.cleanup, (s.ctx b).zone ≠ zone) :
    Tuned wire conf (s.register zone) where
  sane := h.sane.register hzone
  tuned b hb d hd herr := by
    rcases List.mem_cons.mp hb with rfl | hb
    · rw [register_ctx_self] at hd
      exact absurd hd.symm (Option.some_ne_none d)
    · rw [register_ctx_of_mem h.sane zone hb] at hd ⊢
      exact h.tuned b hb d hd herr

theorem Tuned.abandon (h : Tuned wire conf s) (zone : Ptr) : Tuned wire conf (s.abandon zone) where
  sane := h.sane.abandon zone
  tuned b hb d hd herr := by
    rw [abandon_ctx_of_mem h.sane zone hb] at hd ⊢
    exact h.tuned b hb d hd herr

theorem Opening.of_result {rc : RedisConf} {result redis : Option Nat} {err : Bool} {d : Nat}
    (h : Opening zone rc c new result redis err) (hd : result = some d) :
    d = c ∧ redis = some d := by
  cases h with
  | selected | opened =>
    obtain rfl := Option.some.inj hd
    exact ⟨rfl, rfl⟩
  | _ => exact absurd hd.symm (Option.some_ne_none d)

/-- **Opening the connection of a zone**: it is in the database of the zone, if it can be used. -/
theorem Tuned.getContext (hwire : wire.Carries hiredis) (h : Tuned wire conf s)
    (ha : a ∈ s.cleanup) (hzone : (s.ctx a).zone = zone) :
    let r := redisGetContext hiredis a (conf zone) s
    Tuned wire conf r.2 ∧ (wire.memory s.world).Settles (wire.memory r.2.world) ∧
      ∀ c, r.1 = some c → wire.database r.2.world c = (conf zone).target ∧ c < r.2.next ∧
        a ∈ r.2.cleanup ∧ (r.2.ctx a).redis = some c ∧ (r.2.ctx a).zone = zone := by
  rcases redisGetContext_cases hiredis a (conf zone) s with
    ⟨c, hredis, heq⟩ | ⟨hnone, new, hext, hopen, hlt⟩
  · rw [heq]
    refine ⟨h, .refl _, fun d hd ↦ ?_⟩
    rcases herr : s.err c with _ | _
    · rw [herr] at hd
      obtain rfl := Option.some.inj hd
      exact ⟨hzone ▸ h.tuned a ha c hredis herr, h.sane.redis_lt a ha c hredis, ha, hredis, hzone⟩
    · rw [herr] at hd
      exact absurd hd.symm (Option.some_ne_none d)
  · obtain ⟨hkeeps, hdatabase⟩ := redisGetContext_wire hwire (conf zone) hnone
    have hnew : ∀ d, ((redisGetContext hiredis a (conf zone) s).2.ctx a).redis = some d →
        d = s.next ∧ d < (redisGetContext hiredis a (conf zone) s).2.next := by
      intro d hd
      have hd' : d = s.next := by
        rcases hopen.redis_eq with hnone' | hsome
        · exact absurd (hd.symm.trans hnone') (Option.some_ne_none d)
        · exact Option.some.inj (hd.symm.trans hsome)
      exact ⟨hd', hd' ▸ hlt.resolve_left (by rw [hd]; exact Option.some_ne_none d)⟩
    refine ⟨h.extends hext ha (.inr rfl) hkeeps.database hnew fun d hd herr ↦ ?_, hkeeps.settles,
      fun d hd ↦ ?_⟩
    · rcases hr : (redisGetContext hiredis a (conf zone) s).1 with _ | d'
      · rw [hr] at hopen
        exact absurd (herr.symm.trans (hopen.err hd)) Bool.false_ne_true
      · exact (hdatabase d' hr).trans (by rw [hzone])
    · obtain ⟨rfl, hredis⟩ := hopen.of_result hd
      exact ⟨hdatabase _ hd, (hnew _ hredis).2, hext.cleanup ▸ ha, hredis, hext.zone.trans hzone⟩

/-- From one world to another, a command was sent to a database, or was not sent; and this is what
came back. -/
inductive Wire.Asks (wire : Wire σ) (hiredis : Hiredis σ) (db : Database) (cmd : Command)
    (world world' : σ) : Option Reply → Prop
  | unsent (hsettles : (wire.memory world).Settles (wire.memory world')) :
      Asks wire hiredis db cmd world world' none
  | sent (opened : σ) (c : Nat) (hsettles : (wire.memory world).Settles (wire.memory opened))
      (hdatabase : wire.database opened c = db)
      (hworld : world' = (hiredis.command opened c cmd).2) :
      Asks wire hiredis db cmd world world' (hiredis.command opened c cmd).1.1

theorem Tuned.ask (hwire : wire.Carries hiredis) (h : Tuned wire conf s) (ha : a ∈ s.cleanup)
    (hzone : (s.ctx a).zone = zone) (hcmd : cmd.carriesData = true) :
    let r : Option Reply × Pool σ :=
      match redisGetContext hiredis a (conf zone) s with
      | (none, s) => (none, s)
      | (some c, s) => sendCommand hiredis c cmd s
    Tuned wire conf r.2 ∧
      wire.Asks hiredis (conf zone).target cmd s.world r.2.world r.1 := by
  obtain ⟨htuned, hsettles, hopen⟩ := h.getContext hwire ha hzone
  rcases hget : redisGetContext hiredis a (conf zone) s with ⟨_ | c, s₁⟩
  · rw [hget] at htuned hsettles
    exact ⟨htuned, .unsent hsettles⟩
  · rw [hget] at htuned hsettles hopen
    obtain ⟨hdatabase, hlt, ha₁, hredis, hzone₁⟩ := hopen c rfl
    obtain ⟨new, hext, hctx, -⟩ := sendCommand_spec hiredis a cmd hlt
    obtain ⟨hreply, hworld⟩ := sendCommand_world hiredis c cmd s₁
    have hstays := hwire.stays s₁.world c cmd hcmd
    rw [← hworld] at hstays
    constructor
    · refine htuned.extends hext ha₁ (.inl hredis) (fun d _ ↦ congrFun hstays d) (fun d hd ↦ ?_)
        (fun d hd _ ↦ ?_)
      · rw [hctx, hredis, Option.some.injEq] at hd
        exact ⟨hd.symm, hd ▸ Nat.lt_of_lt_of_le hlt hext.next⟩
      · dsimp only at hdatabase hzone₁
        rw [hstays, hdatabase, hzone₁]
    · dsimp only
      rw [hreply]
      exact .sent s₁.world c hsettles hdatabase hworld

theorem Wire.Asks.get {key : Bytes} {db : Database} {world world' : σ} {reply : Option Reply}
    (hwire : wire.Carries hiredis) (h : wire.Asks hiredis db (.get key) world world' reply) :
    (wire.memory world).Settles (wire.memory world') ∧ ∀ val, reply = some (.string val) →
      (wire.memory world).bound (db, key) val ∨ (wire.memory world).late (db, key) val := by
  rcases h with hsettles | ⟨opened, c, hsettles, rfl, rfl⟩
  · exact ⟨hsettles, fun val hval ↦ absurd hval.symm (Option.some_ne_none _)⟩
  · obtain ⟨hget, hfound⟩ := hwire.get opened c key
    exact ⟨hsettles.trans hget, fun val hval ↦ hsettles.found (hfound val hval)⟩

theorem Wire.Asks.set {key val : Bytes} {db : Database} {world world' : σ} {reply : Option Reply}
    (hwire : wire.Carries hiredis) (h : wire.Asks hiredis db cmd world world' reply)
    (hcmd : cmd.binding = some (key, val)) :
    (wire.memory world).Writes (fun _ ↦ False) (wire.memory world')
      ⟨(db, key), val, decide (writeRc reply = .ok)⟩ := by
  rcases h with hsettles | ⟨opened, c, hsettles, rfl, rfl⟩
  · exact hsettles.unwritten id val
  · exact hsettles.writes (hwire.set opened c cmd key val hcmd)

end

end NgxKeyval
