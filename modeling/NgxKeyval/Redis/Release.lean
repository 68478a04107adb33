import NgxKeyval.Library.Ledger
import NgxKeyval.Redis.Connections

/-!
# Connections and replies are freed once

`ngx_keyval_redis_get_context` frees the connection it has opened on some failures and keeps it on
others; what is kept is freed with the pool of the request.

* `connBooks` and `replyBooks` are the calls of the client library as books of resources: what was
  obtained, used and freed.
* `Owned` is the invariant for connections: the books are in order, and what is held is what the
  contexts refer to.  `Settled` is the one for replies: nothing is held between two calls.
* `released_of_destroyPool` — once the pool is destroyed, everything has been freed exactly once,
  and nothing was used afterwards.
-/

set_option autoImplicit false

namespace NgxKeyval

open Ledger

/-! ## The books -/

/-- What a call of the client library does with a connection. -/
def Event.connDeed : Event → Option (Deed Nat)
  | .connect _ c _ _ _ _ => c.map .acquire
  | .setTimeout c _ _ => some (.use c)
  | .command c _ _ _ => some (.use c)
  | .free c => some (.release c)
  | .freeReply _ => none

/-- What a call of the client library does with a reply. -/
def Event.replyDeed : Event → Option (Deed Nat)
  | .command _ _ (some (r, _)) _ => some (.acquire r)
  | .freeReply r => some (.release r)
  | _ => none

/-- The connections that were made, used and freed. -/
def connBooks (t : List Event) : List (Deed Nat) := t.filterMap Event.connDeed

/-- The replies that were obtained and freed. -/
def replyBooks (t : List Event) : List (Deed Nat) := t.filterMap Event.replyDeed

section

variable {t t' new : List Event} {c r : Nat}

theorem Event.conn_eq (e : Event) : e.conn = e.connDeed.map Deed.id := by
  rcases e with ⟨_, _ | _⟩ | _ | _ | _ | _ <;> rfl

theorem connBooks_append : connBooks (t ++ t') = connBooks t ++ connBooks t' :=
  List.filterMap_append

theorem replyBooks_append : replyBooks (t ++ t') = replyBooks t ++ replyBooks t' :=
  List.filterMap_append

theorem count_connBooks : (connBooks t).count (.release c) = t.count (.free c) := by
  rw [connBooks, List.count_filterMap, List.count]
  refine List.countP_congr fun e _ ↦ ?_
  rcases e with ⟨_, _ | _⟩ | _ | _ | _ | _ <;> simp [Event.connDeed]

theorem count_replyBooks : (replyBooks t).count (.release r) = t.count (.freeReply r) := by
  rw [replyBooks, List.count_filterMap, List.count]
  refine List.countP_congr fun e _ ↦ ?_
  rcases e with _ | _ | ⟨_, _, _ | _⟩ | _ | _ <;> simp [Event.replyDeed]

theorem mem_connBooks_acquire : .acquire c ∈ connBooks t ↔
    ∃ zone hostname port timeout err, .connect zone (some c) hostname port timeout err ∈ t := by
  rw [connBooks, List.mem_filterMap]
  constructor
  · rintro ⟨e, he, hdeed⟩
    rcases e with ⟨zone, _ | d, hostname, port, timeout, err⟩ | _ | _ | _ | _
    all_goals simp only [Event.connDeed, Option.map, reduceCtorEq, Option.some.injEq,
      Deed.acquire.injEq] at hdeed
    exact ⟨zone, hostname, port, timeout, err, hdeed ▸ he⟩
  · rintro ⟨zone, hostname, port, timeout, err, he⟩
    exact ⟨_, he, rfl⟩

theorem mem_replyBooks_acquire : .acquire r ∈ replyBooks t ↔
    ∃ c cmd reply err, .command c cmd (some (r, reply)) err ∈ t := by
  rw [replyBooks, List.mem_filterMap]
  constructor
  · rintro ⟨e, he, hdeed⟩
    rcases e with _ | _ | ⟨c, cmd, _ | ⟨d, reply⟩, err⟩ | _ | _
    all_goals simp only [Event.replyDeed, reduceCtorEq, Option.some.injEq,
      Deed.acquire.injEq] at hdeed
    exact ⟨c, cmd, reply, err, hdeed ▸ he⟩
  · rintro ⟨c, cmd, reply, err, he⟩
    exact ⟨_, he, rfl⟩

/-- **What the books hold** are the open connections. -/
theorem held_connBooks (t : List Event) :
    held (connBooks t) = (openConnections t).map Prod.snd := by
  have hfold : ∀ opened : List (Ptr × Nat), (connBooks t).foldl Deed.apply (opened.map Prod.snd) =
      (t.foldl Event.opens opened).map Prod.snd := by
    induction t with
    | nil => exact fun _ ↦ rfl
    | cons e t ih =>
      intro opened
      rw [List.foldl_cons, ← ih, connBooks, List.filterMap_cons]
      rcases e with ⟨_, _ | _⟩ | _ | _ | _ | _
      case free c =>
        simp only [Event.connDeed, List.foldl_cons, Event.opens, Deed.apply, List.filter_map]
        rfl
      all_goals rfl
  exact hfold []

/-- Everything that was obtained has been freed exactly once, after it was obtained, and no
connection was used afterwards. -/
structure Released (t : List Event) : Prop where
  conn_once : ∀ zone c hostname port timeout err,
    .connect zone (some c) hostname port timeout err ∈ t → t.count (.free c) = 1
  conn_made : ∀ pre c post, t = pre ++ .free c :: post →
    ∃ zone hostname port timeout err, .connect zone (some c) hostname port timeout err ∈ pre
  conn_unused : ∀ pre c post, t = pre ++ .free c :: post → ∀ e ∈ post, e.conn ≠ some c
  reply_once : ∀ c cmd r reply err, .command c cmd (some (r, reply)) err ∈ t →
    t.count (.freeReply r) = 1
  reply_made : ∀ pre r post, t = pre ++ .freeReply r :: post →
    ∃ c cmd reply err, .command c cmd (some (r, reply)) err ∈ pre

/-- **Books in order that hold nothing back.** -/
theorem released_of_books (hconn : Disciplined (connBooks t)) (hopen : openConnections t = [])
    (hreply : Disciplined (replyBooks t)) (hnone : held (replyBooks t) = []) : Released t := by
  refine ⟨?_, ?_, ?_, ?_, ?_⟩
  · intro zone c hostname port timeout err hmem
    rw [← count_connBooks]
    refine hconn.count_release (mem_connBooks_acquire.mpr ⟨_, _, _, _, _, hmem⟩) ?_
    rw [held_connBooks, hopen]
    exact List.not_mem_nil
  · rintro pre c post rfl
    rw [connBooks_append] at hconn
    exact mem_connBooks_acquire.mp (Disciplined.acquire_of_release hconn)
  · rintro pre c post rfl e he hc
    rw [connBooks_append] at hconn
    rw [Event.conn_eq, Option.map_eq_some_iff] at hc
    obtain ⟨d, hd, hid⟩ := hc
    exact Disciplined.id_ne_of_release hconn d (List.mem_filterMap.mpr ⟨e, he, hd⟩) hid
  · intro c cmd r reply err hmem
    rw [← count_replyBooks]
    refine hreply.count_release (mem_replyBooks_acquire.mpr ⟨_, _, _, _, hmem⟩) ?_
    rw [hnone]
    exact List.not_mem_nil
  · rintro pre r post rfl
    rw [replyBooks_append] at hreply
    exact mem_replyBooks_acquire.mp (Disciplined.acquire_of_release hreply)

end

/-! ## Connections -/

section

variable {σ : Type} {hiredis : Hiredis σ} {s s₁ s' : Pool σ} {zone : Ptr} {conf : RedisConf}
  {cmd : Command} {reply : Option Reply} {new : List Event} {a c : Nat}

/-- The books are in order, and what they hold is what the contexts refer to. -/
structure Owned (s : Pool σ) : Prop where
  tracked : Tracked s
  books : Disciplined (connBooks s.trace)

theorem owned_new (world : σ) : Owned (Pool.new world) := ⟨tracked_new world, .nil⟩

theorem Tracked.mem_held (h : Tracked s) :
    c ∈ held (connBooks s.trace) ↔ ∃ a ∈ s.cleanup, (s.ctx a).redis = some c := by
  rw [held_connBooks, List.mem_map]
  constructor
  · rintro ⟨⟨p, d⟩, hmem, rfl⟩
    obtain ⟨a, ha, hctx⟩ := (h.opened p d).mp hmem
    exact ⟨a, ha, by rw [hctx]⟩
  · rintro ⟨a, ha, hredis⟩
    exact ⟨((s.ctx a).zone, c), (h.opened _ _).mpr ⟨a, ha, by rw [← hredis]⟩, rfl⟩

/-- **A context never refers to a connection that has been freed.** -/
theorem Owned.not_freed (h : Owned s) (ha : a ∈ s.cleanup) (hredis : (s.ctx a).redis = some c) :
    .free c ∉ s.trace := by
  have hrel := (h.books.mem_held_iff.mp (h.tracked.mem_held.mpr ⟨a, ha, hredis⟩)).2
  exact fun hmem ↦ hrel (List.mem_filterMap.mpr ⟨_, hmem, rfl⟩)

theorem Pool.Sane.books_fresh (h : s.Sane) : ∀ d ∈ connBooks s.trace, d.id ≠ s.next := by
  intro d hd hid
  obtain ⟨e, he, hdeed⟩ := List.mem_filterMap.mp hd
  refine Nat.lt_irrefl _ (h.fresh e he s.next ?_)
  rw [Event.conn_eq, hdeed, Option.map_some, hid]

/-- **While a connection is opened** it is made, used, and freed unless the context keeps it. -/
theorem Opening.books {result redis : Option Nat} {err : Bool}
    (h : Opening zone conf c new result redis err) :
    connBooks new = [] ∨ ∃ n,
      (connBooks new = .acquire c :: List.replicate n (.use c) ∧ redis = some c) ∨
      connBooks new = .acquire c :: List.replicate n (.use c) ++ [.release c] := by
  cases h with
  | null => exact Or.inl rfl
  | refused => exact Or.inr ⟨0, Or.inl ⟨rfl, rfl⟩⟩
  | noTimeout => exact Or.inr ⟨1, Or.inr rfl⟩
  | selectLost => exact Or.inr ⟨2, Or.inr rfl⟩
  | selectRefused => exact Or.inr ⟨2, Or.inr rfl⟩
  | selected => exact Or.inr ⟨2, Or.inl ⟨rfl, rfl⟩⟩
  | opened => exact Or.inr ⟨1, Or.inl ⟨rfl, rfl⟩⟩

theorem Sending.books {err : Bool} (h : Sending c cmd new reply err) :
    connBooks new = [.use c] := by
  cases h <;> rfl

/-- Opening a connection with a new address keeps the books in order. -/
theorem Opening.disciplined {result redis : Option Nat} {err : Bool} {t : List (Deed Nat)}
    (h : Opening zone conf c new result redis err) (ht : Disciplined t)
    (hfresh : ∀ d ∈ t, d.id ≠ c) : Disciplined (t ++ connBooks new) := by
  rcases h.books with heq | ⟨n, ⟨heq, -⟩ | heq⟩
  · rw [heq, List.append_nil]
    exact ht
  · rw [heq]
    exact (ht.acquire hfresh n).1
  · rw [heq, ← List.append_assoc]
    exact (ht.acquire_release hfresh n).1

theorem Opening.disciplined_use {result : Option Nat} {err : Bool} {t : List (Deed Nat)}
    (h : Opening zone conf c new result (some c) err) (ht : Disciplined t)
    (hfresh : ∀ d ∈ t, d.id ≠ c) : Disciplined (t ++ (connBooks new ++ [.use c])) := by
  obtain ⟨n, heq⟩ : ∃ n, connBooks new = .acquire c :: List.replicate n (.use c) := by
    cases h with
    | refused => exact ⟨0, rfl⟩
    | selected => exact ⟨2, rfl⟩
    | opened => exact ⟨1, rfl⟩
  rw [heq, List.cons_append, ← List.replicate_succ']
  exact (ht.acquire hfresh (n + 1)).1

/-- **An access keeps the books in order.** -/
theorem Access.owned (h : Access hiredis zone conf cmd s s' new reply) (hs : Owned s) :
    Owned s' := by
  refine ⟨(h.opens hs.tracked).2, ?_⟩
  rw [h.trace hs.tracked.sane, connBooks_append]
  have hnil : Disciplined (connBooks s.trace ++ []) := by
    rw [List.append_nil]
    exact hs.books
  cases h with
  | noContext => exact hnil
  | stuck => exact hnil
  | reused a c _ _ ha _ hredis _ _ _ hsend =>
    rw [hsend.books]
    exact hs.books.snoc (hs.tracked.mem_held.mpr ⟨a, ha, hredis⟩)
  | failed s₁ a _ hfound _ _ hopen =>
    obtain ⟨hs₁, -, -, htrace, -⟩ := hfound.spec hs.tracked.sane
    exact hopen.disciplined hs.books (htrace ▸ hs₁.books_fresh)
  | opened s₁ a _ _ _ _ hfound _ _ hopen _ _ hsend =>
    obtain ⟨hs₁, -, -, htrace, -⟩ := hfound.spec hs.tracked.sane
    rw [connBooks_append, hsend.books]
    exact hopen.disciplined_use hs.books (htrace ▸ hs₁.books_fresh)

/-! ## Replies -/

/-- The books are in order, no reply is held, and their addresses have been used. -/
structure Settled (s : Pool σ) : Prop where
  books : Disciplined (replyBooks s.trace)
  held : held (replyBooks s.trace) = []
  fresh : ∀ d ∈ replyBooks s.trace, d.id < s.next

theorem settled_new (world : σ) : Settled (Pool.new world) := ⟨.nil, rfl, fun d hd ↦ by cases hd⟩

theorem Settled.congr (h : Settled s) (hbooks : replyBooks s'.trace = replyBooks s.trace)
    (hnext : s.next ≤ s'.next) : Settled s' := by
  refine ⟨hbooks ▸ h.books, hbooks ▸ h.held, fun d hd ↦ ?_⟩
  rw [hbooks] at hd
  exact Nat.lt_of_lt_of_le (h.fresh d hd) hnext

theorem Settled.extends (h : Settled s) (hext : Extends s s' a c new) (hnew : replyBooks new = []) :
    Settled s' := by
  refine h.congr ?_ hext.next
  rw [hext.trace, replyBooks_append, hnew, List.append_nil]

theorem Settled.freeRedis (h : Settled s) (hiredis : Hiredis σ) (a c : Nat) :
    Settled (freeRedis hiredis a c s) := by
  refine h.congr ?_ (Nat.le_refl _)
  rw [show (NgxKeyval.freeRedis hiredis a c s).trace = s.trace ++ [.free c] from rfl,
    replyBooks_append]
  exact List.append_nil _

/-- **A command and what is done with its reply.**  Without a reply there is nothing to free;
otherwise it is freed. -/
theorem Settled.command (h : Settled s) (hiredis : Hiredis σ) (c : Nat) (cmd : Command) :
    (∃ s', redisCommand hiredis c cmd s = (none, s') ∧ Settled s') ∨
    ∃ r reply s', redisCommand hiredis c cmd s = (some (r, reply), s') ∧
      Settled (freeReplyObject r s') := by
  rw [redisCommand]
  rcases hiredis.command s.world c cmd with ⟨⟨_ | reply, err⟩, world⟩
  · refine Or.inl ⟨_, rfl, h.congr ?_ (Nat.le_refl _)⟩
    exact replyBooks_append.trans (List.append_nil _)
  · refine Or.inr ⟨_, _, _, rfl, ?_⟩
    have hfresh : ∀ d ∈ replyBooks s.trace, d.id ≠ s.next := fun d hd ↦ Nat.ne_of_lt (h.fresh d hd)
    have hbooks : ∀ cmd err, replyBooks (s.trace ++ [.command c cmd (some (s.next, reply)) err] ++
        [.freeReply s.next]) = replyBooks s.trace ++ .acquire s.next ::
          List.replicate 0 (.use s.next) ++ [.release s.next] := by
      intro cmd err
      rw [replyBooks_append, replyBooks_append]
      rfl
    obtain ⟨hd, hheld⟩ := h.books.acquire_release hfresh 0
    rw [freeReplyObject]
    refine ⟨?_, ?_, ?_⟩
    · rw [hbooks]
      exact hd
    · rw [hbooks, hheld, h.held]
    · rw [hbooks]
      intro d hd
      simp only [List.replicate_zero, List.append_assoc, List.singleton_append, List.mem_append,
        List.mem_cons, List.not_mem_nil, or_false] at hd
      rcases hd with hd | rfl | rfl
      · exact Nat.lt_succ_of_lt (h.fresh d hd)
      · exact Nat.lt_succ_self _
      · exact Nat.lt_succ_self _

theorem Settled.sendCommand (h : Settled s) (c : Nat) (cmd : Command) :
    Settled (sendCommand hiredis c cmd s).2 := by
  rw [NgxKeyval.sendCommand]
  rcases h.command hiredis c cmd with ⟨s', heq, hs'⟩ | ⟨r, reply, s', heq, hs'⟩
  · rw [heq]
    exact hs'
  · rw [heq]
    exact hs'

theorem Settled.redisSelect (h : Settled s) (a c : Nat) (conf : RedisConf) :
    Settled (redisSelect hiredis a c conf s).2 := by
  rw [NgxKeyval.redisSelect]
  rcases h.command hiredis c (.select (cInt conf.db)) with ⟨s', heq, hs'⟩ | ⟨r, reply, s', heq, hs'⟩
  · rw [heq]
    exact hs'.freeRedis hiredis a c
  · rw [heq]
    cases reply with
    | error => exact hs'.freeRedis hiredis a c
    | _ => exact hs'

theorem Settled.redisPrepare (h : Settled s) (hc : c < s.next) (a : Nat) (conf : RedisConf) :
    Settled (redisPrepare hiredis a c conf s).2 := by
  obtain ⟨ok, s', heq, hext, -⟩ := redisSetTimeout_cases hiredis a conf.commandTimeout hc
  have hs' : Settled s' := h.extends hext rfl
  rw [NgxKeyval.redisPrepare, heq]
  cases ok with
  | false => exact hs'.freeRedis hiredis a c
  | true =>
    by_cases hdb : conf.db > 0
    · simp only [if_pos hdb]
      exact hs'.redisSelect a c conf
    · simp only [if_neg hdb]
      exact hs'

theorem Settled.redisGetContext (h : Settled s) (a : Nat) (conf : RedisConf) :
    Settled (redisGetContext hiredis a conf s).2 := by
  rw [NgxKeyval.redisGetContext]
  cases hredis : (s.ctx a).redis with
  | some c =>
    simp only
    split <;> exact h
  | none =>
    obtain ⟨result, err, s₁, heq, hext, -, hnext, -⟩ :=
      redisConnect_cases hiredis a (s.ctx a).zone conf.hostname (cInt conf.port)
        conf.connectTimeout s
    rw [heq]
    have hs₁ : Settled s₁ := h.extends hext rfl
    rcases hnext with ⟨rfl, -⟩ | ⟨rfl, hlt⟩
    · exact hs₁
    · have hset : Settled (s₁.setRedis a (some s.next)) := hs₁.congr rfl (Nat.le_refl _)
      simp only
      split
      · exact hset
      · exact hset.redisPrepare hlt a conf

/-- **An access frees the replies it obtains.** -/
theorem Settled.openRedis (h : Settled s) (zone : Ptr) (conf : RedisConf) (o : AccessAlloc) :
    Settled (openRedis hiredis zone conf o s).2 := by
  rw [NgxKeyval.openRedis]
  rcases storeRedisGetCtx_cases zone o s with ⟨a, -, -, heq⟩ | ⟨-, heq | heq | heq⟩
  · rw [heq]
    exact h.redisGetContext a conf
  · rw [heq]
    have hregister : Settled (s.register zone) := h.congr rfl (Nat.le_succ _)
    exact hregister.redisGetContext _ conf
  · rw [heq]
    exact h.congr rfl (Nat.le_succ _)
  · rw [heq]
    exact h

theorem Settled.redisAccess (h : Settled s) (zone : Ptr) (conf : RedisConf) (cmd : Command)
    (o : AccessAlloc) : Settled (redisAccess hiredis zone conf cmd o s).2 := by
  have hopen : Settled (NgxKeyval.openRedis hiredis zone conf o s).2 := h.openRedis zone conf o
  rw [NgxKeyval.redisAccess]
  rcases heq : NgxKeyval.openRedis hiredis zone conf o s with ⟨_ | c, s₁⟩
  · rw [heq] at hopen
    exact hopen
  · rw [heq] at hopen
    exact hopen.sendCommand c cmd

/-! ## Destroying the pool -/

theorem Owned.redisCleanupCtx (h : Owned s) (hiredis : Hiredis σ) (ha : a ∈ s.cleanup) :
    Owned (redisCleanupCtx hiredis a s) := by
  rw [NgxKeyval.redisCleanupCtx]
  cases hredis : (s.ctx a).redis with
  | none => exact h
  | some c =>
    have hlt := h.tracked.sane.redis_lt a ha c hredis
    have hext := extends_freeRedis hiredis a hlt
    have hsane := h.tracked.sane
    have hnone := freeRedis_redis hiredis s a c
    refine ⟨⟨hsane.extends hext ha (Or.inl hredis) fun d hd ↦ ?_, fun p d ↦ ?_⟩, ?_⟩
    · rw [hnone] at hd
      cases hd
    · rw [hext.trace, openConnections_append, hext.cleanup, List.foldl_cons, List.foldl_nil,
        Event.opens, List.mem_filter, h.tracked.opened, decide_eq_true_iff]
      constructor
      · rintro ⟨⟨b, hb, hctx⟩, hdc⟩
        -- another context has this connection, so it is left alone
        have hba : b ≠ a := by
          rintro rfl
          rw [hctx] at hredis
          exact hdc (Option.some.inj hredis)
        exact ⟨b, hb, (hext.ctx b hba).trans hctx⟩
      · rintro ⟨b, hb, hctx⟩
        have hba : b ≠ a := by
          rintro rfl
          rw [hctx] at hnone
          cases hnone
        rw [hext.ctx b hba] at hctx
        refine ⟨⟨b, hb, hctx⟩, ?_⟩
        rintro rfl
        exact hba (hsane.redis_inj b hb a ha d (by rw [hctx]) hredis)
    · rw [hext.trace, connBooks_append]
      exact h.books.snoc (h.tracked.mem_held.mpr ⟨a, ha, hredis⟩)

theorem Settled.redisCleanupCtx (h : Settled s) (hiredis : Hiredis σ) (a : Nat) :
    Settled (redisCleanupCtx hiredis a s) := by
  rw [NgxKeyval.redisCleanupCtx]
  split
  · exact h
  · exact h.freeRedis hiredis a _

theorem redisCleanupCtx_ctx (hiredis : Hiredis σ) (s : Pool σ) (a : Nat) :
    (redisCleanupCtx hiredis a s).cleanup = s.cleanup ∧
      ((redisCleanupCtx hiredis a s).ctx a).redis = none ∧
      ∀ b, b ≠ a → (redisCleanupCtx hiredis a s).ctx b = s.ctx b := by
  rw [redisCleanupCtx]
  cases hredis : (s.ctx a).redis with
  | none => exact ⟨rfl, hredis, fun _ _ ↦ rfl⟩
  | some c => exact ⟨rfl, freeRedis_redis hiredis s a c, fun b hb ↦ Function.update_of_ne hb _ _⟩

/-- **Running the cleanups** of these contexts leaves them without a connection. -/
theorem foldl_redisCleanupCtx (hiredis : Hiredis σ) {l : List Nat} {s : Pool σ} (h : Owned s)
    (hset : Settled s) (hl : ∀ a ∈ l, a ∈ s.cleanup) :
    Owned (l.foldl (fun s a ↦ redisCleanupCtx hiredis a s) s) ∧
      Settled (l.foldl (fun s a ↦ redisCleanupCtx hiredis a s) s) ∧
      (l.foldl (fun s a ↦ redisCleanupCtx hiredis a s) s).cleanup = s.cleanup ∧
      ∀ a, a ∈ l ∨ (s.ctx a).redis = none →
        ((l.foldl (fun s a ↦ redisCleanupCtx hiredis a s) s).ctx a).redis = none := by
  induction l generalizing s with
  | nil => exact ⟨h, hset, rfl, fun a ha ↦ ha.resolve_left List.not_mem_nil⟩
  | cons b l ih =>
    obtain ⟨hcleanup, hself, hother⟩ := redisCleanupCtx_ctx hiredis s b
    obtain ⟨hown, hset', hsame, hnone⟩ :=
      ih (h.redisCleanupCtx hiredis (hl b List.mem_cons_self)) (hset.redisCleanupCtx hiredis b)
        fun a ha ↦ hcleanup.symm ▸ hl a (List.mem_cons_of_mem b ha)
    refine ⟨hown, hset', hsame.trans hcleanup, fun a ha ↦ hnone a ?_⟩
    by_cases hab : a = b
    · exact Or.inr (hab ▸ hself)
    · rcases ha with ha | ha
      · exact Or.inl ((List.mem_cons.mp ha).resolve_left hab)
      · rw [hother a hab]
        exact Or.inr ha

/-- **Destroying the pool frees what is left.** -/
theorem released_destroyPool (hiredis : Hiredis σ) (h : Owned s) (hset : Settled s) :
    Released (destroyPool hiredis s).trace := by
  obtain ⟨hown, hset', hcleanup, hnone⟩ := foldl_redisCleanupCtx hiredis h hset fun a ha ↦ ha
  refine released_of_books hown.books ?_ hset'.books hset'.held
  refine List.eq_nil_iff_forall_not_mem.mpr fun ⟨p, c⟩ hmem ↦ ?_
  obtain ⟨a, ha, hctx⟩ := (hown.tracked.opened p c).mp hmem
  have ha' := hnone a (Or.inl (hcleanup ▸ ha))
  rw [hctx] at ha'
  cases ha'

end

/-! ## Requests -/

section

variable {w : Nat} {σ : Type} {env : StoreEnv w σ}

/-- Every call keeps the books in order. -/
theorem storeStep_owned (s : StoreState w σ) (call : StoreCall w) (h : Owned s.pool) :
    Owned (storeStep env s call).2.pool := by
  rcases storeStep_pool_cases h.tracked.sane call with heq | ⟨p, new, reply, -, -, haccess⟩
  · exact heq ▸ h
  · exact haccess.owned h

theorem storeStep_settled (s : StoreState w σ) (call : StoreCall w) (h : Settled s.pool) :
    Settled (storeStep env s call).2.pool := by
  by_cases hredis : ∃ p, call.zone = some p ∧ (env.zones p).store = some .redis
  · obtain ⟨p, hzone, hstore⟩ := hredis
    rw [storeStep_redis hzone hstore]
    exact h.redisAccess p _ _ _
  · rw [storeStep_pool fun p hp hstore ↦ hredis ⟨p, hp, hstore⟩]
    exact h

/-- **Everything is freed exactly once.**  In every request, and whatever the client library and the
allocators answer, no context refers to a connection that has been freed; and once the pool is
destroyed, every connection that was made and every reply that was obtained has been freed exactly
once, and no connection was used afterwards. -/
theorem released_of_destroyPool (env : StoreEnv w σ) (shm : Nat → ShmZone w) (world : σ)
    (calls : List (StoreCall w)) :
    (∀ a ∈ (Machine.final (storeStep env) ⟨shm, .new world⟩ calls).pool.cleanup,
      ∀ c, ((Machine.final (storeStep env) ⟨shm, .new world⟩ calls).pool.ctx a).redis = some c →
        .free c ∉ (Machine.final (storeStep env) ⟨shm, .new world⟩ calls).pool.trace) ∧
    Released (destroyPool env.hiredis
      (Machine.final (storeStep env) ⟨shm, .new world⟩ calls).pool).trace := by
  have hreach : Machine.Reachable (storeStep env) ⟨shm, .new world⟩
      (Machine.final (storeStep env) ⟨shm, .new world⟩ calls) := ⟨calls, rfl⟩
  have hown := hreach.induction (P := fun s : StoreState w σ ↦ Owned s.pool) (owned_new world)
    storeStep_owned
  have hset := hreach.induction (P := fun s : StoreState w σ ↦ Settled s.pool) (settled_new world)
    storeStep_settled
  exact ⟨fun a ha c hredis ↦ hown.not_freed ha hredis, released_destroyPool env.hiredis hown hset⟩

end

end NgxKeyval
