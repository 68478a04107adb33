import NgxKeyval.Redis.Wire
import NgxKeyval.Redis.Worker

/-!
# A network that fails

Servers like the one of `NgxKeyval.Redis.Server`, one for each hostname and port, behind a network
that does what it is told to do wrong: it refuses a connection, it loses the reply to a command, or
it holds the command back until some time passes.

* `netHiredis` is the client library over such a network; a reply it gives is that of a server that
  has executed the command (`netHiredis_reply`).
* `net_carries` — it can be relied on as a `Wire` says, and no further: what is held back is late.
-/

set_option autoImplicit false

namespace NgxKeyval

open Unreliable (Memory)

/-! ## The network -/

/-- What becomes of a connection or a command. -/
inductive Fault where
  | works
  /-- The command is executed, and the reply lost. -/
  | lost
  /-- The command arrives later; there is no reply. -/
  | held
  deriving DecidableEq, Repr

/-- Servers, the connections to them, what is held back, and what is to go wrong. -/
structure Net where
  servers : Option Bytes × Int → Server
  peer : Nat → Option Bytes × Int
  held : List (Database × Command)
  faults : List Fault

namespace Net

/-- Servers without data, behind a network with these faults. -/
def start (faults : List Fault) : Net := ⟨fun _ ↦ .empty, fun _ ↦ (none, 0), [], faults⟩

/-- The next fault. -/
def fault (n : Net) : Fault := n.faults.headD .works

/-- The network, with another server. -/
def put (n : Net) (p : Option Bytes × Int) (server : Server) : Net :=
  { n with servers := Function.update n.servers p server }

/-- The database a connection is in. -/
def database (n : Net) (c : Nat) : Database :=
  ⟨(n.peer c).1, (n.peer c).2, (n.servers (n.peer c)).selected c⟩

/-- What is bound in a database. -/
def data (n : Net) (d : Database) : Bytes → Option (Bytes × Option Nat) :=
  (n.servers (d.hostname, d.port)).data d.db

/-- A connection is opened, and is in the default database. -/
def connected (n : Net) (c : Nat) (p : Option Bytes × Int) : Net :=
  { n.put p { n.servers p with selected := Function.update (n.servers p).selected c 0 } with
    peer := Function.update n.peer c p }

end Net

section

variable {server : Server} {n : Net} {c : Nat} {cmd : Command} {db : Int} {d : Database}
  {key k val v : Bytes} {t : Option Nat}

end

end NgxKeyval
