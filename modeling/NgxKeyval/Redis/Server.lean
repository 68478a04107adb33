import NgxKeyval.Redis.Store

/-!
# A Redis server

A server that works, with a database for every number: a map from byte strings to a value and,
possibly, a deadline.  `SET` stores a value without a deadline and `SETEX` one that many seconds
from now; `GET` finds nothing at or after the deadline.  `serverHiredis` is the client library
talking to it, over connections that never fail.

Times are in milliseconds.
-/

set_option autoImplicit false

namespace NgxKeyval

/-- A server, with the connections to it. -/
structure Server where
  /-- The clock. -/
  now : Nat
  /-- The databases. -/
  data : Int → Bytes → Option (Bytes × Option Nat)
  /-- The database each connection has selected. -/
  selected : Nat → Int

namespace Server

/-- A server without data. -/
def empty : Server := ⟨0, fun _ _ ↦ none, fun _ ↦ 0⟩

/-- What `GET` finds in a database. -/
def value (s : Server) (db : Int) (key : Bytes) : Option Bytes :=
  match s.data db key with
  | none => none
  | some (val, none) => some val
  | some (val, some deadline) => if s.now < deadline then some val else none

/-- Bind a key in a database. -/
def store (s : Server) (db : Int) (key val : Bytes) (deadline : Option Nat) : Server :=
  { s with data := Function.update s.data db
                    (Function.update (s.data db) key (some (val, deadline))) }

/-- A command that arrives on connection `c`, and the reply. -/
def command (s : Server) (c : Nat) : Command → Reply × Server
  | .select db => (.status (lit "OK"), { s with selected := Function.update s.selected c db })
  | .get key =>
    match s.value (s.selected c) key with
    | some val => (.string val, s)
    | none => (.nil, s)
  | .set key val => (.status (lit "OK"), s.store (s.selected c) key val none)
  | .setex key ttl val =>
    if 0 < ttl then
      (.status (lit "OK"), s.store (s.selected c) key val (some (s.now + 1000 * ttl.toNat)))
    else (.error (lit "ERR invalid expire time in 'setex' command"), s)

end Server

/-- The client library, over connections that never fail. -/
def serverHiredis : Hiredis Server where
  connect s c _ _ _ := (some false, { s with selected := Function.update s.selected c 0 })
  setTimeout s _ _ := (true, s)
  command s c cmd := ((some (s.command c cmd).1, false), (s.command c cmd).2)
  free s _ := s

/-- The library that reaches a server is lawful. -/
theorem serverHiredis_lawful : serverHiredis.Lawful where
  err_of_null _ _ _ h := by cases h

end NgxKeyval
