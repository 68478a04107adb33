import NgxKeyval.Conf.Variable
import NgxKeyval.Library.Machine

/-!
# Expanding a key

`ngx_keyval_variable.c`: the key of a variable is made from its compiled form in two loops.  The
first asks for each variable in turn, keeps a reference to the value it is given, and adds up the
lengths.  The second copies the key string into a buffer of that size, putting the value of the
next reference wherever there is a `$`.

Asking for a variable may run any code, so the state `σ` of the request is threaded through the
first loop, and a reference (`ρ`) is only looked at again in the second, in the state the first
loop ends in.  A write past the end of the buffer is `KeyResult.overflow`.
-/

set_option autoImplicit false

namespace NgxKeyval

/-- `ngx_variable_value_t`; `data` is the `len` bytes it points at. -/
structure VariableValue where
  data : Bytes
  valid : Bool
  noCacheable : Bool
  notFound : Bool
  deriving DecidableEq, Repr

/-- What `ngx_keyval_variable_get_key` comes back with. -/
inductive KeyResult where
  /-- `NGX_OK`, with the key. -/
  | ok (key : Bytes)
  /-- `NGX_ERROR` -/
  | error
  /-- The code would have written past the end of the key buffer. -/
  | overflow
  deriving DecidableEq, Repr

section

variable {σ ρ : Type} (getIndexVariable : σ → Nat → Option ρ × σ) (deref : σ → ρ → VariableValue)

/-- The first loop: the references, and the sum of the lengths their values had at the time. -/
def measureLoop : List Nat → σ → Option (List ρ × Nat) × σ
  | [], s => (some ([], 0), s)
  | i :: is, s =>
    match getIndexVariable s i with
    | (none, s) => (none, s)
    | (some v, s) =>
      if (deref s v).notFound then (none, s)
      else
        match measureLoop is s with
        | (none, s') => (none, s')
        | (some (vs, size), s') => (some (v :: vs, (deref s v).data.length + size), s')

/-- The second loop, over what is left of the key string: `current` is the next reference to use
and `out` what has been written to the `size` bytes of the buffer. -/
def copyLoop (value : ρ → VariableValue) (vs : List ρ) (size : Int) :
    Nat → Bytes → Bytes → KeyResult
  | _, out, [] =>
    -- the terminating `NUL`
    if (out.length : Int) < size then .ok out else .overflow
  | current, out, c :: p =>
    if c = dollar then
      match vs[current]? with
      | none => .error
      | some v =>
        if ((out ++ (value v).data).length : Int) ≤ size then
          copyLoop value vs size (current + 1) (out ++ (value v).data) p
        else .overflow
    else if (out.length : Int) < size then copyLoop value vs size current (out ++ [c]) p
    else .overflow

/-- The size of the key buffer.  The three summands are unsigned words in the code; the sum is the
same. -/
def keySize (size : Nat) (var : Variable) : Int :=
  size + (var.keyString.length - var.indexes.length) + 1

/-- `ngx_keyval_variable_get_key`.  `allocValues` and `allocKey` are whether the pool has room for
the references and for the key. -/
def variableGetKey (var : Variable) (allocValues allocKey : Bool) (s : σ) : KeyResult × σ :=
  if var.indexes.length ≠ 0 then
    if allocValues = false then (.error, s)
    else
      match measureLoop getIndexVariable deref var.indexes s with
      | (none, s) => (.error, s)
      | (some (vs, size), s) =>
        if allocKey = false then (.error, s)
        else (copyLoop (deref s) vs (keySize size var) 0 [] var.keyString, s)
  else (.ok var.keyString, s)

end

end NgxKeyval
