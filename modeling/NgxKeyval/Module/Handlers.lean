import NgxKeyval.Store.Ops
import NgxKeyval.Template.Expand

/-!
# The variable handlers

`ngx_http_keyval_module.c`, at request time, and the part of nginx that calls it; the stream module
has the same handlers.  A request has a slot for each indexed variable.  The get handler of a
variable expands the key, reads the store and fills in the slot; the set handler expands the key and
writes the store.

* `variableInit`, `variableGetHandler` and `variableSetHandler` are the handlers.
* `getIndexedVariable` is `ngx_http_get_indexed_variable`: it calls the get handler of a variable
  whose slot is empty.  Since expanding a key asks for other variables, the two call each other, to
  the depth nginx allows.
* `getFlushedVariable` is `ngx_http_get_flushed_variable`, by which a variable is read: it drops a
  value that must not be cached first.
* `requestStep` makes a machine of the accesses of a request.
-/

set_option autoImplicit false

namespace NgxKeyval

/-- An indexed variable of nginx. -/
inductive IndexedVariable where
  /-- One with the handlers of this module; `data` is the record they are given, `none` for `0`. -/
  | keyval (data : Option Variable)
  /-- One of another module, with a value that lasts as long as the request. -/
  | other (value : Option Bytes)
  deriving DecidableEq, Repr

/-- What the handlers read and do not change. -/
structure RequestEnv (w : Nat) (σ : Type) where
  store : StoreEnv w σ
  /-- The indexed variables. -/
  indexed : Nat → IndexedVariable

/-- A request: `r->variables`, and what the store acts on. -/
structure Request (w : Nat) (σ : Type) where
  slots : Nat → VariableValue
  store : StoreState w σ

/-- What an access reads from outside: the clock, and the answers of the allocators. -/
structure RequestInput (w : Nat) where
  now : BitVec w
  /-- `ngx_palloc` of the references of a key. -/
  values : Bool
  /-- `ngx_pnalloc` of a key. -/
  key : Bool
  /-- The answers during the access of the store. -/
  access : AccessAlloc
  deriving DecidableEq, Repr

/-- An access of a request. -/
inductive RequestAccess where
  /-- The variable of this index is read. -/
  | read (i : Nat)
  /-- The variable of this index is set. -/
  | write (i : Nat) (val : Bytes)
  deriving DecidableEq, Repr

/-! ## Slots -/

/-- The bytes a length of 28 bits can count, which is what the `len` of a value has. -/
def lenBits (b : Bytes) : Bytes := b.take (b.length % 2 ^ 28)

/-- A slot that has not been filled in. -/
def VariableValue.empty : VariableValue := ⟨[], false, false, false⟩

/-- A slot is filled in. -/
def VariableValue.evaluated (v : VariableValue) : Bool := v.notFound || v.valid

/-- What the get handler makes of a result of the store. -/
def VariableValue.ofResult : GetResult → VariableValue
  | .ok val => { data := lenBits val, valid := true, noCacheable := false, notFound := false }
  | _ => { data := [], valid := true, noCacheable := false, notFound := true }

/-- What another module makes of its value. -/
def VariableValue.ofValue : Option Bytes → VariableValue
  | some val => { data := lenBits val, valid := true, noCacheable := false, notFound := false }
  | none => { data := [], valid := false, noCacheable := false, notFound := true }

/-- The value a slot stands for, `none` if it is not found. -/
def VariableValue.value? (v : VariableValue) : Option Bytes :=
  if v.notFound then none else some v.data

section

variable {w : Nat} {σ : Type}

/-- Fill in a slot. -/
def Request.setSlot (s : Request w σ) (i : Nat) (v : VariableValue) : Request w σ :=
  { s with slots := Function.update s.slots i v }

/-- A request that has not accessed anything. -/
def Request.new (store : StoreState w σ) : Request w σ := ⟨fun _ ↦ .empty, store⟩

/-! ## The handlers -/

section

variable (env : RequestEnv w σ) (getVariable : Request w σ → Nat → Option Nat × Request w σ)
  (o : RequestInput w)

/-- `ngx_http_keyval_variable_init`: the key, and the zone. -/
def variableInit (data : Option Variable) (s : Request w σ) : Option (Bytes × Ptr) × Request w σ :=
  match data with
  | none => (none, s)
  | some var =>
    match variableGetKey getVariable Request.slots var o.values o.key s with
    | (.ok key, s) =>
      match var.zone with
      | none => (none, s)
      | some zone => (some (key, zone), s)
    | (_, s) => (none, s)

/-- `ngx_http_keyval_variable_get_handler`, for the variable of index `i`. -/
def variableGetHandler (data : Option Variable) (i : Nat) (s : Request w σ) : Request w σ :=
  match variableInit getVariable o data s with
  | (none, s) => s.setSlot i { s.slots i with notFound := true }
  | (some (key, zone), s) =>
    let r := storeGet env.store (some zone) key o.now o.access s.store
    { s with store := r.2 }.setSlot i (.ofResult r.1)

/-- `ngx_http_keyval_variable_set_handler`. -/
def variableSetHandler (data : Option Variable) (v : VariableValue) (s : Request w σ) :
    Request w σ :=
  match variableInit getVariable o data s with
  | (none, s) => s
  | (some (key, zone), s) =>
    { s with store := storeSet env.store (some zone) key v.data o.now o.access s.store }

end

/-! ## nginx -/

variable (env : RequestEnv w σ) (o : RequestInput w)

/-- `ngx_http_get_indexed_variable`, at this distance from the depth limit: the index of the slot,
`none` for `NULL`.  The variables of this module are `NGX_HTTP_VAR_NOCACHEABLE`. -/
def getIndexedVariable : Nat → Request w σ → Nat → Option Nat × Request w σ
  | depth, s, i =>
    if (s.slots i).evaluated then (some i, s)
    else
      match depth with
      | 0 => (none, s)
      | depth + 1 =>
        match env.indexed i with
        | .keyval data =>
          let s := variableGetHandler env (getIndexedVariable depth) o data i s
          (some i, s.setSlot i { s.slots i with noCacheable := true })
        | .other value => (some i, s.setSlot i (.ofValue value))

/-- What `ngx_http_get_flushed_variable` does first: a value that must not be cached is dropped. -/
def Request.flush (s : Request w σ) (i : Nat) : Request w σ :=
  if (s.slots i).evaluated && (s.slots i).noCacheable then
    s.setSlot i { s.slots i with valid := false, notFound := false }
  else s

/-- `ngx_http_get_flushed_variable`. -/
def getFlushedVariable (depth : Nat) (s : Request w σ) (i : Nat) : Option Nat × Request w σ :=
  getIndexedVariable env o depth (s.flush i) i

/-- One access, at this distance from the depth limit.  A read returns what is in the slot; the
value of a write has a length its bits can count. -/
def requestStep (depth : Nat) (s : Request w σ) :
    RequestInput w × RequestAccess → Option Bytes × Request w σ
  | (o, .read i) =>
    let r := getFlushedVariable env o depth s i
    (r.1.bind fun j ↦ (r.2.slots j).value?, r.2)
  | (o, .write i val) =>
    match env.indexed i with
    | .keyval data =>
      (none, variableSetHandler env (getIndexedVariable env o depth) o data
        ⟨lenBits val, true, false, false⟩ s)
    | .other _ => (none, s)

end

end NgxKeyval
