import NgxKeyval.Conf.Zone

/-!
# Declaring a variable

`ngx_keyval_conf.c`: the `keyval` directive.  Its key is compiled: each `$name` is looked up once,
its index is put on a list, and a single `$` is left in the key string to mark the place.

The two buffers the compiler writes to are as long as the key.  They are only ever written at the
end, so a write is an append, and `ConfError.outOfBounds` stands for an append to a full buffer.

The function that looks a name up may answer differently each time it is asked, so it is given the
number of the question as well.
-/

set_option autoImplicit false

namespace NgxKeyval

/-- `'$'` -/
def dollar : UInt8 := 36

/-- `[A-Za-z0-9_]` -/
def isNameChar (c : UInt8) : Bool :=
  decide (65 ≤ c ∧ c ≤ 90) || decide (97 ≤ c ∧ c ≤ 122) || decide (48 ≤ c ∧ c ≤ 57) || c == 95

/-- What memory answers while a `keyval` directive runs. -/
structure VarAlloc where
  /-- `ngx_array_create` of the variables. -/
  array : Bool
  /-- The contents of memory when the array is created. -/
  junk : Ptr → Variable
  /-- `ngx_array_push` of the variable. -/
  push : PushOutcome
  /-- `ngx_array_create` of the indexes. -/
  indexes : Bool
  /-- `ngx_pnalloc` of the key string. -/
  keyString : Bool
  /-- `ngx_pnalloc` of the name buffer. -/
  variableName : Bool
  /-- `ngx_array_push` of each index. -/
  indexPush : Nat → Bool
  /-- The list of segments, in `ngx_shared_memory_add`. -/
  segment : Bool

/-! ## Compiling the key -/

/-- The inner loop: copy name bytes to the name buffer, of which `cap` bytes are allocated.  Returns
the name and the rest of the key. -/
def nameLoop (cap : Nat) : Bytes → Bytes → Except ConfError (Bytes × Bytes)
  | [], name => .ok (name, [])
  | c :: rest, name =>
    if isNameChar c then
      if name.length < cap then nameLoop cap rest (name ++ [c]) else .error .outOfBounds
    else .ok (name, c :: rest)

/-- One turn of the outer loop at a `$`: the name behind it and its terminating `NUL`, then its
index. -/
def scanName (cap : Nat) (getIndex : Nat → Bytes → Option Nat) (o : VarAlloc) (asked : Nat)
    (rest : Bytes) : Except ConfError (Nat × Bytes) :=
  match nameLoop cap rest [] with
  | .error e => .error e
  | .ok (name, rest) =>
    if name.length < cap then
      if o.indexPush asked then
        match getIndex asked name with
        | none => .error (.text "failed to get variable index")
        | some i => .ok (i, rest)
      else .error (.text "failed to allocate item")
    else .error .outOfBounds

/-- The outer loop, which takes at least one byte a turn: `fuel` is at least the number of bytes
left.  `keyString` and `indexes` are what it has written so far. -/
def scanLoop (cap : Nat) (getIndex : Nat → Bytes → Option Nat) (o : VarAlloc) :
    Nat → Bytes → Bytes → List Nat → Except ConfError (Bytes × List Nat)
  | _, [], keyString, indexes => .ok (keyString, indexes)
  | 0, _ :: _, keyString, indexes => .ok (keyString, indexes)
  | fuel + 1, c :: rest, keyString, indexes =>
    if keyString.length < cap then
      if c = dollar then
        match scanName cap getIndex o indexes.length rest with
        | .error e => .error e
        | .ok (i, rest) => scanLoop cap getIndex o fuel rest (keyString ++ [c]) (indexes ++ [i])
      else scanLoop cap getIndex o fuel rest (keyString ++ [c]) indexes
    else .error .outOfBounds

/-- The key string and the indexes of a key. -/
def compileKey (getIndex : Nat → Bytes → Option Nat) (o : VarAlloc) (key : Bytes) :
    Except ConfError (Bytes × List Nat) :=
  if dollar ∉ key then .ok (key, [])
  else if o.keyString = false then
    .error (.text "failed to allocate memory for intermediate string")
  else if o.variableName = false then
    .error (.text "failed to allocate memory for variable name buffer")
  else
    match scanLoop key.length getIndex o key.length key [] [] with
    | .error e => .error e
    | .ok (keyString, indexes) =>
      -- the terminating `NUL`
      if keyString.length < key.length then .ok (keyString, indexes) else .error .outOfBounds

/-! ## The directive -/

/-- The variables of a module, `none` if the array is not there and cannot be created. -/
def varsOrCreate (conf : Conf) (o : VarAlloc) : Option (GrowArray Variable) :=
  match conf.vars with
  | some vars => some vars
  | none => if o.array then some (GrowArray.create o.junk 4) else none

/-- The last part of the directive: the zone is found and, if it is a shared memory zone, its
segment is looked up and stored in the zone record.  A failure takes the variable off again. -/
def bindZone (ngx : NgxConf) (tag : Tag) (conf : Conf) (shared : Segments) (zone : Bytes)
    (vars : GrowArray Variable) (p : Ptr) (v : Option Ptr → Variable) (segment : Bool) :
    Except ConfError Ptr × Conf × Segments :=
  match conf.zones, confZoneGet ngx conf zone with
  | some zones, some q =>
    let vars := vars.set p (v (some q))
    match (zones.mem q).type with
    | .shm =>
      let (seg, shared) := sharedMemoryAdd shared zone 0 tag segment
      let zones := zones.set q { zones.mem q with shm := seg }
      if seg.isNone then
        (.error (.text "failed to allocate shared memory"), ⟨some vars.pop, some zones⟩, shared)
      else (.ok p, ⟨some vars, some zones⟩, shared)
    | .redis => (.ok p, ⟨some vars, some zones⟩, shared)
  | zones, _ => (.error (.text "zone not found"), ⟨some vars.pop, zones⟩, shared)

/-- `ngx_keyval_conf_set_variable`, on the three arguments of the directive.  What a failed call
leaves in the element it takes off again is not recorded. -/
def confSetVariable (ngx : NgxConf) (tag : Tag) (getIndex : Nat → Bytes → Option Nat)
    (conf : Conf) (shared : Segments) (key var zone : Bytes) (o : VarAlloc) :
    Except ConfError Ptr × Conf × Segments :=
  if key.length = 0 then (.error (.text "is empty"), conf, shared)
  else if var.length < 2 ∨ var.head? ≠ some dollar then
    (.error (.text "not a variable specified"), conf, shared)
  else if zone.length < 6 ∨ strncmpEq zone "zone=" 5 = false then
    (.error (.text "not a zone specified"), conf, shared)
  else
    match varsOrCreate conf o with
    | none => (.error (.text "failed to allocate"), conf, shared)
    | some vars =>
      match vars.push o.push with
      | none => (.error (.text "failed to allocate item"), { conf with vars := some vars }, shared)
      | some (p, vars) =>
        if o.indexes = false then
          (.error (.text "failed to allocate"), { conf with vars := some vars.pop }, shared)
        else
          match compileKey getIndex o key with
          | .error e => (.error e, { conf with vars := some vars.pop }, shared)
          | .ok (keyString, indexes) =>
            bindZone ngx tag conf shared (zone.drop 5) vars p
              (fun q ↦ { indexes, keyString, varName := var.drop 1, zone := q }) o.segment

/-! ## Accepted directives -/

section

variable {ngx : NgxConf} {tag : Tag} {getIndex : Nat → Bytes → Option Nat} {conf conf' : Conf}
  {shared shared' : Segments} {key var zone : Bytes} {o : VarAlloc} {p : Ptr}

/-- Binding succeeds only on a zone that is there, and a shared memory zone ends up with the segment
of its name. -/
theorem bindZone_ok {vars : GrowArray Variable} {v : Option Ptr → Variable} {seg : Bool} {q₀ : Ptr}
    (h : bindZone ngx tag conf shared zone vars q₀ v seg = (.ok p, conf', shared')) :
    ∃ zones q, conf.zones = some zones ∧ confZoneGet ngx conf zone = some q ∧ p = q₀ ∧
      conf'.vars = some (vars.set p (v (some q))) ∧
      ((zones.mem q).type = .redis ∧ conf'.zones = some zones ∧ shared' = shared ∨
        ∃ i, (zones.mem q).type = .shm ∧
          sharedMemoryAdd shared zone 0 tag seg = (some i, shared') ∧
          conf'.zones = some (zones.set q { zones.mem q with shm := some i })) := by
  rw [bindZone] at h
  split at h
  · rename_i zones q hzones hq
    refine ⟨zones, q, hzones, hq, ?_⟩
    cases ht : (zones.mem q).type with
    | shm =>
      rcases hadd : sharedMemoryAdd shared zone 0 tag seg with ⟨_ | i, shared₁⟩
      · simp [ht, hadd] at h
      · simp only [ht, hadd, Option.isNone_some, Bool.false_eq_true, if_false, Prod.mk.injEq,
          Except.ok.injEq] at h
        obtain ⟨rfl, rfl, rfl⟩ := h
        exact ⟨rfl, rfl, Or.inr ⟨i, rfl, rfl, by rw [← ht]⟩⟩
    | redis =>
      simp only [ht, Prod.mk.injEq, Except.ok.injEq] at h
      obtain ⟨rfl, rfl, rfl⟩ := h
      exact ⟨rfl, rfl, Or.inl ⟨rfl, rfl, rfl⟩⟩
  · simp at h

/-- **What an accepted directive has done**: it pushed one variable, compiled its key, and found
its zone; a shared memory zone now has the segment of its name. -/
theorem confSetVariable_ok
    (h : confSetVariable ngx tag getIndex conf shared key var zone o = (.ok p, conf', shared')) :
    ∃ vars vars' zones q keyString indexes,
      varsOrCreate conf o = some vars ∧ vars.push o.push = some (p, vars') ∧
      compileKey getIndex o key = .ok (keyString, indexes) ∧
      conf.zones = some zones ∧ confZoneGet ngx conf (zone.drop 5) = some q ∧
      conf'.vars =
        some (vars'.set p { indexes, keyString, varName := var.drop 1, zone := some q }) ∧
      ((zones.mem q).type = .redis ∧ conf'.zones = some zones ∧ shared' = shared ∨
        ∃ i, (zones.mem q).type = .shm ∧
          sharedMemoryAdd shared (zone.drop 5) 0 tag o.segment = (some i, shared') ∧
          conf'.zones = some (zones.set q { zones.mem q with shm := some i })) := by
  rw [confSetVariable] at h
  -- each early exit returns an error
  split at h; · simp at h
  split at h; · simp at h
  split at h; · simp at h
  cases hvars : varsOrCreate conf o with
  | none => simp [hvars] at h
  | some vars =>
    rcases hpush : vars.push o.push with _ | ⟨p₁, vars'⟩
    · simp [hvars, hpush] at h
    · simp only [hvars, hpush] at h
      split at h; · simp at h
      rcases hkey : compileKey getIndex o key with e | ⟨keyString, indexes⟩
      · simp [hkey] at h
      · simp only [hkey] at h
        obtain ⟨zones, q, hzones, hq, rfl, hvars', hrest⟩ := bindZone_ok h
        exact ⟨vars, vars', zones, q, keyString, indexes, rfl, hpush, rfl, hzones, hq, hvars',
          hrest⟩

end

end NgxKeyval
