import NgxKeyval.System.Places
import NgxKeyval.Template.Stepwise

/-!
# What a configuration says

A configuration is a small program: a variable stands for a value, or for what a zone has under a
key, which is a text with other variables in it.  This file runs the program as it was written, over
the tables of `ZoneTables`.  Nothing is compiled here, there are no records or addresses, and all
that is left of a request is what it remembers of its variables.

* `Program` is what the directives of a module say, and `programOf` reads it off them.
* `Program.ask` evaluates a variable, and remembers what it finds; `ask_remembers` says that what is
  remembered stays as it is.
* `Program.access` reads or sets a variable.
* `Interp.step` does so for any number of requests of both modules.
-/

set_option autoImplicit false

namespace NgxKeyval

/-! ## Programs -/

/-- What a variable stands for. -/
inductive Meaning where
  /-- What a zone has under a key. -/
  | keyval (key : Bytes) (zone : ZoneSpec)
  /-- A value from elsewhere, `none` if it has none. -/
  | other (value : Option Bytes)
  deriving DecidableEq, Repr

/-- What each variable stands for, and the variable of each name. -/
structure Program where
  meaning : Nat → Meaning
  indexOf : Bytes → Nat

/-- What a request remembers of its variables: the values they had, `none` if they were not found.
-/
abbrev Memo := Nat → Option (Option Bytes)

namespace Program

variable (p : Program) (t : ZoneTables)

/-- Evaluate a variable, looking this far down.  What is remembered is not looked up again. -/
def ask : Nat → Memo → Nat → Option Bytes × Memo
  | depth, memo, i =>
    match memo i with
    | some val => (val, memo)
    | none =>
      match depth with
      | 0 => (none, memo)
      | depth + 1 =>
        match p.meaning i with
        | .keyval key zone =>
          let e := expand (ask depth) p.indexOf (tokenize key) memo
          let val := (e.1.bind (t.get zone)).map lenBits
          (val, Function.update e.2 i (some val))
        | .other value => (value.map lenBits, Function.update memo i (some (value.map lenBits)))

/-- An access: what can be seen of it, and what is remembered then.  A variable that is read has its
value looked up again, but what its key is made of has not. -/
def access (depth : Nat) (memo : Memo) : RequestAccess → Option Observation × Memo
  | .read i =>
    match p.meaning i with
    | .keyval key zone =>
      let e := expand (p.ask t depth) p.indexOf (tokenize key) (Function.update memo i none)
      let val := (e.1.bind (t.get zone)).map lenBits
      (some (.read (e.1.map (zone, ·)) val), Function.update e.2 i (some val))
    | .other _ => (none, (p.ask t (depth + 1) memo i).2)
  | .write i val =>
    match p.meaning i with
    | .keyval key zone =>
      -- setting a variable does not count for the depth
      let e := expand (p.ask t (depth + 1)) p.indexOf (tokenize key) memo
      (some (.write (e.1.map (zone, ·)) (lenBits val) (e.1.elim .error fun _ ↦ .ok)), e.2)
    | .other _ => (none, memo)

end Program

/-! ## Runs -/

/-- The tables, and of every open request its module and what it remembers. -/
structure Interp where
  tables : ZoneTables
  requests : Nat → Option (Tag × Memo)

namespace Interp

/-- Empty tables, at this time, and no requests. -/
def new (now : ZoneType → Nat) : Interp := ⟨.new now, fun _ ↦ none⟩

/-- A turn, of the programs of both modules. -/
def step (programs : Tag → Program) (depth : Nat) (s : Interp) :
    NginxTurn → Option Observation × Interp
  | .start id tag =>
    match s.requests id with
    | none =>
      (none, { s with requests := Function.update s.requests id (some (tag, fun _ ↦ none)) })
    | some _ => (none, s)
  | .access id _ a =>
    match s.requests id with
    | none => (none, s)
    | some (tag, memo) =>
      let r := (programs tag).access s.tables depth memo a
      (r.1, ⟨r.1.elim s.tables s.tables.after,
        Function.update s.requests id (some (tag, r.2))⟩)
  | .finish id => (none, { s with requests := Function.update s.requests id none })
  | .clock type now => (some (.clock type now), { s with tables := s.tables.tick type now })

end Interp

/-! ## Reading a program off the directives -/

/-- A `keyval` directive of a module, for an nginx variable. -/
def keyvalFor (tag : Tag) (n : Nat) : Tag × Directive → Option Keyval
  | (t, .keyval k) => if t = tag ∧ k.slot = some n then some k else none
  | _ => none

/-- The last one. -/
def keyvalOf (tag : Tag) (ds : List (Tag × Directive)) (n : Nat) : Option Keyval :=
  (ds.filterMap (keyvalFor tag n)).getLast?

/-- The zone of a name. -/
def zoneNamed (ngx : NgxConf) (ds : List (Tag × Directive)) (name : Bytes) : Option ZoneSpec :=
  (zoneSpecs ngx ds).find? fun z ↦ decide (z.name = name)

/-- What the directives of a module say.  nginx numbers the variables of a name by `indexOf`, and
`other` has the values of variables of other modules. -/
def programOf (ngx : NgxConf) (ds : List (Tag × Directive)) (indexOf : Tag → Bytes → Nat)
    (other : Tag → Nat → Option Bytes) (tag : Tag) : Program where
  meaning n :=
    match keyvalOf tag ds n with
    | none => .other (other tag n)
    | some k =>
      match zoneNamed ngx ds k.zoneName with
      | none => .other (other tag n)
      | some zone => .keyval k.key zone
  indexOf := indexOf tag

section

variable {p : Program} {t : ZoneTables} {tag : Tag} {ds : List (Tag × Directive)} {n : Nat}

/-- **What is remembered stays as it is.** -/
theorem ask_remembers {j : Nat} {val : Option Bytes} (depth : Nat) {memo : Memo} (i : Nat)
    (h : memo j = some val) : (p.ask t depth memo i).2 j = some val := by
  induction depth generalizing memo i with
  | zero =>
    rw [Program.ask]
    rcases memo i with _ | _
    · exact h
    · exact h
  | succ depth ih =>
    rw [Program.ask]
    rcases hi : memo i with _ | _
    · have hij : j ≠ i := by
        rintro rfl
        rw [hi] at h
        contradiction
      rcases p.meaning i with ⟨key, zone⟩ | value
      · dsimp only
        rw [Function.update_of_ne hij]
        exact expand_induction (p.ask t depth) p.indexOf (P := fun memo : Memo ↦ memo j = some val)
          (fun memo i h ↦ ih i h) _ h
      · dsimp only
        rw [Function.update_of_ne hij]
        exact h
    · exact h

theorem keyvalFor_eq_some_iff {d : Tag × Directive} {k : Keyval} :
    keyvalFor tag n d = some k ↔ d = (tag, .keyval k) ∧ k.slot = some n := by
  obtain ⟨t, _ | _ | k'⟩ := d
  · simp [keyvalFor]
  · simp [keyvalFor]
  · simp only [keyvalFor, Option.ite_none_right_eq_some, Option.some.injEq, Prod.mk.injEq,
      Directive.keyval.injEq]
    constructor
    · rintro ⟨⟨rfl, hslot⟩, rfl⟩
      exact ⟨⟨rfl, rfl⟩, hslot⟩
    · rintro ⟨⟨rfl, rfl⟩, hslot⟩
      exact ⟨⟨rfl, hslot⟩, rfl⟩

theorem keyvalFor_eq_none_iff {d : Tag × Directive} :
    keyvalFor tag n d = none ↔ (d.1 = tag → d.2.slot ≠ some n) := by
  obtain ⟨t, _ | _ | k⟩ := d
  · simp [keyvalFor, Directive.slot]
  · simp [keyvalFor, Directive.slot]
  · simp [keyvalFor, Directive.slot]

/-- The last directive for a variable. -/
theorem keyvalOf_eq_some_iff {k : Keyval} : keyvalOf tag ds n = some k ↔
    ∃ pre post, ds = pre ++ (tag, .keyval k) :: post ∧ k.slot = some n ∧
      NotDefined tag n post := by
  simp only [keyvalOf, getLast?_filterMap_eq_some_iff, Last, keyvalFor_eq_some_iff,
    keyvalFor_eq_none_iff]
  constructor
  · rintro ⟨pre, _, post, rfl, ⟨rfl, hslot⟩, hpost⟩
    exact ⟨pre, post, rfl, hslot, hpost⟩
  · rintro ⟨pre, post, rfl, hslot, hpost⟩
    exact ⟨pre, _, post, rfl, ⟨rfl, hslot⟩, hpost⟩

theorem zoneNamed_of_mem {ngx : NgxConf} {shared : Segments} {z : ZoneSpec} (hlaw : ngx.Lawful)
    (hacc : Accepted ngx (.init shared) ds) (hz : z ∈ zoneSpecs ngx ds) :
    zoneNamed ngx ds z.name = some z := by
  rw [zoneNamed]
  rcases hfind : (zoneSpecs ngx ds).find? fun z' ↦ decide (z'.name = z.name) with _ | z'
  · exact absurd (decide_eq_true rfl) (List.find?_eq_none.mp hfind z hz)
  · have hname : z'.name = z.name := by simpa using List.find?_some hfind
    rw [hfind, zoneSpecs_unique hlaw hacc (List.mem_of_find?_eq_some hfind) hz hname]

end

end NgxKeyval
