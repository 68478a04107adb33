import Mathlib.Algebra.Group.Int.Defs
import Mathlib.Algebra.Group.Nat.Defs
import NgxKeyval.Conf.Variable
import NgxKeyval.Shm.PlainCore

/-!
# Text functions and a memory to run directives with

`plainConf` is a choice of the functions of `NgxConf` that can be evaluated; it reads sizes and
times as numbers without a unit.  `ZoneAlloc.plain` and `VarAlloc.plain` are memory that never runs
out, with the answer of a full array as a parameter.
-/

set_option autoImplicit false

namespace NgxKeyval

/-- The number that decimal digits stand for. -/
def digitsNat (s : Bytes) : Option Nat :=
  s.foldl (fun acc c ↦ acc.bind fun n ↦
    if 48 ≤ c ∧ c ≤ 57 then some (10 * n + (c.toNat - 48)) else none) (some 0)

/-- `ngx_atoi`: digits alone, at least one, and no more than a signed word holds. -/
def atoi (s : Bytes) : Int :=
  match s, digitsNat s with
  | _ :: _, some n => if n < 2 ^ 63 then n else -1
  | _, _ => -1

/-- Text functions that can be evaluated. -/
def plainConf : NgxConf where
  memn2cmp := memn2cmp
  parseSize := atoi
  parseTime := atoi
  atoi := atoi
  pagesize := 4096

/-- **The plain text functions are lawful.** -/
theorem plainConf_lawful : plainConf.Lawful where
  memn2cmp_eq_zero := (plainCore_lawful 64).memn2cmp_eq_zero
  parseTime_ge s := by
    show -1 ≤ atoi s
    unfold atoi
    split
    · split <;> omega
    · omega

/-- A record as memory that was never written might hold it. -/
def junkZone : Zone := ⟨[], .shm, none, none, ⟨none, 0, 0, 0, 0, 0⟩⟩

/-- A zone directive with enough memory. -/
def ZoneAlloc.plain (push : PushOutcome) : ZoneAlloc where
  array := true
  junk _ := junkZone
  push := push
  ctx := true
  segment := true
  hostname _ := true
  defaultHostname := true

/-- A `keyval` directive with enough memory. -/
def VarAlloc.plain (push : PushOutcome) : VarAlloc where
  array := true
  junk _ := ⟨[], [], [], none⟩
  push := push
  indexes := true
  keyString := true
  variableName := true
  indexPush _ := true
  segment := true

end NgxKeyval
