import Mathlib.Algebra.Group.Nat.Defs
import NgxKeyval.Shm.Refinement

/-!
# Lifetimes and clock words

An entry is written with a deadline word: the clock word plus the lifetime in milliseconds, or `0`
for none.  A read takes the difference of the clock word and the deadline for a signed word.  All of
this is arithmetic modulo `2 ^ w`, while lifetimes and the time between a write and a read are not.

* `live_deadline_iff` is that arithmetic, over real times.
* `content_final_of_ne` says that the binding of a key survives the calls on other keys.
* `read_in_lifetime_iff` — a read finds the value exactly during the lifetime if and only if none of
  the words involved loses its meaning (`Faithful`).
-/

set_option autoImplicit false

namespace NgxKeyval

section

variable {w : Nat}

/-! ## Clock words -/

theorem deadline_ofNat {ttl : Nat} (hpos : 0 < ttl) (hlt : ttl < 2 ^ w) (T₀ : Nat) :
    deadline (BitVec.ofNat w T₀) (BitVec.ofNat w ttl) = BitVec.ofNat w (T₀ + 1000 * ttl) := by
  have hne : BitVec.ofNat w ttl ≠ 0 := by
    intro hzero
    have hnat := congrArg BitVec.toNat hzero
    rw [BitVec.toNat_ofNat, Nat.mod_eq_of_lt hlt] at hnat
    have hz : (0 : BitVec w).toNat = 0 := by simp
    omega
  rw [deadline_eq, if_neg hne, BitVec.ofNat_add, Nat.mul_comm, BitVec.ofNat_mul]
  rfl

theorem toInt_ofNat_sub (T D : Nat) :
    (BitVec.ofNat w T - BitVec.ofNat w D).toInt = ((T : Int) - D).bmod (2 ^ w) := by
  rw [BitVec.toInt_sub, BitVec.toInt_ofNat', BitVec.toInt_ofNat', Int.bmod_sub_bmod,
    Int.sub_bmod_bmod]

/-- **When a deadline word is still ahead**: it is `0`, or the distance to it is negative once it
has been cut to a word. -/
theorem live_deadline_iff {ttl : Nat} (hpos : 0 < ttl) (hlt : ttl < 2 ^ w) (T₀ T : Nat) :
    KvMap.Live (BitVec.ofNat w T) (deadline (BitVec.ofNat w T₀) (BitVec.ofNat w ttl)) ↔
      (T₀ + 1000 * ttl) % 2 ^ w = 0 ∨ ((T : Int) - (T₀ + 1000 * ttl : Nat)).bmod (2 ^ w) < 0 := by
  rw [KvMap.Live, deadline_ofNat hpos hlt, toInt_ofNat_sub, ← BitVec.toNat_inj,
    BitVec.toNat_ofNat]
  simp

/-- The words of a write at `T₀` and a read at `T` keep their meaning: the deadline is not `0`
unless it is still ahead, and its distance has the same sign as a word. -/
def Faithful (w T₀ ttl T : Nat) : Prop :=
  if (T₀ + 1000 * ttl) % 2 ^ w = 0 then T < T₀ + 1000 * ttl
  else ((T : Int) - (T₀ + 1000 * ttl : Nat)).bmod (2 ^ w) < 0 ↔
    (T : Int) - (T₀ + 1000 * ttl : Nat) < 0

/-- A lifetime of less than half the range of a word, read before the other half begins, is safe
unless the deadline is `0`. -/
theorem faithful_of_near {T₀ ttl T : Nat} (hT : T₀ ≤ T) (hne : (T₀ + 1000 * ttl) % 2 ^ w ≠ 0)
    (hlife : 1000 * ttl ≤ 2 ^ (w - 1)) (hread : T < T₀ + 1000 * ttl + 2 ^ (w - 1)) :
    Faithful w T₀ ttl T := by
  rcases w with _ | w
  · exact absurd (Nat.mod_one _) hne
  · rw [Nat.add_sub_cancel] at hlife hread
    have hpow : 2 ^ (w + 1) = 2 * 2 ^ w := Nat.pow_succ'
    rw [Faithful, if_neg hne, Int.bmod_eq_of_le_mul_two (by omega) (by omega)]

/-! ## Between the write and the read -/

variable {ngx : NgxCore w}

theorem content_shmStep_of_ne (h : ngx.Lawful) {z : ShmZone w} (hz : z.WF ngx) {c : ShmCall w}
    {key : Bytes} (hkey : c.key ≠ key) : content (shmStep ngx z c).2 key = content z key := by
  cases c with
  | get k now palloc =>
    have hcontent := (shmGetData_spec h hz k now palloc).2.1
    show content (shmGetData ngx z k now palloc).2 key = content z key
    rw [hcontent]
    exact KvMap.step_of_ne (content z) (.get k now palloc) (Ne.symm hkey)
  | set ttl k val now alloc =>
    have hcontent := (shmSetData_spec h hz ttl k val now alloc).2.2
    show content (shmSetData ngx z ttl k val now alloc).2 key = content z key
    rw [hcontent]
    exact Function.update_of_ne (Ne.symm hkey) _ _

/-- **Calls on other keys** leave the binding of a key as it is. -/
theorem content_final_of_ne (h : ngx.Lawful) {z : ShmZone w} (hz : z.WF ngx)
    {calls : List (ShmCall w)} {key : Bytes} (hcalls : ∀ c ∈ calls, c.key ≠ key) :
    (Machine.final (shmStep ngx) z calls).WF ngx ∧
      content (Machine.final (shmStep ngx) z calls) key = content z key :=
  Machine.final_induction (fun _ (c : ShmCall w) ↦ c.key ≠ key)
    (P := fun z' ↦ z'.WF ngx ∧ content z' key = content z key)
    (fun z' c hz' hc ↦ ⟨shmStep_wf h z' c hz'.1, (content_shmStep_of_ne h hz'.1 hc).trans hz'.2⟩)
    ⟨hz, rfl⟩ (Machine.meets_of_forall fun _ ↦ hcalls)

theorem shmGetData_eq_ok_iff (h : ngx.Lawful) {z : ShmZone w} (hz : z.WF ngx) {key val : Bytes}
    {d : BitVec w} (hbound : content z key = some (val, d)) (now : BitVec w) (palloc : Bool) :
    (shmGetData ngx z key now palloc).1 = .ok val ↔ KvMap.Live now d ∧ palloc = true := by
  obtain ⟨-, -, hreply⟩ := shmGetData_spec h hz key now palloc
  rw [hreply, KvMap.get, hbound]
  by_cases hlive : KvMap.Live now d <;> cases palloc <;> simp [hlive]

/-- **When the lifetime of an entry is kept.**  Take any state of a zone, a write of a key at the
real time `T₀` that succeeds, any calls on other keys, and a read of the key at the real time `T`.
The read finds the value exactly during the lifetime of the entry if and only if there is memory for
the copy while it lasts, and the clock words keep their meaning. -/
theorem read_in_lifetime_iff (h : ngx.Lawful) {pool : SlabPool} {z : ShmZone w}
    (hz : Machine.Reachable (shmStep ngx) ⟨.leaf, pool⟩ z) {ttl : Nat} (hpos : 0 < ttl)
    (hlt : ttl < 2 ^ (w - 1)) {key val : Bytes} {T₀ T : Nat} (hT : T₀ ≤ T) {alloc : Bool}
    (hset : (shmSetData ngx z (BitVec.ofNat w ttl) key val (BitVec.ofNat w T₀) alloc).1 = .ok)
    {calls : List (ShmCall w)} (hcalls : ∀ c ∈ calls, c.key ≠ key) (palloc : Bool) :
    ((shmGetData ngx (Machine.final (shmStep ngx)
        (shmSetData ngx z (BitVec.ofNat w ttl) key val (BitVec.ofNat w T₀) alloc).2 calls)
        key (BitVec.ofNat w T) palloc).1 = .ok val ↔ T - T₀ < 1000 * ttl) ↔
      if palloc then Faithful w T₀ ttl T else 1000 * ttl ≤ T - T₀ := by
  have hwf := wf_of_reachable h hz
  have hword : ttl < 2 ^ w := Nat.lt_of_lt_of_le hlt (Nat.pow_le_pow_right (by decide) (by omega))
  obtain ⟨hwf', hreply, hcontent⟩ :=
    shmSetData_spec h hwf (BitVec.ofNat w ttl) key val (BitVec.ofNat w T₀) alloc
  obtain rfl : alloc = true := by
    cases alloc with
    | false =>
      rw [hset] at hreply
      exact absurd hreply (by decide)
    | true => rfl
  obtain ⟨hwf'', hsame⟩ := content_final_of_ne h hwf' hcalls
  rw [hcontent, Function.update_self, if_pos rfl] at hsame
  rw [shmGetData_eq_ok_iff h hwf'' hsame, live_deadline_iff hpos hword]
  cases palloc with
  | false =>
    rw [if_neg (by decide)]
    refine ⟨fun hiff ↦ Nat.le_of_not_lt fun hlife ↦ ?_, fun hover ↦ ⟨fun hno ↦ ?_, fun hlife ↦ ?_⟩⟩
    · exact absurd (hiff.mpr hlife).2 (by decide)
    · exact absurd hno.2 (by decide)
    · exact absurd hlife (Nat.not_lt.mpr hover)
  | true =>
    rw [if_pos rfl, and_iff_left rfl, Faithful]
    by_cases hzero : (T₀ + 1000 * ttl) % 2 ^ w = 0
    · rw [if_pos hzero]
      have hlater : T - T₀ < 1000 * ttl ↔ T < T₀ + 1000 * ttl := by omega
      exact ⟨fun hiff ↦ hlater.mp (hiff.mp (Or.inl hzero)),
        fun hlife ↦ ⟨fun _ ↦ hlater.mpr hlife, fun _ ↦ Or.inl hzero⟩⟩
    · have hdiff : T - T₀ < 1000 * ttl ↔ (T : Int) - (T₀ + 1000 * ttl : Nat) < 0 := by omega
      rw [if_neg hzero, or_iff_right hzero, hdiff]

end

/-- An entry that lives for a minute is found one second after it was written. -/
theorem read_in_lifetime_minute :
    (shmGetData (plainCore 64)
        (shmSetData (plainCore 64) ⟨.leaf, ⟨[], 0, []⟩⟩ (BitVec.ofNat 64 60) [97] [1]
          (BitVec.ofNat 64 5000) true).2 [97] (BitVec.ofNat 64 6000) true).1 = .ok [1] ↔
      6000 - 5000 < 1000 * 60 := by
  have hfaithful : Faithful 64 5000 60 6000 :=
    faithful_of_near (by decide) (by decide) (by decide) (by decide)
  exact (@read_in_lifetime_iff 64 (plainCore 64) (plainCore_lawful 64) ⟨[], 0, []⟩ _ ⟨[], rfl⟩ 60
    (by decide) (by decide) [97] [1] 5000 6000 (by decide) true (by decide) [] (by simp) true).mpr
    (by rw [if_pos rfl]; exact hfaithful)

/-- What a read at `T` of an entry that was written at `T₀` finds. -/
def readAfter (w T₀ ttl T : Nat) : GetResult :=
  (shmGetData (plainCore w)
    (shmSetData (plainCore w) ⟨.leaf, ⟨[], 0, []⟩⟩ (BitVec.ofNat w ttl) [97] [1]
      (BitVec.ofNat w T₀) true).2 [97] (BitVec.ofNat w T) true).1

/-- **Lifetimes that are not kept**: one of half the range of a word is over at once; one of a
second comes back after half the range of a 32-bit word; and one whose deadline word is `0` never
ends. -/
theorem lifetime_not_kept :
    readAfter 64 1 9223372036854776 1 = .declined ∧
      readAfter 32 1 1 (1 + 1000 + 2 ^ 31) = .ok [1] ∧
      readAfter 32 (2 ^ 32 - 1000) 1 (2 ^ 32 + 5) = .ok [1] ∧
      ¬ (readAfter 64 1 9223372036854776 1 = .ok [1] ↔ 1 - 1 < 1000 * 9223372036854776) := by
  refine ⟨by decide, by decide, by decide, fun hiff ↦ ?_⟩
  exact absurd (hiff.mpr (by decide)) (by decide)

end NgxKeyval
