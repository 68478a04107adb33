import NgxKeyval.Library.Last
import NgxKeyval.Shm.Refinement

/-!
# What a read finds

Any call can fail for want of memory: a read that finds a value and has no room for the copy, and a
write that has no room for the new node, after it has removed the old one.  This file follows runs
in which any of that happens.

* `KvMap.call` is a call on the map, failures included, and `shmStep_call` says that a zone does the
  same.
* `LastWrite` reads the binding of a key off the calls that came before.
* `shm_read_iff` — a read finds a value exactly if the last write of its key wrote it and did not
  fail, no read of the key since then came after its deadline, and this one does not either.  So no
  value is lost while it is live, none is found again after it was overwritten, lost or found
  expired, and none is found under another key.
-/

set_option autoImplicit false

namespace NgxKeyval

variable {w : Nat}

/-! ## The map, with failures -/

/-- The effect of a call on the map and its reply, whatever the allocators answer. -/
def KvMap.call (m : KvMap w) : ShmCall w → ShmReply × KvMap w
  | .get key now palloc =>
    let r := m.get key now
    (.got (if palloc = false ∧ r.1 ≠ .declined then .error else r.1), r.2)
  | .set ttl key val now alloc =>
    (.stored (if alloc then .ok else .error),
      Function.update m key (if alloc then some (val, deadline now ttl) else none))

variable {ngx : NgxCore w}

/-- **A zone does what the map does**, in every call. -/
theorem shmStep_call (h : ngx.Lawful) {z : ShmZone w} (hz : z.WF ngx) (c : ShmCall w) :
    (shmStep ngx z c).2.WF ngx ∧ (shmStep ngx z c).1 = ((content z).call c).1 ∧
      content (shmStep ngx z c).2 = ((content z).call c).2 := by
  rcases c with ⟨key, now, palloc⟩ | ⟨ttl, key, val, now, alloc⟩
  · obtain ⟨hwf, hcontent, hreply⟩ := shmGetData_spec h hz key now palloc
    exact ⟨hwf, congrArg ShmReply.got hreply, hcontent⟩
  · obtain ⟨hwf, hreply, hcontent⟩ := shmSetData_spec h hz ttl key val now alloc
    exact ⟨hwf, congrArg ShmReply.stored hreply, hcontent⟩

theorem content_final (h : ngx.Lawful) (pool : SlabPool) (calls : List (ShmCall w)) :
    (Machine.final (shmStep ngx) ⟨.leaf, pool⟩ calls).WF ngx ∧
      content (Machine.final (shmStep ngx) ⟨.leaf, pool⟩ calls) =
        Machine.final KvMap.call KvMap.empty calls := by
  have hstep : ∀ (z : ShmZone w) (m : KvMap w) (c : ShmCall w), z.WF ngx ∧ content z = m → True →
      (shmStep ngx z c).1 = (KvMap.call m c).1 ∧
        (shmStep ngx z c).2.WF ngx ∧ content (shmStep ngx z c).2 = (KvMap.call m c).2 := by
    rintro z m c ⟨hz, rfl⟩ -
    obtain ⟨hwf, hreply, hcontent⟩ := shmStep_call h hz c
    exact ⟨hreply, hwf, hcontent⟩
  exact (Machine.simulation _ _ hstep ⟨wf_leaf pool, content_leaf pool⟩
    (Machine.meets_of_forall fun _ _ _ ↦ trivial)).2

/-! ## The binding of a key -/

/-- The call leaves a binding of the key with this deadline alone: it is about another key, or reads
this one before the deadline. -/
def ShmCall.Keeps (c : ShmCall w) (key : Bytes) (d : BitVec w) : Prop :=
  c.key = key → ∃ now palloc, c = .get key now palloc ∧ KvMap.Live now d

/-- The last write of the key bound it to the value, until the deadline, and did not fail; and no
read of the key since then came after the deadline. -/
def LastWrite (calls : List (ShmCall w)) (key val : Bytes) (d : BitVec w) : Prop :=
  Last (fun _ c ↦ ∃ ttl t, c = .set ttl key val t true ∧ d = deadline t ttl)
    (fun c ↦ c.Keeps key d) calls

section

variable {calls : List (ShmCall w)} {c : ShmCall w} {key val : Bytes} {d : BitVec w}

theorem KvMap.get_eq_some_iff (m : KvMap w) (key' : Bytes) (now : BitVec w) :
    (m.get key' now).2 key = some (val, d) ↔
      m key = some (val, d) ∧ (key' = key → KvMap.Live now d) := by
  rw [KvMap.get]
  by_cases hkey : key' = key
  · subst hkey
    rcases hm : m key' with _ | ⟨val', d'⟩
    · simp only [hm, false_and, reduceCtorEq]
    · by_cases hlive : KvMap.Live now d'
      · simp only [hlive, if_true, hm, Option.some.injEq, Prod.mk.injEq, forall_const]
        exact ⟨fun heq ↦ ⟨heq, heq.2 ▸ hlive⟩, And.left⟩
      · simp only [hlive, if_false, Function.update_self, Option.some.injEq, Prod.mk.injEq,
          forall_const, reduceCtorEq, false_iff]
        exact fun h ↦ hlive (h.1.2 ▸ h.2)
  · rw [and_iff_left fun h ↦ absurd h hkey]
    rcases m key' with _ | ⟨val', d'⟩
    · exact Iff.rfl
    · dsimp only
      split
      · exact Iff.rfl
      · dsimp only
        rw [Function.update_of_ne (Ne.symm hkey)]

theorem keeps_get_iff {key' : Bytes} {now : BitVec w} {palloc : Bool} :
    ShmCall.Keeps (.get key' now palloc) key d ↔ (key' = key → KvMap.Live now d) := by
  refine ⟨fun h hkey ↦ ?_, fun h hkey ↦ ⟨now, palloc, hkey ▸ rfl, h hkey⟩⟩
  obtain ⟨_, _, heq, hlive⟩ := h hkey
  obtain ⟨-, rfl, -⟩ := ShmCall.get.inj heq
  exact hlive

theorem keeps_set_iff {ttl : BitVec w} {key' val' : Bytes} {now : BitVec w} {alloc : Bool} :
    ShmCall.Keeps (.set ttl key' val' now alloc) key d ↔ key' ≠ key := by
  refine ⟨fun h hkey ↦ ?_, fun hne hkey ↦ absurd hkey hne⟩
  obtain ⟨_, _, heq, _⟩ := h hkey
  exact nomatch heq

/-- What a call does to the binding of a key. -/
theorem KvMap.call_eq_some_iff (m : KvMap w) :
    (m.call c).2 key = some (val, d) ↔
      (∃ ttl t, c = .set ttl key val t true ∧ d = deadline t ttl) ∨
        m key = some (val, d) ∧ c.Keeps key d := by
  rcases c with ⟨key', now, palloc⟩ | ⟨ttl, key', val', now, alloc⟩
  · have hne : ¬ ∃ ttl t, ShmCall.get key' now palloc = .set ttl key val t true ∧
        d = deadline t ttl := fun ⟨_, _, heq, _⟩ ↦ nomatch heq
    rw [or_iff_right hne, keeps_get_iff]
    exact KvMap.get_eq_some_iff m key' now
  · rw [keeps_set_iff, KvMap.call]
    dsimp only
    by_cases hkey : key' = key
    · subst hkey
      rw [or_iff_left fun h ↦ h.2 rfl, Function.update_self]
      rcases alloc
      · simp only [if_false, Bool.false_eq_true, ShmCall.set.injEq, and_false, false_and,
          exists_false, reduceCtorEq]
      · simp only [if_true, Option.some.injEq, Prod.mk.injEq, ShmCall.set.injEq, true_and,
          and_true]
        constructor
        · rintro ⟨rfl, rfl⟩
          exact ⟨ttl, now, ⟨rfl, rfl, rfl⟩, rfl⟩
        · rintro ⟨_, _, ⟨rfl, rfl, rfl⟩, rfl⟩
          exact ⟨rfl, rfl⟩
    · have hne : ¬ ∃ ttl' t, ShmCall.set ttl key' val' now alloc = .set ttl' key val t true ∧
          d = deadline t ttl' := fun ⟨_, _, heq, _⟩ ↦ hkey (ShmCall.set.inj heq).2.1
      rw [or_iff_right hne, and_iff_left hkey, Function.update_of_ne (Ne.symm hkey)]

/-- **The binding of a key is the one of the last write.** -/
theorem final_call_iff :
    Machine.final KvMap.call KvMap.empty calls key = some (val, d) ↔
      LastWrite calls key val d := by
  induction calls using List.reverseRecOn with
  | nil => exact iff_of_false (fun h ↦ nomatch h) not_last_nil
  | append_singleton calls c ih =>
    rw [Machine.final_append, LastWrite, last_snoc, ← LastWrite, ← ih]
    exact KvMap.call_eq_some_iff _

end

/-! ## Reads -/

theorem KvMap.get_eq_ok_iff (m : KvMap w) (key : Bytes) (now : BitVec w) (val : Bytes) :
    (m.get key now).1 = .ok val ↔ ∃ d, m key = some (val, d) ∧ KvMap.Live now d := by
  rw [KvMap.get]
  rcases m key with _ | ⟨val', d⟩
  · simp only [reduceCtorEq, false_and, exists_false]
  · by_cases hlive : KvMap.Live now d
    · simp only [hlive, if_true, GetResult.ok.injEq, Option.some.injEq, Prod.mk.injEq]
      constructor
      · intro heq
        exact ⟨d, ⟨heq, rfl⟩, hlive⟩
      · rintro ⟨_, heq, -⟩
        exact heq.1
    · simp only [hlive, if_false, Option.some.injEq, Prod.mk.injEq, reduceCtorEq, false_iff]
      rintro ⟨_, ⟨-, rfl⟩, hlive'⟩
      exact hlive hlive'

theorem KvMap.get_ne_error (m : KvMap w) (key : Bytes) (now : BitVec w) :
    (m.get key now).1 ≠ .error := by
  rw [KvMap.get]
  rcases m key with _ | ⟨val, d⟩
  · simp only [ne_eq, reduceCtorEq, not_false_eq_true]
  · dsimp only
    split
    · simp only [ne_eq, reduceCtorEq, not_false_eq_true]
    · simp only [ne_eq, reduceCtorEq, not_false_eq_true]

theorem KvMap.get_eq_declined_iff (m : KvMap w) (key : Bytes) (now : BitVec w) :
    (m.get key now).1 = .declined ↔ ∀ val d, m key = some (val, d) → ¬ KvMap.Live now d := by
  constructor
  · intro hdeclined val d hm hlive
    rw [(KvMap.get_eq_ok_iff m key now val).mpr ⟨d, hm, hlive⟩] at hdeclined
    exact nomatch hdeclined
  · intro hnone
    rcases hreply : (m.get key now).1 with val | _ | _
    · obtain ⟨d, hm, hlive⟩ := (KvMap.get_eq_ok_iff m key now val).mp hreply
      exact absurd hlive (hnone val d hm)
    · rfl
    · exact absurd hreply (KvMap.get_ne_error m key now)

/-- **What a read finds.**  After any calls, any of which may have failed, a read of a key finds a
value exactly if the last write of the key wrote it and did not fail, and neither this read nor one
in between came after its deadline.  If there is no such value the read finds nothing; if there is
one and there is no room for the copy, the read is an error. -/
theorem shm_read_iff (h : ngx.Lawful) (pool : SlabPool) (calls : List (ShmCall w)) (key : Bytes)
    (now : BitVec w) (palloc : Bool) :
    let reply := (shmGetData ngx (Machine.final (shmStep ngx) ⟨.leaf, pool⟩ calls) key now
      palloc).1
    (∀ val, reply = .ok val ↔
      palloc = true ∧ ∃ d, LastWrite calls key val d ∧ KvMap.Live now d) ∧
    (reply = .declined ↔ ∀ val d, LastWrite calls key val d → ¬ KvMap.Live now d) := by
  obtain ⟨hwf, hcontent⟩ := content_final h pool calls
  obtain ⟨-, -, hreply⟩ := shmGetData_spec h hwf key now palloc
  rw [hcontent] at hreply
  simp only [hreply, ← final_call_iff, ← KvMap.get_eq_ok_iff, ← KvMap.get_eq_declined_iff]
  rcases palloc
  · by_cases hdeclined : ((Machine.final KvMap.call KvMap.empty calls).get key now).1 = .declined
    · simp [hdeclined]
    · simp [hdeclined]
  · simp

/-- A key is bound and read; then it is bound again, which fails. -/
def failedRebind : List (ShmCall 64) :=
  [.set 1 [97] [1] 5 true, .get [97] 6 false, .set 1 [97] [2] 7 false]

/-- Until the write fails, the key is read; after that it has no value. -/
theorem shm_read_iff_plain :
    (shmGetData (plainCore 64) (Machine.final (shmStep (plainCore 64)) ⟨.leaf, ⟨[], 0, []⟩⟩
      (failedRebind.take 2)) [97] 8 true).1 = .ok [1] ∧
    (shmGetData (plainCore 64) (Machine.final (shmStep (plainCore 64)) ⟨.leaf, ⟨[], 0, []⟩⟩
      failedRebind) [97] 8 true).1 = .declined := by
  constructor
  · refine ((shm_read_iff (plainCore_lawful 64) _ _ _ _ _).1 _).mpr ⟨rfl, 1005, ?_, by decide⟩
    exact ⟨[], _, [.get [97] 6 false], rfl, ⟨1, 5, rfl, rfl⟩, fun c hc _ ↦
      ⟨6, false, List.mem_singleton.mp hc, by decide⟩⟩
  · decide

end NgxKeyval
