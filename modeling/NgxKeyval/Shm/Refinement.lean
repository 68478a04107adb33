import NgxKeyval.Shm.Map
import NgxKeyval.Shm.PlainCore

/-!
# Runs of the shared-memory store

`NgxKeyval.Shm.Map` says what one call does to the map a zone holds.  This file lifts that to runs:
any calls, in any order, by any workers, each with its own clock and its own `ttl`.

* `shm_refines_map` — as long as no allocation fails, the zone answers like the map, call by call,
  and holds the map's bindings at the end.
* `shmSetData_keeps_content_iff` — a write that fails does *not* leave the map alone: the old
  entry is gone before the new block is asked for.  It does so exactly when there was nothing to
  lose.
-/

set_option autoImplicit false

namespace NgxKeyval

variable {w : Nat} {ngx : NgxCore w}

theorem deadline_eq (now ttl : BitVec w) :
    deadline now ttl = if ttl = 0 then 0 else now + ttl * 1000 := by
  by_cases h : ttl = 0 <;> simp [deadline, h]

theorem shmStep_wf (h : ngx.Lawful) (z : ShmZone w) (c : ShmCall w) (hz : z.WF ngx) :
    (shmStep ngx z c).2.WF ngx := by
  cases c with
  | get key now palloc => exact (shmGetData_spec h hz key now palloc).1
  | set ttl key val now alloc => exact (shmSetData_spec h hz ttl key val now alloc).1

theorem wf_of_reachable (h : ngx.Lawful) {pool : SlabPool} {z : ShmZone w}
    (hz : Machine.Reachable (shmStep ngx) ⟨.leaf, pool⟩ z) : z.WF ngx :=
  hz.induction (wf_leaf pool) (shmStep_wf h)

theorem shmStep_refines (h : ngx.Lawful) {z : ShmZone w} {m : KvMap w} (c : ShmCall w)
    (hz : z.WF ngx) (hm : content z = m) (hc : c.AllocOk) :
    (shmStep ngx z c).1 = (m.step c).1 ∧ content (shmStep ngx z c).2 = (m.step c).2 := by
  subst hm
  cases c with
  | get key now palloc =>
    obtain ⟨-, hcontent, hreply⟩ := shmGetData_spec h hz key now palloc
    rw [if_neg (by simp [show palloc = true from hc])] at hreply
    exact ⟨congrArg ShmReply.got hreply, hcontent⟩
  | set ttl key val now alloc =>
    obtain ⟨-, hreply, hcontent⟩ := shmSetData_spec h hz ttl key val now alloc
    rw [if_pos (show alloc = true from hc)] at hreply hcontent
    refine ⟨congrArg ShmReply.stored hreply, ?_⟩
    rw [deadline_eq] at hcontent
    exact hcontent

/-- **The shared-memory store refines a finite map.**  Starting from the empty tree, every run in
which no allocation fails gives the replies of the map and ends with its bindings; and no call
ever changes the binding of another key. -/
theorem shm_refines_map (h : ngx.Lawful) (pool : SlabPool) (calls : List (ShmCall w))
    (hcalls : ∀ c ∈ calls, c.AllocOk) :
    Machine.outputs (shmStep ngx) ⟨.leaf, pool⟩ calls =
        Machine.outputs KvMap.step KvMap.empty calls ∧
      content (Machine.final (shmStep ngx) ⟨.leaf, pool⟩ calls) =
        Machine.final KvMap.step KvMap.empty calls ∧
      ∀ c : ShmCall w, c.AllocOk → ∀ k, k ≠ c.key →
        content (shmStep ngx (Machine.final (shmStep ngx) ⟨.leaf, pool⟩ calls) c).2 k =
          content (Machine.final (shmStep ngx) ⟨.leaf, pool⟩ calls) k := by
  have hsim := Machine.simulation (fun _ c ↦ c.AllocOk) (fun z m ↦ z.WF ngx ∧ content z = m)
    (fun z m c hz hc ↦
      ⟨(shmStep_refines h c hz.1 hz.2 hc).1, shmStep_wf h z c hz.1,
        (shmStep_refines h c hz.1 hz.2 hc).2⟩)
    ⟨wf_leaf pool, content_leaf pool⟩ (Machine.meets_of_forall fun _ ↦ hcalls)
  obtain ⟨hout, hwf, hcontent⟩ := hsim
  refine ⟨hout, hcontent, fun c hc k hk ↦ ?_⟩
  rw [(shmStep_refines h c hwf rfl hc).2, KvMap.step_of_ne _ c hk]

/-- The refinement on a run of the plain core: a key is bound, read, bound again and read. -/
theorem shm_refines_map_plain :
    Machine.outputs (shmStep (plainCore 64)) ⟨.leaf, ⟨[], 0, []⟩⟩
        [.set 0 [97] [1] 5 true, .get [97] 6 true, .set 1 [97] [2] 7 true, .get [97] 1007 true] =
      [.stored .ok, .got (.ok [1]), .stored .ok, .got .declined] := by
  rw [(shm_refines_map (plainCore_lawful 64) ⟨[], 0, []⟩ _ (by simp [ShmCall.AllocOk])).1]
  decide

/-! ## Writes that fail -/

/-- A write with no room for the new block reports an error, and the key ends up unbound. -/
theorem shmSetData_failed (h : ngx.Lawful) {z : ShmZone w} (hz : z.WF ngx) (ttl : BitVec w)
    (key val : Bytes) (now : BitVec w) :
    (shmSetData ngx z ttl key val now false).1 = .error ∧
      content (shmSetData ngx z ttl key val now false).2 =
        Function.update (content z) key none := by
  obtain ⟨-, hreply, hcontent⟩ := shmSetData_spec h hz ttl key val now false
  exact ⟨by simpa using hreply, by simpa using hcontent⟩

/-- **When a failed write leaves the store as it was**: exactly when the key was not bound before
the call.  The code removes the old entry first, so a failed overwrite loses it. -/
theorem shmSetData_keeps_content_iff (h : ngx.Lawful) {pool : SlabPool} {z : ShmZone w}
    (hz : Machine.Reachable (shmStep ngx) ⟨.leaf, pool⟩ z) (ttl : BitVec w) (key val : Bytes)
    (now : BitVec w) (alloc : Bool) :
    ((shmSetData ngx z ttl key val now alloc).1 = .error →
        content (shmSetData ngx z ttl key val now alloc).2 = content z) ↔
      alloc = true ∨ content z key = none := by
  have hwf := wf_of_reachable h hz
  cases alloc with
  | true =>
    obtain ⟨-, hreply, -⟩ := shmSetData_spec h hwf ttl key val now true
    refine ⟨fun _ ↦ Or.inl rfl, fun _ herr ↦ ?_⟩
    rw [hreply] at herr
    exact absurd herr (by decide)
  | false =>
    obtain ⟨hreply, hcontent⟩ := shmSetData_failed h hwf ttl key val now
    rw [hcontent]
    constructor
    · intro hkeep
      rw [← hkeep hreply, Function.update_self]
      exact Or.inr rfl
    · rintro (hfalse | hnone) -
      · exact absurd hfalse (by decide)
      · rw [← hnone, Function.update_eq_self]

/-- The condition at work: a write of a new key that finds no room changes nothing. -/
theorem shmSetData_keeps_content_plain :
    content (shmSetData (plainCore 64) ⟨.leaf, ⟨[], 0, []⟩⟩ 0 [97] [1] 5 false).2 =
      content ⟨.leaf, ⟨[], 0, []⟩⟩ :=
  (shmSetData_keeps_content_iff (plainCore_lawful 64) ⟨[], rfl⟩ 0 [97] [1] 5 false).mpr
    (Or.inr rfl) (by decide)

/-- A zone in which one key is bound, with no deadline. -/
def zoneWithEntry : ShmZone 64 :=
  Machine.final (shmStep (plainCore 64)) ⟨.leaf, ⟨[], 0, []⟩⟩ [.set 0 [97] [1] 5 true]

/-- **A failed overwrite loses the old value.**  The key reads back as `[1]` before the call, the
call reports an error, and afterwards the key is unbound. -/
theorem failed_overwrite_loses_value :
    (shmGetData (plainCore 64) zoneWithEntry [97] 6 true).1 = .ok [1] ∧
      (shmSetData (plainCore 64) zoneWithEntry 0 [97] [2, 2] 6 false).1 = .error ∧
      (shmGetData (plainCore 64)
        (shmSetData (plainCore 64) zoneWithEntry 0 [97] [2, 2] 6 false).2 [97] 6 true).1 =
          .declined ∧
      ¬ ((shmSetData (plainCore 64) zoneWithEntry 0 [97] [2, 2] 6 false).1 = .error →
        content (shmSetData (plainCore 64) zoneWithEntry 0 [97] [2, 2] 6 false).2 =
          content zoneWithEntry) := by
  refine ⟨by decide, by decide, by decide, fun hkeep ↦ ?_⟩
  have hkey := congrFun (hkeep (by decide)) [97]
  exact absurd hkey (by decide)

end NgxKeyval
