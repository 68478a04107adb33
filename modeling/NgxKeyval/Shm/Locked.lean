import NgxKeyval.Library.Lock
import NgxKeyval.Shm.History
import NgxKeyval.Shm.Slab

/-!
# The zone mutex

`NgxKeyval.Shm.Store` takes a read or a write of a zone to be one step.  It is not: the workers of
nginx run at the same time, and the two functions walk a tree, and allocate and free nodes of it,
that all of them share.  What makes one step of each is `ctx->shpool->mutex`.  Here are the two
functions with the mutex in them, one access of the shared memory at a time.

* A node is known by its address, as in the code, and is looked at anew at each access; if the block
  is no longer in the tree, the access faults.
* `shmGetCode` gives the mutex back in four places, `shmSetCode` in one.
* `shmCode_implements` — each of them is one critical section, and comes to what `shmStep` says.
* `shm_linearizable`, `shm_mutex_safe` and `shm_mutex_live` are what follows for any number of
  workers, whose accesses are interleaved in any way.

A call of nginx that works on the shared memory, such as `ngx_rbtree_delete`, is one access; so is a
descent of the tree.
-/

set_option autoImplicit false

namespace NgxKeyval

open Concurrent

/-! ## The two functions, access by access -/

section

variable {w : Nat}

/-- The node at an address. -/
def ShmZone.deref (z : ShmZone w) (block : Nat) : Option (Node w) :=
  KeyedList.lookup Node.block z.sh.toList block

/-- An access through a pointer to a node. -/
def readNode (block : Nat) (rest : Node w → Code (ShmZone w) ShmReply) :
    Code (ShmZone w) ShmReply :=
  .act id fun z ↦
    match z.deref block with
    | none => .fault
    | some node => rest node

variable (ngx : NgxCore w)

/-- `ngx_rbtree_delete` and then `ngx_slab_free_locked`, of the node at an address. -/
def deleteNode (block : Nat) (rest : Code (ShmZone w) ShmReply) : Code (ShmZone w) ShmReply :=
  .act
    (fun z ↦
      match z.deref block with
      | none => z
      | some node => { z with sh := ngx.rbtreeDelete z.sh node })
    fun z ↦
      match z.deref block with
      | none => .fault
      | some _ => .act (fun z ↦ { z with shpool := slabFreeLocked z.shpool block }) fun _ ↦ rest

/-- `ngx_keyval_shm_get_data`. -/
def shmGetCode (key : Bytes) (now : BitVec w) (palloc : Bool) : Code (ShmZone w) ShmReply :=
  let hash := ngx.crc32Short key
  .lock <| .act id fun z ↦
    match rbtreeLookup ngx key hash z.sh with
    | none => .unlock (.ret (.got .declined))
    | some node =>
      readNode node.block fun kv ↦
        if expired now kv.expiresAt then
          deleteNode ngx node.block (.unlock (.ret (.got .declined)))
        else
          readNode node.block fun kv ↦
            let len := kv.size - kv.len
            if palloc then
              -- the value is copied before the mutex is given back
              readNode node.block fun kv ↦
                .unlock (.ret (.got (.ok ((kv.data.drop kv.len).take len))))
            else .unlock (.ret (.got .error))

/-- `ngx_keyval_shm_set_data`.  The new node is filled in before it is linked into the tree, while
nobody else knows its address. -/
def shmSetCode (ttl : BitVec w) (key val : Bytes) (now : BitVec w) (alloc : Bool) :
    Code (ShmZone w) ShmReply :=
  let hash := ngx.crc32Short key
  let n := nodeHeader w + key.length + val.length
  let insert : Code (ShmZone w) ShmReply :=
    .act
      (fun z ↦
        match slabAllocLocked z.shpool n alloc with
        | none => z
        | some (_, shpool) => { z with shpool })
      fun z ↦
        match slabAllocLocked z.shpool n alloc with
        | none => .unlock (.ret (.stored .error))
        | some (block, _) =>
          let node : Node w :=
            { block, key := hash, len := key.length, size := key.length + val.length,
              expiresAt := deadline now ttl, data := key ++ val }
          .act (fun z ↦ { z with sh := ngx.rbtreeInsert (rbtreeInsertValue ngx) z.sh node })
            fun _ ↦ .unlock (.ret (.stored .ok))
  .lock <| .act id fun z ↦
    match rbtreeLookup ngx key hash z.sh with
    | none => insert
    | some node => deleteNode ngx node.block insert

/-- The code of a call. -/
def shmCode : ShmCall w → Code (ShmZone w) ShmReply
  | .get key now palloc => shmGetCode ngx key now palloc
  | .set ttl key val now alloc => shmSetCode ngx ttl key val now alloc

end

/-! ## One critical section -/

section

variable {w : Nat} {ngx : NgxCore w} {fixed : List (Nat × Nat)} {z : ShmZone w} {n : Node w}
  {block : Nat}

theorem ShmZone.Accounted.distinct (h : z.Accounted fixed) :
    KeyedList.Distinct Node.block z.sh.toList := by
  have hnodup := ((h.live.map Prod.fst).nodup_iff.mp h.sane.nodup)
  rw [List.map_append, List.map_map] at hnodup
  exact List.pairwise_map.mp (List.nodup_append.mp hnodup).2.1

theorem ShmZone.Accounted.deref (h : z.Accounted fixed) (hn : n ∈ z.sh.toList) :
    z.deref n.block = some n :=
  KeyedList.lookup_of_mem h.distinct hn

theorem finish_readNode (hn : z.deref block = some n)
    (rest : Node w → Code (ShmZone w) ShmReply) :
    (readNode block rest).finish z = (rest n).finish z := by
  simp only [readNode, Code.finish_act, hn, id]

theorem steps_readNode (hn : z.deref block = some n)
    (rest : Node w → Code (ShmZone w) ShmReply) :
    (readNode block rest).steps z = (rest n).steps z + 1 := by
  simp only [readNode, Code.steps_act, hn, id]

theorem finish_deleteNode (hn : z.deref n.block = some n) (rest : Code (ShmZone w) ShmReply) :
    (deleteNode ngx n.block rest).finish z = rest.finish (removeNode ngx z n) := by
  simp only [deleteNode, Code.finish_act, hn, removeNode]

theorem steps_deleteNode (hn : z.deref n.block = some n) (rest : Code (ShmZone w) ShmReply) :
    (deleteNode ngx n.block rest).steps z = rest.steps (removeNode ngx z n) + 2 := by
  simp only [deleteNode, Code.steps_act, hn, removeNode]

/-- **The code of a call is one critical section** of at most six steps, and comes to what the call
does in one step. -/
theorem shmCode_finish (ngx : NgxCore w) (fixed : List (Nat × Nat)) (call : ShmCall w) :
    ∃ body, shmCode ngx call = .lock body ∧ ∀ z : ShmZone w, z.Accounted fixed →
      body.steps z ≤ 6 ∧ body.finish z = some (shmStep ngx z call) := by
  rcases call with ⟨key, now, palloc⟩ | ⟨ttl, key, val, now, alloc⟩
  · refine ⟨_, rfl, fun z hz ↦ ?_⟩
    simp only [Code.steps_act, Code.finish_act, id, shmStep, shmGetData]
    rcases hlookup : rbtreeLookup ngx key (ngx.crc32Short key) z.sh with _ | n
    · exact ⟨(by decide : 2 ≤ 6), rfl⟩
    · have hn := hz.deref (mem_of_rbtreeLookup hlookup)
      simp only [steps_readNode hn, finish_readNode hn]
      by_cases hexp : expired now n.expiresAt = true
      · simp only [hexp, if_true, steps_deleteNode hn, finish_deleteNode hn]
        exact ⟨(by decide : 5 ≤ 6), rfl⟩
      · simp only [hexp, if_false, Bool.false_eq_true, steps_readNode hn, finish_readNode hn]
        rcases palloc
        · exact ⟨(by decide : 4 ≤ 6), rfl⟩
        · simp only [if_true, steps_readNode hn, finish_readNode hn]
          exact ⟨(by decide : 5 ≤ 6), rfl⟩
  · refine ⟨_, rfl, fun z hz ↦ ?_⟩
    simp only [Code.steps_act, Code.finish_act, id, shmStep, shmSetData, removeEntry]
    rcases hlookup : rbtreeLookup ngx key (ngx.crc32Short key) z.sh with _ | n
    · rcases alloc
      · exact ⟨(by decide : 3 ≤ 6), rfl⟩
      · exact ⟨(by decide : 4 ≤ 6), rfl⟩
    · have hn := hz.deref (mem_of_rbtreeLookup hlookup)
      simp only [steps_deleteNode hn, finish_deleteNode hn]
      rcases alloc
      · exact ⟨(by decide : 5 ≤ 6), rfl⟩
      · exact ⟨(by decide : 6 ≤ 6), rfl⟩

/-! ## Any number of workers -/

/-- A zone in order: the tree is sorted, every block is accounted for, and the entries are those of
the map. -/
def ShmZone.Holds (ngx : NgxCore w) (fixed : List (Nat × Nat)) (z : ShmZone w) (m : KvMap w) :
    Prop :=
  z.WF ngx ∧ z.Accounted fixed ∧ content z = m

/-- Under the mutex, a call is one on the map. -/
theorem shmCode_implements (h : ngx.Lawful) (fixed : List (Nat × Nat)) :
    Implements (shmCode ngx) KvMap.call (fun _ ↦ True) (ShmZone.Holds ngx fixed) 6 := by
  intro call _
  obtain ⟨body, hcode, hbody⟩ := shmCode_finish ngx fixed call
  refine ⟨body, hcode, fun z m ⟨hwf, hacc, hm⟩ ↦ ?_⟩
  obtain ⟨hsteps, hfinish⟩ := hbody z hacc
  obtain ⟨hwf', hreply, hcontent⟩ := shmStep_call h hwf call
  rw [hm] at hreply hcontent
  exact ⟨hsteps, (shmStep ngx z call).2, hfinish.trans (hreply ▸ rfl), hwf',
    shmStep_accounted h z call hacc, hcontent⟩

variable {π : Type} [DecidableEq π]

theorem shm_follows (h : ngx.Lawful) {m : KvMap w} (hz : z.Holds ngx fixed m)
    (turns : List (Concurrent.Turn π (ShmCall w))) :
    ∃ moves : List (Move π (ShmCall w)),
      Machine.trace (atomicStep KvMap.call) (Object.new m) moves =
          Machine.trace (lockStep (shmCode ngx)) (System.new z) turns ∧
        Follows (shmCode ngx) (fun _ ↦ True) (ShmZone.Holds ngx fixed) 6
          (Machine.final (lockStep (shmCode ngx)) (System.new z) turns)
          (Machine.final (atomicStep KvMap.call) (Object.new m) moves) :=
  linearizable (shmCode_implements h fixed) hz turns fun turn _ ↦ by
    rcases turn with _ | _ <;> trivial

/-- **The workers cannot tell a zone from a map.**  However the accesses of any number of workers
are interleaved, and whatever the allocators answer, the calls return what they could return if each
of them happened at once, at some moment between its start and its return, on a map. -/
theorem shm_linearizable (h : ngx.Lawful) (hwf : z.WF ngx) (hacc : z.Accounted fixed)
    (turns : List (Concurrent.Turn π (ShmCall w))) :
    ∃ moves : List (Move π (ShmCall w)),
      Machine.trace (atomicStep KvMap.call) (Object.new (content z)) moves =
        Machine.trace (lockStep (shmCode ngx)) (System.new z) turns := by
  obtain ⟨moves, htrace, _⟩ := shm_follows h ⟨hwf, hacc, rfl⟩ turns
  exact ⟨moves, htrace⟩

/-- A zone in which nothing has been written. -/
def emptyZone : ShmZone 64 := ⟨.leaf, ⟨[], 0, []⟩⟩

theorem accounted_emptyZone : emptyZone.Accounted [] where
  sane := ⟨List.nodup_nil, fun _ he ↦ absurd he List.not_mem_nil, rfl⟩
  live := .nil
  full _ hn := absurd hn List.not_mem_nil

/-- A worker wants to read while another one writes: it asks for the mutex twice before it gets
it. -/
def readDuringWrite : List (Concurrent.Turn Bool (ShmCall 64)) :=
  [.call false (.get [97] 6 true), .call true (.set 1 [97] [1] 5 true), .run true, .run false,
    .run true, .run true, .run false, .run true, .run true] ++ List.replicate 7 (.run false)

/-- It then reads what was written, before the writer has returned. -/
theorem shm_linearizable_plain :
    Machine.trace (lockStep (shmCode (plainCore 64))) (System.new emptyZone) readDuringWrite =
        [.call false (.get [97] 6 true), .call true (.set 1 [97] [1] 5 true),
          .back false (.got (.ok [1]))] ∧
      ∃ moves : List (Move Bool (ShmCall 64)),
        Machine.trace (atomicStep KvMap.call) (Object.new (content emptyZone)) moves =
          Machine.trace (lockStep (shmCode (plainCore 64))) (System.new emptyZone)
            readDuringWrite :=
  ⟨by decide, shm_linearizable (plainCore_lawful 64) (wf_leaf _) accounted_emptyZone _⟩

/-- **No worker follows a pointer to a block that was freed**, in whatever order they take their
turns; and whenever the mutex is free, the tree is sorted, and every block is accounted for. -/
theorem shm_mutex_safe (h : ngx.Lawful) (hwf : z.WF ngx) (hacc : z.Accounted fixed)
    (turns : List (Concurrent.Turn π (ShmCall w))) :
    let m := Machine.final (lockStep (shmCode ngx)) (System.new z) turns
    (∀ p, m.running p ≠ some .fault) ∧
      (m.holder = none → m.shared.WF ngx ∧ m.shared.Accounted fixed) := by
  obtain ⟨moves, _, hfollows⟩ := shm_follows h ⟨hwf, hacc, rfl⟩ turns
  refine ⟨hfollows.no_fault (shmCode_implements h fixed), fun hfree ↦ ?_⟩
  obtain ⟨hwf', hacc', _⟩ := hfollows.free hfree
  exact ⟨hwf', hacc'⟩

/-- The two workers, while the writer is at it. -/
def midway : System Bool (ShmZone 64) ShmReply :=
  Machine.final (lockStep (shmCode (plainCore 64))) (System.new emptyZone) (readDuringWrite.take 8)

/-- The writer has the mutex, and the reader waits. -/
theorem shm_mutex_safe_plain : midway.holder = some true ∧ midway.running false ≠ some .fault :=
  ⟨rfl, (shm_mutex_safe (plainCore_lawful 64) (wf_leaf _) accounted_emptyZone _).1 false⟩

/-- **The mutex is given back on every path, and nobody is stuck.**  After any turns, whoever holds
the mutex has given it back once it has taken six steps more, whatever the others do meanwhile; and
every call that is under way can return within fourteen turns. -/
theorem shm_mutex_live (h : ngx.Lawful) (hwf : z.WF ngx) (hacc : z.Accounted fixed)
    (turns : List (Concurrent.Turn π (ShmCall w))) :
    let m := Machine.final (lockStep (shmCode ngx)) (System.new z) turns
    (∀ p, m.holder = some p → ∀ more : List (Concurrent.Turn π (ShmCall w)),
      6 ≤ more.countP (Turn.runs p) →
        ∃ pre, pre <+: more ∧ (Machine.final (lockStep (shmCode ngx)) m pre).holder = none) ∧
    ∀ p c, m.running p = some c → ∃ workers : List π, workers.length ≤ 14 ∧
      ∃ r, Sign.back p r ∈ Machine.trace (lockStep (shmCode ngx)) m (workers.map .run) := by
  obtain ⟨moves, _, hfollows⟩ := shm_follows h ⟨hwf, hacc, rfl⟩ turns
  have himpl := shmCode_implements h fixed
  refine ⟨fun p hp more hmore ↦ ?_, fun p c hrun ↦ hfollows.completes himpl hrun⟩
  obtain ⟨c, _, _, hrun, _, hsteps, _⟩ := hfollows.inside p hp
  refine hfollows.released himpl (fun turn _ ↦ ?_) hp hrun (hsteps.trans hmore)
  rcases turn with _ | _ <;> trivial

/-- The reader can return. -/
theorem shm_mutex_live_plain :
    ∃ workers : List Bool, workers.length ≤ 14 ∧
      ∃ r, Sign.back false r ∈
        Machine.trace (lockStep (shmCode (plainCore 64))) midway (workers.map .run) :=
  (shm_mutex_live (plainCore_lawful 64) (wf_leaf _) accounted_emptyZone
    (readDuringWrite.take 8)).2 false _ rfl

end

end NgxKeyval
