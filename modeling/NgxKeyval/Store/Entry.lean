import NgxKeyval.Shm.Map
import NgxKeyval.Store.Ops

/-!
# Where a value is kept

The record of a zone and the bytes of a key decide where a value is kept: under that key in a shared
memory segment, or under the zone's name and that key in a database of a server.  `Zone.entry` reads
it off the record.

For shared memory this is all that matters of the record: calls through two records with the same
segment are the same (`storeStep_eq_of_shm`), and a call leaves every other entry alone
(`storeStep_content`).
-/

set_option autoImplicit false

namespace NgxKeyval

/-- Where a value is kept. -/
inductive Entry where
  | shm (segment : Nat) (key : Bytes)
  | redis (hostname : Option Bytes) (port db : Int) (key : Bytes)
  deriving DecidableEq, Repr

/-- Where a zone keeps the value of a key. -/
def Zone.entry (z : Zone) (key : Bytes) : Option Entry :=
  match z.store with
  | none => none
  | some .shm => z.shm.map fun i ↦ .shm i key
  | some .redis =>
    some (.redis z.redis.hostname (cInt z.redis.port)
      (if z.redis.db > 0 then cInt z.redis.db else 0) (redisKey z.name key))

section

variable {w : Nat} {σ : Type} {env : StoreEnv w σ}

/-- The key a call is about. -/
def StoreCall.key : StoreCall w → Bytes
  | .get _ key _ _ => key
  | .set _ key _ _ _ => key

/-- The same call, through another record. -/
def StoreCall.through (q : Ptr) : StoreCall w → StoreCall w
  | .get _ key now o => .get (some q) key now o
  | .set _ key val now o => .set (some q) key val now o

/-- **One segment, one store.** -/
theorem storeStep_eq_of_shm {p q : Ptr} (hp : (env.zones p).store = some .shm)
    (hq : (env.zones q).store = some .shm) (hshm : (env.zones p).shm = (env.zones q).shm)
    (s : StoreState w σ) (call : StoreCall w) :
    storeStep env s (call.through p) = storeStep env s (call.through q) := by
  cases call with
  | get zone key now o =>
    simp only [StoreCall.through, storeStep, storeGet, hp, hq, storeShmGet, hshm]
  | set zone key val now o =>
    simp only [StoreCall.through, storeStep, storeSet, hp, hq, storeShmSet, hshm]

theorem content_shmStep (hlaw : env.ngx.Lawful) {z : ShmZone w} (hz : z.WF env.ngx) (key : Bytes)
    (now : BitVec w) (alloc : Bool) {k : Bytes} (hk : k ≠ key) :
    content (shmGetData env.ngx z key now alloc).2 k = content z k ∧
      ∀ ttl val, content (shmSetData env.ngx z ttl key val now alloc).2 k = content z k := by
  refine ⟨?_, fun ttl val ↦ ?_⟩
  · rw [(shmGetData_spec hlaw hz key now alloc).2.1]
    exact KvMap.step_of_ne (content z) (.get key now alloc) hk
  · rw [(shmSetData_spec hlaw hz ttl key val now alloc).2.2]
    exact Function.update_of_ne hk _ _

/-- **A call leaves every other entry alone.** -/
theorem storeStep_content (hlaw : env.ngx.Lawful) {s : StoreState w σ}
    (hs : ∀ i, (s.shm i).WF env.ngx) {p : Ptr} {call : StoreCall w} (hzone : call.zone = some p)
    {i : Nat} {k : Bytes} (hentry : (env.zones p).entry call.key ≠ some (.shm i k)) :
    content ((storeStep env s call).2.shm i) k = content (s.shm i) k := by
  -- what is left to check when segment `j` is worked on
  have hupdate : ∀ j (z : ShmZone w), (env.zones p).store = some .shm → (env.zones p).shm = some j →
      (k ≠ call.key → content z k = content (s.shm j) k) →
      content (Function.update s.shm j z i) k = content (s.shm i) k := by
    intro j z hstore hshm hz
    by_cases hij : i = j
    · subst hij
      rw [Function.update_self]
      refine hz fun hk ↦ hentry ?_
      rw [Zone.entry, hstore]
      simp only [hshm, Option.map_some, hk]
    · rw [Function.update_of_ne hij]
  cases call with
  | get zone key now o =>
    obtain rfl : zone = some p := hzone
    rcases hstore : (env.zones p).store with _ | _ | _
    · simp only [storeStep, storeGet, hstore]
    · simp only [storeStep, storeGet, hstore, storeShmGet, shmGetContext]
      rcases hshm : (env.zones p).shm with _ | j
      · rfl
      · simp only
        rcases env.shared[j]?.bind ShmSegment.data with _ | ttl
        · rfl
        · exact hupdate j _ hstore hshm fun hk ↦ (content_shmStep hlaw (hs j) key now o.value hk).1
    · simp only [storeStep, storeGet, hstore]
  | set zone key val now o =>
    obtain rfl : zone = some p := hzone
    rcases hstore : (env.zones p).store with _ | _ | _
    · simp only [storeStep, storeSet, hstore]
    · simp only [storeStep, storeSet, hstore, storeShmSet, shmGetContext]
      rcases hshm : (env.zones p).shm with _ | j
      · rfl
      · simp only
        rcases env.shared[j]?.bind ShmSegment.data with _ | ttl
        · rfl
        · exact hupdate j _ hstore hshm fun hk ↦
            (content_shmStep hlaw (hs j) key now o.slab hk).2 _ _
    · simp only [storeStep, storeSet, hstore]

/-! ## A shared memory zone -/

/-- The record at an address is that of a shared memory zone, with this segment and `ttl`. -/
structure StoreEnv.ShmAt (env : StoreEnv w σ) (p : Ptr) (i : Nat) (ttl : Int) : Prop where
  store : (env.zones p).store = some .shm
  shm : (env.zones p).shm = some i
  ttl : env.shared[i]?.bind ShmSegment.data = some ttl

/-- **A read looks the key up** in the map the segment holds, and leaves the pool alone. -/
theorem storeGet_shm (hlaw : env.ngx.Lawful) {s : StoreState w σ} {p : Ptr} {i : Nat} {ttl : Int}
    (h : env.ShmAt p i ttl) (hs : (s.shm i).WF env.ngx) (key : Bytes) (now : BitVec w) :
    let r := storeGet env (some p) key now .enough s
    r.1 = ((content (s.shm i)).get key now).1 ∧ (r.2.shm i).WF env.ngx ∧
      content (r.2.shm i) = ((content (s.shm i)).get key now).2 ∧ r.2.pool = s.pool := by
  obtain ⟨hwf, hcontent, hresult⟩ := shmGetData_spec hlaw hs key now true
  rw [if_neg (by simp)] at hresult
  simp only [storeGet, h.store, storeShmGet, shmGetContext, h.shm, h.ttl, Option.map_some,
    Function.update_self]
  exact ⟨hresult, hwf, hcontent, trivial⟩

/-- **A write binds the key** in the map the segment holds, and leaves the pool alone. -/
theorem storeSet_shm (hlaw : env.ngx.Lawful) {s : StoreState w σ} {p : Ptr} {i : Nat} {ttl : Int}
    (h : env.ShmAt p i ttl) (hs : (s.shm i).WF env.ngx) (key val : Bytes) (now : BitVec w) :
    let r := storeSet env (some p) key val now .enough s
    (r.shm i).WF env.ngx ∧
      content (r.shm i) = Function.update (content (s.shm i)) key
        (some (val, deadline now (BitVec.ofInt w ttl))) ∧ r.pool = s.pool := by
  obtain ⟨hwf, -, hcontent⟩ := shmSetData_spec hlaw hs (BitVec.ofInt w ttl) key val now true
  simp only [storeSet, h.store, storeShmSet, shmGetContext, h.shm, h.ttl, Option.map_some,
    Function.update_self]
  exact ⟨hwf, hcontent, trivial⟩

end

end NgxKeyval
