import Mathlib.Data.List.Find
import NgxKeyval.Library.KeyedList
import NgxKeyval.Library.Machine
import NgxKeyval.Shm.Store

/-!
# The shared-memory store is a finite map

`NgxKeyval.Shm.Store` keeps entries in a tree; what the tree is for is a map from keys to a value
and a deadline.  This file says so.

* `KvMap` is that map, with `KvMap.step` the effect and the reply of a call on it.
* `content` reads the map off a zone, and `ShmZone.WF` is the invariant that makes the reading
  exact: the entries are strictly ordered by hash and then key, and each carries the hash of its
  own key.
* `rbtreeLookup_eq_lookup`, `removeNode_spec` and `insertNode_spec` are the three operations on
  the tree, seen through `content`; everything after them is stated of `content` alone.
* `shmGetData_spec` and `shmSetData_spec` are the two calls, whatever the allocators answer.

The hash is any function at all: nothing here assumes that two keys hash apart.
-/

set_option autoImplicit false

namespace NgxKeyval

/-! ## The abstract map -/

/-- What a zone is for: a map from keys to a value and a deadline word. -/
abbrev KvMap (w : Nat) := Bytes → Option (Bytes × BitVec w)

namespace KvMap

variable {w : Nat}

/-- The map that binds nothing. -/
def empty : KvMap w := fun _ ↦ none

/-- A binding is live when it has no deadline or the clock, as a signed difference, is before it. -/
def Live (now d : BitVec w) : Prop := d = 0 ∨ (now - d).toInt < 0

instance (now d : BitVec w) : Decidable (Live now d) := inferInstanceAs (Decidable (_ ∨ _))

/-- Reading a key: its value if the binding is live; otherwise the key ends up unbound. -/
def get (m : KvMap w) (key : Bytes) (now : BitVec w) : GetResult × KvMap w :=
  match m key with
  | none => (.declined, m)
  | some (val, d) => if Live now d then (.ok val, m) else (.declined, Function.update m key none)

/-- Writing a key replaces its binding. -/
def set (m : KvMap w) (key val : Bytes) (d : BitVec w) : KvMap w :=
  Function.update m key (some (val, d))

/-- The effect of a call on the map, and its reply when no allocation fails. -/
def step (m : KvMap w) : ShmCall w → ShmReply × KvMap w
  | .get key now _ => (.got (m.get key now).1, (m.get key now).2)
  | .set ttl key val now _ =>
    (.stored .ok, m.set key val (if ttl = 0 then 0 else now + ttl * 1000))

end KvMap

/-- The key a call is about. -/
def ShmCall.key {w : Nat} : ShmCall w → Bytes
  | .get key _ _ => key
  | .set _ key _ _ _ => key

theorem KvMap.step_of_ne {w : Nat} (m : KvMap w) (c : ShmCall w) {k : Bytes} (hk : k ≠ c.key) :
    (m.step c).2 k = m k := by
  cases c with
  | get key now palloc =>
    rw [KvMap.step, KvMap.get]
    split
    · rfl
    · split
      · rfl
      · exact Function.update_of_ne hk _ _
  | set ttl key val now alloc => exact Function.update_of_ne hk _ _

section

variable {w : Nat} (ngx : NgxCore w)

/-! ## The order of the tree

A node sits in the tree at the place given by its hash and its key.  Places are totally ordered,
and both descents compare places. -/

/-- The order of places: by hash, then by key. -/
def PlaceLt (p q : UInt32 × Bytes) : Prop :=
  p.1 < q.1 ∨ p.1 = q.1 ∧ ngx.memn2cmp p.2 q.2 < 0

/-- Where a node sits. -/
def Node.place (n : Node w) : UInt32 × Bytes := (n.key, n.keyBytes)

/-- Which way the lookup of a key and its hash goes at a node. -/
def searchCut (key : Bytes) (hash : UInt32) (n : Node w) : Ordering :=
  if hash < n.key then .lt
  else if hash > n.key then .gt
  else if ngx.memn2cmp key n.keyBytes = 0 then .eq
  else if ngx.memn2cmp key n.keyBytes < 0 then .lt
  else .gt

/-- Does the insertion of a node go left at another? -/
def insertLeft (node temp : Node w) : Bool :=
  decide (node.key < temp.key) ||
    (!decide (node.key > temp.key) && decide (ngx.memn2cmp node.keyBytes temp.keyBytes < 0))

variable {ngx}

theorem placeLt_trans (h : ngx.Lawful) {p q r : UInt32 × Bytes} (hpq : PlaceLt ngx p q)
    (hqr : PlaceLt ngx q r) : PlaceLt ngx p r := by
  rcases hpq with hpq | ⟨hpq, hpq'⟩ <;> rcases hqr with hqr | ⟨hqr, hqr'⟩
  · exact Or.inl (UInt32.lt_trans hpq hqr)
  · exact Or.inl (hqr ▸ hpq)
  · exact Or.inl (hpq ▸ hqr)
  · exact Or.inr ⟨hpq.trans hqr, h.memn2cmp_trans _ _ _ hpq' hqr'⟩

theorem not_placeLt_self (h : ngx.Lawful) (p : UInt32 × Bytes) : ¬ PlaceLt ngx p p := by
  rintro (hp | ⟨-, hp⟩)
  · exact UInt32.lt_irrefl _ hp
  · have h0 := (h.memn2cmp_eq_zero p.2 p.2).mpr rfl
    omega

theorem placeLt_total (h : ngx.Lawful) (p q : UInt32 × Bytes) :
    PlaceLt ngx p q ∨ p = q ∨ PlaceLt ngx q p := by
  have heq := h.memn2cmp_eq_zero p.2 q.2
  have hneg := h.memn2cmp_neg q.2 p.2
  simp only [PlaceLt, Prod.ext_iff, ← heq, hneg]
  grind

theorem searchCut_lt_iff {key : Bytes} {hash : UInt32} {n : Node w} :
    searchCut ngx key hash n = .lt ↔ PlaceLt ngx (hash, key) n.place := by
  simp only [searchCut, PlaceLt, Node.place]
  grind

theorem searchCut_gt_iff (h : ngx.Lawful) {key : Bytes} {hash : UInt32} {n : Node w} :
    searchCut ngx key hash n = .gt ↔ PlaceLt ngx n.place (hash, key) := by
  have hneg := h.memn2cmp_neg n.keyBytes key
  simp only [searchCut, PlaceLt, Node.place]
  grind

theorem searchCut_eq_iff (h : ngx.Lawful) {key : Bytes} {hash : UInt32} {n : Node w} :
    searchCut ngx key hash n = .eq ↔ (hash, key) = n.place := by
  have heq := h.memn2cmp_eq_zero key n.keyBytes
  simp only [searchCut, Node.place, Prod.mk.injEq, ← heq]
  grind

theorem isCut_searchCut (h : ngx.Lawful) (key : Bytes) (hash : UInt32) :
    SearchTree.IsCut (fun a b ↦ PlaceLt ngx a.place b.place) (searchCut ngx key hash) := by
  constructor
  · intro a b hab ha
    rw [Ne, searchCut_gt_iff h] at ha
    rw [searchCut_lt_iff]
    rcases placeLt_total h (hash, key) a.place with hlt | heq | hgt
    · exact placeLt_trans h hlt hab
    · exact heq ▸ hab
    · exact absurd hgt ha
  · intro a b hab hb
    rw [Ne, searchCut_lt_iff] at hb
    rw [searchCut_gt_iff h]
    rcases placeLt_total h (hash, key) b.place with hlt | heq | hgt
    · exact absurd hlt hb
    · exact heq ▸ hab
    · exact placeLt_trans h hab hgt

/-- `rbtreeLookup` is a descent by `searchCut`. -/
theorem rbtreeLookup_eq_find (key : Bytes) (hash : UInt32) (t : Rbtree w) :
    rbtreeLookup ngx key hash t = t.find (searchCut ngx key hash) := by
  induction t with
  | leaf => rfl
  | node c left node right ihl ihr =>
    rw [rbtreeLookup, SearchTree.find, searchCut]
    by_cases hlt : hash < node.key
    · simp [hlt, ihl]
    · by_cases hgt : hash > node.key
      · simp [hlt, hgt, ihr]
      · by_cases h0 : ngx.memn2cmp key node.keyBytes = 0
        · simp [hlt, hgt, h0]
        · by_cases hneg : ngx.memn2cmp key node.keyBytes < 0
          · simp [hlt, hgt, h0, hneg, ihl]
          · simp [hlt, hgt, h0, hneg, ihr]

/-- `rbtreeInsertValue` is an insertion below the last node the descent reaches. -/
theorem rbtreeInsertValue_eq_insertBy (node : Node w) (t : Rbtree w) :
    rbtreeInsertValue ngx t node = t.insertBy (insertLeft ngx node) .red node := by
  induction t with
  | leaf => rfl
  | node c left temp right ihl ihr =>
    rw [rbtreeInsertValue, SearchTree.insertBy, insertLeft, ihl, ihr]
    by_cases hlt : node.key < temp.key
    · simp [hlt]
    · by_cases hgt : node.key > temp.key
      · simp [hlt, hgt]
      · simp [hlt, hgt]

theorem insertLeft_spec (h : ngx.Lawful) {node temp : Node w} (hne : node.place ≠ temp.place) :
    if insertLeft ngx node temp then PlaceLt ngx node.place temp.place
    else PlaceLt ngx temp.place node.place := by
  have hleft : insertLeft ngx node temp = true ↔ PlaceLt ngx node.place temp.place := by
    simp only [insertLeft, PlaceLt, Node.place]
    grind
  split
  · exact hleft.mp ‹_›
  · rcases placeLt_total h node.place temp.place with hlt | heq | hgt
    · exact absurd (hleft.mpr hlt) ‹_›
    · exact absurd heq hne
    · exact hgt

/-! ## The invariant and the map it carries -/

variable (ngx) in
/-- The tree is strictly ordered, and every node carries the hash of its own key. -/
structure ShmZone.WF (z : ShmZone w) : Prop where
  /-- Strictly ordered, so no place is taken twice. -/
  sorted : z.sh.toList.Pairwise fun a b ↦ PlaceLt ngx a.place b.place
  /-- Nodes are filed under the hash of their key. -/
  hashed : ∀ n ∈ z.sh.toList, n.key = ngx.crc32Short n.keyBytes

/-- What a node binds its key to. -/
def Node.binding (n : Node w) : Bytes × BitVec w := (n.valBytes, n.expiresAt)

/-- The map a zone holds. -/
def content (z : ShmZone w) : KvMap w :=
  Option.map Node.binding ∘ KeyedList.lookup Node.keyBytes z.sh.toList

theorem content_of_lookup {z : ShmZone w} {key : Bytes} {n : Node w}
    (hn : KeyedList.lookup Node.keyBytes z.sh.toList key = some n) :
    content z key = some n.binding := by
  rw [content, Function.comp_apply, hn, Option.map_some]

theorem content_eq_none_iff {z : ShmZone w} {key : Bytes} :
    content z key = none ↔ KeyedList.lookup Node.keyBytes z.sh.toList key = none := by
  rw [content, Function.comp_apply, Option.map_eq_none_iff]

theorem wf_leaf (pool : SlabPool) : ShmZone.WF ngx ⟨.leaf, pool⟩ :=
  ⟨List.Pairwise.nil, by simp⟩

theorem content_leaf (pool : SlabPool) : content ⟨.leaf, pool⟩ = (KvMap.empty : KvMap w) := rfl

/-- No key is bound twice, however many keys share a hash. -/
theorem ShmZone.WF.distinct (h : ngx.Lawful) {z : ShmZone w} (hz : z.WF ngx) :
    KeyedList.Distinct Node.keyBytes z.sh.toList := by
  refine hz.sorted.imp_of_mem fun {a b} ha hb hab he ↦ ?_
  have hplace : a.place = b.place := by
    rw [Node.place, Node.place, hz.hashed a ha, hz.hashed b hb, he]
  exact not_placeLt_self h b.place (hplace ▸ hab)

/-- **Lookup finds the entry of the key**, hash collisions or not. -/
theorem rbtreeLookup_eq_lookup (h : ngx.Lawful) {z : ShmZone w} (hz : z.WF ngx) (key : Bytes) :
    rbtreeLookup ngx key (ngx.crc32Short key) z.sh =
      KeyedList.lookup Node.keyBytes z.sh.toList key := by
  rw [rbtreeLookup_eq_find,
    SearchTree.find_eq_find? (isCut_searchCut h key (ngx.crc32Short key)) hz.sorted]
  rw [KeyedList.lookup]
  refine List.find?_congr fun n hn ↦ ?_
  rw [Bool.eq_iff_iff, beq_iff_eq, decide_eq_true_iff, searchCut_eq_iff h, Node.place,
    hz.hashed n hn, Prod.mk.injEq]
  exact ⟨fun he ↦ he.2.symm, fun he ↦ ⟨congrArg ngx.crc32Short he.symm, he.symm⟩⟩

/-! ## The operations on the tree -/

/-- Removing a node unbinds its key. -/
theorem removeNode_spec (h : ngx.Lawful) {z : ShmZone w} (hz : z.WF ngx) {n : Node w}
    (hn : n ∈ z.sh.toList) :
    (removeNode ngx z n).WF ngx ∧
      content (removeNode ngx z n) = Function.update (content z) n.keyBytes none := by
  have hlist : (removeNode ngx z n).sh.toList = z.sh.toList.erase n :=
    h.rbtreeDelete_mem z.sh n hn
  refine ⟨⟨?_, ?_⟩, ?_⟩
  · rw [hlist]
    exact hz.sorted.sublist List.erase_sublist
  · rw [hlist]
    exact fun m hm ↦ hz.hashed m (List.mem_of_mem_erase hm)
  · rw [content, hlist, KeyedList.lookup_erase (hz.distinct h) hn, Function.comp_update]
    rfl

/-- What `ngx_rbtree_insert` leaves in the tree, rebalanced or not: the insert function's list. -/
theorem toList_rbtreeInsert (h : ngx.Lawful) (t : Rbtree w) (n : Node w) :
    (ngx.rbtreeInsert (rbtreeInsertValue ngx) t n).toList =
      (t.insertBy (insertLeft ngx n) .red n).toList := by
  cases t with
  | leaf => rw [h.rbtreeInsert_leaf]; rfl
  | node c l a r =>
    rw [h.rbtreeInsert_node _ _ _ (by simp), rbtreeInsertValue_eq_insertBy]

/-- Inserting a node whose key is unbound binds it. -/
theorem insertNode_spec (h : ngx.Lawful) {z : ShmZone w} (hz : z.WF ngx) {n : Node w}
    (hkey : n.key = ngx.crc32Short n.keyBytes) (hfree : content z n.keyBytes = none)
    (pool : SlabPool) :
    ShmZone.WF ngx ⟨ngx.rbtreeInsert (rbtreeInsertValue ngx) z.sh n, pool⟩ ∧
      content ⟨ngx.rbtreeInsert (rbtreeInsertValue ngx) z.sh n, pool⟩ =
        Function.update (content z) n.keyBytes (some n.binding) := by
  have hne : ∀ a ∈ z.sh.toList, a.keyBytes ≠ n.keyBytes :=
    KeyedList.lookup_eq_none_iff.mp (content_eq_none_iff.mp hfree)
  have hleft : ∀ a ∈ z.sh.toList,
      if insertLeft ngx n a then PlaceLt ngx n.place a.place else PlaceLt ngx a.place n.place :=
    fun a ha ↦ insertLeft_spec h fun he ↦ hne a ha (congrArg Prod.snd he).symm
  have htrans : ∀ a b d : Node w, PlaceLt ngx a.place b.place → PlaceLt ngx b.place d.place →
      PlaceLt ngx a.place d.place := fun _ _ _ ↦ placeLt_trans h
  refine ⟨⟨?_, ?_⟩, ?_⟩
  · rw [toList_rbtreeInsert h]
    exact SearchTree.pairwise_insertBy htrans .red hz.sorted hleft
  · intro a ha
    rw [toList_rbtreeInsert h] at ha
    rcases List.mem_cons.mp ((SearchTree.toList_insertBy_perm _ _ _ _).mem_iff.mp ha) with rfl | ha
    · exact hkey
    · exact hz.hashed a ha
  · obtain ⟨p, q, hpq, hins, -, -⟩ := SearchTree.insertBy_split htrans .red hz.sorted hleft
    rw [content, toList_rbtreeInsert h, hins, KeyedList.lookup_insert (hpq ▸ hne), ← hpq,
      Function.comp_update]
    rfl

/-! ## The two calls -/

theorem expired_eq_false_iff (now d : BitVec w) : expired now d = false ↔ KvMap.Live now d := by
  simp [expired, KvMap.Live]
  grind

/-- **Reading.**  With room for the copy, the reply and the effect are those of the map; without,
a live binding is reported as an error and nothing else differs. -/
theorem shmGetData_spec (h : ngx.Lawful) {z : ShmZone w} (hz : z.WF ngx) (key : Bytes)
    (now : BitVec w) (palloc : Bool) :
    let r := shmGetData ngx z key now palloc
    r.2.WF ngx ∧ content r.2 = ((content z).get key now).2 ∧
      r.1 = if palloc = false ∧ ((content z).get key now).1 ≠ .declined then .error
        else ((content z).get key now).1 := by
  rw [shmGetData, rbtreeLookup_eq_lookup h hz]
  cases hl : KeyedList.lookup Node.keyBytes z.sh.toList key with
  | none => simp [KvMap.get, content_eq_none_iff.mpr hl, hz]
  | some n =>
    obtain ⟨hmem, rfl⟩ := KeyedList.mem_of_lookup hl
    simp only [KvMap.get, content_of_lookup hl, Node.binding]
    cases hx : expired now n.expiresAt with
    | true =>
      have hlive : ¬ KvMap.Live now n.expiresAt := by
        rw [← expired_eq_false_iff, hx]; decide
      simpa [hlive] using removeNode_spec h hz hmem
    | false =>
      have hlive := (expired_eq_false_iff now n.expiresAt).mp hx
      cases palloc <;> simp [hlive, hz]

theorem removeEntry_spec (h : ngx.Lawful) {z : ShmZone w} (hz : z.WF ngx) (key : Bytes) :
    (removeEntry ngx z key).WF ngx ∧
      content (removeEntry ngx z key) = Function.update (content z) key none := by
  rw [removeEntry, rbtreeLookup_eq_lookup h hz]
  cases hl : KeyedList.lookup Node.keyBytes z.sh.toList key with
  | none =>
    refine ⟨hz, ?_⟩
    rw [← content_eq_none_iff.mpr hl, Function.update_eq_self]
  | some n =>
    obtain ⟨hmem, rfl⟩ := KeyedList.mem_of_lookup hl
    exact removeNode_spec h hz hmem

/-- **Writing.**  The old binding is gone whatever happens; the new one is made when the slab has
room for it. -/
theorem shmSetData_spec (h : ngx.Lawful) {z : ShmZone w} (hz : z.WF ngx) (ttl : BitVec w)
    (key val : Bytes) (now : BitVec w) (alloc : Bool) :
    let r := shmSetData ngx z ttl key val now alloc
    r.2.WF ngx ∧ r.1 = (if alloc then .ok else .error) ∧
      content r.2 = Function.update (content z) key
        (if alloc then some (val, deadline now ttl) else none) := by
  obtain ⟨hwf, hcontent⟩ := removeEntry_spec h hz key
  rw [shmSetData]
  cases alloc with
  | false => simpa [slabAllocLocked] using ⟨hwf, hcontent⟩
  | true =>
    let pool := (removeEntry ngx z key).shpool
    let node : Node w :=
      { block := pool.next, key := ngx.crc32Short key, len := key.length,
        size := key.length + val.length, expiresAt := deadline now ttl, data := key ++ val }
    have hkey : node.keyBytes = key := by simp [node, Node.keyBytes]
    have hval : node.binding = (val, deadline now ttl) := by
      simp [node, Node.binding, Node.valBytes]
    have hfree : content (removeEntry ngx z key) node.keyBytes = none := by
      rw [hcontent, hkey, Function.update_self]
    obtain ⟨hwf', hcontent'⟩ := insertNode_spec h hwf (by rw [hkey]) hfree
      { pool with live := (pool.next, nodeHeader w + key.length + val.length) :: pool.live,
                  next := pool.next + 1 }
    refine ⟨hwf', rfl, ?_⟩
    rw [hcontent, hkey, hval, Function.update_idem] at hcontent'
    exact hcontent'

end

end NgxKeyval
