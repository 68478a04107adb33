import NgxKeyval.Shm.Slab

/-!
# Reloading the configuration

A segment outlives the configuration that registered it.  When nginx reloads, and the new
configuration declares a zone of the same name, module and size, the segment stays as it is, and the
initialisation function of the new declaration is called with the context of the old one, if it had
one.  A `keyval_zone` has a context; a `keyval_zone_redis`, whose segment is only there to take the
name, has none.

* `Lifetime` is a segment with the context of the current generation, and `lifetimeStep` what can
  happen to it: a new generation, or a call of the store operations.
* `Lifetime.Tight` says that the entries in the segment are the nodes of the current tree: none is
  lost and none is out of reach.
* `reload_intact_iff` — a generation starts with a tight segment exactly when it follows a
  `keyval_zone`, or finds no entry in the segment.  After a `keyval_zone_redis` the context of the
  old tree is gone, a new tree is made, and the entries of the old one stay allocated for ever.
-/

set_option autoImplicit false

namespace NgxKeyval

/-- How a generation of the configuration declares the zone. -/
inductive Generation where
  /-- `keyval_zone`, with its `ttl`, and what the two allocations of its initialisation answer. -/
  | zone (ttl : Int) (shOk logOk : Bool)
  /-- `keyval_zone_redis` -/
  | zoneRedis
  deriving DecidableEq, Repr

/-- What happens to a segment. -/
inductive SegmentEvent (w : Nat) where
  /-- nginx starts a generation. -/
  | start (g : Generation)
  /-- A worker of the current generation reads or writes. -/
  | call (c : ShmCall w)
  deriving DecidableEq, Repr

/-- A segment and the `data` of the current generation's `ngx_shm_zone_t`. -/
structure Lifetime (w : Nat) where
  seg : Segment w
  data : Option ShmCtx

section

variable {w : Nat} (ngx : NgxCore w) (addr : Nat) (name : Bytes)

/-- A segment that was just created. -/
def Lifetime.fresh (w : Nat) : Lifetime w := ⟨Segment.fresh w, none⟩

/-- One event, with what an initialisation function returned.  A generation whose initialisation
fails is given up, and the one before goes on. -/
def lifetimeStep (s : Lifetime w) : SegmentEvent w → Option Rc × Lifetime w
  | .start (.zone ttl shOk logOk) =>
    -- `ngx_keyval_conf_set_zone` has cleared the new context but for its `ttl`
    match initZone ⟨addr, name, false⟩ s.data ⟨none, none, ttl⟩ shOk logOk s.seg with
    | (.ok, ctx, seg) => (some .ok, ⟨seg, some ctx⟩)
    | (rc, _, seg) => (some rc, { s with seg })
  | .start .zoneRedis =>
    let r := initZoneNone s.seg
    (some r.1, ⟨r.2, none⟩)
  | .call c =>
    match s.data with
    | none => (none, s)
    | some ctx => (none, { s with seg := (segmentStep ngx ctx s.seg c).2 })

end

section

variable {w : Nat}

/-- A tree header or a log text lies in the block. -/
def Segment.Named (seg : Segment w) (b : Nat) : Prop := seg.sh b ≠ none ∨ seg.text b ≠ none

/-- The block is allocated, and holds an entry. -/
def Segment.Entry (seg : Segment w) (b : Nat) : Prop :=
  b ∈ seg.shpool.live.map Prod.fst ∧ ¬ seg.Named b

/-- The tree the current generation works on. -/
def Lifetime.tree (s : Lifetime w) : Rbtree w :=
  ((s.data.bind ShmCtx.sh).bind s.seg.sh).getD .leaf

/-- The entries in the segment are the nodes of the tree. -/
def Lifetime.Tight (s : Lifetime w) : Prop :=
  ∀ b, s.seg.Entry b ↔ ∃ n ∈ s.tree.toList, n.block = b

end

/-! ## The invariant -/

section

variable {w : Nat} {ngx : NgxCore w} {addr : Nat} {name : Bytes} {fixed : List (Nat × Nat)}
  {s s' : Lifetime w} {ctx : ShmCtx}

/-- Every block is accounted for, by the tree or as a fixed one; headers and log texts are in blocks
that were handed out and are not those of nodes; and the context points at its tree. -/
structure Lifetime.Sound (addr : Nat) (fixed : List (Nat × Nat)) (s : Lifetime w) : Prop where
  accounted : ShmZone.Accounted fixed ⟨s.tree, s.seg.shpool⟩
  named_lt : ∀ b, s.seg.Named b → b < s.seg.shpool.next
  nodes : ∀ n ∈ s.tree.toList, ¬ s.seg.Named n.block
  points : ∀ ctx, s.data = some ctx →
    ctx.shpool = some addr ∧ ∃ b, ctx.sh = some b ∧ s.seg.sh b = some s.tree

theorem Lifetime.tree_of_none (h : s.data = none) : s.tree = .leaf := by
  rw [Lifetime.tree, h]
  rfl

/-- **When a segment is tight**: when every fixed block holds a header or a log text. -/
theorem Lifetime.Sound.tight_iff (h : s.Sound addr fixed) :
    s.Tight ↔ ∀ e ∈ fixed, s.seg.Named e.1 := by
  have hlive : ∀ b, b ∈ s.seg.shpool.live.map Prod.fst ↔
      b ∈ fixed.map Prod.fst ∨ ∃ n ∈ s.tree.toList, n.block = b := by
    intro b
    rw [(h.accounted.live.map Prod.fst).mem_iff, List.map_append, List.mem_append, List.map_map]
    exact or_congr Iff.rfl List.mem_map
  have hnodup := (h.accounted.live.map Prod.fst).nodup_iff.mp h.accounted.sane.nodup
  rw [List.map_append, List.nodup_append] at hnodup
  constructor
  · intro htight e he
    by_contra hnamed
    have hmem : e.1 ∈ fixed.map Prod.fst := List.mem_map_of_mem he
    obtain ⟨n, hn, hblock⟩ := (htight e.1).mp ⟨(hlive e.1).mpr (Or.inl hmem), hnamed⟩
    exact hnodup.2.2 e.1 hmem e.1
      (List.mem_map.mpr ⟨n.cell, List.mem_map_of_mem hn, hblock⟩) rfl
  · intro hfixed b
    constructor
    · rintro ⟨hb, hnamed⟩
      rcases (hlive b).mp hb with hb | hb
      · obtain ⟨e, he, rfl⟩ := List.mem_map.mp hb
        exact absurd (hfixed e he) hnamed
      · exact hb
    · rintro ⟨n, hn, rfl⟩
      exact ⟨(hlive n.block).mpr (Or.inr ⟨n, hn, rfl⟩), h.nodes n hn⟩

theorem Lifetime.tight_iff_of_none (h : s.data = none) : s.Tight ↔ ∀ b, ¬ s.seg.Entry b := by
  simp [Lifetime.Tight, Lifetime.tree_of_none h]

theorem Lifetime.sound_fresh (addr : Nat) : (Lifetime.fresh w).Sound addr [] where
  accounted := ⟨⟨List.nodup_nil, by simp [Lifetime.fresh, Segment.fresh], rfl⟩, List.Perm.refl _,
    by simp [Lifetime.tree, Lifetime.fresh]⟩
  named_lt b hb := by simp [Lifetime.fresh, Segment.fresh, Segment.Named] at hb
  nodes n hn := by simp [Lifetime.tree, Lifetime.fresh] at hn
  points ctx h := by cases h

/-! ## A call -/

/-- A call takes new blocks only, and puts nothing but old nodes and new ones into the tree. -/
theorem shmStep_fresh (hngx : ngx.Lawful) (z : ShmZone w) (call : ShmCall w) :
    z.shpool.next ≤ (shmStep ngx z call).2.shpool.next ∧
      ∀ n ∈ (shmStep ngx z call).2.sh.toList, n ∈ z.sh.toList ∨ z.shpool.next ≤ n.block := by
  have hfree : ∀ (pool : SlabPool) (b : Nat), (slabFreeLocked pool b).next = pool.next := by
    intro pool b
    rw [slabFreeLocked]
    split <;> rfl
  have herase : ∀ n ∈ z.sh.toList, ∀ m ∈ (removeNode ngx z n).sh.toList, m ∈ z.sh.toList := by
    intro n hn m hm
    rw [removeNode, hngx.rbtreeDelete_mem z.sh n hn] at hm
    exact List.mem_of_mem_erase hm
  have hremove : (removeEntry ngx z call.key).shpool.next = z.shpool.next ∧
      ∀ m ∈ (removeEntry ngx z call.key).sh.toList, m ∈ z.sh.toList := by
    rw [removeEntry]
    split
    · exact ⟨rfl, fun _ h ↦ h⟩
    · rename_i n hn
      exact ⟨hfree _ _, herase n (mem_of_rbtreeLookup hn)⟩
  cases call with
  | get key now palloc =>
    simp only [shmStep, shmGetData]
    split
    · exact ⟨Nat.le_refl _, fun _ h ↦ Or.inl h⟩
    · rename_i n hn
      split
      · exact ⟨(hfree _ _).ge, fun m hm ↦ Or.inl (herase n (mem_of_rbtreeLookup hn) m hm)⟩
      · split <;> exact ⟨Nat.le_refl _, fun _ h ↦ Or.inl h⟩
  | set ttl key val now alloc =>
    obtain ⟨hnext, hmem⟩ := hremove
    simp only [shmStep, shmSetData]
    cases alloc with
    | false => exact ⟨hnext.ge, fun m hm ↦ Or.inl (hmem m hm)⟩
    | true =>
      refine ⟨hnext.ge.trans (Nat.le_succ _), fun m hm ↦ ?_⟩
      simp only [slabAllocLocked, if_true] at hm
      rw [toList_rbtreeInsert hngx, (SearchTree.toList_insertBy_perm _ _ _ _).mem_iff] at hm
      rcases List.mem_cons.mp hm with rfl | hm
      · exact Or.inr hnext.ge
      · exact Or.inl (hmem m hm)

/-- **A call** changes the tree and its blocks, and nothing else. -/
theorem Lifetime.Sound.call (hngx : ngx.Lawful) (h : s.Sound addr fixed) (c : ShmCall w) :
    (lifetimeStep ngx addr name s (.call c)).2.Sound addr fixed ∧
      (lifetimeStep ngx addr name s (.call c)).2.data = s.data ∧
      ∀ b, (lifetimeStep ngx addr name s (.call c)).2.seg.Named b ↔ s.seg.Named b := by
  obtain ⟨seg, data⟩ := s
  rcases data with _ | ctx
  · exact ⟨h, rfl, fun _ ↦ Iff.rfl⟩
  · obtain ⟨hpool, b, hsh, htree⟩ := h.points ctx rfl
    generalize htr : Lifetime.tree ⟨seg, some ctx⟩ = tree at htree
    obtain ⟨hnext, hnodes⟩ := shmStep_fresh hngx ⟨tree, seg.shpool⟩ c
    have hacc := shmStep_accounted hngx _ c (htr ▸ h.accounted)
    have hstep : (lifetimeStep ngx addr name ⟨seg, some ctx⟩ (.call c)).2 =
        ⟨seg.put b (shmStep ngx ⟨tree, seg.shpool⟩ c).2, some ctx⟩ := by
      simp only [lifetimeStep, segmentStep_eq hsh htree]
    rw [hstep]
    generalize shmStep ngx ⟨tree, seg.shpool⟩ c = r at hnext hnodes hacc
    have htree' : Lifetime.tree ⟨seg.put b r.2, some ctx⟩ = r.2.sh := by
      simp [Lifetime.tree, hsh]
    have hnamed : ∀ d, (seg.put b r.2).Named d ↔ seg.Named d := by
      intro d
      by_cases hd : d = b
      · subst hd
        exact iff_of_true (Or.inl (by simp)) (Or.inl (htree ▸ Option.some_ne_none tree))
      · simp [Segment.Named, Segment.put, Function.update_of_ne hd]
    refine ⟨⟨?_, ?_, ?_, ?_⟩, rfl, hnamed⟩
    · rw [htree']
      exact hacc
    · exact fun d hd ↦ Nat.lt_of_lt_of_le (h.named_lt d ((hnamed d).mp hd)) hnext
    · intro n hn hbad
      rw [htree'] at hn
      rw [hnamed] at hbad
      rcases hnodes n hn with hn | hn
      · exact h.nodes n (htr ▸ hn) hbad
      · exact Nat.not_lt.mpr hn (h.named_lt _ hbad)
    · intro ctx' hctx'
      obtain rfl := Option.some.inj hctx'
      refine ⟨hpool, b, hsh, ?_⟩
      rw [htree', Segment.sh_put_self]

/-! ## A new generation -/

variable {seg : Segment w}

theorem Segment.named_withHeader (b : Nat) :
    seg.withHeader.Named b ↔ b = seg.shpool.next ∨ seg.Named b := by
  by_cases hb : b = seg.shpool.next
  · simp [Segment.Named, Segment.withHeader, hb]
  · simp [Segment.Named, Segment.withHeader, hb]

theorem Segment.named_withLogCtx (b : Nat) :
    (seg.withLogCtx name).Named b ↔ b = seg.shpool.next ∨ seg.Named b := by
  by_cases hb : b = seg.shpool.next
  · simp [Segment.Named, Segment.withLogCtx, hb]
  · simp [Segment.Named, Segment.withLogCtx, hb]

/-- A generation that does not follow a `keyval_zone` makes a new tree, or fails and leaves a header
behind at most. -/
theorem lifetimeStep_zone_none (seg : Segment w) (ttl : Int) (shOk logOk : Bool) :
    let r := lifetimeStep ngx addr name ⟨seg, none⟩ (.start (.zone ttl shOk logOk))
    r = (some .ok, ⟨seg.withHeader.withLogCtx name,
        some ⟨some seg.shpool.next, some addr, ttl⟩⟩) ∨
      r.1 ≠ some .ok ∧
        (r.2 = ⟨seg, none⟩ ∨ r.2 = ⟨{ seg.withHeader with logCtx := none }, none⟩) := by
  simp only [lifetimeStep, initZone, Bool.false_eq_true, if_false]
  rcases hinit : initFresh name ⟨none, some addr, ttl⟩ shOk logOk seg with ⟨rc, ctx, seg'⟩
  by_cases hrc : rc = .ok
  · subst hrc
    obtain ⟨rfl, rfl⟩ := initFresh_ok hinit
    exact Or.inl rfl
  · right
    rcases initFresh_error hinit hrc with rfl | rfl <;> cases rc <;> simp at hrc ⊢

theorem Lifetime.Sound.keep (h : Sound addr fixed ⟨seg, some ctx⟩) (ttl : Int) :
    Sound addr fixed ⟨seg, some ⟨ctx.sh, ctx.shpool, ttl⟩⟩ where
  accounted := h.accounted
  named_lt := h.named_lt
  nodes := h.nodes
  points ctx' hctx' := by
    obtain rfl := Option.some.inj hctx'
    exact h.points ctx rfl

/-- The context goes, and the nodes it led to are out of reach. -/
theorem Lifetime.Sound.drop (h : Sound addr fixed s) :
    Sound addr (fixed ++ s.tree.toList.map Node.cell) ⟨s.seg, none⟩ where
  accounted := by
    refine ⟨h.accounted.sane, ?_, by simp [tree_of_none]⟩
    simpa [tree_of_none] using h.accounted.live
  named_lt := h.named_lt
  nodes n hn := by simp [tree_of_none] at hn
  points ctx hctx := by cases hctx

theorem Lifetime.Sound.withHeader (h : Sound addr fixed ⟨seg, none⟩) :
    Sound addr ((seg.shpool.next, shSize w) :: fixed) ⟨seg.withHeader, none⟩ where
  accounted := h.accounted.withHeader
  named_lt b hb := by
    rcases (Segment.named_withHeader b).mp hb with rfl | hb
    · exact Nat.lt_succ_self _
    · exact Nat.lt_succ_of_lt (h.named_lt b hb)
  nodes n hn := by simp [tree_of_none] at hn
  points ctx hctx := by cases hctx

theorem Lifetime.Sound.withLogCtx (h : Sound addr fixed ⟨seg, none⟩) (name : Bytes) :
    Sound addr ((seg.shpool.next, logCtxSize name) :: fixed) ⟨seg.withLogCtx name, none⟩ where
  accounted := h.accounted.withLogCtx name
  named_lt b hb := by
    rcases (Segment.named_withLogCtx b).mp hb with rfl | hb
    · exact Nat.lt_succ_self _
    · exact Nat.lt_succ_of_lt (h.named_lt b hb)
  nodes n hn := by simp [tree_of_none] at hn
  points ctx hctx := by cases hctx

theorem Lifetime.Sound.point (h : Sound addr fixed ⟨seg, none⟩) {b : Nat}
    (hb : seg.sh b = some .leaf) (ttl : Int) :
    Sound addr fixed ⟨seg, some ⟨some b, some addr, ttl⟩⟩ := by
  have htree : Lifetime.tree ⟨seg, some ⟨some b, some addr, ttl⟩⟩ = .leaf := by
    simp [Lifetime.tree, hb]
  refine ⟨htree ▸ h.accounted, h.named_lt, ?_, ?_⟩
  · rw [htree]
    simp
  · intro ctx hctx
    obtain rfl := Option.some.inj hctx
    exact ⟨rfl, b, rfl, by rw [htree, hb]⟩

theorem Lifetime.Sound.init (h : Sound addr fixed ⟨seg, none⟩) (name : Bytes) (ttl : Int) :
    Sound addr ((seg.shpool.next + 1, logCtxSize name) :: (seg.shpool.next, shSize w) :: fixed)
      ⟨seg.withHeader.withLogCtx name, some ⟨some seg.shpool.next, some addr, ttl⟩⟩ := by
  refine (h.withHeader.withLogCtx name).point ?_ ttl
  simp [Segment.withLogCtx, Segment.withHeader]

/-- **A new tree next to what is already there** makes a tight segment exactly when no entry is
there. -/
theorem Lifetime.Sound.tight_init (h : Sound addr fixed ⟨seg, none⟩) (name : Bytes) (ttl : Int) :
    Tight ⟨seg.withHeader.withLogCtx name, some ⟨some seg.shpool.next, some addr, ttl⟩⟩ ↔
      ∀ b, ¬ seg.Entry b := by
  have hnone : (∀ b, ¬ seg.Entry b) ↔ ∀ e ∈ fixed, seg.Named e.1 := by
    rw [← h.tight_iff, tight_iff_of_none rfl]
  have hlt : ∀ e ∈ fixed, e.1 < seg.shpool.next := fun e he ↦
    h.accounted.sane.lt_next e (h.accounted.live.mem_iff.mpr (List.mem_append_left _ he))
  rw [hnone, (h.init name ttl).tight_iff]
  constructor
  · intro hall e he
    have hlt := hlt e he
    have hold := hall e (List.mem_cons_of_mem _ (List.mem_cons_of_mem _ he))
    rcases (Segment.named_withLogCtx e.1).mp hold with heq | hold
    · have hnext : seg.withHeader.shpool.next = seg.shpool.next + 1 := rfl
      omega
    · exact ((Segment.named_withHeader e.1).mp hold).resolve_left (Nat.ne_of_lt hlt)
  · intro hall e he
    refine (Segment.named_withLogCtx e.1).mpr ?_
    rcases List.mem_cons.mp he with rfl | he
    · exact Or.inl rfl
    · refine Or.inr ((Segment.named_withHeader e.1).mpr ?_)
      rcases List.mem_cons.mp he with rfl | he
      · exact Or.inl rfl
      · exact Or.inr (hall e he)

/-! ## Histories -/

/-- If the event starts a `keyval_zone` generation, and its initialisation succeeds: its context
points at a tree of this segment; the entries in the segment are the nodes of that tree; and if the
generation before was a `keyval_zone` too, it is the same tree. -/
def Intact (ngx : NgxCore w) (addr : Nat) (name : Bytes) (s : Lifetime w) (e : SegmentEvent w) :
    Prop :=
  ∀ ttl shOk logOk, e = .start (.zone ttl shOk logOk) →
    (lifetimeStep ngx addr name s e).1 = some .ok →
      let s' := (lifetimeStep ngx addr name s e).2
      (∃ ctx b, s'.data = some ctx ∧ ctx.ttl = ttl ∧ ctx.shpool = some addr ∧ ctx.sh = some b ∧
        s'.seg.sh b = some s'.tree) ∧
      s'.Tight ∧ (s.data ≠ none → s'.tree = s.tree)

/-- If the event starts a `keyval_zone` generation that does not follow a `keyval_zone`, and its
initialisation succeeds, the segment holds no entry. -/
def Vacant (ngx : NgxCore w) (addr : Nat) (name : Bytes) (s : Lifetime w) (e : SegmentEvent w) :
    Prop :=
  ∀ ttl shOk logOk, e = .start (.zone ttl shOk logOk) →
    (lifetimeStep ngx addr name s e).1 = some .ok → s.data = none → ∀ b, ¬ s.seg.Entry b

/-- What holds throughout a history in which every generation starts with a tight segment. -/
structure Lifetime.Kept (addr : Nat) (s : Lifetime w) : Prop where
  sound : ∃ fixed, s.Sound addr fixed
  tight : s.data ≠ none → s.Tight

/-- **One event**: the two conditions agree. -/
theorem Lifetime.Kept.intact_iff (h : s.Kept addr) (e : SegmentEvent w) :
    Intact ngx addr name s e ↔ Vacant ngx addr name s e := by
  obtain ⟨⟨fixed, hsound⟩, htight⟩ := h
  obtain ⟨seg, data⟩ := s
  refine forall_congr' fun ttl ↦ forall_congr' fun shOk ↦ forall_congr' fun logOk ↦
    forall_congr' fun he ↦ ?_
  subst he
  rcases data with _ | ctx
  · rcases lifetimeStep_zone_none seg ttl shOk logOk with hstep | ⟨hrc, -⟩
    · rw [hstep]
      have hinit := hsound.init name ttl
      obtain ⟨hpool, b, hsh, htree⟩ := hinit.points _ rfl
      refine forall_congr' fun _ ↦ ⟨fun hintact _ ↦ ?_, fun hvacant ↦ ?_⟩
      · exact (hsound.tight_init name ttl).mp hintact.2.1
      · exact ⟨⟨_, b, rfl, rfl, hpool, hsh, htree⟩,
          (hsound.tight_init name ttl).mpr (hvacant rfl), fun hne ↦ absurd rfl hne⟩
    · exact ⟨fun _ hok ↦ absurd hok hrc, fun _ hok ↦ absurd hok hrc⟩
  · obtain ⟨hpool, b, hsh, htree⟩ := hsound.points ctx rfl
    have hsome := Option.some_ne_none ctx
    refine ⟨fun _ _ hnone ↦ absurd hnone hsome, fun _ _ ↦ ⟨?_, htight hsome, fun _ ↦ rfl⟩⟩
    exact ⟨_, b, rfl, rfl, hpool, hsh, htree⟩

/-- **One event** keeps what the generations before it left. -/
theorem Lifetime.Kept.step (hngx : ngx.Lawful) (h : s.Kept addr) (e : SegmentEvent w)
    (hintact : Intact ngx addr name s e) : (lifetimeStep ngx addr name s e).2.Kept addr := by
  obtain ⟨⟨fixed, hsound⟩, htight⟩ := h
  obtain ⟨seg, data⟩ := s
  rcases e with (⟨ttl, shOk, logOk⟩ | _) | call
  · rcases data with _ | ctx
    · rcases lifetimeStep_zone_none seg ttl shOk logOk with hstep | ⟨-, hstep | hstep⟩
      · have htight' := (hintact ttl shOk logOk rfl (by rw [hstep])).2.1
        rw [hstep] at htight' ⊢
        exact ⟨⟨_, hsound.init name ttl⟩, fun _ ↦ htight'⟩
      · rw [hstep]
        exact ⟨⟨fixed, hsound⟩, htight⟩
      · rw [hstep]
        have hheader := hsound.withHeader
        exact ⟨⟨_, hheader.accounted, hheader.named_lt, hheader.nodes, hheader.points⟩,
          fun hne ↦ absurd rfl hne⟩
    · exact ⟨⟨fixed, hsound.keep ttl⟩, fun _ ↦ htight (Option.some_ne_none ctx)⟩
  · exact ⟨⟨_, hsound.drop⟩, fun hne ↦ absurd rfl hne⟩
  · obtain ⟨hcall, hdata, hnamed⟩ := hsound.call hngx call
    refine ⟨⟨fixed, hcall⟩, fun hne ↦ ?_⟩
    rw [hdata] at hne
    rw [hcall.tight_iff]
    exact fun e he ↦ (hnamed e.1).mpr (hsound.tight_iff.mp (htight hne) e he)

/-- **When reloads neither lose nor leak entries.**  Take any history of a segment: generations that
declare the zone in either way, in any order, whose initialisations may fail, and any reads and
writes in between.  Every `keyval_zone` generation starts with exactly the entries that are in the
segment if and only if each of them that does not follow a `keyval_zone` finds no entry there. -/
theorem reload_intact_iff (hngx : ngx.Lawful) (addr : Nat) (name : Bytes)
    (events : List (SegmentEvent w)) :
    Machine.Meets (Intact ngx addr name) (lifetimeStep ngx addr name) (.fresh w) events ↔
      Machine.Meets (Vacant ngx addr name) (lifetimeStep ngx addr name) (.fresh w) events := by
  have hfresh : (Lifetime.fresh w).Kept addr :=
    ⟨⟨[], Lifetime.sound_fresh addr⟩, fun hne ↦ absurd rfl hne⟩
  exact Machine.meets_congr (fun _ e h ↦ h.intact_iff e) (fun _ e h hi ↦ h.step hngx e hi) hfresh

end

/-- A key is bound, the `ttl` of the zone is changed by a reload, and the key is bound again. -/
theorem reload_intact_ttl :
    Machine.Meets (Intact (plainCore 64) 4096 (lit "z"))
      (lifetimeStep (plainCore 64) 4096 (lit "z")) (.fresh 64)
      [.start (.zone 0 true true), .call (.set 0 [97] [1] 5 true), .start (.zone 10 true true),
        .call (.set 10 [97] [2] 6 true)] := by
  refine (reload_intact_iff (plainCore_lawful 64) 4096 (lit "z") _).mpr ⟨?_, ?_, ?_, ?_, trivial⟩
  · rintro ttl shOk logOk - - - b ⟨hb, -⟩
    cases hb
  · intro ttl shOk logOk he
    cases he
  · rintro ttl shOk logOk - - hnone
    cases hnone
  · intro ttl shOk logOk he
    cases he

/-- A zone is declared in shared memory, a key is bound, and the zone is declared in Redis and then
in shared memory again. -/
def thereAndBack : List (SegmentEvent 64) :=
  [.start (.zone 0 true true), .call (.set 0 [97] [1] 5 true), .start .zoneRedis,
    .start (.zone 0 true true)]

/-- **A reload loses an entry and leaks its block.**  In the end the tree is empty, and the block of
the entry is still allocated. -/
theorem reload_leaks_entry :
    let s := Machine.final (lifetimeStep (plainCore 64) 4096 (lit "z")) (.fresh 64) thereAndBack
    s.tree = .leaf ∧ s.seg.shpool.live = [(4, 20), (3, 64), (2, 66), (1, 20), (0, 64)] ∧
      s.seg.Entry 2 ∧
      ¬ Machine.Meets (Intact (plainCore 64) 4096 (lit "z"))
        (lifetimeStep (plainCore 64) 4096 (lit "z")) (.fresh 64) thereAndBack := by
  have hentry : (Machine.final (lifetimeStep (plainCore 64) 4096 (lit "z")) (.fresh 64)
      thereAndBack).seg.Entry 2 := by
    refine ⟨by decide, ?_⟩
    rintro (hsh | htext)
    · exact hsh rfl
    · exact htext rfl
  refine ⟨rfl, by decide, hentry, ?_⟩
  rintro ⟨-, -, -, hintact, -⟩
  obtain ⟨n, hn, -⟩ := ((hintact 0 true true rfl rfl).2.1 2).mp hentry
  cases hn

end NgxKeyval
