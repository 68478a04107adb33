import NgxKeyval.Redis.Session

/-!
# The open connections of a request

What is open at any moment can be read off the calls of the client library up to then.

* `openConnections` lists the connections that have been made and not freed, each with the zone
  record it was made for.
* `Tracked` says that they are those the contexts of the pool refer to.
* `OnePerRecord` says that at no moment up to now two of them were for one record;
  `onePerRecord_run` says that this holds throughout a request.
-/

set_option autoImplicit false

namespace NgxKeyval

/-- What an event does to the open connections. -/
def Event.opens (opened : List (Ptr × Nat)) : Event → List (Ptr × Nat)
  | .connect zone (some c) _ _ _ _ => (zone, c) :: opened
  | .free c => opened.filter fun e ↦ decide (e.2 ≠ c)
  | _ => opened

/-- The connections that have been made and not freed, most recent first. -/
def openConnections (trace : List Event) : List (Ptr × Nat) := trace.foldl Event.opens []

section

variable {σ : Type} {hiredis : Hiredis σ} {s s₁ s' : Pool σ} {zone : Ptr} {conf : RedisConf}
  {cmd : Command} {reply : Option Reply} {new t : List Event} {a c : Nat}
  {opened : List (Ptr × Nat)}

theorem openConnections_append (t t' : List Event) :
    openConnections (t ++ t') = t'.foldl Event.opens (openConnections t) := by
  rw [openConnections, openConnections, List.foldl_append]

theorem filter_opened (zone : Ptr) (h : ∀ e ∈ opened, e.2 ≠ c) :
    ((zone, c) :: opened).filter (fun e ↦ decide (e.2 ≠ c)) = opened := by
  rw [List.filter_cons_of_neg (by simp), List.filter_eq_self]
  exact fun e he ↦ decide_eq_true (h e he)

/-- An event that makes no connection, and frees none but `c`. -/
def Event.Keeps (c : Nat) : Event → Prop
  | .connect _ (some _) _ _ _ _ => False
  | .free d => d = c
  | _ => True

/-- What is open while such events happen: all that was, and perhaps `c`. -/
theorem foldl_opens_of_keeps (zone : Ptr) (hfresh : ∀ e ∈ opened, e.2 ≠ c)
    (ht : ∀ e ∈ t, e.Keeps c) :
    t.foldl Event.opens opened = opened ∧
      (t.foldl Event.opens ((zone, c) :: opened) = opened ∨
        t.foldl Event.opens ((zone, c) :: opened) = (zone, c) :: opened) := by
  induction t with
  | nil => exact ⟨rfl, Or.inr rfl⟩
  | cons e t ih =>
    obtain ⟨ih₁, ih₂⟩ := ih fun e he ↦ ht e (List.mem_cons_of_mem _ he)
    have he := ht e List.mem_cons_self
    rw [List.foldl_cons, List.foldl_cons]
    rcases e with ⟨_, _ | _⟩ | _ | _ | d | _
    · exact ⟨ih₁, ih₂⟩
    · exact he.elim
    · exact ⟨ih₁, ih₂⟩
    · exact ⟨ih₁, ih₂⟩
    · obtain rfl : d = c := he
      have hfree : opened.filter (fun e ↦ decide (e.2 ≠ d)) = opened :=
        List.filter_eq_self.mpr fun e he ↦ decide_eq_true (hfresh e he)
      simp only [Event.opens, filter_opened zone hfresh, hfree]
      exact ⟨ih₁, Or.inl ih₁⟩
    · exact ⟨ih₁, ih₂⟩

theorem Opening.keeps {result redis : Option Nat} {err : Bool}
    (h : Opening zone conf c new result redis err) :
    ∃ r hostname port timeout err rest, new = .connect zone r hostname port timeout err :: rest ∧
      (r = none ∨ r = some c) ∧ ∀ e ∈ rest, e.Keeps c := by
  cases h <;> refine ⟨_, _, _, _, _, _, rfl, by simp, by simp [Event.Keeps]⟩

/-- **While a connection is opened**, at most that one is added; afterwards it is there if the
context keeps it. -/
theorem Opening.opens {result redis : Option Nat} {err : Bool}
    (h : Opening zone conf c new result redis err) (hfresh : ∀ e ∈ opened, e.2 ≠ c) :
    (∀ t, t <+: new → t.foldl Event.opens opened = opened ∨
      t.foldl Event.opens opened = (zone, c) :: opened) ∧
    new.foldl Event.opens opened = if redis = some c then (zone, c) :: opened else opened := by
  constructor
  · intro t ht
    obtain ⟨r, hostname, port, timeout, err, rest, rfl, hr, hrest⟩ := h.keeps
    rcases List.prefix_cons_iff.mp ht with rfl | ⟨t', rfl, ht'⟩
    · exact Or.inl rfl
    · have hkeeps := foldl_opens_of_keeps zone hfresh fun e he ↦ hrest e (ht'.subset he)
      rcases hr with rfl | rfl
      · exact Or.inl hkeeps.1
      · exact hkeeps.2
  · have hne : ∀ p d, (p, d) ∈ opened → ¬ d = c := fun p d hd ↦ hfresh (p, d) hd
    cases h <;> simp [Event.opens] <;> exact hne

theorem Sending.opens {err : Bool} (h : Sending c cmd new reply err) (opened : List (Ptr × Nat)) :
    ∀ t, t <+: new → t.foldl Event.opens opened = opened := by
  have hquiet : ∀ e ∈ new, e.opens opened = opened := by
    cases h <;> simp [Event.opens]
  intro t ht
  have hsub := ht.subset
  clear ht
  induction t with
  | nil => rfl
  | cons e t ih =>
    rw [List.foldl_cons, hquiet e (hsub List.mem_cons_self)]
    exact ih fun e he ↦ hsub (List.mem_cons_of_mem _ he)

/-- **While a connection is opened and used**: what is sent afterwards changes nothing. -/
theorem Opening.opens_append {result redis : Option Nat} {err : Bool}
    (h : Opening zone conf c new result redis err) (hfresh : ∀ e ∈ opened, e.2 ≠ c)
    {new' : List Event} (hsend : ∀ opened t, t <+: new' → t.foldl Event.opens opened = opened) :
    (∀ t, t <+: new ++ new' → t.foldl Event.opens opened = opened ∨
      t.foldl Event.opens opened = (zone, c) :: opened) ∧
    (new ++ new').foldl Event.opens opened =
      if redis = some c then (zone, c) :: opened else opened := by
  obtain ⟨hmoments, hend⟩ := h.opens hfresh
  constructor
  · intro t ht
    rcases List.prefix_or_prefix_of_prefix ht (List.prefix_append new new') with htn | ⟨t', rfl⟩
    · exact hmoments t htn
    · rw [List.foldl_append, hsend _ t' ((List.prefix_append_right_inj new).mp ht)]
      exact hmoments new (List.prefix_refl new)
  · rw [List.foldl_append, hsend _ new' (List.prefix_refl new'), hend]

/-! ## The invariant -/

/-- The open connections are those the contexts refer to. -/
structure Tracked (s : Pool σ) : Prop where
  sane : s.Sane
  opened : ∀ p c, (p, c) ∈ openConnections s.trace ↔ ∃ a ∈ s.cleanup, s.ctx a = ⟨p, some c⟩

theorem tracked_new (world : σ) : Tracked (Pool.new world) :=
  ⟨sane_new world, fun p c ↦ by simp [Pool.new, openConnections]⟩

theorem Tracked.lt_next (h : Tracked s) {e : Ptr × Nat} (he : e ∈ openConnections s.trace) :
    e.2 < s.next := by
  obtain ⟨a, ha, hctx⟩ := (h.opened e.1 e.2).mp he
  exact h.sane.redis_lt a ha e.2 (by rw [hctx])

/-- Contexts without a connection may come and go. -/
theorem Tracked.congr (h : Tracked s) (hs' : s'.Sane) (htrace : s'.trace = s.trace)
    (hctx : ∀ a ∈ s.cleanup, a ∈ s'.cleanup ∧ s'.ctx a = s.ctx a)
    (hnew : ∀ a ∈ s'.cleanup, a ∈ s.cleanup ∨ (s'.ctx a).redis = none) : Tracked s' := by
  refine ⟨hs', fun p c ↦ ?_⟩
  rw [htrace, h.opened]
  constructor
  · rintro ⟨a, ha, hpc⟩
    exact ⟨a, (hctx a ha).1, (hctx a ha).2.trans hpc⟩
  · rintro ⟨a, ha, hpc⟩
    rcases hnew a ha with ha | hnone
    · exact ⟨a, ha, (hctx a ha).2.symm.trans hpc⟩
    · rw [hpc] at hnone
      cases hnone

theorem Tracked.found (h : Tracked s) (hfound : Found zone s s₁ a) : Tracked s₁ := by
  obtain ⟨hs₁, -, -, htrace, -, -, hctx, hmem⟩ := hfound.spec h.sane
  refine h.congr hs₁ htrace hctx fun b hb ↦ ?_
  rcases hfound with ⟨ha, -, rfl⟩ | ⟨-, rfl, rfl⟩
  · exact Or.inl hb
  · rcases hmem b hb with rfl | hb
    · right
      rw [register_ctx_self]
    · exact Or.inl hb

theorem Tracked.ctx_iff (h : Tracked s) (ha : a ∈ s.cleanup) (hnone : (s.ctx a).redis = none)
    (hext : Extends s s' a c new) (p : Ptr) (d : Nat) :
    (∃ b ∈ s.cleanup, s'.ctx b = ⟨p, some d⟩) ↔
      s'.ctx a = ⟨p, some d⟩ ∨ (p, d) ∈ openConnections s.trace := by
  rw [h.opened]
  constructor
  · rintro ⟨b, hb, hctx⟩
    by_cases hba : b = a
    · exact Or.inl (hba ▸ hctx)
    · exact Or.inr ⟨b, hb, (hext.ctx b hba).symm.trans hctx⟩
  · rintro (hctx | ⟨b, hb, hctx⟩)
    · exact ⟨a, ha, hctx⟩
    · have hba : b ≠ a := by
        rintro rfl
        rw [hctx] at hnone
        cases hnone
      exact ⟨b, hb, (hext.ctx b hba).trans hctx⟩

theorem Tracked.not_open (h : Tracked s) (ha : a ∈ s.cleanup) (hzone : (s.ctx a).zone = zone)
    (hnone : (s.ctx a).redis = none) {e : Ptr × Nat} (he : e ∈ openConnections s.trace) :
    e.1 ≠ zone := by
  intro hez
  obtain ⟨b, hb, hctx⟩ := (h.opened e.1 e.2).mp he
  rw [h.sane.zone_inj b hb a ha (by rw [hctx, hzone, hez])] at hctx
  rw [hctx] at hnone
  cases hnone

theorem Tracked.opening {new' : List Event} {result : Option Nat} {err : Bool} (h : Tracked s)
    (ha : a ∈ s.cleanup) (hzone : (s.ctx a).zone = zone) (hnone : (s.ctx a).redis = none)
    (hext : Extends s s' a s.next (new ++ new'))
    (hopen : Opening zone conf s.next new result (s'.ctx a).redis err)
    (hsend : ∀ opened t, t <+: new' → t.foldl Event.opens opened = opened) (hs' : s'.Sane) :
    (∀ t, t <+: new ++ new' → openConnections (s.trace ++ t) = openConnections s.trace ∨
      (∀ e ∈ openConnections s.trace, e.1 ≠ zone) ∧
        ∃ c, openConnections (s.trace ++ t) = (zone, c) :: openConnections s.trace) ∧
    Tracked s' := by
  obtain ⟨hmoments, hend⟩ := hopen.opens_append (fun e he ↦ Nat.ne_of_lt (h.lt_next he)) hsend
  refine ⟨fun t ht ↦ ?_, hs', fun p c ↦ ?_⟩
  · rw [openConnections_append]
    rcases hmoments t ht with hsame | hmore
    · exact Or.inl hsame
    · exact Or.inr ⟨fun e he ↦ h.not_open ha hzone hnone he, s.next, hmore⟩
  · have hctx : s'.ctx a = ⟨zone, (s'.ctx a).redis⟩ := by
      rw [← hzone, ← hext.zone]
    rw [hext.trace, openConnections_append, hend, hext.cleanup, h.ctx_iff ha hnone hext, hctx]
    rcases hopen.redis_eq with hredis | hredis
    · simp [hredis]
    · simp [hredis, eq_comm]

/-- **What an access does to the open connections**: at any moment of it, there is at most one more,
for the zone that is accessed, which had none. -/
theorem Access.opens (h : Access hiredis zone conf cmd s s' new reply) (hs : Tracked s) :
    (∀ t, t <+: new → openConnections (s.trace ++ t) = openConnections s.trace ∨
      (∀ e ∈ openConnections s.trace, e.1 ≠ zone) ∧
        ∃ c, openConnections (s.trace ++ t) = (zone, c) :: openConnections s.trace) ∧
    Tracked s' := by
  have hs' := h.sane hs.sane
  have hnil : ∀ t, t <+: [] → openConnections (s.trace ++ t) = openConnections s.trace := by
    intro t ht
    rw [List.prefix_nil.mp ht, List.append_nil]
  cases h with
  | noContext _ heq =>
    refine ⟨fun t ht ↦ Or.inl (hnil t ht), ?_⟩
    rcases heq with rfl | rfl
    · exact hs
    · exact hs.congr hs' rfl (fun b hb ↦ ⟨hb, abandon_ctx_of_mem hs.sane zone hb⟩)
        fun b hb ↦ Or.inl hb
  | stuck _ _ _ _ _ _ heq => exact ⟨fun t ht ↦ Or.inl (hnil t ht), heq ▸ hs⟩
  | reused a c _ _ _ _ _ _ hext hctx hsend =>
    have hquiet : ∀ t, t <+: new → openConnections (s.trace ++ t) = openConnections s.trace := by
      intro t ht
      rw [openConnections_append, hsend.opens _ t ht]
    refine ⟨fun t ht ↦ Or.inl (hquiet t ht), hs', fun p c ↦ ?_⟩
    rw [hext.trace, hquiet new (List.prefix_refl new), hext.cleanup, hctx]
    exact hs.opened p c
  | failed s₁ a _ hfound hnone hext hopen =>
    obtain ⟨-, ha, hzone, htrace, -⟩ := hfound.spec hs.sane
    rw [← htrace, ← List.append_nil new]
    exact (hs.found hfound).opening ha hzone hnone (by rwa [List.append_nil]) hopen
      (fun opened t ht ↦ by rw [List.prefix_nil.mp ht]; rfl) hs'
  | opened s₁ a new₁ new' _ _ hfound hnone hext hopen hredis _ hsend =>
    obtain ⟨-, ha, hzone, htrace, -⟩ := hfound.spec hs.sane
    rw [← htrace]
    rw [← hredis] at hopen
    exact (hs.found hfound).opening ha hzone hnone hext hopen (fun opened ↦ hsend.opens opened) hs'

end

/-! ## Within one request -/

section

variable {w : Nat} {σ : Type} {env : StoreEnv w σ} {Z : Ptr → Prop}

/-- At every moment up to now, the open connections were for different records, of these. -/
structure OnePerRecord (Z : Ptr → Prop) (s : Pool σ) : Prop where
  tracked : Tracked s
  moments : ∀ t, t <+: s.trace →
    ((openConnections t).map Prod.fst).Nodup ∧ ∀ e ∈ openConnections t, Z e.1

theorem onePerRecord_new (Z : Ptr → Prop) (world : σ) : OnePerRecord Z (Pool.new world) := by
  refine ⟨tracked_new world, fun t ht ↦ ?_⟩
  rw [List.prefix_nil.mp ht]
  exact ⟨List.nodup_nil, fun e he ↦ by cases he⟩

/-- **Every call keeps it.** -/
theorem OnePerRecord.step (s : StoreState w σ) (call : StoreCall w) (h : OnePerRecord Z s.pool)
    (hcall : ∀ p, call.zone = some p → (env.zones p).store = some .redis → Z p) :
    OnePerRecord Z (storeStep env s call).2.pool := by
  rcases storeStep_pool_cases h.tracked.sane call with heq | ⟨p, new, reply, hzone, hstore, haccess⟩
  · exact heq ▸ h
  · obtain ⟨hmoments, htracked⟩ := haccess.opens h.tracked
    refine ⟨htracked, fun t ht ↦ ?_⟩
    rw [haccess.trace h.tracked.sane] at ht
    obtain ⟨hnodup, hZ⟩ := h.moments s.pool.trace (List.prefix_refl _)
    -- the moment is one before the access or one of it
    rcases List.prefix_or_prefix_of_prefix ht (List.prefix_append s.pool.trace new) with
      hbefore | ⟨t', rfl⟩
    · exact h.moments t hbefore
    · rcases hmoments t' ((List.prefix_append_right_inj _).mp ht) with hsame | ⟨hother, c, hmore⟩
      · rw [hsame]
        exact ⟨hnodup, hZ⟩
      · rw [hmore, List.map_cons, List.nodup_cons]
        refine ⟨⟨fun hmem ↦ ?_, hnodup⟩, fun e he ↦ ?_⟩
        · obtain ⟨e, he, hep⟩ := List.mem_map.mp hmem
          exact hother e he hep
        · rcases List.mem_cons.mp he with rfl | he
          · exact hcall p hzone hstore
          · exact hZ e he

theorem Tracked.storeStep {s : StoreState w σ} (h : Tracked s.pool) (call : StoreCall w)
    {e : Ptr × Nat} (he : e ∈ openConnections s.pool.trace) :
    e ∈ openConnections (NgxKeyval.storeStep env s call).2.pool.trace := by
  rcases storeStep_pool_cases h.sane call with heq | ⟨p, new, reply, -, -, haccess⟩
  · exact heq ▸ he
  · rw [haccess.trace h.sane]
    rcases (haccess.opens h).1 new (List.prefix_refl new) with hsame | ⟨-, c, hmore⟩
    · rw [hsame]
      exact he
    · rw [hmore]
      exact List.mem_cons_of_mem _ he

/-- **Throughout a request**, no record has two open connections. -/
theorem onePerRecord_run (env : StoreEnv w σ) (Z : Ptr → Prop) (shm : Nat → ShmZone w) (world : σ)
    {calls : List (StoreCall w)}
    (hcalls : ∀ call ∈ calls, ∀ p, call.zone = some p → (env.zones p).store = some .redis → Z p) :
    OnePerRecord Z (Machine.final (storeStep env) ⟨shm, .new world⟩ calls).pool :=
  Machine.final_induction
    (fun _ (call : StoreCall w) ↦ ∀ p, call.zone = some p → (env.zones p).store = some .redis → Z p)
    (P := fun s : StoreState w σ ↦ OnePerRecord Z s.pool) OnePerRecord.step
    (onePerRecord_new Z world) (Machine.meets_of_forall fun _ ↦ hcalls)

end

end NgxKeyval
