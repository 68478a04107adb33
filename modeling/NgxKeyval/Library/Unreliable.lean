import NgxKeyval.Library.Last

/-!
# Memory that may fail

Somebody writes to a memory that need not do as it is told.  A write may be lost; it may be done
although it seems to have failed; and it may be done late, when others have been made since.  What
can be said of such a memory is what it may have *bound*, and which writes may still be *late*.

* `Memory.Settles` is what it may do by itself, and `Memory.Writes` what it may do with a write.
* A write is confirmed if it is known to have been done.  `Credible` says that something was written
  and not confirmed, or confirmed and then nothing else confirmed for this key.
* `Holds.settles` and `Holds.writes` — as long as the memory does nothing else, all that it has
  bound is credible.

Some keys may be *prompt*: a write to them is never late, and leaves nothing if it is not confirmed.
What is bound to them was written last.
-/

set_option autoImplicit false

namespace Unreliable

universe u v w

variable {κ : Type u} {β : Type v} {ε : Type w}

/-- What a memory may have bound, and what may still be on its way there. -/
structure Memory (κ : Type u) (β : Type v) where
  bound : κ → β → Prop
  late : κ → β → Prop

/-- A write that was made. -/
structure Attempt (κ : Type u) (β : Type v) where
  key : κ
  val : β
  confirmed : Bool

namespace Memory

/-- A memory may forget, and may do what is late. -/
structure Settles (m m' : Memory κ β) : Prop where
  bound : ∀ {k b}, m'.bound k b → m.bound k b ∨ m.late k b
  late : ∀ {k b}, m'.late k b → m.late k b

/-- What may be done with a write.  If it is confirmed, it has taken the place of what was bound
before, and is not late. -/
structure Writes (prompt : κ → Prop) (m m' : Memory κ β) (a : Attempt κ β) : Prop where
  bound : ∀ {k b}, m'.bound k b → k = a.key ∧ b = a.val ∨ m.bound k b ∨ m.late k b
  late : ∀ {k b}, m'.late k b →
    (k = a.key ∧ b = a.val ∧ a.confirmed = false ∧ ¬ prompt k) ∨ m.late k b
  replaces : a.confirmed = true → ∀ {b}, m'.bound a.key b → b = a.val ∨ m.late a.key b
  fails : prompt a.key → a.confirmed = false → ∀ {b}, ¬ m'.bound a.key b

variable {m m' m'' : Memory κ β} {prompt : κ → Prop} {a : Attempt κ β}

theorem Settles.refl (m : Memory κ β) : m.Settles m := ⟨.inl, id⟩

theorem Settles.found (h : m.Settles m') {k : κ} {b : β} (hb : m'.bound k b ∨ m'.late k b) :
    m.bound k b ∨ m.late k b :=
  hb.elim h.bound fun hl ↦ .inr (h.late hl)

theorem Settles.trans (h : m.Settles m') (h' : m'.Settles m'') : m.Settles m'' where
  bound hb := h.found (h'.bound hb)
  late hl := h.late (h'.late hl)

/-- A memory may settle before it is written to. -/
theorem Settles.writes (h : m.Settles m') (h' : m'.Writes prompt m'' a) :
    m.Writes prompt m'' a where
  bound hb := (h'.bound hb).imp id h.found
  late hl := (h'.late hl).imp id h.late
  replaces hc _ hb := (h'.replaces hc hb).imp id h.late
  fails := h'.fails

/-- A write that is not even made is not confirmed. -/
theorem Settles.unwritten (h : m.Settles m') {key : κ} (hkey : ¬ prompt key) (val : β) :
    m.Writes prompt m' ⟨key, val, false⟩ where
  bound hb := .inr (h.bound hb)
  late hl := .inr (h.late hl)
  replaces hc := absurd hc Bool.false_ne_true
  fails hp := absurd hp hkey

end Memory

/-! ## What is credible -/

section

variable (attempt : ε → Option (Attempt κ β)) (prompt : κ → Prop)

/-- The event is a write of this key. -/
def WritesTo (key : κ) (e : ε) : Prop := ∃ val confirmed, attempt e = some ⟨key, val, confirmed⟩

/-- The event is a write of this key, and confirmed. -/
def Confirms (key : κ) (e : ε) : Prop := ∃ val, attempt e = some ⟨key, val, true⟩

/-- It was written, and not confirmed. -/
def Tried (es : List ε) (key : κ) (val : β) : Prop :=
  Last (fun _ e ↦ attempt e = some ⟨key, val, false⟩) (fun _ ↦ True) es

/-- It was written and confirmed, and nothing was confirmed since. -/
def LastConfirmed (es : List ε) (key : κ) (val : β) : Prop :=
  Last (fun _ e ↦ attempt e = some ⟨key, val, true⟩) (fun e ↦ ¬ Confirms attempt key e) es

/-- It was written and confirmed, and nothing was written since. -/
def LastWritten (es : List ε) (key : κ) (val : β) : Prop :=
  Last (fun _ e ↦ attempt e = some ⟨key, val, true⟩) (fun e ↦ ¬ WritesTo attempt key e) es

/-- Whoever has seen these events is not surprised to find this. -/
def Credible (es : List ε) (key : κ) (val : β) : Prop :=
  LastWritten attempt es key val ∨
    ¬ prompt key ∧ (Tried attempt es key val ∨ LastConfirmed attempt es key val)

/-- All that a memory has bound is credible, and all that is late was tried. -/
structure Holds (m : Memory κ β) (es : List ε) : Prop where
  bound : ∀ {k b}, m.bound k b → Credible attempt prompt es k b
  late : ∀ {k b}, m.late k b → ¬ prompt k ∧ Tried attempt es k b

end

section

variable {attempt : ε → Option (Attempt κ β)} {prompt : κ → Prop} {es : List ε} {e : ε} {key k : κ}
  {val b : β} {a : Attempt κ β} {m m' : Memory κ β}

theorem Confirms.writesTo (h : Confirms attempt key e) : WritesTo attempt key e :=
  ⟨h.choose, true, h.choose_spec⟩

theorem LastWritten.lastConfirmed (h : LastWritten attempt es key val) :
    LastConfirmed attempt es key val := by
  obtain ⟨pre, e, post, heq, he, hpost⟩ := h
  exact ⟨pre, e, post, heq, he, fun e' he' hc ↦ hpost e' he' hc.writesTo⟩

theorem Tried.snoc (h : Tried attempt es key val) (e : ε) : Tried attempt (es ++ [e]) key val :=
  last_snoc.mpr (.inr ⟨h, trivial⟩)

theorem credible_iff (h : ¬ prompt key) : Credible attempt prompt es key val ↔
    Tried attempt es key val ∨ LastConfirmed attempt es key val :=
  ⟨fun hc ↦ hc.elim (fun hw ↦ .inr hw.lastConfirmed) And.right, fun hc ↦ .inr ⟨h, hc⟩⟩

/-- What is credible stays so if its key is not written to. -/
theorem Credible.snoc (h : Credible attempt prompt es k b) (he : ¬ WritesTo attempt k e) :
    Credible attempt prompt (es ++ [e]) k b := by
  rcases h with hw | ⟨hk, ht | hc⟩
  · exact .inl (last_snoc.mpr (.inr ⟨hw, he⟩))
  · exact .inr ⟨hk, .inl (ht.snoc e)⟩
  · exact .inr ⟨hk, .inr (last_snoc.mpr (.inr ⟨hc, fun h ↦ he h.writesTo⟩))⟩

theorem credible_write (he : attempt e = some ⟨key, val, a.confirmed⟩)
    (hfails : prompt key → a.confirmed ≠ false) : Credible attempt prompt (es ++ [e]) key val := by
  rcases hc : a.confirmed with _ | _
  · rw [hc] at he
    exact .inr ⟨fun hk ↦ hfails hk hc, .inl (last_snoc.mpr (.inl he))⟩
  · rw [hc] at he
    exact .inl (last_snoc.mpr (.inl he))

/-- What is late is credible, when it is done. -/
theorem Holds.credible (h : Holds attempt prompt m es) (hb : m.bound k b ∨ m.late k b) :
    Credible attempt prompt es k b :=
  hb.elim h.bound fun hl ↦ .inr ⟨(h.late hl).1, .inl (h.late hl).2⟩

theorem Holds.settles (h : Holds attempt prompt m es) (hm : m.Settles m') :
    Holds attempt prompt m' es :=
  ⟨fun hb ↦ h.credible (hm.bound hb), fun hl ↦ h.late (hm.late hl)⟩

theorem Holds.snoc (h : Holds attempt prompt m es) (he : attempt e = none) :
    Holds attempt prompt m (es ++ [e]) where
  bound hb := (h.bound hb).snoc fun ⟨_, _, hw⟩ ↦ Option.some_ne_none _ (hw.symm.trans he)
  late hl := ⟨(h.late hl).1, (h.late hl).2.snoc e⟩

/-- **A write** leaves no surprise. -/
theorem Holds.writes (h : Holds attempt prompt m es) (he : attempt e = some a)
    (hm : m.Writes prompt m' a) : Holds attempt prompt m' (es ++ [e]) where
  late hl := by
    rcases hm.late hl with ⟨rfl, rfl, hconfirmed, hk⟩ | hl
    · exact ⟨hk, last_snoc.mpr (.inl (he.trans (by rw [← hconfirmed])))⟩
    · exact ⟨(h.late hl).1, (h.late hl).2.snoc e⟩
  bound {k b} hb := by
    have hlate : m.late k b → Credible attempt prompt (es ++ [e]) k b := fun hl ↦
      .inr ⟨(h.late hl).1, .inl ((h.late hl).2.snoc e)⟩
    by_cases hk : k = a.key
    · subst hk
      have hthis : b = a.val → Credible attempt prompt (es ++ [e]) a.key b := by
        rintro rfl
        exact credible_write he fun hprompt hc ↦ hm.fails hprompt hc hb
      rcases hc : a.confirmed with _ | _
      · -- what was bound before may still be, unless the key is prompt
        have hnot : ¬ prompt a.key := fun hprompt ↦ hm.fails hprompt hc hb
        rcases hm.bound hb with ⟨-, heq⟩ | hb | hl
        · exact hthis heq
        · rw [credible_iff hnot]
          refine ((credible_iff hnot).mp (h.bound hb)).imp (·.snoc e) fun hlast ↦ ?_
          refine last_snoc.mpr (.inr ⟨hlast, ?_⟩)
          rintro ⟨val, hval⟩
          have heq := congrArg Attempt.confirmed (Option.some.inj (he.symm.trans hval))
          exact Bool.false_ne_true (hc.symm.trans heq)
        · exact hlate hl
      · exact (hm.replaces hc hb).elim hthis hlate
    · rcases hm.bound hb with ⟨heq, -⟩ | hb | hl
      · exact absurd heq hk
      · refine (h.bound hb).snoc ?_
        rintro ⟨val, confirmed, hval⟩
        exact hk (congrArg Attempt.key (Option.some.inj (he.symm.trans hval))).symm
      · exact hlate hl

end

end Unreliable
