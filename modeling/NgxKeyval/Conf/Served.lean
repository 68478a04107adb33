import NgxKeyval.Conf.PlainConf
import NgxKeyval.Conf.Records
import NgxKeyval.Store.Entry

/-!
# What requests find of a configuration

`NgxKeyval.Conf.Records` follows the addresses; this file says what follows for the variables of a
module, once the configuration has been read.

* `Decl.At.entry_eq` and `Decl.At.entry_ne` — the zone name and the key decide where a value is
  kept.
* `keyval_uses_declared_zone` — every variable has its own directive's key and the zone its
  directive names, so that two variables share an entry when the zones and the keys are the same,
  and never across different shared memory zones.
-/

set_option autoImplicit false

namespace NgxKeyval

/-- What the requests of a module read: its zone records, and the segments. -/
def Cycle.env {w : Nat} {σ : Type} (c : Cycle) (tag : Tag) (core : NgxCore w)
    (hiredis : Hiredis σ) : StoreEnv w σ where
  ngx := core
  hiredis := hiredis
  shared := c.shared
  zones p := (c.conf tag).zones.elim junkZone (·.mem p)

section

variable {ngx : NgxConf} {c : Cycle} {tag : Tag} {d d₁ d₂ : Decl} {q q₁ q₂ : Ptr}
  {zs : GrowArray Zone}

theorem Decl.At.describes_env {w : Nat} {σ : Type} (h : d.At c tag q) (core : NgxCore w)
    (hiredis : Hiredis σ) : d.Describes ((c.env tag core hiredis).zones q) := by
  obtain ⟨zs, hzs, -, hdesc, -⟩ := h
  rw [Cycle.env]
  simp only [hzs, Option.elim_some]
  exact hdesc

theorem Decl.At.entry_eq (h₁ : d.At c tag q₁) (h₂ : d.At c tag q₂)
    (hzs : (c.conf tag).zones = some zs) (key : Bytes) :
    (zs.mem q₁).entry key = (zs.mem q₂).entry key := by
  obtain ⟨zs₁, hzs₁, -, hdesc₁, hseg₁⟩ := h₁
  obtain ⟨zs₂, hzs₂, -, hdesc₂, hseg₂⟩ := h₂
  obtain rfl := Option.some.inj (hzs.symm.trans hzs₁)
  obtain rfl := Option.some.inj (hzs.symm.trans hzs₂)
  rw [Zone.entry, Zone.entry, hdesc₁.store, hdesc₂.store]
  cases hty : d.type with
  | shm =>
    obtain ⟨i, hshm₁, hi⟩ := hseg₁ hty
    obtain ⟨j, hshm₂, hj⟩ := hseg₂ hty
    obtain rfl := Option.some.inj (hi.symm.trans hj)
    simp only [ZoneType.ops, hshm₁, hshm₂]
  | redis =>
    simp only [ZoneType.ops, hdesc₁.redis hty, hdesc₂.redis hty, hdesc₁.name, hdesc₂.name]

theorem Decl.At.entry_ne (h₁ : d₁.At c tag q₁) (h₂ : d₂.At c tag q₂)
    (hzs : (c.conf tag).zones = some zs) (hty₁ : d₁.type = .shm) (hty₂ : d₂.type = .shm)
    (hname : d₁.name ≠ d₂.name) (key₁ key₂ : Bytes) :
    (zs.mem q₁).entry key₁ ≠ (zs.mem q₂).entry key₂ := by
  obtain ⟨zs₁, hzs₁, -, hdesc₁, hseg₁⟩ := h₁
  obtain ⟨zs₂, hzs₂, -, hdesc₂, hseg₂⟩ := h₂
  obtain rfl := Option.some.inj (hzs.symm.trans hzs₁)
  obtain rfl := Option.some.inj (hzs.symm.trans hzs₂)
  obtain ⟨i, hshm₁, hi⟩ := hseg₁ hty₁
  obtain ⟨j, hshm₂, hj⟩ := hseg₂ hty₂
  rw [Zone.entry, Zone.entry, hdesc₁.store, hdesc₂.store, hty₁, hty₂]
  simp only [ZoneType.ops, hshm₁, hshm₂, Option.map_some]
  intro he
  obtain ⟨rfl, -⟩ := Entry.shm.inj (Option.some.inj he)
  -- one segment has one name
  obtain ⟨_, hseg, -⟩ := List.findIdx?_eq_some_iff_getElem.mp hi
  obtain ⟨_, hseg', -⟩ := List.findIdx?_eq_some_iff_getElem.mp hj
  exact hname ((of_decide_eq_true hseg).symm.trans (of_decide_eq_true hseg'))

/-- **Every variable uses the zone its directive names.**  In every accepted configuration, nginx is
handed, for each `keyval` directive of a module, an address through which requests find its compiled
key and, through one more address, the zone declared under the name it gave; nginx still has it at
the end, unless a later directive defines the same nginx variable.  So any two variables with one
zone name keep the same keys in the same entries, and those of different shared memory zones have
none in common. -/
theorem keyval_uses_declared_zone (hlaw : ngx.Lawful) {shared : Segments}
    {ds : List (Tag × Directive)} (hacc : Accepted ngx (.init shared) ds) (tag : Tag) :
    let c := readConf ngx (.init shared) ds
    (∀ pre k post, ds = pre ++ (tag, .keyval k) :: post → ∃ n p q d, k.slot = some n ∧
      (readConf ngx (.init shared) (pre ++ [(tag, .keyval k)])).data tag n = some p ∧
      ((∀ e ∈ post, e.1 = tag → e.2.slot ≠ some n) → c.data tag n = some p) ∧
      Served ngx ds c tag k p q d) ∧
    ∀ k₁ p₁ q₁ d₁ k₂ p₂ q₂ d₂ zs, Served ngx ds c tag k₁ p₁ q₁ d₁ →
      Served ngx ds c tag k₂ p₂ q₂ d₂ → (c.conf tag).zones = some zs →
      (k₁.zoneName = k₂.zoneName → ∀ key, (zs.mem q₁).entry key = (zs.mem q₂).entry key) ∧
      (d₁.type = .shm → d₂.type = .shm → k₁.zoneName ≠ k₂.zoneName →
        ∀ key₁ key₂, (zs.mem q₁).entry key₁ ≠ (zs.mem q₂).entry key₂) := by
  intro c
  constructor
  · rintro pre k post rfl
    obtain ⟨n, p, q, d, hslot, hdata, hserved⟩ := served_of_accepted hlaw hacc
    refine ⟨n, p, q, d, hslot, hdata, fun hlater ↦ ?_, hserved⟩
    have hsplit : pre ++ (tag, .keyval k) :: post = (pre ++ [(tag, .keyval k)]) ++ post := by simp
    have hacc' := hacc
    rw [hsplit] at hacc'
    obtain ⟨-, hpost⟩ := Machine.meets_append.mp hacc'
    show (readConf ngx (.init shared) (pre ++ (tag, .keyval k) :: post)).data tag n = some p
    rw [hsplit, readConf, Machine.final_append, ← hdata]
    exact data_run hpost hlater
  · intro k₁ p₁ q₁ d₁ k₂ p₂ q₂ d₂ zs h₁ h₂ hzs
    refine ⟨fun hname key ↦ ?_, fun hty₁ hty₂ hname key₁ key₂ ↦ ?_⟩
    · have hd : d₂ = d₁ := h₁.unique d₂ h₂.declared (h₂.name.trans hname.symm)
      exact h₁.zone_at.entry_eq (hd ▸ h₂.zone_at) hzs key
    · refine h₁.zone_at.entry_ne h₂.zone_at hzs hty₁ hty₂ ?_ key₁ key₂
      rw [h₁.name, h₂.name]
      exact hname

end

/-- A `keyval` directive with enough memory, for the nginx variable `slot`. -/
def plainKeyval (key var zone : String) (slot : Nat) (push : PushOutcome) : Keyval where
  key := lit key
  var := lit var
  zone := lit zone
  getIndex := fun _ _ ↦ none
  slot := some slot
  alloc := .plain push

/-- Zones and variables in turn, in arrays that move whenever they are full. -/
def inTurn : List (Tag × Directive) :=
  [(.http, .zoneRedis (lit "zone=a") [lit "port=7000"] (.plain .move)),
    (.http, .keyval (plainKeyval "k" "$v" "zone=a" 0 .move)),
    (.http, .zone (lit "zone=b:65536") [] (.plain .move)),
    (.http, .keyval (plainKeyval "k" "$u" "zone=b" 1 .move)),
    (.http, .zone (lit "zone=c:65536") [lit "ttl=60"] (.plain .move))]

theorem inTurn_accepted : Accepted plainConf (.init []) inTurn :=
  ⟨by decide, by decide, by decide, by decide, by decide, trivial⟩

/-- The first variable, whose zone record is a stale copy by then. -/
theorem keyval_uses_declared_zone_inTurn :
    ∃ p q d, (readConf plainConf (.init []) inTurn).data .http 0 = some p ∧
      Served plainConf inTurn (readConf plainConf (.init []) inTurn) .http
        (plainKeyval "k" "$v" "zone=a" 0 .move) p q d := by
  obtain ⟨n, p, q, d, hslot, -, hdata, hserved⟩ :=
    (keyval_uses_declared_zone plainConf_lawful inTurn_accepted .http).1
      [(.http, .zoneRedis (lit "zone=a") [lit "port=7000"] (.plain .move))]
      (plainKeyval "k" "$v" "zone=a" 0 .move) _ rfl
  obtain rfl := Option.some.inj hslot
  refine ⟨p, q, d, hdata ?_, hserved⟩
  intro e he _
  simp only [List.mem_cons, List.not_mem_nil, or_false] at he
  rcases he with rfl | rfl | rfl <;> decide

end NgxKeyval
