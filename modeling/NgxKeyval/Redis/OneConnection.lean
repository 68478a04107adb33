import NgxKeyval.Conf.Captured
import NgxKeyval.Conf.Served
import NgxKeyval.Redis.Connections
import NgxKeyval.Redis.Working

/-!
# One connection for each zone

A request finds the connection of a zone by the address of the zone record, and each variable has an
address of its own.  So the connections of a request are one for each address, and one for each zone
if no two variables of a zone have different addresses.

* `one_connection_iff` — in every request of a configuration, no zone has two open connections,
  exactly when the zones array stays put between the directives of its Redis variables.
-/

set_option autoImplicit false

namespace NgxKeyval

section

variable {w : Nat} {ngx : NgxConf} {shared : Segments} {ds : List (Tag × Directive)} {tag : Tag}

/-- A read of the empty key. -/
def readEmpty (q : Ptr) : StoreCall w := .get (some q) [] 0 .enough

theorem opened_of_reads (env : StoreEnv w Server) (henv : env.hiredis = serverHiredis) {q₁ q₂ : Ptr}
    (h₁ : (env.zones q₁).store = some .redis) (h₂ : (env.zones q₂).store = some .redis)
    (shm : Nat → ShmZone w) (server : Server) :
    let s := Machine.final (storeStep env) ⟨shm, .new server⟩ [readEmpty q₁, readEmpty q₂]
    ∃ c₁ c₂, (q₁, c₁) ∈ openConnections s.pool.trace ∧ (q₂, c₂) ∈ openConnections s.pool.trace := by
  intro s
  have htracked : ∀ calls : List (StoreCall w),
      Tracked (Machine.final (storeStep env) ⟨shm, .new server⟩ calls).pool :=
    fun _ ↦ (onePerRecord_run env (fun _ ↦ True) shm server fun _ _ _ _ _ ↦ trivial).tracked
  obtain ⟨c₁, -, -, -, -, hlinked, a, ha, hctx⟩ := storeStep_server (s := ⟨shm, .new server⟩) henv
    (linked_new _ server) h₁ (readEmpty q₁) rfl rfl
  obtain ⟨c₂, -, -, -, -, -, b, hb, hctx'⟩ :=
    storeStep_server henv hlinked h₂ (readEmpty q₂) rfl rfl
  exact ⟨c₁, c₂,
    (htracked [readEmpty q₁]).storeStep _
      (((htracked [readEmpty q₁]).opened q₁ c₁).mpr ⟨a, ha, hctx⟩),
    ((htracked [readEmpty q₁, readEmpty q₂]).opened q₂ c₂).mpr ⟨b, hb, hctx'⟩⟩

/-- Two records of one Redis zone that variables refer to, if they are read one after the other and
lead to one connection, are the same. -/
theorem eq_of_reads {c : Cycle} (core : NgxCore w) {q₁ q₂ : Ptr} {d : Decl}
    (htype : d.type = .redis) (hat₁ : d.At c tag q₁) (hat₂ : d.At c tag q₂)
    (shm : Nat → ShmZone w) (server : Server)
    (hnodup : ((openConnections (Machine.final (storeStep (c.env tag core serverHiredis))
      ⟨shm, .new server⟩ [readEmpty q₁, readEmpty q₂]).pool.trace).map fun e ↦
        ((c.env tag core serverHiredis).zones e.1).name).Nodup) : q₁ = q₂ := by
  have hdesc₁ := hat₁.describes_env core serverHiredis
  have hdesc₂ := hat₂.describes_env core serverHiredis
  have hredis : some d.type.ops = some StoreOps.redis := by rw [htype]; rfl
  obtain ⟨c₁, c₂, hc₁, hc₂⟩ := opened_of_reads (c.env tag core serverHiredis) rfl
    (hdesc₁.store.trans hredis) (hdesc₂.store.trans hredis) shm server
  have heq := List.inj_on_of_nodup_map hnodup hc₁ hc₂ (hdesc₁.name.trans hdesc₂.name.symm)
  exact congrArg Prod.fst heq

theorem decl_eq_of_name (hlaw : ngx.Lawful) (hacc : Accepted ngx (.init shared) ds) {σ : Type}
    (core : NgxCore w) (hiredis : Hiredis σ) {n₁ n₂ : Nat} {q₁ q₂ : Ptr}
    (hq₁ : (readConf ngx (.init shared) ds).zoneOf tag n₁ = some q₁)
    (hq₂ : (readConf ngx (.init shared) ds).zoneOf tag n₂ = some q₂) :
    let env := (readConf ngx (.init shared) ds).env tag core hiredis
    (env.zones q₁).store = some .redis → (env.zones q₁).name = (env.zones q₂).name →
      ∃ d : Decl, d.type = .redis ∧ d.At (readConf ngx (.init shared) ds) tag q₁ ∧
        d.At (readConf ngx (.init shared) ds) tag q₂ := by
  intro env hstore hname
  obtain ⟨_, _, _, _, d₁, -, -, -, hd₁, -, -, hat₁⟩ := captured_of_zoneOf hlaw hacc hq₁
  obtain ⟨_, _, _, _, d₂, -, -, -, hd₂, -, -, hat₂⟩ := captured_of_zoneOf hlaw hacc hq₂
  have hdesc₁ := hat₁.describes_env core hiredis
  have hdesc₂ := hat₂.describes_env core hiredis
  have hd : d₁ = d₂ := unique_of_accepted hlaw hacc (List.mem_of_getElem? hd₁)
    (List.mem_of_getElem? hd₂) (hdesc₁.name.symm.trans (hname.trans hdesc₂.name))
  refine ⟨d₁, ?_, hat₁, hd ▸ hat₂⟩
  have hops := hdesc₁.store.symm.trans hstore
  rcases htype : d₁.type with _ | _
  · rw [htype] at hops
    cases hops
  · rfl

/-- **When each zone has one connection.**  Take an accepted configuration, and any request that
reads and writes through its variables, whatever the client library answers.  At every moment, the
open connections of the request are for zones of different names, exactly when no directive moves
the zones array between two directives of variables with one Redis zone. -/
theorem one_connection_iff (hlaw : ngx.Lawful) (hacc : Accepted ngx (.init shared) ds)
    (core : NgxCore w) :
    let c := readConf ngx (.init shared) ds
    (∀ (σ : Type) (hiredis : Hiredis σ) (shm : Nat → ShmZone w) (world : σ)
      (calls : List (StoreCall w)),
      (∀ call ∈ calls, ∃ n q, c.zoneOf tag n = some q ∧ call.zone = some q) →
      let env := c.env tag core hiredis
      ∀ t, t <+: (Machine.final (storeStep env) ⟨shm, .new world⟩ calls).pool.trace →
        ((openConnections t).map fun e ↦ (env.zones e.1).name).Nodup) ↔
    StaysPut ngx shared ds tag := by
  intro c
  refine Iff.trans ?_ (staysPut_iff hlaw hacc).symm
  constructor
  · intro hone n₁ n₂ q₁ q₂ d htype hq₁ hq₂ hat₁ hat₂
    have hcalls : ∀ call ∈ [readEmpty q₁, readEmpty q₂],
        ∃ n q, c.zoneOf tag n = some q ∧ StoreCall.zone (w := w) call = some q := by
      intro call hcall
      simp only [List.mem_cons, List.not_mem_nil, or_false] at hcall
      rcases hcall with rfl | rfl
      · exact ⟨n₁, q₁, hq₁, rfl⟩
      · exact ⟨n₂, q₂, hq₂, rfl⟩
    exact eq_of_reads core htype hat₁ hat₂ (fun _ ↦ ⟨.leaf, ⟨[], 0, []⟩⟩) .empty
      (hone Server serverHiredis _ .empty _ hcalls _ (List.prefix_refl _))
  · intro hsame σ hiredis shm world calls hcalls env t ht
    -- the connections are for Redis records that variables refer to
    have hrun := (onePerRecord_run env
      (fun q ↦ (∃ n, c.zoneOf tag n = some q) ∧ (env.zones q).store = some .redis) shm world
      fun call hcall p hp hstore ↦ ?_).moments t ht
    · obtain ⟨hnodup, hZ⟩ := hrun
      have hmap : (openConnections t).map (fun e ↦ (env.zones e.1).name) =
          ((openConnections t).map Prod.fst).map fun q ↦ (env.zones q).name := by
        rw [List.map_map]
        rfl
      rw [hmap]
      refine hnodup.map_on fun q₁ hmem₁ q₂ hmem₂ hname ↦ ?_
      obtain ⟨e₁, he₁, rfl⟩ := List.mem_map.mp hmem₁
      obtain ⟨e₂, he₂, rfl⟩ := List.mem_map.mp hmem₂
      obtain ⟨⟨n₁, hq₁⟩, hstore₁⟩ := hZ e₁ he₁
      obtain ⟨⟨n₂, hq₂⟩, -⟩ := hZ e₂ he₂
      obtain ⟨d, htype, hat₁, hat₂⟩ := decl_eq_of_name hlaw hacc core hiredis hq₁ hq₂ hstore₁ hname
      exact hsame n₁ n₂ _ _ d htype hq₁ hq₂ hat₁ hat₂
    · obtain ⟨n, q, hq, hzone⟩ := hcalls call hcall
      obtain rfl := Option.some.inj (hzone.symm.trans hp)
      exact ⟨⟨n, hq⟩, hstore⟩

theorem staysPut_of_inPlace (h : ∀ d ∈ ds, d.2.push ≠ some .move) : StaysPut ngx shared ds tag := by
  rintro pre k₁ mid k₂ post n₁ n₂ rfl - - - - - -
  refine Machine.meets_of_forall fun c d hd hmoves ↦ ?_
  exact h d (by simp [hd]) hmoves.2.1

end

/-- Two variables of the Redis zone `a`, with another zone between them. -/
def zoneBetween (push : PushOutcome) : List (Tag × Directive) :=
  [(.http, .zoneRedis (lit "zone=a") [] (.plain push)),
    (.http, .keyval (plainKeyval "k" "$v" "zone=a" 0 .move)),
    (.http, .zoneRedis (lit "zone=b") [] (.plain push)),
    (.http, .keyval (plainKeyval "k" "$u" "zone=a" 1 .move))]

/-- What the requests of the http module read of it. -/
def zoneBetweenEnv (push : PushOutcome) : StoreEnv 64 Server :=
  (readConf plainConf (.init []) (zoneBetween push)).env .http (plainCore 64) serverHiredis

/-- A request that reads through two records. -/
def twoReads (push : PushOutcome) (q₁ q₂ : Ptr) : StoreState 64 Server :=
  Machine.final (storeStep (zoneBetweenEnv push)) ⟨fun _ ↦ ⟨.leaf, ⟨[], 0, []⟩⟩, .new .empty⟩
    [readEmpty q₁, readEmpty q₂]

/-- The condition at work: an array that grows in place. -/
theorem one_connection_inPlace :
    ((openConnections (twoReads .inPlace ⟨0, 0⟩ ⟨0, 0⟩).pool.trace).map fun e ↦
      ((zoneBetweenEnv .inPlace).zones e.1).name).Nodup := by
  have hacc : Accepted plainConf (.init []) (zoneBetween .inPlace) :=
    ⟨by decide, by decide, by decide, by decide, trivial⟩
  have hput : StaysPut plainConf [] (zoneBetween .inPlace) .http := by
    refine staysPut_of_inPlace fun d hd ↦ ?_
    simp only [zoneBetween, List.mem_cons, List.not_mem_nil, or_false] at hd
    rcases hd with rfl | rfl | rfl | rfl <;> decide
  refine (one_connection_iff plainConf_lawful hacc (plainCore 64)).mpr hput Server serverHiredis _ _
    [readEmpty ⟨0, 0⟩, readEmpty ⟨0, 0⟩] (fun call hcall ↦ ?_) _ (List.prefix_refl _)
  simp only [List.mem_cons, List.not_mem_nil, or_false, or_self] at hcall
  exact ⟨0, ⟨0, 0⟩, by decide, hcall ▸ rfl⟩

/-- **Two connections for one zone.**  The zone `b` moves the array between the two variables of the
zone `a`, and a request that reads both has two connections for `a`. -/
theorem two_connections_one_zone :
    let c := readConf plainConf (.init []) (zoneBetween .move)
    Accepted plainConf (.init []) (zoneBetween .move) ∧
      c.zoneOf .http 0 = some ⟨0, 0⟩ ∧ c.zoneOf .http 1 = some ⟨1, 0⟩ ∧
      openConnections (twoReads .move ⟨0, 0⟩ ⟨1, 0⟩).pool.trace = [(⟨1, 0⟩, 4), (⟨0, 0⟩, 1)] ∧
      ((zoneBetweenEnv .move).zones ⟨0, 0⟩).name = lit "a" ∧
      ((zoneBetweenEnv .move).zones ⟨1, 0⟩).name = lit "a" :=
  ⟨⟨by decide, by decide, by decide, by decide, trivial⟩, by decide, by decide, by decide,
    by decide, by decide⟩

end NgxKeyval
