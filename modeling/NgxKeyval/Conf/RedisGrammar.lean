import NgxKeyval.Conf.Grammar
import NgxKeyval.Library.Settings

/-!
# What `keyval_zone_redis` accepts

The parser of `keyval_zone_redis` tries six keys in turn on each argument and writes what follows
into the record.  This file says that the arguments are read independently of each other.

* `RedisField` is a field of the settings, with the key, the check and the value of its argument.
* `redisParam_spec` is one argument: it sets the field whose key it starts with, and no other.
* `redisSettings_spec` is the whole list: accepted when every argument is valid; then each field has
  the value of the last argument for it, or its default.
* `redisSettings_ok` says the same of settings that were accepted, whatever the allocators answered.
* `confSetZoneRedis_grammar` is the directive.
-/

set_option autoImplicit false

namespace NgxKeyval

/-! ## The parameters -/

/-- The parameters of a Redis zone. -/
inductive RedisField where
  | hostname
  | port
  | database
  | ttl
  | connectTimeout
  | commandTimeout
  deriving DecidableEq, Repr

/-- The value of a field. -/
inductive FieldValue where
  | text (s : Option Bytes)
  | number (n : Int)
  deriving DecidableEq, Repr

namespace RedisField

/-- In the order in which the source tries them. -/
def all : List RedisField := [hostname, port, database, ttl, connectTimeout, commandTimeout]

/-- The key, with its `=`. -/
def key : RedisField → String
  | hostname => "hostname="
  | port => "port="
  | database => "database="
  | ttl => "ttl="
  | connectTimeout => "connect_timeout="
  | commandTimeout => "command_timeout="

/-- What an argument says about the field: what follows its key, if that is not empty. -/
def text? (f : RedisField) (v : Bytes) : Option Bytes :=
  if (lit f.key).isPrefixOf v && decide ((lit f.key).length < v.length) then
    some (v.drop (lit f.key).length)
  else none

variable (ngx : NgxConf)

/-- The check of the text. -/
def Valid (s : Bytes) : RedisField → Prop
  | hostname => True
  | port => 1 ≤ ngx.atoi s ∧ ngx.atoi s ≤ 65535
  | database => 0 ≤ ngx.atoi s
  | ttl => ngx.parseTime s ≠ -1
  | connectTimeout => ngx.parseTime s ≠ -1
  | commandTimeout => ngx.parseTime s ≠ -1 ∧ ngx.parseTime s ≠ 0

/-- The value of the text. -/
def value (s : Bytes) : RedisField → FieldValue
  | hostname => .text (some s)
  | port => .number (ngx.atoi s)
  | database => .number (ngx.atoi s)
  | ttl => .number (ngx.parseTime s)
  | connectTimeout => .number (ngx.parseTime s)
  | commandTimeout => .number (ngx.parseTime s)

/-- The value without an argument. -/
def default : RedisField → FieldValue
  | hostname => .text (some (lit "127.0.0.1"))
  | port => .number 6379
  | database => .number 0
  | ttl => .number 0
  | connectTimeout => .number 3
  | commandTimeout => .number 3

end RedisField

/-- A field of the settings. -/
def RedisConf.get (redis : RedisConf) : RedisField → FieldValue
  | .hostname => .text redis.hostname
  | .port => .number redis.port
  | .database => .number redis.db
  | .ttl => .number redis.ttl
  | .connectTimeout => .number redis.connectTimeout
  | .commandTimeout => .number redis.commandTimeout

theorem RedisConf.ext_get {r r' : RedisConf} (h : r.get = r'.get) : r = r' := by
  obtain ⟨hostname, port, db, ttl, connectTimeout, commandTimeout⟩ := r
  obtain ⟨hostname', port', db', ttl', connectTimeout', commandTimeout'⟩ := r'
  have h₁ := congrFun h .hostname
  have h₂ := congrFun h .port
  have h₃ := congrFun h .database
  have h₄ := congrFun h .ttl
  have h₅ := congrFun h .connectTimeout
  have h₆ := congrFun h .commandTimeout
  simp only [RedisConf.get, FieldValue.text.injEq, FieldValue.number.injEq] at h₁ h₂ h₃ h₄ h₅ h₆
  rw [h₁, h₂, h₃, h₄, h₅, h₆]

/-- The settings with the field set to the value of the text. -/
def RedisConf.set (ngx : NgxConf) (redis : RedisConf) (s : Bytes) : RedisField → RedisConf
  | .hostname => { redis with hostname := some s }
  | .port => { redis with port := ngx.atoi s }
  | .database => { redis with db := ngx.atoi s }
  | .ttl => { redis with ttl := ngx.parseTime s }
  | .connectTimeout => { redis with connectTimeout := ngx.parseTime s }
  | .commandTimeout => { redis with commandTimeout := ngx.parseTime s }

theorem RedisConf.get_set (ngx : NgxConf) (redis : RedisConf) (f : RedisField) (s : Bytes) :
    (redis.set ngx s f).get = Function.update redis.get f (f.value ngx s) := by
  funext g
  by_cases hg : g = f
  · subst hg
    rw [Function.update_self]
    cases g <;> rfl
  · rw [Function.update_of_ne hg]
    cases f <;> cases g <;> first | rfl | exact absurd rfl hg

/-- An argument is valid: it says something about a field, and passes the check. -/
def RedisArg (ngx : NgxConf) (v : Bytes) : Prop :=
  ∃ f s, RedisField.text? f v = some s ∧ f.Valid ngx s

section

variable {ngx : NgxConf} {v s : Bytes} {f g : RedisField} {args args' : List Bytes}
  {redis : RedisConf} {tag : Tag} {conf : Conf} {shared : Segments} {first : Bytes} {o : ZoneAlloc}

theorem text?_eq_some_iff : f.text? v = some s ↔ v = lit f.key ++ s ∧ s ≠ [] := by
  rw [RedisField.text?]
  split
  · rename_i h
    rw [Bool.and_eq_true, List.isPrefixOf_iff_prefix, decide_eq_true_iff] at h
    obtain ⟨⟨t, rfl⟩, hlt⟩ := h
    rw [List.drop_left, Option.some.injEq, List.append_cancel_left_eq]
    refine ⟨fun he ↦ ⟨he, ?_⟩, fun he ↦ he.1⟩
    rintro rfl
    rw [he, List.append_nil] at hlt
    exact Nat.lt_irrefl _ hlt
  · rename_i h
    refine ⟨nofun, ?_⟩
    rintro ⟨rfl, hne⟩
    refine absurd ?_ h
    rw [Bool.and_eq_true, List.isPrefixOf_iff_prefix, decide_eq_true_iff, List.length_append]
    have hpos := List.length_pos_of_ne_nil hne
    exact ⟨List.prefix_append _ _, by omega⟩

theorem notMem_key (f : RedisField) : (0 : UInt8) ∉ lit f.key := by cases f <;> decide

theorem argAfter_eq_text? (v : Bytes) (f : RedisField) {n : Nat}
    (hn : (lit f.key).length = n) : argAfter v f.key n = f.text? v :=
  Option.ext fun _ ↦ (argAfter_eq_some_iff (notMem_key f) hn).trans text?_eq_some_iff.symm

theorem not_prefix_key : f ≠ g → ¬ lit f.key <+: lit g.key := by
  cases f <;> cases g <;> decide

/-- **An argument is about one field at most.** -/
theorem text?_eq_none_of_ne (hs : f.text? v = some s) (hne : g ≠ f) : g.text? v = none := by
  obtain ⟨rfl, -⟩ := text?_eq_some_iff.mp hs
  rcases ht : g.text? (lit f.key ++ s) with _ | t
  · rfl
  · obtain ⟨heq, -⟩ := text?_eq_some_iff.mp ht
    rcases List.prefix_or_prefix_of_prefix (List.prefix_append (lit f.key) s)
      (heq ▸ List.prefix_append (lit g.key) t) with hpre | hpre
    · exact absurd hpre (not_prefix_key (Ne.symm hne))
    · exact absurd hpre (not_prefix_key hne)

/-! ## One argument -/

/-- A branch that checks the value it has just stored. -/
theorem checked_spec {valid bad : Prop} [Decidable bad] (e : ConfError) (redis : RedisConf)
    (h : valid ↔ ¬ bad) :
    (valid → (if bad then (some e, redis) else (none, redis)) = (none, redis)) ∧
      (¬ valid → (if bad then (some e, redis) else (none, redis)).1 ≠ none) := by
  refine ⟨fun hvalid ↦ if_neg (h.mp hvalid), fun hno ↦ ?_⟩
  rw [if_pos (not_not.mp fun hgood ↦ hno (h.mpr hgood))]
  exact Option.some_ne_none e

/-- **One argument** sets the field it is about, if it passes the check; an argument that is about
no field is rejected. -/
theorem redisParam_spec (ngx : NgxConf) (v : Bytes) (redis : RedisConf) :
    (∀ f s, RedisField.text? f v = some s →
      (f.Valid ngx s → redisParam ngx true redis v = (none, redis.set ngx s f)) ∧
      (¬ f.Valid ngx s → (redisParam ngx true redis v).1 ≠ none)) ∧
    ((∀ f, RedisField.text? f v = none) → (redisParam ngx true redis v).1 ≠ none) := by
  have h₁ : argAfter v "hostname=" 9 = _ := argAfter_eq_text? v .hostname rfl
  have h₂ : argAfter v "port=" 5 = _ := argAfter_eq_text? v .port rfl
  have h₃ : argAfter v "database=" 9 = _ := argAfter_eq_text? v .database rfl
  have h₄ : argAfter v "ttl=" 4 = _ := argAfter_eq_text? v .ttl rfl
  have h₅ : argAfter v "connect_timeout=" 16 = _ := argAfter_eq_text? v .connectTimeout rfl
  have h₆ : argAfter v "command_timeout=" 16 = _ := argAfter_eq_text? v .commandTimeout rfl
  constructor
  · intro f s hs
    have hother := fun g ↦ @text?_eq_none_of_ne v s f g hs
    rw [redisParam, h₁, h₂, h₃, h₄, h₅, h₆]
    cases f with
    | hostname =>
      simp only [hs]
      exact ⟨fun _ ↦ rfl, fun hno ↦ absurd trivial hno⟩
    | port =>
      simp only [hother .hostname (by decide), hs]
      refine checked_spec _ (redis.set ngx s .port) ?_
      simp only [RedisField.Valid]
      omega
    | database =>
      simp only [hother .hostname (by decide), hother .port (by decide), hs]
      exact checked_spec _ (redis.set ngx s .database) Int.not_lt.symm
    | ttl =>
      simp only [hother .hostname (by decide), hother .port (by decide),
        hother .database (by decide), hs]
      exact checked_spec _ (redis.set ngx s .ttl) Iff.rfl
    | connectTimeout =>
      simp only [hother .hostname (by decide), hother .port (by decide),
        hother .database (by decide), hother .ttl (by decide), hs]
      exact checked_spec _ (redis.set ngx s .connectTimeout) Iff.rfl
    | commandTimeout =>
      simp only [hother .hostname (by decide), hother .port (by decide),
        hother .database (by decide), hother .ttl (by decide),
        hother .connectTimeout (by decide), hs]
      exact checked_spec _ (redis.set ngx s .commandTimeout) not_or.symm
  · intro hnone
    rw [redisParam, h₁, h₂, h₃, h₄, h₅, h₆]
    simp only [hnone]
    exact Option.some_ne_none _

/-! ## The whole list -/

theorem mem_all (f : RedisField) : f ∈ RedisField.all := by cases f <;> decide

/-- The field an argument sets, and the value. -/
def setting (ngx : NgxConf) (v : Bytes) : Option (RedisField × FieldValue) :=
  RedisField.all.findSome? fun f ↦ (f.text? v).map fun s ↦ (f, f.value ngx s)

theorem setting_eq_some (hs : f.text? v = some s) : setting ngx v = some (f, f.value ngx s) := by
  cases hset : setting ngx v with
  | none =>
    have hnone := List.findSome?_eq_none_iff.mp hset f (mem_all f)
    rw [hs] at hnone
    cases hnone
  | some e =>
    obtain ⟨g, -, hg⟩ := List.exists_of_findSome?_eq_some hset
    obtain ⟨t, ht, rfl⟩ := Option.map_eq_some_iff.mp hg
    by_cases hgf : g = f
    · subst hgf
      rw [hs, Option.some.injEq] at ht
      rw [ht]
    · rw [text?_eq_none_of_ne hs hgf] at ht
      cases ht

theorem setting_eq_none (hnone : ∀ f, RedisField.text? f v = none) : setting ngx v = none := by
  simp [setting, hnone]

theorem value_setting (ngx : NgxConf) (f : RedisField) (v : Bytes) :
    Settings.value (setting ngx) f v = (f.text? v).map (fun s ↦ f.value ngx s) := by
  rw [Settings.value]
  by_cases hnone : ∀ g, RedisField.text? g v = none
  · rw [setting_eq_none hnone, hnone f]
    rfl
  · rw [not_forall] at hnone
    obtain ⟨g, hg⟩ := hnone
    obtain ⟨s, hs⟩ := Option.ne_none_iff_exists'.mp hg
    rw [setting_eq_some hs]
    by_cases hgf : g = f
    · subst hgf
      simp [hs]
    · simp [hgf, text?_eq_none_of_ne hs (Ne.symm hgf)]

theorem values_setting (ngx : NgxConf) (f : RedisField) (args : List Bytes) :
    Settings.values (setting ngx) f args =
      (args.filterMap f.text?).map (fun s ↦ f.value ngx s) := by
  rw [Settings.values, List.map_filterMap]
  exact List.filterMap_congr fun v _ ↦ value_setting ngx f v

/-- **The parameter loop** reads every argument as if it stood alone. -/
theorem redisParams_spec (ngx : NgxConf) (ho : o.Enough) (args : List Bytes) (i : Nat)
    (redis : RedisConf) :
    ((∀ v ∈ args, RedisArg ngx v) → ∃ redis', redisParams ngx o i args redis = (none, redis') ∧
      redis'.get = Settings.run (setting ngx) args redis.get) ∧
    (¬ (∀ v ∈ args, RedisArg ngx v) → (redisParams ngx o i args redis).1 ≠ none) := by
  induction args generalizing i redis with
  | nil => exact ⟨fun _ ↦ ⟨redis, rfl, rfl⟩, fun hno ↦ absurd nofun hno⟩
  | cons v vs ih =>
    obtain ⟨hsome, hnone⟩ := redisParam_spec ngx v redis
    rw [redisParams, ho.hostname i, List.forall_mem_cons]
    by_cases hv : RedisArg ngx v
    · obtain ⟨f, s, hs, hvalid⟩ := hv
      obtain ⟨hrest, hbad⟩ := ih (i + 1) (redis.set ngx s f)
      rw [(hsome f s hs).1 hvalid]
      refine ⟨fun hall ↦ ?_, fun hno ↦ hbad fun hall ↦ hno ⟨⟨f, s, hs, hvalid⟩, hall⟩⟩
      obtain ⟨redis', heq, hget⟩ := hrest hall.2
      refine ⟨redis', heq, ?_⟩
      rw [hget, Settings.run_cons, Settings.apply, setting_eq_some hs, RedisConf.get_set]
    · refine ⟨fun hall ↦ absurd hall.1 hv, fun _ ↦ ?_⟩
      have hreject : (redisParam ngx true redis v).1 ≠ none := by
        by_cases habout : ∀ f, RedisField.text? f v = none
        · exact hnone habout
        · rw [not_forall] at habout
          obtain ⟨f, hf⟩ := habout
          obtain ⟨s, hs⟩ := Option.ne_none_iff_exists'.mp hf
          exact (hsome f s hs).2 fun hvalid ↦ hv ⟨f, s, hs, hvalid⟩
      rcases hparam : redisParam ngx true redis v with ⟨_ | e, redis₁⟩
      · exact absurd (congrArg Prod.fst hparam) hreject
      · simp

/-- The hostname is the one default that is filled in at the end. -/
theorem get_redisDefault (hf : f ≠ .hostname) : redisDefault.get f = f.default := by
  cases f <;> first | rfl | exact absurd rfl hf

/-- **The settings of a Redis zone**: each is that of the last argument for it, or the default. -/
theorem redisSettings_spec (ngx : NgxConf) (ho : o.Enough) (args : List Bytes) :
    ((∀ v ∈ args, RedisArg ngx v) → ∃ redis, redisSettings ngx o args = (none, redis) ∧
      ∀ f, redis.get f =
        ((args.filterMap f.text?).getLast?.map fun s ↦ f.value ngx s).getD f.default) ∧
    (¬ (∀ v ∈ args, RedisArg ngx v) → (redisSettings ngx o args).1 ≠ none) := by
  obtain ⟨hgood, hbad⟩ := redisParams_spec ngx ho args 2 redisDefault
  constructor
  · intro hall
    obtain ⟨redis, heq, hget⟩ := hgood hall
    have hlast : ∀ f, redis.get f =
        ((args.filterMap f.text?).getLast?.map fun s ↦ f.value ngx s).getD
          (redisDefault.get f) := by
      intro f
      rw [hget, Settings.run_eq_last, values_setting, List.getLast?_map]
    rw [redisSettings, heq]
    have hhost := hlast .hostname
    cases hname : (args.filterMap (RedisField.text? .hostname)).getLast? with
    | none =>
      rw [hname] at hhost
      have hnone : redis.hostname = none := by simpa [RedisConf.get, redisDefault] using hhost
      simp only [hnone, Option.isNone_none, if_true, ho.defaultHostname]
      refine ⟨redis.set ngx (lit "127.0.0.1") .hostname, rfl, fun f ↦ ?_⟩
      rw [RedisConf.get_set]
      by_cases hf : f = .hostname
      · rw [hf, Function.update_self, hname]
        rfl
      · rw [Function.update_of_ne hf, hlast f, get_redisDefault hf]
    | some s =>
      rw [hname] at hhost
      have hsome : redis.hostname = some s := by
        simpa [RedisConf.get, RedisField.value] using hhost
      simp only [hsome, Option.isNone_some, Bool.false_eq_true, if_false]
      refine ⟨redis, rfl, fun f ↦ ?_⟩
      rw [hlast f]
      by_cases hf : f = .hostname
      · rw [hf, hname]
        rfl
      · rw [get_redisDefault hf]
  · intro hno
    have hreject := hbad hno
    rw [redisSettings]
    rcases hparams : redisParams ngx o 2 args redisDefault with ⟨_ | e, redis₁⟩
    · exact absurd (congrArg Prod.fst hparams) hreject
    · simp

/-! ## Accepted settings -/

theorem redisParam_alloc {alloc : Bool} {redis' : RedisConf}
    (h : redisParam ngx alloc redis v = (none, redis')) :
    redisParam ngx true redis v = (none, redis') := by
  cases alloc with
  | true => exact h
  | false =>
    rw [redisParam] at h ⊢
    split at h
    · cases h
    · exact h

theorem redisParams_alloc {o' : ZoneAlloc} (ho : o'.Enough) {i : Nat} {redis' : RedisConf}
    (h : redisParams ngx o i args redis = (none, redis')) :
    redisParams ngx o' i args redis = (none, redis') := by
  induction args generalizing i redis with
  | nil => exact h
  | cons v vs ih =>
    rw [redisParams] at h ⊢
    rcases hparam : redisParam ngx (o.hostname i) redis v with ⟨_ | e, redis₁⟩
    · rw [hparam] at h
      rw [ho.hostname i, redisParam_alloc hparam]
      exact ih h
    · rw [hparam] at h
      cases h

theorem redisSettings_alloc {o' : ZoneAlloc} (ho : o'.Enough)
    (h : redisSettings ngx o args = (none, redis)) :
    redisSettings ngx o' args = (none, redis) := by
  rw [redisSettings] at h ⊢
  rcases hparams : redisParams ngx o 2 args redisDefault with ⟨_ | e, redis₁⟩
  · simp only [hparams] at h
    simp only [redisParams_alloc ho hparams, ho.defaultHostname]
    split at h
    · rename_i hnone
      split at h
      · rw [if_pos hnone, ← h]
        rfl
      · cases h
    · rename_i hsome
      rw [if_neg hsome, ← h]
  · simp [hparams] at h

/-- **What accepted settings are**, whatever the allocators answered. -/
theorem redisSettings_ok (h : redisSettings ngx o args = (none, redis)) :
    (∀ v ∈ args, RedisArg ngx v) ∧
      ∀ f, redis.get f =
        ((args.filterMap f.text?).getLast?.map fun s ↦ f.value ngx s).getD f.default := by
  have ho : (ZoneAlloc.plain .move).Enough := ZoneAlloc.enough_plain (by decide)
  have hok := redisSettings_alloc ho h
  obtain ⟨hgood, hbad⟩ := redisSettings_spec ngx ho args
  have hall : ∀ v ∈ args, RedisArg ngx v :=
    not_not.mp fun hno ↦ hbad hno (congrArg Prod.fst hok)
  obtain ⟨redis', hredis', hget⟩ := hgood hall
  rw [hok, Prod.mk.injEq] at hredis'
  exact ⟨hall, hredis'.2 ▸ hget⟩

theorem redisSettings_accept_iff (ho : o.Enough) (args : List Bytes) :
    (redisSettings ngx o args).1 = none ↔ ∀ v ∈ args, RedisArg ngx v := by
  refine ⟨fun hnone ↦ (redisSettings_ok (Prod.ext hnone rfl)).1, fun hall ↦ ?_⟩
  obtain ⟨redis, hredis, -⟩ := (redisSettings_spec ngx ho args).1 hall
  rw [hredis]

theorem valid_of_mem_text? (hall : ∀ v ∈ args, RedisArg ngx v)
    (hs : s ∈ args.filterMap (RedisField.text? f)) : f.Valid ngx s := by
  obtain ⟨v, hv, hvs⟩ := List.mem_filterMap.mp hs
  obtain ⟨g, t, ht, hvalid⟩ := hall v hv
  by_cases hgf : f = g
  · subst hgf
    rw [hvs, Option.some.injEq] at ht
    exact ht ▸ hvalid
  · rw [text?_eq_none_of_ne ht hgf] at hvs
    cases hvs

/-! ## The directive -/

/-- **In the absence of anything of that name**, a `keyval_zone_redis` is accepted when its
parameters are, and the last zone gets the settings they leave. -/
theorem confSetZoneRedis_fresh (tag : Tag) {name : Bytes} (hne : name ≠ []) (ho : o.Enough)
    (hfresh : FreshName ngx conf shared name) :
    ∃ zones : GrowArray Zone, 0 < zones.nelts ∧ ∀ args,
      confSetZoneRedis ngx tag conf shared (lit "zone=" ++ name) args o =
        ((redisSettings ngx o args).1,
          { conf with zones := some (zones.set (zones.ptr (zones.nelts - 1))
            { zones.mem (zones.ptr (zones.nelts - 1)) with
              redis := (redisSettings ngx o args).2 }) },
          shared ++ [⟨name, 8 * ngx.pagesize, tag, some .initZoneNone, none⟩]) := by
  obtain ⟨p, zones, hadd, hpos, rfl, -⟩ := confZoneAdd_fresh .redis ho hfresh.1
  refine ⟨zones.set (zones.ptr (zones.nelts - 1))
    { zones.mem (zones.ptr (zones.nelts - 1)) with store := some .redis }, hpos, fun args ↦ ?_⟩
  have hlen : (lit "zone=").length = 5 := rfl
  have hzone : strncmpEq (lit "zone=" ++ name) "zone=" 5 = true :=
    (strncmpEq_iff (by decide) hlen).mpr ⟨name, rfl⟩
  rw [confSetZoneRedis, if_pos hzone, List.drop_left' hlen]
  simp only
  rw [if_neg (fun hzero ↦ hne (List.eq_nil_of_length_eq_zero hzero)), hadd]
  simp only
  rw [ho.segment, sharedMemoryAdd_fresh (8 * ngx.pagesize) hfresh.2]
  simp only [modify_last]
  rfl

theorem confSetZoneRedis_of_not_first (h : ¬ ∃ name, first = lit "zone=" ++ name ∧ name ≠ []) :
    (confSetZoneRedis ngx tag conf shared first args o).1 ≠ none := by
  intro hnone
  obtain ⟨name, -, -, -, -, hname, hne, -⟩ :=
    confSetZoneRedis_ok (Prod.ext hnone rfl : _ = (none, _, _))
  split at hname
  · rename_i htest
    obtain ⟨rest, rfl⟩ := (strncmpEq_iff (by decide) rfl).mp htest
    have hlen : (lit "zone=").length = 5 := rfl
    rw [List.drop_left' hlen] at hname
    exact h ⟨rest, rfl, hname ▸ hne⟩
  · exact hne hname

/-- **`keyval_zone_redis` reads its parameters independently of their order.**  With enough memory,
and in the absence of a zone or a segment of that name: the directive is accepted exactly when it
names a zone and every parameter is valid; then each field of the new zone is that of the last
parameter for it, or the default; and rearranging the parameters without rearranging those for one
field changes nothing of this. -/
theorem confSetZoneRedis_grammar (ho : o.Enough)
    (hfresh : ∀ name, first = lit "zone=" ++ name → name ≠ [] →
      FreshName ngx conf shared name) :
    ((confSetZoneRedis ngx tag conf shared first args o).1 = none ↔
      (∃ name, first = lit "zone=" ++ name ∧ name ≠ []) ∧ ∀ v ∈ args, RedisArg ngx v) ∧
    (∀ conf' shared',
      confSetZoneRedis ngx tag conf shared first args o = (none, conf', shared') →
      ∃ zones, conf'.zones = some zones ∧ 0 < zones.nelts ∧
        ∀ f, (zones.mem (zones.ptr (zones.nelts - 1))).redis.get f =
          ((args.filterMap f.text?).getLast?.map fun s ↦ f.value ngx s).getD f.default) ∧
    ∀ args', args.Perm args' →
      (∀ f, args.filterMap (RedisField.text? f) = args'.filterMap f.text?) →
      ((confSetZoneRedis ngx tag conf shared first args o).1 = none ↔
        (confSetZoneRedis ngx tag conf shared first args' o).1 = none) ∧
      ((confSetZoneRedis ngx tag conf shared first args o).1 = none →
        confSetZoneRedis ngx tag conf shared first args o =
          confSetZoneRedis ngx tag conf shared first args' o) := by
  by_cases hfirst : ∃ name, first = lit "zone=" ++ name ∧ name ≠ []
  · obtain ⟨name, rfl, hne⟩ := hfirst
    obtain ⟨zones, hpos, heq⟩ := confSetZoneRedis_fresh tag hne ho (hfresh name rfl hne)
    have hacc : ∀ vs, (redisSettings ngx o vs).1 = none ↔ ∀ v ∈ vs, RedisArg ngx v :=
      fun vs ↦ redisSettings_accept_iff ho vs
    refine ⟨?_, ?_, ?_⟩
    · rw [heq, hacc args]
      exact ⟨fun hall ↦ ⟨⟨name, rfl, hne⟩, hall⟩, fun h ↦ h.2⟩
    · intro conf' shared' hok
      rw [heq, Prod.mk.injEq, Prod.mk.injEq] at hok
      obtain ⟨hnone, rfl, -⟩ := hok
      refine ⟨_, rfl, hpos, fun f ↦ ?_⟩
      show ((zones.set (zones.ptr (zones.nelts - 1)) _).mem
        (zones.ptr (zones.nelts - 1))).redis.get f = _
      rw [GrowArray.mem_set_self]
      exact (redisSettings_ok (Prod.ext hnone rfl)).2 f
    · intro args' hperm hsame
      have hiff : (∀ v ∈ args, RedisArg ngx v) ↔ ∀ v ∈ args', RedisArg ngx v :=
        forall_congr' fun v ↦ imp_congr hperm.mem_iff Iff.rfl
      rw [heq, heq]
      refine ⟨((hacc args).trans hiff).trans (hacc args').symm, fun hnone ↦ ?_⟩
      have hnone' := (hacc args').mpr (hiff.mp ((hacc args).mp hnone))
      have hfields : (redisSettings ngx o args).2 = (redisSettings ngx o args').2 := by
        refine RedisConf.ext_get (funext fun f ↦ ?_)
        rw [(redisSettings_ok (Prod.ext hnone rfl)).2 f,
          (redisSettings_ok (Prod.ext hnone' rfl)).2 f, hsame f]
      rw [hnone, hnone', hfields]
  · have hreject : ∀ vs, (confSetZoneRedis ngx tag conf shared first vs o).1 ≠ none :=
      fun _ ↦ confSetZoneRedis_of_not_first hfirst
    refine ⟨⟨fun hnone ↦ absurd hnone (hreject args), fun h ↦ absurd h.1 hfirst⟩, ?_, ?_⟩
    · intro conf' shared' hok
      exact absurd (congrArg Prod.fst hok) (hreject args)
    · intro args' _ _
      exact ⟨⟨fun h ↦ absurd h (hreject args), fun h ↦ absurd h (hreject args')⟩,
        fun h ↦ absurd h (hreject args)⟩

end

/-- Two parameters, in either order. -/
theorem confSetZoneRedis_grammar_swap :
    confSetZoneRedis plainConf .http .empty [] (lit "zone=z") [lit "port=7000", lit "ttl=60"]
      (.plain .move) =
    confSetZoneRedis plainConf .http .empty [] (lit "zone=z") [lit "ttl=60", lit "port=7000"]
      (.plain .move) := by
  obtain ⟨-, -, hperm⟩ := @confSetZoneRedis_grammar plainConf [lit "port=7000", lit "ttl=60"] .http
    .empty [] (lit "zone=z") (.plain .move) (ZoneAlloc.enough_plain (by decide))
    fun _ _ _ ↦ ⟨rfl, rfl⟩
  exact (hperm _ (List.Perm.swap _ _ _) fun f ↦ by cases f <;> decide).2 (by decide)

end NgxKeyval
