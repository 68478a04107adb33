import NgxKeyval.Library.Cache
import NgxKeyval.Module.Handlers
import NgxKeyval.Template.Correct

/-!
# Variables whose keys are made of variables

What a set of variables is for, without slots and without a tree: there is one table, from keys to
values, and the key of a variable is a text in which other variables stand for their values.

* `Templates` is such a set of variables, without a cycle; `Templates.current` is the value each of
  them has, with a given table, and `Templates.currentKey` the key it has.
* `Templates.step` makes a machine of reading and writing them: every access uses the key that the
  variable has at that moment.
* `Templates.current_update` — a write that leaves the key alone is read back.
-/

set_option autoImplicit false

namespace NgxKeyval

/-- What a table binds a key to. -/
abbrev Table := Bytes → Option Bytes

/-- What a key stands for, if every name in it has a value. -/
def expandKey (val : Bytes → Option Bytes) (key : Bytes) : Option Bytes :=
  if ∀ name ∈ references key, val name ≠ none then
    some (substitute (fun name ↦ (val name).getD []) key)
  else none

/-- Only the names in the key matter. -/
theorem expandKey_congr {val val' : Bytes → Option Bytes} {key : Bytes}
    (h : ∀ name ∈ references key, val name = val' name) :
    expandKey val key = expandKey val' key := by
  have hsubst : substitute (fun name ↦ (val name).getD []) key =
      substitute (fun name ↦ (val' name).getD []) key := by
    refine List.flatMap_congr fun token htoken ↦ ?_
    rcases token with b | name
    · rfl
    · rw [Token.subst_ref, Token.subst_ref, h name (List.mem_filterMap.mpr ⟨_, htoken, rfl⟩)]
  rw [expandKey, expandKey, hsubst]
  have hfound : (∀ name ∈ references key, val name ≠ none) ↔
      ∀ name ∈ references key, val' name ≠ none :=
    forall₂_congr fun name hname ↦ by rw [h name hname]
  simp only [hfound]

theorem lenBits_lenBits (b : Bytes) : lenBits (lenBits b) = lenBits b := by
  have hlen : (lenBits b).length = b.length % 2 ^ 28 := by
    rw [lenBits, List.length_take, Nat.min_eq_left (Nat.mod_le _ _)]
  rw [lenBits, hlen, Nat.mod_mod, ← hlen, List.take_length]

/-- Variables, some of which are kept in a table. -/
structure Templates where
  /-- The key of a variable that is kept in the table, as it was written. -/
  key : Nat → Option Bytes
  /-- The value of any other variable. -/
  other : Nat → Option Bytes
  /-- The variable of a name. -/
  indexOf : Bytes → Nat
  rank : Nat → Nat
  /-- There is no cycle: a key is made of variables of lower rank. -/
  acyclic : ∀ i text, key i = some text → ∀ name ∈ references text, rank (indexOf name) < rank i

namespace Templates

variable (t : Templates) (m : Table)

/-- The variables the key of a variable is made of. -/
def refs (i : Nat) : List Nat := (t.key i).elim [] fun text ↦ (references text).map t.indexOf

/-- The value of a variable, looking this far down. -/
def valueAt : Nat → Nat → Option Bytes
  | 0, _ => none
  | d + 1, i =>
    match t.key i with
    | none => (t.other i).map lenBits
    | some text => ((expandKey (fun name ↦ valueAt d (t.indexOf name)) text).bind m).map lenBits

/-- The value of a variable. -/
def current (i : Nat) : Option Bytes := t.valueAt m (t.rank i + 1) i

/-- The key of a variable, with the values that other variables have. -/
def currentKey (i : Nat) : Option Bytes :=
  (t.key i).bind (expandKey fun name ↦ t.current m (t.indexOf name))

/-- One access.  It comes back with the key it uses and, if it is a read, with the value. -/
def step (m : Table) : RequestAccess → (Option Bytes × Option Bytes) × Table
  | .read i => ((t.currentKey m i, t.current m i), m)
  | .write i val =>
    ((t.currentKey m i, none), match t.currentKey m i with
      | none => m
      | some key => Function.update m key (some (lenBits val)))

variable {t} {m m' : Table} {i j : Nat} {text : Bytes}

theorem refs_of_key (h : t.key i = some text) : t.refs i = (references text).map t.indexOf := by
  rw [refs, h, Option.elim_some]

theorem rank_lt_of_mem_refs (hj : j ∈ t.refs i) : t.rank j < t.rank i := by
  rcases htext : t.key i with _ | text
  · rw [refs, htext] at hj
    cases hj
  · rw [refs_of_key htext] at hj
    obtain ⟨name, hname, rfl⟩ := List.mem_map.mp hj
    exact t.acyclic i text htext name hname

/-- Looking down further than the rank changes nothing. -/
theorem valueAt_eq_current {d : Nat} (hd : t.rank i < d) : t.valueAt m d i = t.current m i := by
  -- two depths that are both enough
  have hsame : ∀ d d' i, t.rank i < d → t.rank i < d' → t.valueAt m d i = t.valueAt m d' i := by
    intro d
    induction d with
    | zero => intro d' i hd; omega
    | succ d ih =>
      intro d' i hd hd'
      rcases d' with _ | d'
      · omega
      · rw [valueAt, valueAt]
        rcases htext : t.key i with _ | text
        · rfl
        · have hval : ∀ name ∈ references text,
              t.valueAt m d (t.indexOf name) = t.valueAt m d' (t.indexOf name) := by
            intro name hname
            have hlt := t.acyclic i text htext name hname
            exact ih d' _ (by omega) (by omega)
          simp only [expandKey_congr hval]
  exact hsame d _ i hd (Nat.lt_succ_self _)

theorem current_of_other (h : t.key i = none) : t.current m i = (t.other i).map lenBits := by
  rw [current, valueAt, h]

/-- **The value of a variable** is what the table has under its key. -/
theorem current_of_key (h : t.key i = some text) :
    t.current m i = ((t.currentKey m i).bind m).map lenBits := by
  have hval : ∀ name ∈ references text,
      t.valueAt m (t.rank i) (t.indexOf name) = t.current m (t.indexOf name) :=
    fun name hname ↦ valueAt_eq_current (t.acyclic i text h name hname)
  rw [current, valueAt, currentKey, h, Option.bind_some, ← expandKey_congr hval]

theorem currentKey_congr (h : ∀ j ∈ t.refs i, t.current m' j = t.current m j) :
    t.currentKey m' i = t.currentKey m i := by
  rcases htext : t.key i with _ | text
  · rw [currentKey, currentKey, htext, Option.bind_none, Option.bind_none]
  · rw [currentKey, currentKey, htext, Option.bind_some, Option.bind_some]
    refine expandKey_congr fun name hname ↦ h _ ?_
    rw [refs_of_key htext]
    exact List.mem_map_of_mem hname

/-- **A write that leaves the key alone is read back.** -/
theorem current_update (h : t.key i = some text) {key val : Bytes}
    (hkey : t.currentKey m i = some key)
    (hrefs : ∀ j ∈ t.refs i,
      t.current (Function.update m key (some (lenBits val))) j = t.current m j) :
    t.current (Function.update m key (some (lenBits val))) i = some (lenBits val) := by
  rw [current_of_key h, currentKey_congr hrefs, hkey, Option.bind_some, Function.update_self,
    Option.map_some, lenBits_lenBits]

end Templates

end NgxKeyval
