import NgxKeyval.Library.GrowArray
import NgxKeyval.Shm.Store

/-!
# The configuration of a module

The records of `ngx_keyval.h` that the directives fill in and the requests read, and what nginx
supplies to the code that fills them in.

Two things about memory matter and are kept.  The zones and the variables of a module live in
growable arrays, and a variable refers to its zone by address (`Ptr`).  And a new element of such
an array is whatever the memory held before: nothing is zeroed, so a field that no code assigns is
arbitrary.

Shared memory segments are registered with nginx under a name; `sharedMemoryAdd` is the part of
`ngx_shared_memory_add` the module relies on.
-/

set_option autoImplicit false

namespace NgxKeyval

/-- `ngx_keyval_zone_type_t`. -/
inductive ZoneType where
  /-- `NGX_KEYVAL_ZONE_SHM` -/
  | shm
  /-- `NGX_KEYVAL_ZONE_REDIS` -/
  | redis
  deriving DecidableEq, Repr

/-- The two tables of store operations. -/
inductive StoreOps where
  /-- `ngx_keyval_store_shm_ops` -/
  | shm
  /-- `ngx_keyval_store_redis_ops` -/
  | redis
  deriving DecidableEq, Repr

/-- `ngx_keyval_redis_conf_t`.  Times are in seconds; `none` is a `NULL` hostname. -/
structure RedisConf where
  hostname : Option Bytes
  port : Int
  db : Int
  ttl : Int
  connectTimeout : Int
  commandTimeout : Int
  deriving DecidableEq, Repr

/-- `ngx_keyval_zone_t`.  `shm` is the index of a registered segment, `none` for `NULL`. -/
structure Zone where
  name : Bytes
  type : ZoneType
  shm : Option Nat
  store : Option StoreOps
  redis : RedisConf
  deriving DecidableEq, Repr

/-- `ngx_keyval_variable_t`, with the array of indexes as a list; `varName` is `variable`. -/
structure Variable where
  indexes : List Nat
  keyString : Bytes
  varName : Bytes
  zone : Option Ptr
  deriving DecidableEq, Repr

/-- `ngx_keyval_conf_t`: the two arrays, `none` until the first directive creates them. -/
structure Conf where
  vars : Option (GrowArray Variable)
  zones : Option (GrowArray Zone)

/-- `ngx_keyval_create_main_conf`. -/
def Conf.empty : Conf := ⟨none, none⟩

/-! ## Errors -/

/-- How a directive is rejected. -/
inductive ConfError where
  /-- The text that is returned. -/
  | text (message : String)
  /-- `NGX_CONF_ERROR`, after a message was logged: what follows the quoted name of the command, and
  the string quoted in it, if any. -/
  | logged (message : String) (arg : Bytes)
  /-- The code would have written past the end of a buffer. -/
  | outOfBounds
  deriving DecidableEq, Repr

/-! ## What nginx supplies -/

/-- The module a directive belongs to; its address is the tag of the segments it registers. -/
inductive Tag where
  | http
  | stream
  deriving DecidableEq, Repr

/-- The initialisation functions of `ngx_keyval_store_shm.c`. -/
inductive ShmInit where
  /-- `ngx_keyval_init_zone` -/
  | initZone
  /-- `ngx_keyval_init_zone_none` -/
  | initZoneNone
  deriving DecidableEq, Repr

/-- The part of `ngx_shm_zone_t` the module sees.  `data` is the `ttl` of the `ngx_keyval_shm_ctx_t`
it points at, `none` for `NULL`. -/
structure ShmSegment where
  name : Bytes
  size : Int
  tag : Tag
  init : Option ShmInit
  data : Option Int
  deriving DecidableEq, Repr

/-- The segments registered so far, `cf->cycle->shared_memory`. -/
abbrev Segments := List ShmSegment

/-- `ngx_shared_memory_add`: the index of the one segment of this name, which must have the same
tag and, if both sizes are given, the same size; a name that is new is registered if `alloc` says
there is memory.  `none` is `NULL`. -/
def sharedMemoryAdd (shared : Segments) (name : Bytes) (size : Int) (tag : Tag) (alloc : Bool) :
    Option Nat × Segments :=
  match shared.findIdx? (·.name = name) with
  | some i =>
    match shared[i]? with
    | none => (none, shared)
    | some seg =>
      if seg.tag ≠ tag then (none, shared)
      else
        let seg := if seg.size = 0 then { seg with size := size } else seg
        let shared := shared.set i seg
        if size ≠ 0 ∧ size ≠ seg.size then (none, shared) else (some i, shared)
  | none =>
    if alloc then (some shared.length, shared ++ [⟨name, size, tag, none, none⟩])
    else (none, shared)

/-- The text functions of nginx core that the directives call. -/
structure NgxConf where
  /-- `ngx_memn2cmp`. -/
  memn2cmp : Bytes → Bytes → Int
  /-- `ngx_parse_size`, `-1` for `NGX_ERROR`. -/
  parseSize : Bytes → Int
  /-- `ngx_parse_time` in seconds, `-1` for `NGX_ERROR`. -/
  parseTime : Bytes → Int
  /-- `ngx_atoi`, `-1` for `NGX_ERROR`. -/
  atoi : Bytes → Int
  /-- `ngx_pagesize`. -/
  pagesize : Nat

/-- What the directives rely on. -/
structure NgxConf.Lawful (ngx : NgxConf) : Prop where
  /-- Equal strings, and only those, compare as `0`. -/
  memn2cmp_eq_zero : ∀ a b, ngx.memn2cmp a b = 0 ↔ a = b
  /-- A time is an error or not negative. -/
  parseTime_ge : ∀ s, -1 ≤ ngx.parseTime s

/-! ## Arguments

An argument of a directive is followed by a `NUL` in memory, and the C string functions stop there
or at a `NUL` inside it. -/

/-- The bytes of an ASCII string literal of the source. -/
def lit (s : String) : Bytes := s.toList.map fun c ↦ UInt8.ofNat c.toNat

/-- The C string that starts where the argument does. -/
def cString (v : Bytes) : Bytes := v.takeWhile (· ≠ 0)

/-- `ngx_strncmp(v, s, n) == 0`. -/
def strncmpEq (v : Bytes) (s : String) (n : Nat) : Bool :=
  (cString v).take n == (lit s).take n

/-- `ngx_strchr(v, c)`, as an offset from the start of `v`. -/
def strchr (v : Bytes) (c : UInt8) : Option Nat := (cString v).findIdx? (· = c)

/-- What follows the first `n` bytes of an argument that starts with a key of that length and is
longer than it: the test each parameter loop makes. -/
def argAfter (v : Bytes) (key : String) (n : Nat) : Option Bytes :=
  if strncmpEq v key n && decide (n < v.length) then some (v.drop n) else none

end NgxKeyval
