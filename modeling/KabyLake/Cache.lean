import KabyLake.Library.SetAssoc
import KabyLake.Memory

/-!
# The cache hierarchy

cache.h, lru.h and cache_mng.c. A cache is an array of entries; a macro reaches one by its slot
`LINE_INDEX * WAYS + WAY`, computed from the arguments the code gives it, and faults outside the
array. What a macro calls `cache` is the array that variable points at. A way that is
`HIT_WAY_MISS` is `none`. The content `malloc` leaves in a field that is read before it is set is an
argument.
-/

namespace KabyLake

inductive CacheT
  | l1ICache
  | l1DCache
  | l2Cache
  deriving DecidableEq, Repr

abbrev CacheEntry (ageBits tagBits : ℕ) := SetAssoc.Entry ageBits tagBits CacheLine

abbrev CacheArray (lines ways ageBits tagBits : ℕ) :=
  SetAssoc.Cache lines ways ageBits tagBits CacheLine

/-- `l1_icache_entry_t`, and `l1_dcache_entry_t`. -/
abbrev L1Entry := CacheEntry 2 22

/-- `l2_cache_entry_t`. -/
abbrev L2Entry := CacheEntry 3 19

/-- 64 lines of 4 ways. -/
abbrev L1Cache := CacheArray 64 4 2 22

/-- 512 lines of 8 ways. -/
abbrev L2Cache := CacheArray 512 8 3 19

variable {S W a t size : ℕ}

/-- `*cache_entry(TYPE, WAYS, LINE_INDEX, WAY)`. -/
def cacheEntry (cache : CacheArray S W a t) (WAYS lineIndex way : ℕ) : Exec (CacheEntry a t) :=
  if h : lineIndex * WAYS + way < S * W then .ok (cache ⟨lineIndex * WAYS + way, h⟩)
  else .error .slot

/-- `*cache_entry(TYPE, WAYS, LINE_INDEX, WAY) = e`. -/
def setCacheEntry (cache : CacheArray S W a t) (WAYS lineIndex way : ℕ) (e : CacheEntry a t) :
    Exec (CacheArray S W a t) :=
  if h : lineIndex * WAYS + way < S * W then
    .ok (Function.update cache ⟨lineIndex * WAYS + way, h⟩ e)
  else .error .slot

/-- A `foreach_way` loop over a line that changes each entry. -/
def foreachWay (WAYS lineIndex : ℕ) (f : CacheEntry a t → CacheEntry a t)
    (cache : CacheArray S W a t) : Exec (CacheArray S W a t) :=
  (List.range WAYS).foldlM (fun cache i => do
    let e ← cacheEntry cache WAYS lineIndex i
    setCacheEntry cache WAYS lineIndex i (f e)) cache

def lruAgeIncrease (cache : CacheArray S W a t) (WAYS waysIndex lineIndex : ℕ) :
    Exec (CacheArray S W a t) := do
  let cache ← foreachWay WAYS lineIndex
    (fun e => if e.age.toNat ≤ WAYS - 1 then { e with age := e.age + 1 } else e) cache
  let e ← cacheEntry cache WAYS lineIndex waysIndex
  setCacheEntry cache WAYS lineIndex waysIndex { e with age := 0 }

def lruAgeUpdate (cache : CacheArray S W a t) (WAYS wayIndex lineIndex : ℕ) :
    Exec (CacheArray S W a t) := do
  let max := (← cacheEntry cache WAYS lineIndex wayIndex).age.toNat
  let cache ← foreachWay WAYS lineIndex
    (fun e => if e.age.toNat < max then { e with age := e.age + 1 } else e) cache
  let e ← cacheEntry cache WAYS lineIndex wayIndex
  setCacheEntry cache WAYS lineIndex wayIndex { e with age := 0 }

/-- The loop of `LRU_way`, with the way and `age_max` so far. -/
def lruWayLoop (cache : CacheArray S W a t) (WAYS lineIndex : ℕ) : Exec (ℕ × ℕ) :=
  (List.range WAYS).foldlM (fun (way, ageMax) i => do
    let e ← cacheEntry cache WAYS lineIndex i
    return if e.age.toNat ≥ ageMax then (i, e.age.toNat) else (way, ageMax)) (0, 0)

def lruWay (cache : CacheArray S W a t) (type : CacheT) (lineIndex : ℕ) : Exec ℕ := do
  match type with
  | .l1ICache => return (← lruWayLoop cache 4 lineIndex).1
  | .l1DCache => return (← lruWayLoop cache 4 lineIndex).1
  | .l2Cache => return (← lruWayLoop cache 8 lineIndex).1

/-- The loop of `invalid_way`, over the ways left. -/
def invalidWayLoop (cache : CacheArray S W a t) (WAYS lineIndex : ℕ) : List ℕ → Exec (Option ℕ)
  | [] => .ok none
  | i :: ways => do
    let e ← cacheEntry cache WAYS lineIndex i
    if e.v = false then return some i
    invalidWayLoop cache WAYS lineIndex ways

def invalidWay (cache : CacheArray S W a t) (type : CacheT) (lineIndex : ℕ) : Exec (Option ℕ) :=
  match type with
  | .l1ICache => invalidWayLoop cache 4 lineIndex (List.range 4)
  | .l1DCache => invalidWayLoop cache 4 lineIndex (List.range 4)
  | .l2Cache => invalidWayLoop cache 8 lineIndex (List.range 8)

/-- The `init_cache` macro. The words are copied from the address itself. -/
def initCache (TAG_REMAINING_BITS : ℕ) (memSpace : Memory size) (phy : Word) :
    Exec (CacheEntry a t) := do
  let line ← memSpace.loadLine phy.toNat
  return ⟨true, 0, (phy >>> TAG_REMAINING_BITS).setWidth t, line⟩

def cacheEntryInit (memSpace : Memory size) (paddr : PhyAddr) (type : CacheT) :
    Exec (ErrorCode × CacheEntry a t) := do
  let phy := phyToUint32 paddr
  match type with
  | .l1DCache => return (.errNone, ← initCache 10 memSpace phy)
  | .l1ICache => return (.errNone, ← initCache 10 memSpace phy)
  | .l2Cache => return (.errNone, ← initCache 13 memSpace phy)

/-- The `flush_cache` macro. Every `memset` is on the words of the first entry. -/
def flushCache (CACHE_LINES CACHE_WAYS : ℕ) (cache : CacheArray S W a t) :
    Exec (CacheArray S W a t) :=
  (List.range (CACHE_LINES * CACHE_WAYS)).foldlM (fun cache i => do
    let e ← cacheEntry cache 1 i 0
    let cache ← setCacheEntry cache 1 i 0 { e with age := 0, v := false, tag := 0 }
    let first ← cacheEntry cache 1 0 0
    setCacheEntry cache 1 0 0 { first with line := fun _ => 0 }) cache

def cacheFlush (cache : CacheArray S W a t) (type : CacheT) :
    Exec (ErrorCode × CacheArray S W a t) := do
  match type with
  | .l1DCache => return (.errNone, ← flushCache 64 4 cache)
  | .l1ICache => return (.errNone, ← flushCache 64 4 cache)
  | .l2Cache => return (.errNone, ← flushCache 512 8 cache)

/-- The `insert_cache` macro. -/
def insertCache (CACHE_LINES CACHE_WAYS cacheLineIndex cacheWay : ℕ) (var : CacheEntry a t)
    (cache : CacheArray S W a t) : Exec (ErrorCode × CacheArray S W a t) := do
  if cacheLineIndex < CACHE_LINES then
    if cacheWay < CACHE_WAYS then
      return (.errNone, ← setCacheEntry cache CACHE_WAYS cacheLineIndex cacheWay var)
  return (.errBadParameter, cache)

def cacheInsert (cacheLineIndex cacheWay : ℕ) (cacheLineIn : CacheEntry a t)
    (cache : CacheArray S W a t) (type : CacheT) : Exec (ErrorCode × CacheArray S W a t) :=
  match type with
  | .l1DCache => insertCache 64 4 cacheLineIndex cacheWay cacheLineIn cache
  | .l1ICache => insertCache 64 4 cacheLineIndex cacheWay cacheLineIn cache
  | .l2Cache => insertCache 512 8 cacheLineIndex cacheWay cacheLineIn cache

/-- What `cache_hit` leaves in `hit_way`, `hit_index` and behind `p_line` on a hit. -/
structure Hit where
  way : ℕ
  index : ℕ
  line : CacheLine

/-- The loop of the `hit_cache` macro, over the ways left: it ends at the first invalid way. -/
def hitLoop (cache : CacheArray S W a t) (CACHE_WAYS lineIndex : ℕ) (tag : Word) :
    List ℕ → Exec (Option Hit × CacheArray S W a t)
  | [] => .ok (none, cache)
  | way :: ways => do
    let e ← cacheEntry cache CACHE_WAYS lineIndex way
    if e.v = false then return (none, cache)
    if e.v ∧ tag = e.tag.setWidth 32 then
      return (some ⟨way, lineIndex, e.line⟩, ← lruAgeUpdate cache CACHE_WAYS way lineIndex)
    hitLoop cache CACHE_WAYS lineIndex tag ways

/-- The `hit_cache` macro. -/
def hitCache (CACHE_LINES CACHE_WAYS TAG_REMAINING_BITS : ℕ) (cache : CacheArray S W a t)
    (phy : Word) : Exec (Option Hit × CacheArray S W a t) :=
  hitLoop cache CACHE_WAYS (phy.toNat / 16 % CACHE_LINES) (phy >>> TAG_REMAINING_BITS)
    (List.range CACHE_WAYS)

/-- `cache_hit`, with the cache it leaves. -/
def cacheHit (cache : CacheArray S W a t) (paddr : PhyAddr) (type : CacheT) :
    Exec (ErrorCode × Option Hit × CacheArray S W a t) := do
  let phy := phyToUint32 paddr
  match type with
  | .l1DCache => return (.errNone, ← hitCache 64 4 10 cache phy)
  | .l1ICache => return (.errNone, ← hitCache 64 4 10 cache phy)
  | .l2Cache => return (.errNone, ← hitCache 512 8 13 cache phy)

/-- `transfer_to_l1`: the entry is read with the number of lines in the place of that of ways. -/
def transferToL1 (cache : L2Cache) (entry : L1Entry) (type : CacheT) (way index : ℕ) :
    Exec (ErrorCode × L1Entry) := do
  match type with
  | .l1ICache =>
    let e ← cacheEntry cache 512 index way
    return (.errNone, { entry with line := e.line, v := true })
  | .l1DCache =>
    let e ← cacheEntry cache 512 index way
    return (.errNone, { entry with line := e.line, v := true })
  | .l2Cache => return (.errBadParameter, entry)

end KabyLake
