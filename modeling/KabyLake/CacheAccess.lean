import KabyLake.Cache

/-!
# Reading and writing through the caches

The access functions of cache_mng.c. Their two expansions of a macro for the two first-level caches
have the same arguments and are one definition. A branch returns what the function has written: the
word or the memory, and both caches.
-/

namespace KabyLake

variable {size : ℕ}

/-- What the blocks from `malloc` hold: an L1 entry, an L2 entry and a word. -/
structure Malloc where
  l1Entry : L1Entry
  l2Entry : L2Entry
  word : Word

instance : Inhabited Malloc := ⟨⟨⟨false, 0, 0, fun _ => 0⟩, ⟨false, 0, 0, fun _ => 0⟩, 0⟩⟩

/-- An L1 entry read as an L2 entry. The bit-fields lie one after the other from the lowest bit on,
so the lowest bit of the tag is read as the highest of the age. -/
def asL2Entry (e : L1Entry) : L2Entry where
  v := e.v
  age := e.age.setWidth 3 ||| ((e.tag.setWidth 3 &&& 1) <<< 2)
  tag := (e.tag >>> 1).setWidth 19
  line := e.line

def wSelect (addr : Word) : Fin 4 := Fin.ofNat 4 ((addr >>> 2) &&& 0b11).toNat

/-- The result of `cache_read`: its code, `*word` and the caches. -/
structure ReadResult where
  err : ErrorCode
  word : Word
  l1 : L1Cache
  l2 : L2Cache

/-- The `cache_read_L2` macro. The entry invalidated is reached in the first level, and `*word` is
only set when that is full. -/
def cacheReadL2 (junk : Malloc) (type : CacheT) (addr : Word) (hit : Hit) (l1 : L1Cache)
    (l2 : L2Cache) (word : Word) : Exec ReadResult := do
  let lineIndexL1 := ((addr >>> 4) &&& 0b111111).toNat
  let entry : L1Entry := { junk.l1Entry with tag := (addr >>> 10).setWidth 22 }
  let (err, entry) ← transferToL1 l2 entry type hit.way hit.index
  if err ≠ .errNone then return ⟨.errBadParameter, word, l1, l2⟩
  let e ← cacheEntry l1 512 hit.index hit.way
  let l1 ← setCacheEntry l1 512 hit.index hit.way { e with v := false }
  match ← invalidWay l1 type lineIndexL1 with
  | some wayFind =>
    let (err, l1) ← cacheInsert lineIndexL1 wayFind entry l1 type
    if err ≠ .errNone then return ⟨.errBadParameter, word, l1, l2⟩
    let l1 ← lruAgeIncrease l1 4 wayFind lineIndexL1
    return ⟨.errNone, word, l1, l2⟩
  | none =>
    let wayDelete ← lruWay l1 type lineIndexL1
    let entryDelete ← cacheEntry l1 64 lineIndexL1 wayDelete
    let (err, l1) ← cacheInsert lineIndexL1 wayDelete entry l1 type
    if err ≠ .errNone then return ⟨.errBadParameter, word, l1, l2⟩
    let l1 ← lruAgeUpdate l1 4 wayDelete lineIndexL1
    let wayInL2 ← invalidWay l2 .l2Cache hit.index
    let word := (← cacheEntry l1 4 lineIndexL1 wayDelete).line (wSelect addr)
    match wayInL2 with
    | some way =>
      let (_, l2) ← cacheInsert hit.index way (asL2Entry entryDelete) l2 .l2Cache
      let l2 ← lruAgeIncrease l2 8 way hit.index
      return ⟨.errNone, word, l1, l2⟩
    | none =>
      let wayEvicted ← lruWay l2 .l2Cache hit.index
      let (err, l2) ← cacheInsert hit.index wayEvicted (asL2Entry entryDelete) l2 .l2Cache
      if err ≠ .errNone then return ⟨.errBadParameter, word, l1, l2⟩
      let l2 ← lruAgeUpdate l2 8 wayEvicted hit.index
      return ⟨.errNone, word, l1, l2⟩

/-- The `cache_read_memory` macro. -/
def cacheReadMemory (memSpace : Memory size) (paddr : PhyAddr) (type : CacheT) (l1 : L1Cache)
    (l2 : L2Cache) (word : Word) : Exec ReadResult := do
  let addr := phyToUint32 paddr
  let lineIndexL1 := ((addr >>> 4) &&& 0b111111).toNat
  let (err, entry) ← cacheEntryInit memSpace paddr type
  if err ≠ .errNone then return ⟨.errBadParameter, word, l1, l2⟩
  let wayFind ← match ← invalidWay l1 type lineIndexL1 with
    | some wayFind => pure wayFind
    | none => lruWay l1 type lineIndexL1
  let (err, l1) ← cacheInsert lineIndexL1 wayFind entry l1 type
  if err ≠ .errNone then return ⟨.errBadParameter, word, l1, l2⟩
  let l1 ← lruAgeUpdate l1 4 wayFind lineIndexL1
  let e ← cacheEntry l1 4 lineIndexL1 wayFind
  return ⟨.errNone, e.line (wSelect addr), l1, l2⟩

def cacheRead (junk : Malloc) (memSpace : Memory size) (paddr : PhyAddr) (access : MemAccess)
    (l1 : L1Cache) (l2 : L2Cache) (word : Word) : Exec ReadResult := do
  let addr := phyToUint32 paddr
  let cacheType := if access = .instruction then CacheT.l1ICache else .l1DCache
  let (err, hit, l1) ← cacheHit l1 paddr cacheType
  if err ≠ .errNone then return ⟨.errBadParameter, word, l1, l2⟩
  match hit with
  | some hit =>
    let e ← cacheEntry l1 4 hit.index hit.way
    return ⟨.errNone, e.line (wSelect addr), l1, l2⟩
  | none =>
    let (err, hit, l2) ← cacheHit l2 paddr .l2Cache
    if err ≠ .errNone then return ⟨.errBadParameter, word, l1, l2⟩
    match hit with
    | some hit => cacheReadL2 junk cacheType addr hit l1 l2 word
    | none => cacheReadMemory memSpace paddr cacheType l1 l2 word

/-- `cache_read_byte`, with the byte, `none` if it is not written, and the caches. -/
def cacheReadByte (junk : Malloc) (memSpace : Memory size) (pPaddr : PhyAddr) (access : MemAccess)
    (l1 : L1Cache) (l2 : L2Cache) : Exec (ErrorCode × Option Byte × L1Cache × L2Cache) := do
  let index := pPaddr.pageOffset.toNat % 4
  let r ← cacheRead junk memSpace pPaddr access l1 l2 junk.word
  if r.err ≠ .errNone then return (.errBadParameter, none, r.l1, r.l2)
  return (.errNone, some (((r.word >>> (index * 8)) &&& 255).setWidth 8), r.l1, r.l2)

/-- The result of `cache_write`: its code, the memory and the caches. -/
structure WriteResult (size : ℕ) where
  err : ErrorCode
  mem : Memory size
  l1 : L1Cache
  l2 : L2Cache

/-- The branch of `cache_write` for a hit in the first level. -/
def cacheWriteHit (memSpace : Memory size) (paddr : PhyAddr) (hit : Hit) (l1 : L1Cache)
    (l2 : L2Cache) (word : Word) : Exec (WriteResult size) := do
  let addr := phyToUint32 paddr
  let lineToUse := Function.update hit.line (wSelect addr) word
  let entry : L1Entry := ⟨true, 0, (← cacheEntry l1 4 hit.index hit.way).tag, lineToUse⟩
  let (err, l1) ← cacheInsert hit.index hit.way entry l1 .l1DCache
  if err ≠ .errNone then return ⟨.errBadParameter, memSpace, l1, l2⟩
  let l1 ← lruAgeUpdate l1 4 hit.way hit.index
  let memSpace ← memSpace.storeLine addr.toNat lineToUse
  return ⟨.errNone, memSpace, l1, l2⟩

/-- The end of the two other branches: an entry goes to the first level, and if there is no room
there `evicted` of the way it replaces goes to the second. -/
def cacheWriteEvict (memSpace : Memory size) (entry : L1Entry) (indexInL1 : ℕ)
    (evicted : L1Entry → L2Entry) (indexInL2 : ℕ) (l1 : L1Cache) (l2 : L2Cache) :
    Exec (WriteResult size) := do
  match ← invalidWay l1 .l1DCache indexInL1 with
  | some wayInL1 =>
    let (err, l1) ← cacheInsert indexInL1 wayInL1 entry l1 .l1DCache
    if err ≠ .errNone then return ⟨.errBadParameter, memSpace, l1, l2⟩
    let l1 ← lruAgeIncrease l1 4 wayInL1 indexInL1
    return ⟨.errNone, memSpace, l1, l2⟩
  | none =>
    let wayEvicted ← lruWay l1 .l1DCache indexInL1
    let entryEvicted := evicted (← cacheEntry l1 4 indexInL1 wayEvicted)
    let (err, l1) ← cacheInsert indexInL1 wayEvicted entry l1 .l1DCache
    if err ≠ .errNone then return ⟨.errBadParameter, memSpace, l1, l2⟩
    let l1 ← lruAgeUpdate l1 4 wayEvicted indexInL1
    match ← invalidWay l2 .l2Cache indexInL2 with
    | some wayForL2 =>
      let (err, l2) ← cacheInsert indexInL2 wayForL2 entryEvicted l2 .l2Cache
      if err ≠ .errNone then return ⟨.errBadParameter, memSpace, l1, l2⟩
      let l2 ← lruAgeIncrease l2 8 wayForL2 indexInL2
      return ⟨.errNone, memSpace, l1, l2⟩
    | none =>
      let wayEvicted2 ← lruWay l2 .l2Cache indexInL2
      let (err, l2) ← cacheInsert indexInL2 wayEvicted2 entryEvicted l2 .l2Cache
      if err ≠ .errNone then return ⟨.errBadParameter, memSpace, l1, l2⟩
      let l2 ← lruAgeUpdate l2 8 wayEvicted2 indexInL2
      return ⟨.errNone, memSpace, l1, l2⟩

/-- The branch of `cache_write` for a hit in the second level. `entry_evicted` is made of the new
entry, and its valid bit is not set. -/
def cacheWriteL2 (junk : Malloc) (memSpace : Memory size) (paddr : PhyAddr) (hit : Hit)
    (l1 : L1Cache) (l2 : L2Cache) (word : Word) : Exec (WriteResult size) := do
  let addr := phyToUint32 paddr
  let lineToUse := Function.update hit.line (wSelect addr) word
  let entryL2 : L2Entry := ⟨true, 0, (← cacheEntry l2 8 hit.index hit.way).tag, lineToUse⟩
  let (err, l2) ← cacheInsert hit.index hit.way entryL2 l2 .l2Cache
  if err ≠ .errNone then return ⟨.errBadParameter, memSpace, l1, l2⟩
  let l2 ← lruAgeUpdate l2 8 hit.way hit.index
  let memSpace ← memSpace.storeLine addr.toNat lineToUse
  let (_, entry) ← transferToL1 l2 junk.l1Entry .l1DCache hit.way hit.index
  let entry := { entry with v := true, tag := (addr >>> 10).setWidth 22 }
  cacheWriteEvict memSpace entry (hit.index &&& 0b111111)
    (fun _ => { junk.l2Entry with
      age := 0
      tag := (entry.tag >>> 3).setWidth 19
      line := entry.line }) hit.index l1 l2

/-- The branch of `cache_write` for a miss in both. The tag of the victim is shifted by
`L1_DCACHE_TAG_REMAINING_BITS - L2_CACHE_WORDS_PER_LINE`. -/
def cacheWriteMiss (junk : Malloc) (memSpace : Memory size) (paddr : PhyAddr) (l1 : L1Cache)
    (l2 : L2Cache) (word : Word) : Exec (WriteResult size) := do
  let addr := phyToUint32 paddr
  let lineMemory ← memSpace.loadLine addr.toNat
  let memSpace ← memSpace.storeLine addr.toNat (Function.update lineMemory (wSelect addr) word)
  let (err, newd) ← cacheEntryInit memSpace paddr .l1DCache
  if err ≠ .errNone then return ⟨.errBadParameter, memSpace, l1, l2⟩
  cacheWriteEvict memSpace newd ((addr >>> 4) &&& 0b111111).toNat
    (fun victim => { junk.l2Entry with
      age := 0
      tag := (victim.tag >>> (10 - 4)).setWidth 19
      line := victim.line }) ((addr >>> 4) &&& 0b111111111).toNat l1 l2

def cacheWrite (junk : Malloc) (memSpace : Memory size) (paddr : PhyAddr) (l1 : L1Cache)
    (l2 : L2Cache) (word : Word) : Exec (WriteResult size) := do
  let (err, hit, l1) ← cacheHit l1 paddr .l1DCache
  if err ≠ .errNone then return ⟨.errBadParameter, memSpace, l1, l2⟩
  match hit with
  | some hit => cacheWriteHit memSpace paddr hit l1 l2 word
  | none =>
    let (err, hit, l2) ← cacheHit l2 paddr .l2Cache
    if err ≠ .errNone then return ⟨.errBadParameter, memSpace, l1, l2⟩
    match hit with
    | some hit => cacheWriteL2 junk memSpace paddr hit l1 l2 word
    | none => cacheWriteMiss junk memSpace paddr l1 l2 word

/-- `cache_write_byte`; `junk` and `junk'` are the blocks of the read and of the write in it. -/
def cacheWriteByte (junk junk' : Malloc) (memSpace : Memory size) (paddr : PhyAddr) (l1 : L1Cache)
    (l2 : L2Cache) (pByte : Byte) : Exec (WriteResult size) := do
  if pByte = 0 then return ⟨.errBadParameter, memSpace, l1, l2⟩
  let index := (phyToUint32 paddr).toNat % 4
  let r ← cacheRead junk memSpace paddr .data l1 l2 junk.word
  if r.err ≠ .errNone then return ⟨.errBadParameter, memSpace, r.l1, r.l2⟩
  let word := r.word ||| (pByte.setWidth 32 <<< (8 * index))
  let w ← cacheWrite junk' memSpace paddr r.l1 r.l2 word
  if w.err ≠ .errNone then return ⟨.errBadParameter, w.mem, w.l1, w.l2⟩
  return w

end KabyLake
