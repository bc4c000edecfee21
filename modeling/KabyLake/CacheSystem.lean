import KabyLake.CacheAccess
import KabyLake.Library.Run

/-!
# Calls on the caches of a core

test-cache.c: the three caches of a core are flushed, then its commands read and write through them.
A call comes with what its `malloc` blocks and the word of its caller hold before they are written.
-/

namespace KabyLake

variable {size : ℕ}

/-- The memory and the caches. -/
structure Core (size : ℕ) where
  mem : Memory size
  l1i : L1Cache
  l1d : L1Cache
  l2 : L2Cache

/-- The first-level cache of an access. -/
def Core.l1 (core : Core size) (access : MemAccess) : L1Cache :=
  if access = .instruction then core.l1i else core.l1d

def Core.setL1 (core : Core size) (access : MemAccess) (c : L1Cache) : Core size :=
  if access = .instruction then { core with l1i := c } else { core with l1d := c }

@[simp] theorem Core.mem_setL1 (core : Core size) (access : MemAccess) (c : L1Cache) :
    (core.setL1 access c).mem = core.mem := by
  unfold Core.setL1
  split_ifs <;> rfl

@[simp] theorem Core.l1_setL1 (core : Core size) (access : MemAccess) (c : L1Cache) :
    (core.setL1 access c).l1 access = c := by
  unfold Core.l1 Core.setL1
  split_ifs <;> rfl

/-- The four calls of `execute_command`. -/
inductive Call
  | read (access : MemAccess) (paddr : PhyAddr)
  | readByte (access : MemAccess) (paddr : PhyAddr)
  | write (paddr : PhyAddr) (word : Word)
  | writeByte (paddr : PhyAddr) (byte : Byte)

/-- A call and what is in the memory it is given. `junk'` is for the write of `cache_write_byte`. -/
structure Invocation where
  call : Call
  junk : Malloc
  junk' : Malloc
  word : Word

/-- What a call returns. -/
inductive Output
  | word (err : ErrorCode) (word : Word)
  | byte (err : ErrorCode) (byte : Option Byte)
  | code (err : ErrorCode)
  deriving DecidableEq, Repr

/-- `cache_flush` on each cache. -/
def flushAll (mem : Memory size) (l1i l1d : L1Cache) (l2 : L2Cache) : Exec (Core size) := do
  let (_, l1i) ← cacheFlush l1i .l1ICache
  let (_, l1d) ← cacheFlush l1d .l1DCache
  let (_, l2) ← cacheFlush l2 .l2Cache
  return ⟨mem, l1i, l1d, l2⟩

/-- The switch of `execute_command`. -/
def executeCommand (core : Core size) (i : Invocation) : Exec (Output × Core size) :=
  match i.call with
  | .read access paddr => do
    let r ← cacheRead i.junk core.mem paddr access (core.l1 access) core.l2 i.word
    return (.word r.err r.word, { core.setL1 access r.l1 with l2 := r.l2 })
  | .readByte access paddr => do
    let (err, byte, l1, l2) ← cacheReadByte i.junk core.mem paddr access (core.l1 access) core.l2
    return (.byte err byte, { core.setL1 access l1 with l2 := l2 })
  | .write paddr word => do
    let r ← cacheWrite i.junk core.mem paddr core.l1d core.l2 word
    return (.code r.err, ⟨r.mem, core.l1i, r.l1, r.l2⟩)
  | .writeByte paddr byte => do
    let r ← cacheWriteByte i.junk i.junk' core.mem paddr core.l1d core.l2 byte
    return (.code r.err, ⟨r.mem, core.l1i, r.l1, r.l2⟩)

end KabyLake
