import KabyLake.PageWalk

/-!
# The two-level TLB

tlb_hrchy.h and tlb_hrchy_mng.c: an instruction and a data TLB of 16 lines over a second level of
64, all direct-mapped. The macros `hit`, `flush` and `insert` are definitions over the width of the
tag; `LINES` is the argument the source gives them.
-/

namespace KabyLake.TlbHrchy

/-- `l1_itlb_entry_t` and `l1_dtlb_entry_t` with 32 tag bits, `l2_tlb_entry_t` with 30. -/
@[ext]
structure Entry (tagBits : ℕ) where
  tag : BitVec tagBits
  phyPageNum : BitVec 20
  v : Bool
  deriving DecidableEq, Repr

abbrev Table (lines tagBits : ℕ) := Fin lines → Entry tagBits

inductive TlbT
  | l1ITlb
  | l1DTlb
  | l2Tlb
  deriving DecidableEq, Repr

/-- `L1_ITLB_LINES`, `L1_DTLB_LINES` and `L2_TLB_LINES`. -/
def TlbT.lines : TlbT → ℕ
  | .l1ITlb => 16
  | .l1DTlb => 16
  | .l2Tlb => 64

variable {n t size : ℕ}

/-- `tlb[i]`. -/
def line (tlb : Table n t) (i : ℕ) : Exec (Entry t) :=
  if h : i < n then .ok (tlb ⟨i, h⟩) else .error .slot

/-- `tlb[i] = e`. -/
def setLine (tlb : Table n t) (i : ℕ) (e : Entry t) : Exec (Table n t) :=
  if h : i < n then .ok (Function.update tlb ⟨i, h⟩ e) else .error .slot

/-- The `init` macro; a bit-field keeps the low bits of the tag. -/
def init (LINES : ℕ) (virtualPageNumber : BitVec 64) (paddr : PhyAddr) : Entry t :=
  ⟨(virtualPageNumber >>> LINES).setWidth t, paddr.phyPageNum, true⟩

def tlbEntryInit (vaddr : VirtAddr) (paddr : PhyAddr) (tlbType : TlbT) : ErrorCode × Entry t :=
  let virtualPageNumber := virtAddrToVirtualPageNumber vaddr
  match tlbType with
  | .l1DTlb => (.errNone, init 4 virtualPageNumber paddr)
  | .l1ITlb => (.errNone, init 4 virtualPageNumber paddr)
  | .l2Tlb => (.errNone, init 6 virtualPageNumber paddr)

/-- The loop of the `flush` macro, from line `i` on. -/
def flush (lines : ℕ) (tlb : Table n t) : Exec (Table n t) :=
  (List.range lines).foldlM (fun tlb i => setLine tlb i ⟨0, 0, false⟩) tlb

def tlbFlush (tlbType : TlbT) (tlb : Table n t) : Exec (ErrorCode × Table n t) := do
  match tlbType with
  | .l1DTlb => return (.errNone, ← flush 4 tlb)
  | .l1ITlb => return (.errNone, ← flush 4 tlb)
  | .l2Tlb => return (.errNone, ← flush 6 tlb)

def tlbInsert (lineIndex : BitVec 32) (entry : Entry t) (tlb : Table n t) (tlbType : TlbT) :
    Exec (ErrorCode × Table n t) := do
  if lineIndex.toNat < tlbType.lines then return (.errNone, ← setLine tlb lineIndex.toNat entry)
  return (.errBadParameter, tlb)

/-- The `hit` macro. The line probed is the page number masked to four bits, whatever the table. -/
def hit (LINES : ℕ) (tlb : Table n t) (addr : BitVec 64) (offset : BitVec 32) (paddr : PhyAddr) :
    Exec (Bool × PhyAddr) := do
  let tag : BitVec 32 := (addr >>> LINES).setWidth 32
  let index : BitVec 32 := (addr &&& 15).setWidth 32
  let var ← line tlb index.toNat
  if tag = var.tag.setWidth 32 ∧ var.v then return (true, ⟨var.phyPageNum, offset.setWidth 12⟩)
  return (false, paddr)

def tlbHit (vaddr : VirtAddr) (paddr : PhyAddr) (tlb : Table n t) (tlbType : TlbT) :
    Exec (Bool × PhyAddr) :=
  let addr := virtAddrToVirtualPageNumber vaddr
  let offset := vaddr.pageOffset.setWidth 32
  match tlbType with
  | .l1DTlb => hit 4 tlb addr offset paddr
  | .l1ITlb => hit 4 tlb addr offset paddr
  | .l2Tlb => hit 6 tlb addr offset paddr

@[ext]
structure Tlbs where
  l1ITlb : Table 16 32
  l1DTlb : Table 16 32
  l2Tlb : Table 64 30

def insertL1 (s : Tlbs) (virtualPageNumber : BitVec 64) (paddr : PhyAddr) (access : MemAccess) :
    Exec (ErrorCode × Tlbs) := do
  let tag : BitVec 32 := (virtualPageNumber >>> 4).setWidth 32
  let index : BitVec 32 := (virtualPageNumber &&& 15).setWidth 32
  match access with
  | .instruction =>
    let (err, l1ITlb) ← tlbInsert index ⟨tag, paddr.phyPageNum, true⟩ s.l1ITlb .l1ITlb
    return (err, { s with l1ITlb })
  | .data =>
    let (err, l1DTlb) ← tlbInsert index ⟨tag, paddr.phyPageNum, true⟩ s.l1DTlb .l1DTlb
    return (err, { s with l1DTlb })
  | .invalid => return (.errBadParameter, s)

/-- The body `invalidation` runs on the first-level table it chooses, given the page of the second
level's line as 32 bits. -/
def invalidateIn (l1Tlb : Table 16 32) (virtualPageNumber : BitVec 64) (oldVaddr2 : BitVec 32) :
    Exec (Table 16 32) := do
  let index1 : BitVec 32 := (virtualPageNumber &&& 15).setWidth 32
  let e ← line l1Tlb index1.toNat
  let oldVaddr1 := (e.tag <<< 4) ||| index1
  if e.v ∧ oldVaddr1 = oldVaddr2 then setLine l1Tlb index1.toNat { e with v := false }
  else return l1Tlb

def invalidation (s : Tlbs) (virtualPageNumber : BitVec 64) (access : MemAccess) :
    Exec (ErrorCode × Tlbs) := do
  let index2 : BitVec 32 := (virtualPageNumber &&& 63).setWidth 32
  let tag2Older : BitVec 32 := (← line s.l2Tlb index2.toNat).tag.setWidth 32
  let oldVaddr2 := (tag2Older <<< 6) ||| index2
  match access with
  | .instruction =>
    return (.errNone, { s with l1DTlb := ← invalidateIn s.l1DTlb virtualPageNumber oldVaddr2 })
  | .data =>
    return (.errNone, { s with l1ITlb := ← invalidateIn s.l1ITlb virtualPageNumber oldVaddr2 })
  | .invalid => return (.errBadParameter, s)

/-- What `tlb_search` returns and leaves in `paddr` and `hit_or_miss`, `none` if not written. -/
structure Search where
  err : ErrorCode
  paddr : PhyAddr
  hitOrMiss : Option Bool
  deriving DecidableEq, Repr

/-- The `switch` of `tlb_search` on the access, `none` in its default case. -/
def searchL1 (vaddr : VirtAddr) (paddr : PhyAddr) (access : MemAccess) (s : Tlbs) :
    Exec (Option (Bool × PhyAddr)) :=
  match access with
  | .instruction => some <$> tlbHit vaddr paddr s.l1ITlb .l1ITlb
  | .data => some <$> tlbHit vaddr paddr s.l1DTlb .l1DTlb
  | .invalid => pure none

def tlbSearch (memSpace : Memory size) (vaddr : VirtAddr) (paddr : PhyAddr) (access : MemAccess)
    (s : Tlbs) : Exec (Search × Tlbs) := do
  match ← searchL1 vaddr paddr access s with
  | none => return (⟨.errBadParameter, paddr, none⟩, s)
  | some (true, paddr) => return (⟨.errNone, paddr, some true⟩, s)
  | some (false, paddr) =>
    let (hitOrMiss, paddr) ← tlbHit vaddr paddr s.l2Tlb .l2Tlb
    let addr := virtAddrToVirtualPageNumber vaddr
    if hitOrMiss then
      let (err, s) ← insertL1 s addr paddr access
      return (⟨err, paddr, some true⟩, s)
    let (err, paddr) ← pageWalk memSpace vaddr paddr
    if err ≠ .errNone then return (⟨err, paddr, some false⟩, s)
    let (errEvictor, s) ← invalidation s addr access
    if errEvictor ≠ .errNone then return (⟨errEvictor, paddr, some false⟩, s)
    let tagL2 : BitVec 32 := (addr >>> 6).setWidth 32
    let indexL2 : BitVec 32 := (addr &&& 63).setWidth 32
    let (errL2, l2Tlb) ←
      tlbInsert indexL2 ⟨tagL2.setWidth 30, paddr.phyPageNum, true⟩ s.l2Tlb .l2Tlb
    if errL2 ≠ .errNone then return (⟨errL2, paddr, some false⟩, s)
    let (err, s) ← insertL1 { s with l2Tlb } addr paddr access
    return (⟨err, paddr, some false⟩, s)

end KabyLake.TlbHrchy
