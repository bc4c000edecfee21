import KabyLake.LinkedList
import KabyLake.PageWalk

/-!
# The fully-associative TLB

tlb.h and tlb_mng.c: an array of 128 entries and a list of its line indices, the next line to
replace at the front. A call through a function pointer of `replacement_policy_t` runs the field's
function.
-/

namespace KabyLake.Tlb

open Linked (Heap Allocator)

def tlbLines : ℕ := 128

@[ext]
structure TlbEntry where
  tag : BitVec 36
  phyPageNum : BitVec 20
  v : Bool
  deriving DecidableEq, Repr

abbrev Table := Fin tlbLines → TlbEntry

/-- `replacement_policy_t`, less `push_back`, which nothing here calls. -/
structure ReplacementPolicy where
  ll : ListT
  moveBack : Heap Word → ListT → Option ℕ → Exec (Heap Word × ListT)

variable {size : ℕ}

/-- `tlb[i]`. -/
def line (tlb : Table) (i : ℕ) : Exec TlbEntry :=
  if h : i < tlbLines then .ok (tlb ⟨i, h⟩) else .error .slot

/-- `tlb[i] = e`. -/
def setLine (tlb : Table) (i : ℕ) (e : TlbEntry) : Exec Table :=
  if h : i < tlbLines then .ok (Function.update tlb ⟨i, h⟩ e) else .error .slot

def tlbFlush (tlb : Table) : Exec (ErrorCode × Table) := do
  let tlb ← (List.range tlbLines).foldlM (fun tlb i => setLine tlb i ⟨0, 0, false⟩) tlb
  return (.errNone, tlb)

def tlbEntryInit (vaddr : VirtAddr) (paddr : PhyAddr) : ErrorCode × TlbEntry :=
  (.errNone, ⟨(virtAddrToVirtualPageNumber vaddr).setWidth 36, paddr.phyPageNum, true⟩)

def tlbInsert (lineIndex : Word) (entry : TlbEntry) (tlb : Table) : Exec (ErrorCode × Table) := do
  if lineIndex.toNat < tlbLines then return (.errNone, ← setLine tlb lineIndex.toNat entry)
  return (.errBadParameter, tlb)

/-- The loop of `tlb_hit` from a node back to the front: the node whose line holds the page, with
the line's entry. -/
def hitNode (h : Heap Word) (tlb : Table) (virtPageNum : BitVec 64) :
    ℕ → Option ℕ → Exec (Option (ℕ × TlbEntry))
  | _, none => .ok none
  | 0, some _ => .error .fuel
  | fuel + 1, some node => do
    let (node, c) ← ListT.load h (some node)
    let e ← line tlb c.value.toNat
    if virtPageNum = e.tag.setWidth 64 ∧ e.v then return some (node, e)
    hitNode h tlb virtPageNum fuel c.previous

/-- `tlb_hit`, with the heap and the list it leaves. -/
def tlbHit (fuel : ℕ) (vaddr : VirtAddr) (paddr : PhyAddr) (tlb : Table) (h : Heap Word)
    (policy : ReplacementPolicy) : Exec (Bool × PhyAddr × Heap Word × ReplacementPolicy) := do
  let virtPageNum := virtAddrToVirtualPageNumber vaddr
  match ← hitNode h tlb virtPageNum fuel policy.ll.back with
  | some (node, e) =>
    let (h, ll) ← policy.moveBack h policy.ll (some node)
    return (true, ⟨e.phyPageNum, vaddr.pageOffset⟩, h, { policy with ll })
  | none => return (false, paddr, h, policy)

/-- The array, the heap of the list and the policy. -/
structure State where
  tlb : Table
  heap : Heap Word
  policy : ReplacementPolicy

/-- What `tlb_search` returns and leaves in `paddr` and `hit_or_miss`. -/
structure Search where
  err : ErrorCode
  paddr : PhyAddr
  hitOrMiss : Bool
  deriving DecidableEq, Repr

def tlbSearch (fuel : ℕ) (memSpace : Memory size) (vaddr : VirtAddr) (paddr : PhyAddr) (s : State) :
    Exec (Search × State) := do
  let (hitOrMiss, paddr, heap, policy) ← tlbHit fuel vaddr paddr s.tlb s.heap s.policy
  let s : State := ⟨s.tlb, heap, policy⟩
  if hitOrMiss then return (⟨.errNone, paddr, hitOrMiss⟩, s)
  let (err, paddr) ← pageWalk memSpace vaddr paddr
  if err ≠ .errNone then return (⟨err, paddr, hitOrMiss⟩, s)
  let (initErr, entry) := tlbEntryInit vaddr paddr
  if initErr ≠ .errNone then return (⟨.errBadParameter, paddr, hitOrMiss⟩, s)
  let (_, front) ← ListT.load s.heap s.policy.ll.front
  let (insertErr, tlb) ← tlbInsert front.value entry s.tlb
  if insertErr ≠ .errNone then return (⟨.errBadParameter, paddr, hitOrMiss⟩, { s with tlb })
  let (heap, ll) ← s.policy.moveBack s.heap s.policy.ll s.policy.ll.front
  return (⟨.errNone, paddr, hitOrMiss⟩, ⟨tlb, heap, { s.policy with ll }⟩)

/-- `push_back(&ll, &line_index)`. -/
def pushLine (A : Allocator Word) (x : Heap Word × ListT) (lineIndex : ℕ) :
    Exec (Heap Word × ListT) := do
  let (h, ll, _) ← ListT.pushBack A x.1 x.2 (BitVec.ofNat 32 lineIndex)
  return (h, ll)

/-- The set-up in `main` of test-tlb_simple.c: the array flushed and its line indices pushed in
order. -/
def setUp (A : Allocator Word) (tlb : Table) (h : Heap Word) : Exec State := do
  let (_, tlb) ← tlbFlush tlb
  let (h, ll) ← (List.range tlbLines).foldlM (pushLine A) (h, ListT.initList)
  return ⟨tlb, h, ⟨ll, ListT.moveBack A⟩⟩

end KabyLake.Tlb
