import KabyLake.Memory

/-!
# The page walk

page_walk.c. The walk reads one table entry at each of its four levels and stops at an entry that
is not page-aligned; an entry outside the image is a fault.
-/

namespace KabyLake

variable {size : ℕ}

/-- `read_page_entry`: `start[page_start / sizeof(pte_t) + index]`. -/
def readPageEntry (start : Memory size) (pageStart : Word) (index : ℕ) : Exec Word :=
  start.loadWord (4 * (pageStart.toNat / 4 + index))

/-- `page_walk`, with the physical address it leaves in `paddr`. -/
def pageWalk (memSpace : Memory size) (vaddr : VirtAddr) (paddr : PhyAddr) :
    Exec (ErrorCode × PhyAddr) := do
  let pudTabAddress ← readPageEntry memSpace 0 vaddr.pgdEntry.toNat
  if pudTabAddress % 4096 ≠ 0 then return (.errBadParameter, paddr)
  let pmdTabAddress ← readPageEntry memSpace pudTabAddress vaddr.pudEntry.toNat
  if pmdTabAddress % 4096 ≠ 0 then return (.errBadParameter, paddr)
  let pteTabAddress ← readPageEntry memSpace pmdTabAddress vaddr.pmdEntry.toNat
  if pteTabAddress % 4096 ≠ 0 then return (.errBadParameter, paddr)
  let physical ← readPageEntry memSpace pteTabAddress vaddr.pteEntry.toNat
  if physical % 4096 ≠ 0 then return (.errBadParameter, paddr)
  return initPhyAddr paddr physical (vaddr.pageOffset.setWidth 32)

end KabyLake
