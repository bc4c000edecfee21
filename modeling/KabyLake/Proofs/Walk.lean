import KabyLake.PageWalk

/-!
# What a page walk depends on

The walk reads the four entries of the virtual address and nothing else of it, so it finds the same
frame for every address of a page and joins it with the offset (`pageWalk_eq`). It goes on from one
page to the next in the same way at each level (`walkFrame_eq`), and of the memory it reads entries
of four tables only (`pageWalk_congr_tables`).
-/

namespace KabyLake

variable {size : ℕ}

/-- The physical page number a walk ends at, `none` if a table entry is not page-aligned. -/
def walkFrame (memSpace : Memory size) (vaddr : VirtAddr) : Exec (Option (BitVec 20)) := do
  let pudTabAddress ← readPageEntry memSpace 0 vaddr.pgdEntry.toNat
  if pudTabAddress % 4096 ≠ 0 then return none
  let pmdTabAddress ← readPageEntry memSpace pudTabAddress vaddr.pudEntry.toNat
  if pmdTabAddress % 4096 ≠ 0 then return none
  let pteTabAddress ← readPageEntry memSpace pmdTabAddress vaddr.pmdEntry.toNat
  if pteTabAddress % 4096 ≠ 0 then return none
  let physical ← readPageEntry memSpace pteTabAddress vaddr.pteEntry.toNat
  if physical % 4096 ≠ 0 then return none
  return some ((physical >>> 12).setWidth 20)

theorem walkFrame_congr (memSpace : Memory size) {v w : VirtAddr} (h : v.vpn = w.vpn) :
    walkFrame memSpace v = walkFrame memSpace w := by
  obtain ⟨h1, h2, h3, h4⟩ := VirtAddr.entries_of_vpn h
  simp only [walkFrame, h1, h2, h3, h4]

/-- A page-aligned beginning and a 12-bit offset are in range. -/
theorem initPhyAddr_aligned (paddr : PhyAddr) {pageBegin : Word} (h : pageBegin % 4096 = 0)
    (offset : BitVec 12) :
    initPhyAddr paddr pageBegin (offset.setWidth 32)
      = (.errNone, ⟨(pageBegin >>> 12).setWidth 20, offset⟩) := by
  have hlt := offset.isLt
  have hshift : offset.setWidth 32 >>> 12 = 0 := by
    rw [Bits.shiftRight_eq_zero_iff, BitVec.toNat_setWidth]
    omega
  have hmask : ((offset.setWidth 32 &&& 0x0FFF).setWidth 16).setWidth 12 = offset := by
    apply BitVec.eq_of_toNat_eq
    rw [BitVec.toNat_setWidth, BitVec.toNat_setWidth, Bits.toNat_and_mask (k := 12) rfl,
      BitVec.toNat_setWidth]
    omega
  rw [initPhyAddr, if_neg (not_not.2 hshift), if_neg (not_not.2 h), hmask]

theorem addr_of_aligned {page : Word} (h : page % 4096 = 0) (offset : BitVec 12) :
    (PhyAddr.mk ((page >>> 12).setWidth 20) offset).addr = page.toNat + offset.toNat := by
  have haligned : page.toNat % 4096 = 0 := by
    simpa using congrArg BitVec.toNat h
  have hlt := page.isLt
  simp only [PhyAddr.addr, BitVec.toNat_setWidth, BitVec.toNat_ushiftRight,
    Nat.shiftRight_eq_div_pow]
  omega

/-- A walk that finds a frame joins it with the offset; one that does not leaves `paddr`. -/
theorem pageWalk_eq (memSpace : Memory size) (vaddr : VirtAddr) (paddr : PhyAddr) :
    pageWalk memSpace vaddr paddr = (walkFrame memSpace vaddr).map fun
      | none => (.errBadParameter, paddr)
      | some frame => (.errNone, ⟨frame, vaddr.pageOffset⟩) := by
  unfold pageWalk walkFrame
  rcases readPageEntry memSpace 0 vaddr.pgdEntry.toNat with e | pud
  · rfl
  simp only [Exec.ok_bind]
  split_ifs with hpud
  · rfl
  rcases readPageEntry memSpace pud vaddr.pudEntry.toNat with e | pmd
  · rfl
  simp only [Exec.ok_bind]
  split_ifs with hpmd
  · rfl
  rcases readPageEntry memSpace pmd vaddr.pmdEntry.toNat with e | pte
  · rfl
  simp only [Exec.ok_bind]
  split_ifs with hpte
  · rfl
  rcases readPageEntry memSpace pte vaddr.pteEntry.toNat with e | phys
  · rfl
  simp only [Exec.ok_bind]
  split_ifs with hphys
  · rfl
  · rw [initPhyAddr_aligned paddr (not_not.1 hphys)]
    rfl

/-- A walk succeeds exactly when it finds a frame. -/
theorem pageWalk_errNone_iff (memSpace : Memory size) (vaddr : VirtAddr) (paddr pa : PhyAddr) :
    pageWalk memSpace vaddr paddr = .ok (.errNone, pa)
      ↔ walkFrame memSpace vaddr = .ok (some pa.phyPageNum) ∧ pa.pageOffset = vaddr.pageOffset := by
  rw [pageWalk_eq]
  rcases walkFrame memSpace vaddr with e | _ | frame
  · simp [Except.map]
  · simp [Except.map]
  · simp only [Except.map, Except.ok.injEq, Prod.mk.injEq, true_and, Option.some.injEq]
    constructor
    · rintro rfl
      exact ⟨rfl, rfl⟩
    · rintro ⟨rfl, h⟩
      rw [← h]

section Tables

variable {m m' : Memory size}

/-- The indices of the four levels. -/
def VirtAddr.indices (vaddr : VirtAddr) : List ℕ :=
  [vaddr.pgdEntry.toNat, vaddr.pudEntry.toNat, vaddr.pmdEntry.toNat, vaddr.pteEntry.toNat]

theorem VirtAddr.lt_of_mem_indices (vaddr : VirtAddr) : ∀ index ∈ vaddr.indices, index < 512 := by
  unfold indices
  simp only [List.forall_mem_cons, List.not_mem_nil, false_implies, implies_true, and_true]
  exact ⟨vaddr.pgdEntry.isLt, vaddr.pudEntry.isLt, vaddr.pmdEntry.isLt, vaddr.pteEntry.isLt⟩

/-- The page a walk ends at from another one on, `none` if an entry is not page-aligned. -/
def walkPages (memSpace : Memory size) : Word → List ℕ → Exec (Option Word)
  | page, [] => .ok (some page)
  | page, index :: indices => do
    let next ← readPageEntry memSpace page index
    if next % 4096 ≠ 0 then return none
    walkPages memSpace next indices

/-- The frame of a walk is that of the page it ends at. -/
theorem walkFrame_eq (memSpace : Memory size) (vaddr : VirtAddr) : walkFrame memSpace vaddr
    = (walkPages memSpace 0 vaddr.indices).map (Option.map fun page : Word =>
      (page >>> 12).setWidth 20) := by
  simp only [walkFrame, VirtAddr.indices, walkPages, Exec.map_bind, apply_ite (Except.map _)]
  rfl

theorem walkPages_aligned : ∀ {indices : List ℕ} {page last : Word}, page % 4096 = 0 →
    walkPages m page indices = .ok (some last) → last % 4096 = 0
  | [], _, _, hpage, h => by
    cases h
    exact hpage
  | index :: indices, page, last, _, h => by
    obtain ⟨next, -, h⟩ := Exec.bind_eq_ok h
    by_cases hnext : next % 4096 = 0
    · rw [if_neg (not_not_intro hnext)] at h
      exact walkPages_aligned hnext h
    · rw [if_pos hnext] at h
      cases h

/-- A walk has no fault but to read outside the memory. -/
theorem walkPages_error {fault : Fault} : ∀ {indices : List ℕ} {page : Word},
    walkPages m page indices = .error fault → fault = .memory
  | [], _, h => by cases h
  | index :: indices, page, h => by
    rw [walkPages] at h
    rcases hnext : readPageEntry m page index with e | next
    · rw [hnext] at h
      cases h
      unfold readPageEntry Memory.loadWord at hnext
      split_ifs at hnext
      cases hnext
      rfl
    · rw [hnext, Exec.ok_bind] at h
      split_ifs at h
      · cases h
      · exact walkPages_error h

theorem pageWalk_error {vaddr : VirtAddr} {paddr : PhyAddr} {fault : Fault}
    (h : pageWalk m vaddr paddr = .error fault) : fault = .memory := by
  rw [pageWalk_eq, walkFrame_eq] at h
  rcases hpages : walkPages m 0 vaddr.indices with e | last
  · rw [hpages] at h
    cases h
    exact walkPages_error hpages
  · rw [hpages] at h
    cases h

/-- The tables read from `page` on, one for each index. -/
def tablesFrom (memSpace : Memory size) : Word → List ℕ → List Word
  | _, [] => []
  | page, index :: indices => page :: match readPageEntry memSpace page index with
    | .ok next => tablesFrom memSpace next indices
    | .error _ => []

/-- The tables a walk reads, the first at offset 0. -/
def walkTables (memSpace : Memory size) (vaddr : VirtAddr) : List Word :=
  tablesFrom memSpace 0 vaddr.indices

theorem tablesFrom_of_ok {page next : Word} {index : ℕ} (indices : List ℕ)
    (h : readPageEntry m page index = .ok next) :
    tablesFrom m page (index :: indices) = page :: tablesFrom m next indices := by
  rw [tablesFrom, h]

theorem walkPages_congr : ∀ {indices : List ℕ} {page : Word}, (∀ index ∈ indices, index < 512) →
    (∀ table ∈ tablesFrom m page indices, ∀ index < 512,
      readPageEntry m' table index = readPageEntry m table index) →
    walkPages m' page indices = walkPages m page indices
  | [], _, _, _ => rfl
  | index :: indices, page, hlt, h => by
    rw [List.forall_mem_cons] at hlt
    rw [tablesFrom, List.forall_mem_cons] at h
    rw [walkPages, walkPages, h.1 index hlt.1]
    rcases hnext : readPageEntry m page index with e | next
    · rfl
    rw [hnext] at h
    rw [Exec.ok_bind, Exec.ok_bind]
    split_ifs
    · rfl
    · exact walkPages_congr hlt.2 h.2

/-- A walk is the same in two memories that have the same entries in the tables it reads. -/
theorem pageWalk_congr_tables {vaddr : VirtAddr}
    (h : ∀ page ∈ walkTables m vaddr, ∀ index < 512,
      readPageEntry m' page index = readPageEntry m page index) (paddr : PhyAddr) :
    pageWalk m' vaddr paddr = pageWalk m vaddr paddr := by
  rw [pageWalk_eq, pageWalk_eq, walkFrame_eq, walkFrame_eq,
    walkPages_congr vaddr.lt_of_mem_indices h]

end Tables

end KabyLake
