import KabyLake.Library.Loops
import KabyLake.Proofs.TlbHrchySearch

/-!
# A table of the two-level TLB as a store

Entries made by `tlb_entry_init` and inserted at the lines of their pages are looked up by
`tlb_hit`. In the first level a lookup finds the last entry inserted in its line if that is of its
page. In the second it looks at line `p % 16` with the tag of `p`, so it finds the page with bits 4
and 5 cleared instead (`tlbHit_inserts`).
-/

namespace KabyLake.TlbHrchy

/-- The bits of the page number that are the line. -/
def TlbT.bits : TlbT → ℕ
  | .l2Tlb => 6
  | _ => 4

/-- The bits of the tag. -/
def TlbT.tagBits : TlbT → ℕ
  | .l2Tlb => 30
  | _ => 32

variable {tlbType : TlbT}

theorem TlbT.lines_eq (tlbType : TlbT) : tlbType.lines = 2 ^ tlbType.bits := by
  cases tlbType <;> rfl

/-- The line of the table a page is inserted at. -/
def TlbT.lineOf (tlbType : TlbT) (page : ℕ) : Fin tlbType.lines :=
  ⟨page % 2 ^ tlbType.bits, by rw [tlbType.lines_eq]; exact Nat.mod_lt _ (by positivity)⟩

/-- The page whose entry a lookup of a page finds. -/
def TlbT.found (tlbType : TlbT) (page : ℕ) : ℕ :=
  page / 2 ^ tlbType.bits * 2 ^ tlbType.bits + page % 16

/-- `tlb_entry_init` and then `tlb_insert` at the line of the page. -/
def insertEntry (tlbType : TlbT) (tlb : Table tlbType.lines tlbType.tagBits)
    (mapping : VirtAddr × PhyAddr) : Exec (Table tlbType.lines tlbType.tagBits) := do
  let (_, entry) := tlbEntryInit mapping.1 mapping.2 tlbType
  let mask := BitVec.ofNat 64 (tlbType.lines - 1)
  let (_, tlb) ← tlbInsert ((virtAddrToVirtualPageNumber mapping.1 &&& mask).setWidth 32) entry tlb
    tlbType
  return tlb

theorem init_eq (vaddr : VirtAddr) (paddr : PhyAddr) (bits t : ℕ) :
    (init bits (virtAddrToVirtualPageNumber vaddr) paddr : Entry t)
      = entryFor t bits vaddr.vpn paddr.phyPageNum := by
  have htag : (virtAddrToVirtualPageNumber vaddr >>> bits).setWidth t
      = BitVec.ofNat t (vaddr.vpn / 2 ^ bits) := by
    apply BitVec.eq_of_toNat_eq
    rw [BitVec.toNat_setWidth, BitVec.toNat_ushiftRight, Nat.shiftRight_eq_div_pow,
      virtAddrToVirtualPageNumber_toNat, BitVec.toNat_ofNat]
  rw [init, htag, entryFor]

theorem tlbEntryInit_eq (vaddr : VirtAddr) (paddr : PhyAddr) (tlbType : TlbT) :
    tlbEntryInit vaddr paddr tlbType
      = (.errNone, entryFor tlbType.tagBits tlbType.bits vaddr.vpn paddr.phyPageNum) := by
  cases tlbType with
  | l1ITlb => exact congrArg _ (init_eq vaddr paddr 4 32)
  | l1DTlb => exact congrArg _ (init_eq vaddr paddr 4 32)
  | l2Tlb => exact congrArg _ (init_eq vaddr paddr 6 30)

theorem insertEntry_eq (tlb : Table tlbType.lines tlbType.tagBits)
    (mapping : VirtAddr × PhyAddr) : insertEntry tlbType tlb mapping
      = .ok (Function.update tlb (tlbType.lineOf mapping.1.vpn)
        (entryFor tlbType.tagBits tlbType.bits mapping.1.vpn mapping.2.phyPageNum)) := by
  have hline : ((virtAddrToVirtualPageNumber mapping.1
      &&& BitVec.ofNat 64 (tlbType.lines - 1)).setWidth 32).toNat
        = (tlbType.lineOf mapping.1.vpn).val := by
    cases tlbType with
    | l1ITlb => exact toNat_index16 mapping.1
    | l1DTlb => exact toNat_index16 mapping.1
    | l2Tlb => exact toNat_index64 mapping.1
  simp only [insertEntry, tlbEntryInit_eq, tlbInsert_eq tlbType hline rfl, Exec.ok_bind,
    Exec.pure_eq]

theorem lineOf_found (tlbType : TlbT) (page : ℕ) :
    (tlbType.lineOf (tlbType.found page)).val = page % 16 := by
  cases tlbType with
  | l1ITlb =>
    show (page / 2 ^ 4 * 2 ^ 4 + page % 16) % 2 ^ 4 = page % 16
    omega
  | l1DTlb =>
    show (page / 2 ^ 4 * 2 ^ 4 + page % 16) % 2 ^ 4 = page % 16
    omega
  | l2Tlb =>
    show (page / 2 ^ 6 * 2 ^ 6 + page % 16) % 2 ^ 6 = page % 16
    omega

theorem tlbHit_eq (vaddr : VirtAddr) (paddr : PhyAddr)
    (tlb : Table tlbType.lines tlbType.tagBits) : tlbHit vaddr paddr tlb tlbType
      = .ok (if Answers tlbType.bits (tlb (tlbType.lineOf (tlbType.found vaddr.vpn))) vaddr.vpn
          then (true, ⟨(tlb (tlbType.lineOf (tlbType.found vaddr.vpn))).phyPageNum,
            vaddr.pageOffset⟩)
          else (false, paddr)) := by
  have hline := lineOf_found tlbType vaddr.vpn
  generalize tlbType.lineOf (tlbType.found vaddr.vpn) = line at hline ⊢
  obtain ⟨i, hi⟩ := line
  obtain rfl : i = vaddr.vpn % 16 := hline
  cases tlbType with
  | l1ITlb => exact hit_eq vaddr paddr tlb (by decide) (by decide) (by decide)
  | l1DTlb => exact hit_eq vaddr paddr tlb (by decide) (by decide) (by decide)
  | l2Tlb => exact hit_eq vaddr paddr tlb (by decide) (by decide) (by decide)

/-- In the line looked at, an entry answers exactly if its page is the one found. -/
theorem answers_iff_found {page page' : ℕ} (hpage : page < 2 ^ 36)
    (hline : page % 2 ^ tlbType.bits = page' % 16) (frame : BitVec 20) :
    Answers tlbType.bits (entryFor tlbType.tagBits tlbType.bits page frame) page'
      ↔ page = tlbType.found page' := by
  have htag : page / 2 ^ tlbType.bits < 2 ^ tlbType.tagBits := by
    cases tlbType <;> simp only [TlbT.bits, TlbT.tagBits] <;> omega
  rw [answers_entryFor htag]
  cases tlbType <;> simp only [TlbT.bits, TlbT.found] at hline ⊢ <;> omega

/-- Whatever the table held, a lookup after any entries finds the last one inserted in the line it
looks at if that is of the page it finds, and without one it finds what it found before. -/
theorem tlbHit_inserts (tlb : Table tlbType.lines tlbType.tagBits)
    (mappings : List (VirtAddr × PhyAddr)) (vaddr : VirtAddr) (paddr : PhyAddr) :
    ∃ tlb', mappings.foldlM (insertEntry tlbType) tlb = .ok tlb'
      ∧ tlbHit vaddr paddr tlb' tlbType
        = match mappings.reverse.find? fun mapping =>
            decide (mapping.1.vpn % 2 ^ tlbType.bits = vaddr.vpn % 16) with
          | none => tlbHit vaddr paddr tlb tlbType
          | some mapping => .ok (if mapping.1.vpn = tlbType.found vaddr.vpn
            then (true, ⟨mapping.2.phyPageNum, vaddr.pageOffset⟩) else (false, paddr)) := by
  obtain ⟨tlb', hrun, hlast⟩ := Loops.foldlM_update_last insertEntry_eq mappings tlb
  refine ⟨tlb', hrun, ?_⟩
  have hline : (fun mapping : VirtAddr × PhyAddr =>
        decide (tlbType.lineOf mapping.1.vpn = tlbType.lineOf (tlbType.found vaddr.vpn)))
      = fun mapping => decide (mapping.1.vpn % 2 ^ tlbType.bits = vaddr.vpn % 16) := by
    funext mapping
    refine decide_eq_decide.2 ?_
    rw [Fin.ext_iff, lineOf_found]
    rfl
  rw [tlbHit_eq, hlast, hline]
  rcases hfind : mappings.reverse.find? fun mapping : VirtAddr × PhyAddr =>
    decide (mapping.1.vpn % 2 ^ tlbType.bits = vaddr.vpn % 16) with _ | mapping
  · exact (tlbHit_eq vaddr paddr tlb).symm
  · have hmapping := List.find?_some hfind
    simp only [decide_eq_true_eq] at hmapping
    simp only [Option.map_some, Option.getD_some, answers_iff_found mapping.1.vpn_lt hmapping]
    rfl

end KabyLake.TlbHrchy
