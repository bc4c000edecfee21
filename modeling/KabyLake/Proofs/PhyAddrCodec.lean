import KabyLake.Proofs.Walk

/-!
# The physical address codec

`init_phy_addr` takes a page's beginning apart from its offset, and `phy_to_uint32` puts the two
together. The page number is promoted to `int` there, so the shift by 12 only has a value for the
lower half of the pages.
-/

namespace KabyLake

variable (paddr : PhyAddr)

theorem fits_int_iff {n : ℕ} : (CInt.int 32).Fits n ↔ n < 2 ^ 31 := by
  rw [CInt.IntType.fits_natCast, if_pos rfl, Nat.shiftLeft_eq]
  show n * 2 ^ 1 < 2 ^ 32 ↔ n < 2 ^ 31
  omega

theorem fits_uint_iff {n : ℕ} : (CInt.uint 32).Fits n ↔ n < 2 ^ 32 := CInt.IntType.fits_natCast

/-- The shift of a page number has a value in the lower half of the pages. -/
theorem shl_phyPageNum (page : BitVec 20) :
    CInt.shl 32 (CInt.field page) (CInt.ofNum (CInt.int 32) 12)
      = if page.toNat < 2 ^ 19
        then some (CInt.ofNum ((CInt.uint 20).promoted 32) (page.toNat * 2 ^ 12 : ℕ))
        else none := by
  rw [CInt.shl_signed (k := 12) (CInt.num_field page) rfl (by decide) rfl]
  exact if_congr (fits_int_iff (n := page.toNat * 2 ^ 12).trans (by omega)) rfl rfl

theorem phyToUint32Typed_eq :
    phyToUint32Typed paddr
      = if paddr.phyPageNum.toNat < 2 ^ 19 then some (phyToUint32 paddr) else none := by
  have hoffset := paddr.pageOffset.isLt
  rw [phyToUint32Typed, shl_phyPageNum]
  split_ifs with hpage
  · have hfits : ((CInt.uint 20).promoted 32).Fits (paddr.phyPageNum.toNat * 2 ^ 12 : ℕ) :=
      fits_int_iff.2 (by omega)
    have hor := CInt.num_bitOr (w := 32) (CInt.num_ofNum hfits) (CInt.num_field paddr.pageOffset)
      hfits (fits_int_iff.2 (by omega))
    have hjoin : paddr.phyPageNum.toNat * 2 ^ 12 ||| paddr.pageOffset.toNat = paddr.addr := by
      rw [← Nat.shiftLeft_eq, ← Nat.shiftLeft_add_eq_or_of_lt hoffset, Nat.shiftLeft_eq,
        PhyAddr.addr]
    refine congrArg some (BitVec.eq_of_toNat_eq ?_)
    rw [CInt.Value.convert, hor, hjoin, CInt.toNat_ofNum (fits_uint_iff.2 paddr.addr_lt),
      phyToUint32_toNat]
  · rfl

section Composition

variable {pageBegin pageOffset : Word}

theorem page_aligned_iff : pageBegin % 4096 = 0 ↔ 4096 ∣ pageBegin.toNat := by
  rw [← BitVec.toNat_inj, BitVec.toNat_umod]
  exact Nat.dvd_iff_mod_eq_zero.symm

theorem initPhyAddr_errNone_iff :
    (initPhyAddr paddr pageBegin pageOffset).1 = .errNone
      ↔ 4096 ∣ pageBegin.toNat ∧ pageOffset.toNat < 4096 := by
  unfold initPhyAddr
  simp only [ne_eq, Bits.shiftRight_eq_zero_iff, page_aligned_iff, ite_not]
  split_ifs with hoffset hpage
  · exact iff_of_true rfl ⟨hpage, hoffset⟩
  · exact iff_of_false nofun fun h => hpage h.1
  · exact iff_of_false nofun fun h => hoffset h.2

theorem initPhyAddr_unchanged (h : (initPhyAddr paddr pageBegin pageOffset).1 ≠ .errNone) :
    (initPhyAddr paddr pageBegin pageOffset).2 = paddr := by
  unfold initPhyAddr at h ⊢
  split_ifs at h ⊢
  · rfl
  · rfl
  · exact absurd rfl h

variable (hpage : 4096 ∣ pageBegin.toNat) (hoffset : pageOffset.toNat < 4096)
include hpage hoffset

theorem initPhyAddr_accepted :
    initPhyAddr paddr pageBegin pageOffset
      = (.errNone, ⟨(pageBegin >>> 12).setWidth 20, pageOffset.setWidth 12⟩) := by
  have hwidth : (pageOffset.setWidth 12).setWidth 32 = pageOffset := by
    apply BitVec.eq_of_toNat_eq
    rw [BitVec.toNat_setWidth, BitVec.toNat_setWidth]
    omega
  have heq := initPhyAddr_aligned paddr (page_aligned_iff.2 hpage) (pageOffset.setWidth 12)
  rwa [hwidth] at heq

theorem phyPageNum_initPhyAddr :
    (initPhyAddr paddr pageBegin pageOffset).2.phyPageNum.toNat = pageBegin.toNat / 4096 := by
  have hlt := pageBegin.isLt
  rw [initPhyAddr_accepted paddr hpage hoffset, BitVec.toNat_setWidth, BitVec.toNat_ushiftRight,
    Nat.shiftRight_eq_div_pow]
  omega

/-- As it is compiled, `phy_to_uint32` gives the sum for all pages. -/
theorem phyToUint32_initPhyAddr :
    (phyToUint32 (initPhyAddr paddr pageBegin pageOffset).2).toNat
      = pageBegin.toNat + pageOffset.toNat := by
  rw [phyToUint32_toNat, initPhyAddr_accepted paddr hpage hoffset,
    addr_of_aligned (page_aligned_iff.2 hpage), BitVec.toNat_setWidth]
  omega

/-- With its types it gives the sum in the lower half of the memory. -/
theorem phyToUint32Typed_initPhyAddr :
    (∃ word, phyToUint32Typed (initPhyAddr paddr pageBegin pageOffset).2 = some word
        ∧ word.toNat = pageBegin.toNat + pageOffset.toNat)
      ↔ pageBegin.toNat < 2 ^ 31 := by
  rw [phyToUint32Typed_eq, phyPageNum_initPhyAddr paddr hpage hoffset]
  split_ifs with hlt
  · exact iff_of_true ⟨_, rfl, phyToUint32_initPhyAddr paddr hpage hoffset⟩ (by omega)
  · exact iff_of_false nofun (by omega)

end Composition

/-- What `init_phy_addr` accepts and leaves alone, and that `phy_to_uint32` puts together what it
writes with no value on the way that leaves its type. -/
structure ComposesExactly (paddr : PhyAddr) (pageBegin pageOffset : Word) : Prop where
  accepts : (initPhyAddr paddr pageBegin pageOffset).1 = .errNone
    ↔ 4096 ∣ pageBegin.toNat ∧ pageOffset.toNat < 4096
  unchanged : (initPhyAddr paddr pageBegin pageOffset).1 ≠ .errNone →
    (initPhyAddr paddr pageBegin pageOffset).2 = paddr
  composes : (initPhyAddr paddr pageBegin pageOffset).1 = .errNone →
    ∃ word, phyToUint32Typed (initPhyAddr paddr pageBegin pageOffset).2 = some word
      ∧ word.toNat = pageBegin.toNat + pageOffset.toNat

/-- An address is composed exactly when its page is in the lower half of the memory, or when
`init_phy_addr` refuses it. -/
theorem initPhyAddr_composes_iff (paddr : PhyAddr) (pageBegin pageOffset : Word) :
    ComposesExactly paddr pageBegin pageOffset
      ↔ pageBegin.toNat < 2 ^ 31 ∨ ¬ 4096 ∣ pageBegin.toNat ∨ 4096 ≤ pageOffset.toNat := by
  have haccepts : (initPhyAddr paddr pageBegin pageOffset).1 = .errNone
      ↔ 4096 ∣ pageBegin.toNat ∧ pageOffset.toNat < 4096 := initPhyAddr_errNone_iff paddr
  constructor
  · intro h
    by_cases hok : 4096 ∣ pageBegin.toNat ∧ pageOffset.toNat < 4096
    · exact .inl ((phyToUint32Typed_initPhyAddr paddr hok.1 hok.2).1
        (h.composes (haccepts.2 hok)))
    · exact .inr (by omega)
  · intro h
    refine ⟨haccepts, initPhyAddr_unchanged paddr, fun hnone => ?_⟩
    obtain ⟨hpage, hoffset⟩ := haccepts.1 hnone
    exact (phyToUint32Typed_initPhyAddr paddr hpage hoffset).2 (by omega)

/-- The first page of the upper half: its number is shifted out of `int`. -/
theorem initPhyAddr_leaves_int : ¬ ComposesExactly ⟨0, 0⟩ 0x80000000 0 := by
  intro h
  obtain ⟨word, hword, -⟩ := h.composes (by decide)
  have hnone : phyToUint32Typed (initPhyAddr ⟨0, 0⟩ 0x80000000 0).2 = none := by decide
  rw [hnone] at hword
  cases hword

end KabyLake
