import KabyLake.Addr

/-!
# The virtual address codec

The fields of an address are digits of its number, the offset in base 4096 and the entries in base
512. So packing them gives back the number below its reserved bits, and taking the number apart the
fields.
-/

namespace KabyLake

/-- The bits of an entry, as `init_virt_addr64` takes them. -/
theorem indexBits_toNat (u : BitVec 64) (k : ℕ) :
    (((u >>> k).setWidth 16 &&& 0x01FF).setWidth 9).toNat = u.toNat / 2 ^ k % 512 := by
  rw [BitVec.toNat_setWidth, Bits.toNat_and_mask (k := 9) rfl, BitVec.toNat_setWidth,
    BitVec.toNat_ushiftRight, Nat.shiftRight_eq_div_pow]
  omega

theorem offsetBits_toNat (u : BitVec 64) :
    ((u.setWidth 16 &&& 0x0FFF).setWidth 12).toNat = u.toNat % 4096 := by
  rw [BitVec.toNat_setWidth, Bits.toNat_and_mask (k := 12) rfl, BitVec.toNat_setWidth]
  omega

theorem virtAddrToUint64_toNat (vaddr : VirtAddr) :
    (virtAddrToUint64 vaddr).toNat = vaddr.vpn * 4096 + vaddr.pageOffset.toNat := by
  have hlt := vaddr.vpn_lt
  have hvpn := virtAddrToVirtualPageNumber_toNat vaddr
  rw [virtAddrToUint64, Bits.toNat_shiftLeft_or_setWidth (by omega) (by omega), hvpn]
  norm_num

theorem vpn_initVirtAddr64 (u : BitVec 64) :
    (initVirtAddr64 u).vpn = u.toNat / 4096 % 2 ^ 36 := by
  simp only [VirtAddr.vpn, initVirtAddr64, indexBits_toNat]
  omega

theorem virtAddrToUint64_initVirtAddr64 (u : BitVec 64) :
    (virtAddrToUint64 (initVirtAddr64 u)).toNat = u.toNat % 2 ^ 48 := by
  have hoffset : (initVirtAddr64 u).pageOffset.toNat = u.toNat % 4096 := offsetBits_toNat u
  rw [virtAddrToUint64_toNat, vpn_initVirtAddr64, hoffset]
  omega

theorem initVirtAddr64_virtAddrToUint64 {vaddr : VirtAddr} (h : vaddr.reserved = 0) :
    initVirtAddr64 (virtAddrToUint64 vaddr) = vaddr := by
  have h1 := vaddr.pgdEntry.isLt
  have h2 := vaddr.pudEntry.isLt
  have h3 := vaddr.pmdEntry.isLt
  have h4 := vaddr.pteEntry.isLt
  have h5 := vaddr.pageOffset.isLt
  refine VirtAddr.ext h.symm ?_ ?_ ?_ ?_ ?_
  all_goals
    apply BitVec.eq_of_toNat_eq
    simp only [initVirtAddr64, indexBits_toNat, offsetBits_toNat, virtAddrToUint64_toNat,
      VirtAddr.vpn]
    omega

section Fields

variable (vaddr : VirtAddr) (pgdEntry pudEntry pmdEntry pteEntry pageOffset : BitVec 16)

/-- Every parameter of `init_virt_addr` fits its field. -/
def FieldsFit : Prop :=
  pgdEntry.toNat < 2 ^ 9 ∧ pudEntry.toNat < 2 ^ 9 ∧ pmdEntry.toNat < 2 ^ 9
    ∧ pteEntry.toNat < 2 ^ 9 ∧ pageOffset.toNat < 2 ^ 12

/-- The five fields one after the other. -/
def packedAddr : BitVec 64 :=
  BitVec.ofNat 64 (pgdEntry.toNat * 2 ^ 39 + pudEntry.toNat * 2 ^ 30 + pmdEntry.toNat * 2 ^ 21
    + pteEntry.toNat * 2 ^ 12 + pageOffset.toNat)

theorem initVirtAddr_errNone_iff :
    (initVirtAddr vaddr pgdEntry pudEntry pmdEntry pteEntry pageOffset).1 = .errNone
      ↔ FieldsFit pgdEntry pudEntry pmdEntry pteEntry pageOffset := by
  unfold initVirtAddr FieldsFit
  simp only [Bits.shiftRight_eq_zero_iff, ite_not]
  split_ifs with h
  · exact iff_of_true rfl h
  · exact iff_of_false nofun h

variable {pgdEntry pudEntry pmdEntry pteEntry pageOffset}

/-- Fields that fit make the address of their packed value. -/
theorem initVirtAddr_packed (h : FieldsFit pgdEntry pudEntry pmdEntry pteEntry pageOffset) :
    (initVirtAddr vaddr pgdEntry pudEntry pmdEntry pteEntry pageOffset).2
      = initVirtAddr64 (packedAddr pgdEntry pudEntry pmdEntry pteEntry pageOffset) := by
  obtain ⟨h1, h2, h3, h4, h5⟩ := h
  have hfit : pgdEntry >>> 9 = 0 ∧ pudEntry >>> 9 = 0 ∧ pmdEntry >>> 9 = 0 ∧ pteEntry >>> 9 = 0
      ∧ pageOffset >>> 12 = 0 := by
    simp only [Bits.shiftRight_eq_zero_iff]
    exact ⟨h1, h2, h3, h4, h5⟩
  rw [initVirtAddr, if_neg (not_not.2 hfit)]
  refine VirtAddr.ext rfl ?_ ?_ ?_ ?_ ?_
  all_goals
    apply BitVec.eq_of_toNat_eq
    simp only [initVirtAddr64, indexBits_toNat, offsetBits_toNat]
    rw [BitVec.toNat_setWidth, packedAddr, BitVec.toNat_ofNat]
    omega

theorem packedAddr_shiftRight (h : FieldsFit pgdEntry pudEntry pmdEntry pteEntry pageOffset) :
    packedAddr pgdEntry pudEntry pmdEntry pteEntry pageOffset >>> 12
      = virtAddrToVirtualPageNumber
        (initVirtAddr vaddr pgdEntry pudEntry pmdEntry pteEntry pageOffset).2 := by
  obtain ⟨h1, h2, h3, h4, h5⟩ := h
  rw [initVirtAddr_packed vaddr ⟨h1, h2, h3, h4, h5⟩]
  apply BitVec.eq_of_toNat_eq
  rw [virtAddrToVirtualPageNumber_toNat, vpn_initVirtAddr64, BitVec.toNat_ushiftRight,
    Nat.shiftRight_eq_div_pow, packedAddr, BitVec.toNat_ofNat]
  omega

end Fields

/-- `init_virt_addr` accepts the fields exactly when they fit, and then leaves the address of their
packed value, whose bits above the offset are the virtual page number. -/
def PacksFields (vaddr : VirtAddr)
    (pgdEntry pudEntry pmdEntry pteEntry pageOffset : BitVec 16) : Prop :=
  ((initVirtAddr vaddr pgdEntry pudEntry pmdEntry pteEntry pageOffset).1 = .errNone
      ↔ FieldsFit pgdEntry pudEntry pmdEntry pteEntry pageOffset)
    ∧ (FieldsFit pgdEntry pudEntry pmdEntry pteEntry pageOffset →
      (initVirtAddr vaddr pgdEntry pudEntry pmdEntry pteEntry pageOffset).2
          = initVirtAddr64 (packedAddr pgdEntry pudEntry pmdEntry pteEntry pageOffset)
        ∧ packedAddr pgdEntry pudEntry pmdEntry pteEntry pageOffset >>> 12
          = virtAddrToVirtualPageNumber
            (initVirtAddr vaddr pgdEntry pudEntry pmdEntry pteEntry pageOffset).2)

/-- The number of an address is the one it was made of below the reserved bits, an address without
them is the one of its number, and `init_virt_addr` agrees with both. -/
theorem virtAddr_codec :
    (∀ u : BitVec 64, (virtAddrToUint64 (initVirtAddr64 u)).toNat = u.toNat % 2 ^ 48)
      ∧ (∀ vaddr : VirtAddr, vaddr.reserved = 0 → initVirtAddr64 (virtAddrToUint64 vaddr) = vaddr)
      ∧ ∀ (vaddr : VirtAddr) (pgdEntry pudEntry pmdEntry pteEntry pageOffset : BitVec 16),
        PacksFields vaddr pgdEntry pudEntry pmdEntry pteEntry pageOffset :=
  ⟨virtAddrToUint64_initVirtAddr64, fun _ h => initVirtAddr64_virtAddrToUint64 h,
    fun vaddr pgdEntry pudEntry pmdEntry pteEntry pageOffset =>
      ⟨initVirtAddr_errNone_iff vaddr pgdEntry pudEntry pmdEntry pteEntry pageOffset,
        fun h => ⟨initVirtAddr_packed vaddr h, packedAddr_shiftRight vaddr h⟩⟩⟩

theorem virtAddr_codec_fields :
    initVirtAddr64 (virtAddrToUint64 ⟨0, 1, 2, 3, 4, 5⟩) = ⟨0, 1, 2, 3, 4, 5⟩
      ∧ (initVirtAddr ⟨7, 0, 0, 0, 0, 0⟩ 1 2 3 4 5).2 = initVirtAddr64 (packedAddr 1 2 3 4 5) :=
  ⟨virtAddr_codec.2.1 ⟨0, 1, 2, 3, 4, 5⟩ rfl,
    ((virtAddr_codec.2.2 ⟨7, 0, 0, 0, 0, 0⟩ 1 2 3 4 5).2 (by unfold FieldsFit; decide)).1⟩

end KabyLake
