import KabyLake.Basic
import KabyLake.Library.Bits
import KabyLake.Library.CInt

/-!
# Virtual and physical addresses

addr.h and addr_mng.c. A bit-field of `n` bits is a `BitVec n`, so an assignment truncates as in C.
-/

namespace KabyLake

/-- `word_t`, and `pte_t`. -/
abbrev Word := BitVec 32

abbrev Byte := BitVec 8

@[ext]
structure VirtAddr where
  reserved : BitVec 16
  pgdEntry : BitVec 9
  pudEntry : BitVec 9
  pmdEntry : BitVec 9
  pteEntry : BitVec 9
  pageOffset : BitVec 12
  deriving DecidableEq, Repr

@[ext]
structure PhyAddr where
  phyPageNum : BitVec 20
  pageOffset : BitVec 12
  deriving DecidableEq, Repr

/-- `init_virt_addr`: the structure is written only when every parameter fits its field. -/
def initVirtAddr (vaddr : VirtAddr) (pgdEntry pudEntry pmdEntry pteEntry pageOffset : BitVec 16) :
    ErrorCode × VirtAddr :=
  if ¬ (pgdEntry >>> 9 = 0 ∧ pudEntry >>> 9 = 0 ∧ pmdEntry >>> 9 = 0 ∧ pteEntry >>> 9 = 0
      ∧ pageOffset >>> 12 = 0) then (.errBadParameter, vaddr)
  else (.errNone,
    { reserved := 0
      pgdEntry := pgdEntry.setWidth 9
      pudEntry := pudEntry.setWidth 9
      pmdEntry := pmdEntry.setWidth 9
      pteEntry := pteEntry.setWidth 9
      pageOffset := pageOffset.setWidth 12 })

def initVirtAddr64 (vaddr64 : BitVec 64) : VirtAddr where
  pageOffset := (vaddr64.setWidth 16 &&& 0x0FFF).setWidth 12
  pteEntry := ((vaddr64 >>> 12).setWidth 16 &&& 0x01FF).setWidth 9
  pmdEntry := ((vaddr64 >>> (12 + 9)).setWidth 16 &&& 0x01FF).setWidth 9
  pudEntry := ((vaddr64 >>> (12 + 9 + 9)).setWidth 16 &&& 0x01FF).setWidth 9
  pgdEntry := ((vaddr64 >>> (12 + 9 + 9 + 9)).setWidth 16 &&& 0x01FF).setWidth 9
  reserved := 0

/-- `init_phy_addr`: the structure is written only when both parameters are in range. -/
def initPhyAddr (paddr : PhyAddr) (pageBegin pageOffset : Word) : ErrorCode × PhyAddr :=
  if pageOffset >>> 12 ≠ 0 then (.errBadParameter, paddr)
  else if pageBegin % 4096 ≠ 0 then (.errBadParameter, paddr)
  else (.errNone,
    { phyPageNum := (pageBegin >>> 12).setWidth 20
      pageOffset := ((pageOffset &&& 0x0FFF).setWidth 16).setWidth 12 })

/-- `virt_addr_t_to_virtual_page_number`. -/
def virtAddrToVirtualPageNumber (vaddr : VirtAddr) : BitVec 64 :=
  let virtuNumer : BitVec 64 := 0 ||| vaddr.pgdEntry.setWidth 64
  let virtuNumer := (virtuNumer <<< 9) ||| vaddr.pudEntry.setWidth 64
  let virtuNumer := (virtuNumer <<< 9) ||| vaddr.pmdEntry.setWidth 64
  (virtuNumer <<< 9) ||| vaddr.pteEntry.setWidth 64

/-- `virt_addr_t_to_uint64_t`. -/
def virtAddrToUint64 (vaddr : VirtAddr) : BitVec 64 :=
  (virtAddrToVirtualPageNumber vaddr <<< 12) ||| vaddr.pageOffset.setWidth 64

/-- `phy_to_uint32` of cache_mng.c as it is compiled, 32 bits also where the shift leaves `int`. -/
def phyToUint32 (paddr : PhyAddr) : Word :=
  (paddr.phyPageNum.setWidth 32 <<< 12) ||| paddr.pageOffset.setWidth 32

/-- `phy_to_uint32` with the types of its subexpressions: the page number is promoted to `int`, and
a shift that leaves `int` has no value. `mem_init_from_description` repeats the expression. -/
def phyToUint32Typed (paddr : PhyAddr) : Option Word := do
  let page ← CInt.shl 32 (CInt.field paddr.phyPageNum) (CInt.ofNum (CInt.int 32) 12)
  return ((CInt.bitOr 32 page (CInt.field paddr.pageOffset)).convert (CInt.uint 32)).bits

/-- The virtual page number as a number. -/
def VirtAddr.vpn (vaddr : VirtAddr) : ℕ :=
  ((vaddr.pgdEntry.toNat * 512 + vaddr.pudEntry.toNat) * 512 + vaddr.pmdEntry.toNat) * 512
    + vaddr.pteEntry.toNat

/-- The address as a number. -/
def PhyAddr.addr (paddr : PhyAddr) : ℕ := paddr.phyPageNum.toNat * 4096 + paddr.pageOffset.toNat

theorem virtAddrToVirtualPageNumber_toNat (vaddr : VirtAddr) :
    (virtAddrToVirtualPageNumber vaddr).toNat = vaddr.vpn := by
  have h1 := vaddr.pgdEntry.isLt
  have h2 := vaddr.pudEntry.isLt
  have h3 := vaddr.pmdEntry.isLt
  have h4 := vaddr.pteEntry.isLt
  have hp : (0 ||| vaddr.pgdEntry.setWidth 64).toNat = vaddr.pgdEntry.toNat := by simp; omega
  set p : BitVec 64 := 0 ||| vaddr.pgdEntry.setWidth 64 with hpdef
  have hu := Bits.toNat_shiftLeft_or_setWidth (x := p) (y := vaddr.pudEntry) (by omega) (by omega)
  set u := (p <<< 9) ||| vaddr.pudEntry.setWidth 64 with hudef
  have hm := Bits.toNat_shiftLeft_or_setWidth (x := u) (y := vaddr.pmdEntry) (by omega) (by omega)
  set m := (u <<< 9) ||| vaddr.pmdEntry.setWidth 64 with hmdef
  have ht := Bits.toNat_shiftLeft_or_setWidth (x := m) (y := vaddr.pteEntry) (by omega) (by omega)
  simp only [virtAddrToVirtualPageNumber, ← hpdef, ← hudef, ← hmdef, ht, hm, hu, hp, VirtAddr.vpn]
  norm_num

theorem VirtAddr.vpn_lt (vaddr : VirtAddr) : vaddr.vpn < 2 ^ 36 := by
  have h1 := vaddr.pgdEntry.isLt
  have h2 := vaddr.pudEntry.isLt
  have h3 := vaddr.pmdEntry.isLt
  have h4 := vaddr.pteEntry.isLt
  simp only [VirtAddr.vpn]
  omega

/-- Addresses of one page agree in their four entries. -/
theorem VirtAddr.entries_of_vpn {v w : VirtAddr} (h : v.vpn = w.vpn) :
    v.pgdEntry = w.pgdEntry ∧ v.pudEntry = w.pudEntry ∧ v.pmdEntry = w.pmdEntry
      ∧ v.pteEntry = w.pteEntry := by
  have h1 := v.pudEntry.isLt
  have h2 := v.pmdEntry.isLt
  have h3 := v.pteEntry.isLt
  have h4 := w.pudEntry.isLt
  have h5 := w.pmdEntry.isLt
  have h6 := w.pteEntry.isLt
  simp only [VirtAddr.vpn] at h
  refine ⟨?_, ?_, ?_, ?_⟩ <;> apply BitVec.eq_of_toNat_eq <;> omega

theorem phyToUint32_toNat (paddr : PhyAddr) : (phyToUint32 paddr).toNat = paddr.addr := by
  have h1 := paddr.phyPageNum.isLt
  have h2 := paddr.pageOffset.isLt
  have hp : (paddr.phyPageNum.setWidth 32).toNat = paddr.phyPageNum.toNat := by simp; omega
  rw [phyToUint32, Bits.toNat_shiftLeft_or_setWidth (by omega) (by omega), hp, PhyAddr.addr]
  norm_num

theorem PhyAddr.addr_lt (paddr : PhyAddr) : paddr.addr < 2 ^ 32 := by
  have h1 := paddr.phyPageNum.isLt
  have h2 := paddr.pageOffset.isLt
  simp only [PhyAddr.addr]
  omega

end KabyLake
