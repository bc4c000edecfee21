import KabyLake.Addr
import KabyLake.Library.Draws

/-!
# The program test-addr

The tests of test-addr.c on random addresses. What `rand` returns is a stream, and each test has one
of its own, for the test library may run it in a process of its own. The library is a parameter, and
a test that has failed has no result.
-/

namespace KabyLake.TestAddr

open Draws

abbrev Test := Draw ℕ Unit

/-- What is used of the test library: `ck_assert_int_eq`, of numbers that are not negative, and what
`srunner_ntests_failed` returns after `srunner_run_all` has run tests, each with what `rand` returns
in it. -/
structure TestLibrary where
  ckAssertIntEq : ℕ → ℕ → Test
  srunnerNtestsFailed : List (Test × Stream' ℕ) → ℕ

/-- What the library says of them: an assertion that holds does nothing, one that fails ends its
test, which has then failed, and the number of failed tests is 0 if no test has failed. -/
structure TestLibrary.Documented (lib : TestLibrary) : Prop where
  holds : ∀ x s, lib.ckAssertIntEq x x s = some ((), s)
  fails : ∀ x y s, x ≠ y → lib.ckAssertIntEq x y s = none
  counts : ∀ runs, lib.srunnerNtestsFailed runs = 0 ↔ ∀ run ∈ runs, (run.1 run.2).isSome = true

/-- The loop of `generate_Nbit_random`. -/
def nbitLoop : ℕ → BitVec 64 → Draw ℕ (BitVec 64)
  | 0, val => pure val
  | n + 1, val => do
    let r ← next
    nbitLoop n ((val <<< 1) ||| BitVec.ofNat 64 (r % 2))

/-- `generate_Nbit_random`, assigned to a variable of `w` bits. -/
def generateNbitRandom (w n : ℕ) : Draw ℕ (BitVec w) := do
  let val ← nbitLoop n 0
  return val.setWidth w

variable (lib : TestLibrary)

/-- `ck_assert_err_none`, of the values of the enumeration. -/
def ckAssertErrNone (err : ErrorCode) : Test :=
  lib.ckAssertIntEq err.ctorIdx ErrorCode.errNone.ctorIdx

def ckAssertBadParam (err : ErrorCode) : Test :=
  lib.ckAssertIntEq err.ctorIdx ErrorCode.errBadParameter.ctorIdx

/-- `REPEAT`, without a variable that lasts. -/
def repeatTest (n : ℕ) (body : Test) : Test := times (fun _ => body) n ()

/-- `addr_basic_test_1`. -/
def addrBasicTest1 : Test := do
  let _ ← times (fun vaddr => do
    let pgdEntry ← generateNbitRandom 16 9
    let pudEntry ← generateNbitRandom 16 9
    let pmdEntry ← generateNbitRandom 16 9
    let pteEntry ← generateNbitRandom 16 9
    let pageOffset ← generateNbitRandom 16 12
    let vaddr := (initVirtAddr vaddr pgdEntry pudEntry pmdEntry pteEntry pageOffset).2
    lib.ckAssertIntEq vaddr.pgdEntry.toNat pgdEntry.toNat
    lib.ckAssertIntEq vaddr.pudEntry.toNat pudEntry.toNat
    lib.ckAssertIntEq vaddr.pmdEntry.toNat pmdEntry.toNat
    lib.ckAssertIntEq vaddr.pteEntry.toNat pteEntry.toNat
    lib.ckAssertIntEq vaddr.pageOffset.toNat pageOffset.toNat
    return vaddr) 100 ⟨0, 0, 0, 0, 0, 0⟩

/-- `ERR_NONE_CHECK`. -/
def errNoneCheck : Test :=
  ckAssertErrNone lib (initVirtAddr ⟨0, 0, 0, 0, 0, 0⟩ 0x1FF 0x1FF 0x1FF 0x1FF 0x1FF).1

/-- `test_init_virt_addr`; `vaddr` is what the variable holds. -/
def testInitVirtAddr (vaddr : VirtAddr) : Test := repeatTest 100 do
  let pgd ← generateNbitRandom 64 16
  let pud ← generateNbitRandom 64 16
  let pmd ← generateNbitRandom 64 16
  let pte ← generateNbitRandom 64 16
  let pageOffset ← generateNbitRandom 64 16
  let err := (initVirtAddr vaddr (pgd.setWidth 16) (pud.setWidth 16) (pmd.setWidth 16)
    (pte.setWidth 16) (pageOffset.setWidth 16)).1
  if pgd > 511 ∨ pud > 511 ∨ pmd > 511 ∨ pte > 511 ∨ pageOffset > 4095 then ckAssertBadParam lib err
  else ckAssertErrNone lib err

/-- `virt_addr_t_to_virtual_page_number_test`. -/
def virtAddrToVirtualPageNumberTest : Test := repeatTest 100 do
  let pgd ← generateNbitRandom 16 9
  let pud ← generateNbitRandom 16 9
  let pmd ← generateNbitRandom 16 9
  let pte ← generateNbitRandom 16 9
  let vaddr : VirtAddr := ⟨0, pgd.setWidth 9, pud.setWidth 9, pmd.setWidth 9, pte.setWidth 9, 0⟩
  let vaddr1 := virtAddrToVirtualPageNumber vaddr
  let final := initVirtAddr64 (vaddr1 <<< 12)
  lib.ckAssertIntEq final.pgdEntry.toNat vaddr.pgdEntry.toNat
  lib.ckAssertIntEq final.pmdEntry.toNat vaddr.pmdEntry.toNat
  lib.ckAssertIntEq final.pudEntry.toNat vaddr.pudEntry.toNat
  lib.ckAssertIntEq final.pteEntry.toNat vaddr.pteEntry.toNat

/-- `virt_addr_to_uint64`. -/
def virtAddrToUint64Test : Test := repeatTest 100 do
  let pgd ← generateNbitRandom 16 9
  let pud ← generateNbitRandom 16 9
  let pmd ← generateNbitRandom 16 9
  let pte ← generateNbitRandom 16 9
  let off ← generateNbitRandom 16 12
  let vaddr : VirtAddr :=
    ⟨0, pgd.setWidth 9, pud.setWidth 9, pmd.setWidth 9, pte.setWidth 9, off.setWidth 12⟩
  let test := virtAddrToUint64 vaddr
  let mask9 : BitVec 64 := 0b111111111
  let maskoff : BitVec 64 := 0b111111111111
  lib.ckAssertIntEq (test &&& maskoff).toNat vaddr.pageOffset.toNat
  lib.ckAssertIntEq ((test >>> 12) &&& mask9).toNat vaddr.pteEntry.toNat
  lib.ckAssertIntEq ((test >>> (12 + 9)) &&& mask9).toNat vaddr.pmdEntry.toNat
  lib.ckAssertIntEq ((test >>> (12 + 9 + 9)) &&& mask9).toNat vaddr.pudEntry.toNat
  lib.ckAssertIntEq ((test >>> (12 + 9 + 9 + 9)) &&& mask9).toNat vaddr.pgdEntry.toNat

/-- `init_phy_addr_test`. -/
def initPhyAddrTest : Test := repeatTest 100 do
  let pagenum ← generateNbitRandom 32 32
  let off ← generateNbitRandom 32 12
  let phyad := (initPhyAddr ⟨0, 0⟩ pagenum off).2
  lib.ckAssertIntEq off.toNat phyad.pageOffset.toNat
  lib.ckAssertIntEq (pagenum >>> 12).toNat phyad.phyPageNum.toNat

def addrTestSuite (vaddr : VirtAddr) : List Test :=
  [addrBasicTest1 lib, errNoneCheck lib, testInitVirtAddr lib vaddr,
    virtAddrToVirtualPageNumberTest lib, virtAddrToUint64Test lib, initPhyAddrTest lib]

/-- `main`: `EXIT_SUCCESS` or `EXIT_FAILURE`. -/
def main (vaddr : VirtAddr) (rands : ℕ → Stream' ℕ) : ℕ :=
  let numberFailed := lib.srunnerNtestsFailed
    ((addrTestSuite lib vaddr).zipIdx.map fun test => (test.1, rands test.2))
  if numberFailed = 0 then 0 else 1

end KabyLake.TestAddr
