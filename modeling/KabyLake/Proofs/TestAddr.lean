import KabyLake.Proofs.PhyAddrCodec
import KabyLake.Proofs.VirtAddrCodec
import KabyLake.TestAddr

/-!
# When the tests of addresses pass

The tests of virtual addresses pass whatever `rand` returns. That of physical addresses draws page
begins that are not of a page, and passes only where `init_phy_addr` accepts what it draws or leaves
zeros that are right (`main_success_iff`). With the library as it is documented, an assertion is a
check.
-/

namespace KabyLake.TestAddr

open Draws

section Random

variable {w n : ℕ} {s : Stream' ℕ}

/-- The number whose bits are drawn, the highest first. -/
def drawn : ℕ → Stream' ℕ → ℕ
  | 0, _ => 0
  | n + 1, s => s.head % 2 * 2 ^ n + drawn n s.tail

theorem drawn_lt : ∀ (n : ℕ) (s : Stream' ℕ), drawn n s < 2 ^ n
  | 0, _ => Nat.one_pos
  | n + 1, s => by
    have hbit : s.head % 2 < 2 := Nat.mod_lt _ (by norm_num)
    have hrest := drawn_lt n s.tail
    calc s.head % 2 * 2 ^ n + drawn n s.tail < s.head % 2 * 2 ^ n + 2 ^ n := by omega
      _ = (s.head % 2 + 1) * 2 ^ n := by ring
      _ ≤ 2 * 2 ^ n := Nat.mul_le_mul_right _ hbit
      _ = 2 ^ (n + 1) := by ring

theorem yields_nbitLoop : ∀ (n : ℕ) (val : BitVec 64),
    Yields n (fun s => BitVec.ofNat 64 (val.toNat * 2 ^ n + drawn n s)) (nbitLoop n val)
  | 0, val => by
    intro s
    simp only [drawn, pow_zero, mul_one, add_zero, BitVec.ofNat_toNat, BitVec.setWidth_eq]
    rfl
  | n + 1, val => by
    intro s
    have hstep := (yields_next.bind fun r =>
      yields_nbitLoop n ((val <<< 1) ||| BitVec.ofNat 64 (r % 2))) s
    rw [add_comm 1 n] at hstep
    refine hstep.trans (congrArg (fun v => some (v, _)) (BitVec.eq_of_toNat_eq ?_))
    have hbit : s.head % 2 < 2 := Nat.mod_lt _ (by norm_num)
    have hval : (BitVec.ofNat 64 (s.head % 2)).toNat = s.head % 2 := by
      rw [BitVec.toNat_ofNat, Nat.mod_eq_of_lt (by omega)]
    rw [BitVec.toNat_ofNat, BitVec.toNat_ofNat, Bits.toNat_shiftLeft_or (by omega) (by omega), hval]
    -- what is shifted out of 64 bits does not matter
    refine ((Nat.mod_modEq _ _).mul_right (2 ^ n) |>.add_right (drawn n s.tail)).trans ?_
    show _ % 2 ^ 64 = _ % 2 ^ 64
    rw [drawn]
    ring_nf

theorem yields_generateNbitRandom (hw : w ≤ 64) (n : ℕ) :
    Yields n (fun s => BitVec.ofNat w (drawn n s)) (generateNbitRandom w n) := by
  have hloop := (yields_nbitLoop n 0).bind fun val => yields_pure (val.setWidth w)
  intro s
  refine (hloop s).trans (congrArg (fun v => some (v, _)) (BitVec.eq_of_toNat_eq ?_))
  have hdvd : 2 ^ w ∣ 2 ^ 64 := pow_dvd_pow 2 hw
  rw [BitVec.toNat_setWidth, BitVec.toNat_ofNat, BitVec.toNat_ofNat, Nat.mod_mod_of_dvd _ hdvd]
  simp

/-- What is drawn fits its bits. -/
theorem toNat_drawn_lt (n : ℕ) (s : Stream' ℕ) : (BitVec.ofNat w (drawn n s)).toNat < 2 ^ n := by
  rw [BitVec.toNat_ofNat]
  exact (Nat.mod_le _ _).trans_lt (drawn_lt n s)

/-- A test after a number is drawn. -/
theorem succeeds_generate {α : Type} {g : BitVec w → Draw ℕ α} (hw : w ≤ 64) (n : ℕ)
    (hg : ∀ v : BitVec w, v.toNat < 2 ^ n → Succeeds (g v)) :
    Succeeds (generateNbitRandom w n >>= g) :=
  (yields_generateNbitRandom hw n).bind_succeeds (toNat_drawn_lt n) hg

end Random

section Tests

variable {lib : TestLibrary}

theorem TestLibrary.Documented.ckAssertIntEq_eq (hlib : lib.Documented) (x y : ℕ) :
    lib.ckAssertIntEq x y = check (x = y) := by
  funext s
  by_cases h : x = y
  · subst h
    rw [hlib.holds, check, if_pos rfl]
    rfl
  · rw [hlib.fails x y s h, check, if_neg h]
    rfl

/-- Entries and an offset that fit are accepted. -/
theorem initVirtAddr_fits {vaddr : VirtAddr} {pgd pud pmd pte offset : BitVec 16}
    (h : FieldsFit pgd pud pmd pte offset) : initVirtAddr vaddr pgd pud pmd pte offset
      = (.errNone, ⟨0, pgd.setWidth 9, pud.setWidth 9, pmd.setWidth 9, pte.setWidth 9,
        offset.setWidth 12⟩) := by
  unfold initVirtAddr
  simp only [Bits.shiftRight_eq_zero_iff]
  exact if_neg (not_not.2 h)

theorem initVirtAddr_refused {vaddr : VirtAddr} {pgd pud pmd pte offset : BitVec 16}
    (h : ¬ FieldsFit pgd pud pmd pte offset) :
    (initVirtAddr vaddr pgd pud pmd pte offset).1 = .errBadParameter := by
  unfold initVirtAddr
  simp only [Bits.shiftRight_eq_zero_iff]
  exact congrArg Prod.fst (if_pos h)

theorem toNat_setWidth_of_lt {w n : ℕ} {v : BitVec w} (h : v.toNat < 2 ^ n) :
    (v.setWidth n).toNat = v.toNat := by
  rw [BitVec.toNat_setWidth, Nat.mod_eq_of_lt h]

theorem succeeds_addrBasicTest1 (hlib : lib.Documented) : Succeeds (addrBasicTest1 lib) := by
  simp only [addrBasicTest1, hlib.ckAssertIntEq_eq]
  refine (succeeds_times (fun vaddr => ?_) 100 _).bind fun _ => succeeds_pure ()
  refine succeeds_generate (by norm_num) 9 fun pgd hpgd => ?_
  refine succeeds_generate (by norm_num) 9 fun pud hpud => ?_
  refine succeeds_generate (by norm_num) 9 fun pmd hpmd => ?_
  refine succeeds_generate (by norm_num) 9 fun pte hpte => ?_
  refine succeeds_generate (by norm_num) 12 fun offset hoffset => ?_
  rw [initVirtAddr_fits ⟨hpgd, hpud, hpmd, hpte, hoffset⟩]
  refine succeeds_check_bind (toNat_setWidth_of_lt hpgd) ?_
  refine succeeds_check_bind (toNat_setWidth_of_lt hpud) ?_
  refine succeeds_check_bind (toNat_setWidth_of_lt hpmd) ?_
  refine succeeds_check_bind (toNat_setWidth_of_lt hpte) ?_
  refine succeeds_check_bind (toNat_setWidth_of_lt hoffset) ?_
  exact succeeds_pure _

theorem succeeds_errNoneCheck (hlib : lib.Documented) : Succeeds (errNoneCheck lib) := by
  rw [errNoneCheck, ckAssertErrNone, hlib.ckAssertIntEq_eq]
  exact succeeds_check (by decide)

theorem succeeds_testInitVirtAddr (hlib : lib.Documented) (vaddr : VirtAddr) :
    Succeeds (testInitVirtAddr lib vaddr) := by
  simp only [testInitVirtAddr, repeatTest, ckAssertErrNone, ckAssertBadParam,
    hlib.ckAssertIntEq_eq]
  refine succeeds_times (fun _ => ?_) 100 ()
  refine succeeds_generate (by norm_num) 16 fun pgd hpgd => ?_
  refine succeeds_generate (by norm_num) 16 fun pud hpud => ?_
  refine succeeds_generate (by norm_num) 16 fun pmd hpmd => ?_
  refine succeeds_generate (by norm_num) 16 fun pte hpte => ?_
  refine succeeds_generate (by norm_num) 16 fun offset hoffset => ?_
  -- no argument is cut off on its way to the call
  have hfit : FieldsFit (pgd.setWidth 16) (pud.setWidth 16) (pmd.setWidth 16) (pte.setWidth 16)
      (offset.setWidth 16)
      ↔ ¬ (pgd > 511 ∨ pud > 511 ∨ pmd > 511 ∨ pte > 511 ∨ offset > 4095) := by
    have hentry : (511 : BitVec 64).toNat = 511 := rfl
    have hmax : (4095 : BitVec 64).toNat = 4095 := rfl
    simp only [FieldsFit, toNat_setWidth_of_lt hpgd, toNat_setWidth_of_lt hpud,
      toNat_setWidth_of_lt hpmd, toNat_setWidth_of_lt hpte, toNat_setWidth_of_lt hoffset,
      gt_iff_lt, BitVec.lt_def, hentry, hmax]
    omega
  split_ifs with hlarge
  · exact succeeds_check
      (congrArg ErrorCode.ctorIdx (initVirtAddr_refused fun h => hfit.1 h hlarge))
  · exact succeeds_check
      (congrArg ErrorCode.ctorIdx ((initVirtAddr_errNone_iff ..).2 (hfit.2 hlarge)))

theorem succeeds_virtAddrToVirtualPageNumberTest (hlib : lib.Documented) :
    Succeeds (virtAddrToVirtualPageNumberTest lib) := by
  simp only [virtAddrToVirtualPageNumberTest, repeatTest, hlib.ckAssertIntEq_eq]
  refine succeeds_times (fun _ => ?_) 100 ()
  refine succeeds_generate (by norm_num) 9 fun pgd _ => ?_
  refine succeeds_generate (by norm_num) 9 fun pud _ => ?_
  refine succeeds_generate (by norm_num) 9 fun pmd _ => ?_
  refine succeeds_generate (by norm_num) 9 fun pte _ => ?_
  have hpage : virtAddrToVirtualPageNumber ⟨0, pgd.setWidth 9, pud.setWidth 9, pmd.setWidth 9,
      pte.setWidth 9, 0⟩ <<< 12 = virtAddrToUint64 ⟨0, pgd.setWidth 9, pud.setWidth 9,
        pmd.setWidth 9, pte.setWidth 9, 0⟩ := by
    rw [virtAddrToUint64]
    exact BitVec.or_zero.symm
  rw [hpage, initVirtAddr64_virtAddrToUint64 rfl]
  refine succeeds_check_bind rfl ?_
  refine succeeds_check_bind rfl ?_
  refine succeeds_check_bind rfl ?_
  exact succeeds_check rfl

/-- An entry of an address, as the mask takes it. -/
theorem toNat_entry (vaddr : VirtAddr) (k : ℕ) :
    ((virtAddrToUint64 vaddr >>> k) &&& 0b111111111).toNat
      = (vaddr.vpn * 4096 + vaddr.pageOffset.toNat) / 2 ^ k % 512 := by
  rw [Bits.toNat_and_mask (k := 9) rfl, BitVec.toNat_ushiftRight, Nat.shiftRight_eq_div_pow,
    virtAddrToUint64_toNat]
  rfl

theorem virtAddrToUint64_fields (vaddr : VirtAddr) :
    (virtAddrToUint64 vaddr &&& 0b111111111111).toNat = vaddr.pageOffset.toNat
      ∧ ((virtAddrToUint64 vaddr >>> 12) &&& 0b111111111).toNat = vaddr.pteEntry.toNat
      ∧ ((virtAddrToUint64 vaddr >>> 21) &&& 0b111111111).toNat = vaddr.pmdEntry.toNat
      ∧ ((virtAddrToUint64 vaddr >>> 30) &&& 0b111111111).toNat = vaddr.pudEntry.toNat
      ∧ ((virtAddrToUint64 vaddr >>> 39) &&& 0b111111111).toNat = vaddr.pgdEntry.toNat := by
  have h1 := vaddr.pgdEntry.isLt
  have h2 := vaddr.pudEntry.isLt
  have h3 := vaddr.pmdEntry.isLt
  have h4 := vaddr.pteEntry.isLt
  have h5 := vaddr.pageOffset.isLt
  rw [Bits.toNat_and_mask (k := 12) rfl, virtAddrToUint64_toNat]
  simp only [toNat_entry, VirtAddr.vpn]
  refine ⟨?_, ?_, ?_, ?_, ?_⟩ <;> omega

theorem succeeds_virtAddrToUint64Test (hlib : lib.Documented) :
    Succeeds (virtAddrToUint64Test lib) := by
  simp only [virtAddrToUint64Test, repeatTest, hlib.ckAssertIntEq_eq]
  refine succeeds_times (fun _ => ?_) 100 ()
  refine succeeds_generate (by norm_num) 9 fun pgd _ => ?_
  refine succeeds_generate (by norm_num) 9 fun pud _ => ?_
  refine succeeds_generate (by norm_num) 9 fun pmd _ => ?_
  refine succeeds_generate (by norm_num) 9 fun pte _ => ?_
  refine succeeds_generate (by norm_num) 12 fun offset _ => ?_
  obtain ⟨hoffset, hpte, hpmd, hpud, hpgd⟩ := virtAddrToUint64_fields
    ⟨0, pgd.setWidth 9, pud.setWidth 9, pmd.setWidth 9, pte.setWidth 9, offset.setWidth 12⟩
  refine succeeds_check_bind hoffset ?_
  refine succeeds_check_bind hpte ?_
  refine succeeds_check_bind hpmd ?_
  refine succeeds_check_bind hpud ?_
  exact succeeds_check hpgd

/-- The draws of one round of the last test: the begin of a page, or one of the first page with
offset 0. -/
def PhyAddrDrawn (s : Stream' ℕ) : Prop :=
  4096 ∣ drawn 32 s ∨ drawn 32 s < 4096 ∧ drawn 12 (s.drop 32) = 0

/-- What the assertions compare with what is drawn. -/
theorem initPhyAddr_matches_iff (pagenum : Word) {off : Word} (hoff : off.toNat < 4096) :
    (off.toNat = (initPhyAddr ⟨0, 0⟩ pagenum off).2.pageOffset.toNat
      ∧ (pagenum >>> 12).toNat = (initPhyAddr ⟨0, 0⟩ pagenum off).2.phyPageNum.toNat)
      ↔ 4096 ∣ pagenum.toNat ∨ pagenum.toNat < 4096 ∧ off.toNat = 0 := by
  have hlt := pagenum.isLt
  rw [BitVec.toNat_ushiftRight, Nat.shiftRight_eq_div_pow]
  by_cases hpage : 4096 ∣ pagenum.toNat
  · rw [initPhyAddr_accepted _ hpage hoff]
    refine iff_of_true ⟨?_, ?_⟩ (.inl hpage)
    · exact (toNat_setWidth_of_lt hoff).symm
    · rw [BitVec.toNat_setWidth, BitVec.toNat_ushiftRight, Nat.shiftRight_eq_div_pow]
      omega
  · -- the call is refused and leaves the zeros
    have hrefused : (initPhyAddr ⟨0, 0⟩ pagenum off).1 ≠ .errNone := fun h =>
      hpage ((initPhyAddr_errNone_iff ..).1 h).1
    rw [initPhyAddr_unchanged _ hrefused, or_iff_right hpage]
    show (off.toNat = 0 ∧ pagenum.toNat / 2 ^ 12 = 0) ↔ _
    omega

theorem passes_initPhyAddrTest (hlib : lib.Documented) :
    PassesIf 4400 (fun s => ∀ i < 100, PhyAddrDrawn (s.drop (44 * i))) (initPhyAddrTest lib) := by
  simp only [initPhyAddrTest, repeatTest, hlib.ckAssertIntEq_eq]
  refine passes_times (k := 44) (fun _ => ?_) 100 ()
  refine PassesIf.congr ((yields_generateNbitRandom (by norm_num) 32).bind_passes fun pagenum =>
    (yields_generateNbitRandom (by norm_num) 12).bind_passes fun off =>
      (passes_check _).bind fun _ => passes_check _) fun s => ?_
  have htoNat : ∀ {v}, v < 2 ^ 32 → (BitVec.ofNat 32 v).toNat = v := fun hv => by
    rw [BitVec.toNat_ofNat, Nat.mod_eq_of_lt hv]
  have hpage := htoNat (drawn_lt 32 s)
  have hlt := drawn_lt 12 (s.drop 32)
  have hoff := htoNat (hlt.trans (by norm_num))
  have hmatches := initPhyAddr_matches_iff (BitVec.ofNat 32 (drawn 32 s)) (hoff.trans_lt hlt)
  rw [hpage] at hmatches
  exact hmatches.trans (by rw [hoff, PhyAddrDrawn])

end Tests

section Main

variable {lib : TestLibrary}

/-- Whatever `rand` returns and the variable holds, `main` succeeds exactly if each round of the
last test draws a page, or the first address of memory with offset 0. -/
theorem main_success_iff (hlib : lib.Documented) (vaddr : VirtAddr) (rands : ℕ → Stream' ℕ) :
    main lib vaddr rands = 0 ↔ ∀ i < 100, PhyAddrDrawn ((rands 5).drop (44 * i)) := by
  have hlast := (passes_initPhyAddrTest hlib).isSome_iff (rands 5)
  have hmain : main lib vaddr rands = 0 ↔ lib.srunnerNtestsFailed
      ((addrTestSuite lib vaddr).zipIdx.map fun test => (test.1, rands test.2)) = 0 := by
    simp [main]
  rw [hmain, hlib.counts, List.forall_mem_map]
  simp only [addrTestSuite, List.zipIdx_cons, List.zipIdx_nil, List.forall_mem_cons, zero_add,
    Nat.reduceAdd, (succeeds_addrBasicTest1 hlib).isSome, (succeeds_errNoneCheck hlib).isSome,
    (succeeds_testInitVirtAddr hlib vaddr).isSome,
    (succeeds_virtAddrToVirtualPageNumberTest hlib).isSome,
    (succeeds_virtAddrToUint64Test hlib).isSome, hlast, true_and, List.not_mem_nil, false_imp_iff,
    implies_true, and_true]

/-- A library whose assertions are checks, and which counts the tests without a result. -/
def checkLibrary : TestLibrary where
  ckAssertIntEq x y := check (x = y)
  srunnerNtestsFailed runs := (runs.filter fun run => (run.1 run.2).isNone).length

theorem checkLibrary_documented : checkLibrary.Documented where
  holds x s := by
    show check (x = x) s = _
    rw [check, if_pos rfl]
    rfl
  fails x y s h := by
    show check (x = y) s = _
    rw [check, if_neg h]
    rfl
  counts runs := by
    show (runs.filter fun run => (run.1 run.2).isNone).length = 0 ↔ _
    rw [List.length_eq_zero_iff, List.filter_eq_nil_iff]
    simp only [Option.isNone_iff_eq_none, ← ne_eq, Option.ne_none_iff_isSome]

theorem drawn_const (b : ℕ) : ∀ n, drawn n (Stream'.const b) = b % 2 * (2 ^ n - 1)
  | 0 => rfl
  | n + 1 => by
    have hrest : drawn (n + 1) (Stream'.const b)
        = b % 2 * 2 ^ n + drawn n (Stream'.const b) := rfl
    have hpos : 1 ≤ 2 ^ n := Nat.one_le_two_pow
    rw [hrest, drawn_const b n, ← Nat.mul_add, pow_succ]
    congr 1
    omega

/-- Zeros are the begin of a page, and ones are not. -/
theorem main_success_const :
    main checkLibrary ⟨0, 0, 0, 0, 0, 0⟩ (fun _ => Stream'.const 0) = 0
      ∧ main checkLibrary ⟨0, 0, 0, 0, 0, 0⟩ (fun _ => Stream'.const 1) ≠ 0 := by
  rw [ne_eq, main_success_iff checkLibrary_documented, main_success_iff checkLibrary_documented]
  simp only [Stream'.drop_const, PhyAddrDrawn, drawn_const]
  refine ⟨fun _ _ => .inl (by norm_num), fun h => ?_⟩
  have hround := h 0 (by norm_num)
  norm_num at hround

end Main

end KabyLake.TestAddr
