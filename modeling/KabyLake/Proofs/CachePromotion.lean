import KabyLake.Library.Ages
import KabyLake.Proofs.CacheExclusive
import KabyLake.Proofs.CacheLookup

/-!
# A read that finds its block in the second level

The branch copies the line to the first level and means to invalidate the entry it copies, but
invalidates a slot of the first level. So the entry stays in the second level unless the victim of
the first overwrites it, and the word is delivered only then (`cacheRead_promotes_iff`).
-/

namespace KabyLake

open SetAssoc

variable {size : ℕ} {junk : Malloc} {memSpace : Memory size} {paddr : PhyAddr} {access : MemAccess}
  {l1 : L1Cache} {l2 : L2Cache} {word : Word} {k : Fin 8}

/-- A read that found way `k` of set `s` of the second level delivers the word of its line, leaves
the line in the first level under the tag of the address, and no valid entry with its tag in set
`s`. -/
def Promoted (call : Exec ReadResult) (paddr : PhyAddr) (l2 : L2Cache) (s : Fin 512) (k : Fin 8) :
    Prop :=
  ∃ r, call = .ok r ∧ r.err = .errNone ∧ r.word = (l2 (slot s k)).line paddr.word
    ∧ (∃ w, Carries r.l1 paddr.set1 (paddr.block / 64) w
      ∧ (r.l1 (slot paddr.set1 w)).line = (l2 (slot s k)).line)
    ∧ ∀ k', ¬ Carries r.l2 s (paddr.block / 512) k'

/-- The block is in way 7 of set 0, all entries of the set are valid and of age 0, set 0 of the
first level is full, and the tag of its victim read as an L2 entry is not that of the block. -/
def OverwritesCopy (paddr : PhyAddr) (l1 : L1Cache) (l2 : L2Cache) (k : Fin 8) : Prop :=
  paddr.set2 = 0 ∧ k = 7
    ∧ (∀ k', (l2 (slot paddr.set2 k')).v = true ∧ (l2 (slot paddr.set2 k')).age.toNat = 0)
    ∧ (∀ w, (l1 (slot paddr.set1 w)).v = true)
    ∧ (l1 (slot paddr.set1 (oldestWay l1 paddr.set1))).tag.toNat / 2 % 2 ^ 19
      ≠ paddr.block / 512

/-- The first level always gets the line. -/
theorem readL2Result_carries : ∃ w,
    Carries (readL2Result junk paddr l1 l2 word k).l1 paddr.set1 (paddr.block / 64) w
    ∧ ((readL2Result junk paddr l1 l2 word k).l1 (slot paddr.set1 w)).line
      = (l2 (slot paddr.set2 k)).line := by
  rw [readL2Result_l1]
  have hslot := insert_self (c := clearHit l1 k) (s := paddr.set1)
    (e := paddr.entry junk.l1Entry.age (l2 (slot paddr.set2 k)).line)
  simp only [Entry.content, Content.mk.injEq] at hslot
  refine ⟨replaceWay (clearHit l1 k) paddr.set1, ⟨hslot.1, ?_⟩, hslot.2.2⟩
  rw [← paddr.entry_tag junk.l1Entry.age (l2 (slot paddr.set2 k)).line]
  exact congrArg BitVec.toNat hslot.2.1

theorem asL2Entry_tag (e : L1Entry) : (asL2Entry e).tag.toNat = e.tag.toNat / 2 % 2 ^ 19 := by
  rw [asL2Entry, BitVec.toNat_setWidth, BitVec.toNat_ushiftRight, Nat.shiftRight_eq_div_pow]

theorem oldestWay_clearHit (hset : paddr.set2 = 0) (hk : 4 ≤ k) :
    oldestWay (clearHit l1 k) paddr.set1 = oldestWay l1 paddr.set1 := by
  simp only [oldestWay, clearHit_of_four_le hset hk]

/-- In the second level the copy is overwritten only by the victim of a full set. -/
theorem readL2Result_not_carries_iff (junk : Malloc) (l1 : L1Cache) (word : Word)
    (hset : paddr.set2 = 0) (h2 : paddr.lookup2 l2 = some k) :
    (∀ k', ¬ Carries (readL2Result junk paddr l1 l2 word k).l2 paddr.set2 (paddr.block / 512) k')
      ↔ OverwritesCopy paddr l1 l2 k := by
  obtain ⟨hv, htag, hbefore⟩ := lookup_eq_some_iff.1 h2
  have hcarries : Carries (touch l2 paddr.set2 k) paddr.set2 (paddr.block / 512) k :=
    (carries_congr content_touch).2 ⟨hv, htag⟩
  unfold OverwritesCopy
  rcases hfull : firstInvalid (clearHit l1 k) paddr.set1 with _ | w
  · have hl2 : (readL2Result junk paddr l1 l2 word k).l2 = insert (touch l2 paddr.set2 k) paddr.set2
        (asL2Entry (clearHit l1 k (slot paddr.set1 (oldestWay (clearHit l1 k) paddr.set1)))) := by
      simp only [readL2Result, hfull]
    rw [hl2, not_carries_insert_iff]
    have hvalid := firstInvalid_eq_none_iff.1 hfull
    have hreplaced := replaceSlot_touch_iff (c := l2) (s := paddr.set2) hv (by norm_num)
    constructor
    · rintro ⟨hvictim, honly⟩
      obtain ⟨hall, hage, hlast⟩ := hreplaced.1 (by rw [replaceSlot, ← honly k hcarries])
      obtain rfl : k = 7 := le_antisymm (Fin.le_last k) (hlast 7)
      have hk : (4 : Fin 8) ≤ 7 := by decide
      simp only [oldestWay_clearHit hset hk, clearHit_of_four_le hset hk, asL2Entry_tag]
        at hvictim hvalid
      exact ⟨hset, rfl, fun k' => ⟨hall k', hage k'⟩, hvalid, fun htag => hvictim ⟨hvalid _, htag⟩⟩
    · rintro ⟨-, rfl, hall, -, hvictim⟩
      have hslot := hreplaced.2 ⟨fun k' => (hall k').1, fun k' => (hall k').2, Fin.le_last⟩
      rw [oldestWay_clearHit hset (by decide), clearHit_of_four_le hset (by decide), asL2Entry_tag]
      refine ⟨fun h => hvictim h.2, fun k' hk' => ?_⟩
      have hk7 : k' = 7 := by
        by_contra hne
        have hlt : k' < 7 := lt_of_le_of_ne (Fin.le_last k') hne
        exact (hbefore k' hlt).2 ((carries_congr content_touch).1 hk').2
      rw [hk7]
      exact (slot_inj.1 hslot).2.symm
  · have hl2 : (readL2Result junk paddr l1 l2 word k).l2 = touch l2 paddr.set2 k := by
      simp only [readL2Result, hfull]
    rw [hl2]
    refine iff_of_false (fun h => h k hcarries) ?_
    rintro ⟨-, rfl, -, hvalid, -⟩
    have hfree := (firstInvalid_eq_some_iff.1 hfull).1
    rw [clearHit_of_four_le hset (by decide), hvalid] at hfree
    cases hfree

theorem readL2Result_word (h : OverwritesCopy paddr l1 l2 k) :
    (readL2Result junk paddr l1 l2 word k).word = (l2 (slot paddr.set2 k)).line paddr.word := by
  obtain ⟨hset, rfl, -, hvalid, -⟩ := h
  have hfull : firstInvalid (clearHit l1 7) paddr.set1 = none :=
    firstInvalid_eq_none_iff.2 fun w => by rw [clearHit_of_four_le hset (by decide), hvalid]
  simp only [readL2Result, hfull]
  rfl

/-- A read that misses the first level and hits the second promotes its block exactly when the
victim of the first overwrites the copy left in the second. -/
theorem cacheRead_promotes_iff (junk : Malloc) (memSpace : Memory size) (word : Word) {s : Fin 512}
    (h1 : Misses l1 paddr (if access = .instruction then .l1ICache else .l1DCache))
    (h2 : HitsAt l2 paddr .l2Cache s k) :
    Promoted (cacheRead junk memSpace paddr access l1 l2 word) paddr l2 s k
      ↔ OverwritesCopy paddr l1 l2 k := by
  have hl1 := (misses_l1_iff (accessType_ne access)).1 h1
  obtain ⟨rfl, hl2⟩ := hitsAt_l2_iff.1 h2
  unfold Promoted
  by_cases hset : paddr.set2 = 0
  · have hiff := readL2Result_not_carries_iff junk l1 word hset hl2
    rw [cacheRead_l2 hl1 hl2 hset]
    constructor
    · rintro ⟨r, hr, -, -, -, hnone⟩
      cases hr
      exact hiff.1 hnone
    · intro h
      exact ⟨_, rfl, readL2Result_err k, readL2Result_word h, readL2Result_carries, hiff.2 h⟩
  · rw [cacheRead_l2_fault hl1 hl2 hset]
    refine iff_of_false ?_ fun h => hset h.1
    rintro ⟨r, hr, -⟩
    cases hr

/-- Full sets, with block 0 in way 7 of the second level only. -/
def promotedL1 : L1Cache := fun i => ⟨true, 0, BitVec.ofNat 22 (i.val + 1), fun _ => 0⟩

def promotedL2 : L2Cache := fun j => ⟨true, 0, BitVec.ofNat 19 (7 - j.val), fun _ => 5⟩

theorem cacheRead_promotes_seven : Promoted
    (cacheRead default (fun _ => 0 : Memory 64) ⟨0, 4⟩ .data promotedL1 promotedL2 0) ⟨0, 4⟩
      promotedL2 0 7 := by
  have h1 : Misses promotedL1 ⟨0, 4⟩ .l1DCache := (misses_l1_iff l1DCache_ne).2 (by decide)
  have h2 : HitsAt promotedL2 ⟨0, 4⟩ .l2Cache 0 7 := hitsAt_l2_iff.2 ⟨rfl, by decide⟩
  refine (cacheRead_promotes_iff default _ 0 h1 h2).2 ⟨rfl, rfl, ?_, fun _ => rfl, by decide⟩
  decide

/-- With room in the first level the word is not set and block 0 stays in the second. -/
theorem cacheRead_not_promotes : ¬ Promoted
    (cacheRead default (fun _ => 0 : Memory 64) ⟨0, 0⟩ .data noBlocks oneBlock 7) ⟨0, 0⟩
      oneBlock 0 0 := by
  have h1 : PhyAddr.lookup1 ⟨0, 0⟩ noBlocks = none := lookup_of_held_none held_noBlocks _
  have h2 : PhyAddr.lookup2 ⟨0, 0⟩ oneBlock = some 0 := by decide
  rw [cacheRead_l2 h1 h2 rfl]
  rintro ⟨r, hr, -, -, -, hnone⟩
  cases hr
  exact hnone 0 (by decide)

end KabyLake
