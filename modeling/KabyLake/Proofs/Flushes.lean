import KabyLake.Proofs.CachePlaces
import KabyLake.Proofs.TlbHrchySearch

/-!
# What a flush leaves

The loop of `cache_flush` sets the words of the first entry in each of its rounds and no others, so
the cache is erased exactly when every other entry had a line of zeros (`cacheFlush_erases_iff`).
The loop of `tlb_flush` stops after as many lines as the index has bits, so a lookup misses after it
exactly when its line is one of these or did not answer before (`tlbFlush_misses_iff`).
-/

namespace KabyLake

section Cache

variable {S W a t : ℕ}

/-- The call returns `ERR_NONE` and each entry is invalid, with age 0, tag 0 and a line of zeros. -/
def Erases (call : Exec (ErrorCode × CacheArray S W a t)) : Prop :=
  ∃ c, call = .ok (.errNone, c) ∧ ∀ i, c i = ⟨false, 0, 0, fun _ => 0⟩

/-- Every entry but the first has a line of zeros. -/
def BlankLines (c : CacheArray S W a t) : Prop := ∀ i, i.val ≠ 0 → (c i).line = fun _ => 0

theorem erases_flushed_iff (c : CacheArray S W a t) :
    Erases (.ok (.errNone, flushed c)) ↔ BlankLines c := by
  unfold Erases BlankLines
  constructor
  · rintro ⟨_, hc, h⟩ i hi
    cases hc
    have hline := congrArg SetAssoc.Entry.line (h i)
    simpa only [flushed, if_neg hi] using hline
  · intro h
    refine ⟨_, rfl, fun i => ?_⟩
    by_cases hi : i.val = 0
    · simp only [flushed, if_pos hi]
    · simp only [flushed, if_neg hi, h i hi]

/-- A flush erases each of the caches exactly when its entries but the first have lines of zeros. -/
theorem cacheFlush_erases_iff (l1i l1d : L1Cache) (l2 : L2Cache) :
    (Erases (cacheFlush l1i .l1ICache) ↔ BlankLines l1i)
    ∧ (Erases (cacheFlush l1d .l1DCache) ↔ BlankLines l1d)
    ∧ (Erases (cacheFlush l2 .l2Cache) ↔ BlankLines l2) := by
  rw [cacheFlush_l1 l1i (by decide), cacheFlush_l1 l1d (by decide), cacheFlush_l2]
  exact ⟨erases_flushed_iff l1i, erases_flushed_iff l1d, erases_flushed_iff l2⟩

/-- A cache whose words are all 1 keeps them, but for the first entry. -/
theorem cacheFlush_keeps_lines : ¬ Erases
    (cacheFlush (fun _ => ⟨true, 0, 0, fun _ => 1⟩ : L1Cache) .l1DCache) := by
  rw [cacheFlush_l1 _ (by decide), erases_flushed_iff]
  intro h
  have hword := congrFun (h 1 (by decide)) 0
  revert hword
  decide

end Cache

namespace TlbHrchy

variable {n t : ℕ}

/-- After the flush of a table the lookup of an address in it returns 0. -/
def FlushMisses (tlbType : TlbT) (tlb : Table n t) (vaddr : VirtAddr) (paddr : PhyAddr) : Prop :=
  ∃ tlb' paddr', tlbFlush tlbType tlb = .ok (.errNone, tlb')
    ∧ tlbHit vaddr paddr tlb' tlbType = .ok (false, paddr')

theorem flush_eq (tlb : Table n t) {lines : ℕ} (h : lines ≤ n) : flush lines tlb
    = .ok fun i => if i.val < lines then ⟨0, 0, false⟩ else tlb i := by
  have hstep : ∀ (m : Table n t) (i : Fin n),
      setLine m i ⟨0, 0, false⟩ = .ok (Function.update m i ⟨0, 0, false⟩) :=
    fun m i => dif_pos i.isLt
  rw [flush, Loops.foldlM_range_update_id (g := fun _ => ⟨0, 0, false⟩) hstep tlb h]

/-- A table whose first lines are flushed answers where it did, but for these lines. -/
theorem answers_flush_iff (tlb : Table n t) (lines bits : ℕ) (i : Fin n) (p : ℕ) :
    Answers bits (if i.val < lines then ⟨0, 0, false⟩ else tlb i) p
      ↔ lines ≤ i.val ∧ Answers bits (tlb i) p := by
  split_ifs with hi
  · exact iff_of_false (fun h => nomatch h.1) fun h => absurd hi (not_lt.2 h.1)
  · rw [and_iff_right (not_lt.1 hi)]

/-- The line of a page is flushed, or did not answer. -/
def MissedLine (bits : ℕ) (tlb : Table n t) (i : Fin n) (p : ℕ) : Prop :=
  i.val < bits ∨ ¬ Answers bits (tlb i) p

theorem flushMisses_iff {tlbType : TlbT} {bits : ℕ} (tlb : Table n t) (vaddr : VirtAddr)
    (paddr : PhyAddr) (hb : 4 ≤ bits) (hbn : bits ≤ n) (hn : 16 ≤ n) (ht : t ≤ 32)
    (hflush : tlbFlush tlbType tlb = do return (.errNone, ← flush bits tlb))
    (hhit : ∀ tlb' : Table n t, tlbHit vaddr paddr tlb' tlbType = hit bits tlb'
      (virtAddrToVirtualPageNumber vaddr) (vaddr.pageOffset.setWidth 32) paddr) :
    FlushMisses tlbType tlb vaddr paddr
      ↔ MissedLine bits tlb ⟨vaddr.vpn % 16, by omega⟩ vaddr.vpn := by
  have hans := answers_flush_iff tlb bits bits ⟨vaddr.vpn % 16, by omega⟩ vaddr.vpn
  unfold FlushMisses MissedLine
  rw [← not_le, ← not_and_or, ← hans, hflush, flush_eq tlb hbn]
  simp only [hhit, hit_eq vaddr paddr _ hb hn ht, Exec.ok_bind, Exec.pure_eq]
  constructor
  · rintro ⟨_, paddr', htlb, hmiss⟩ hyes
    cases htlb
    rw [if_pos hyes] at hmiss
    cases hmiss
  · intro hno
    exact ⟨_, paddr, rfl, by rw [if_neg hno]⟩

/-- After its flush each table misses an address exactly when the line probed is among the first 4,
or 6 in the second level, or did not answer before. -/
theorem tlbFlush_misses_iff (l1ITlb l1DTlb : Table 16 32) (l2Tlb : Table 64 30) (vaddr : VirtAddr)
    (paddr : PhyAddr) :
    (FlushMisses .l1ITlb l1ITlb vaddr paddr
      ↔ MissedLine 4 l1ITlb (line16 vaddr.vpn) vaddr.vpn)
    ∧ (FlushMisses .l1DTlb l1DTlb vaddr paddr
      ↔ MissedLine 4 l1DTlb (line16 vaddr.vpn) vaddr.vpn)
    ∧ (FlushMisses .l2Tlb l2Tlb vaddr paddr
      ↔ MissedLine 6 l2Tlb (probed vaddr.vpn) vaddr.vpn) :=
  ⟨flushMisses_iff l1ITlb vaddr paddr (by decide) (by decide) (by decide) (by decide) rfl
      fun _ => rfl,
    flushMisses_iff l1DTlb vaddr paddr (by decide) (by decide) (by decide) (by decide) rfl
      fun _ => rfl,
    flushMisses_iff l2Tlb vaddr paddr (by decide) (by decide) (by decide) (by decide) rfl
      fun _ => rfl⟩

/-- Lines all valid with tag 0: page 5 is still found after the flush. -/
theorem tlbFlush_keeps_line : ¬ FlushMisses .l1DTlb (fun _ => ⟨0, 7, true⟩ : Table 16 32)
    ⟨0, 0, 0, 0, 5, 0⟩ ⟨0, 0⟩ := by
  intro h
  have hline : MissedLine 4 (fun _ => ⟨0, 7, true⟩ : Table 16 32) 5 5 :=
    (flushMisses_iff _ _ _ (by decide) (by decide) (by decide) (by decide) rfl fun _ => rfl).1 h
  unfold MissedLine at hline
  revert hline
  decide

end TlbHrchy

end KabyLake
