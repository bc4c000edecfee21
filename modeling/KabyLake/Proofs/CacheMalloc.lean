import KabyLake.Proofs.CacheKept
import KabyLake.Proofs.CachePromotion
import KabyLake.Proofs.CacheSlots
import KabyLake.Proofs.CacheWord

/-!
# The blocks from malloc

Two branches use a field of a block from `malloc` they have not set. A read that moves a line up
leaves the age of its entry, which decides which ways of a full set age. A write that evicts an
entry leaves its valid bit, which goes to the second level. Elsewhere what the blocks hold does not
matter, as long as the call stays inside the arrays and the memory (`malloc_free_iff`).
-/

namespace KabyLake

open SetAssoc

variable {size : ℕ} {junk : Malloc} {memSpace : Memory size} {paddr : PhyAddr} {access : MemAccess}
  {l1 : L1Cache} {l2 : L2Cache} {word : Word} {k : Fin 8}

/-- The call comes to its end, and to the same whatever the blocks from `malloc` hold. -/
def MallocFree {α : Type} (call : Malloc → Exec α) : Prop := ∃ x, ∀ junk, call junk = .ok x

/-- The call comes to its end; and its block is found in the first level or not in ways 4 to 7 of
the second, or its set of the first level has an invalid way, or only ways of age 3. -/
def ReadMallocFree (size : ℕ) (paddr : PhyAddr) (l1 : L1Cache) (l2 : L2Cache) : Prop :=
  ReadRuns size paddr l1 l2
    ∧ (paddr.lookup1 l1 ≠ none ∨ (∀ k, paddr.lookup2 l2 = some k → k < 4)
      ∨ (∃ w, (l1 (slot paddr.set1 w)).v = false) ∨ ∀ w, (l1 (slot paddr.set1 w)).age = 3)

/-- The call comes to its end; and its block is found in the first level, or its set of the first
level has an invalid way. -/
def WriteMallocFree (size : ℕ) (paddr : PhyAddr) (l1 : L1Cache) (l2 : L2Cache) : Prop :=
  (WriteInside paddr l1 l2 ∧ paddr.addr + 16 ≤ size)
    ∧ (paddr.lookup1 l1 ≠ none ∨ ∃ w, (l1 (slot paddr.set1 w)).v = false)

instance : Decidable (ReadMallocFree size paddr l1 l2) :=
  inferInstanceAs (Decidable (_ ∧ (_ ∨ (∀ _, _ → _) ∨ _ ∨ _)))

instance : Decidable (WriteMallocFree size paddr l1 l2) := inferInstanceAs (Decidable (_ ∧ (_ ∨ _)))

theorem mallocFree_iff {α : Type} {call : Malloc → Exec α} :
    MallocFree call ↔ (∃ x, call default = .ok x) ∧ ∀ junk junk', call junk = call junk' := by
  constructor
  · rintro ⟨x, h⟩
    exact ⟨⟨x, h default⟩, fun junk junk' => by rw [h, h]⟩
  · rintro ⟨⟨x, hx⟩, h⟩
    exact ⟨x, fun junk => (h junk default).trans hx⟩

/-- A block for an entry of the first level with some age, and one for an entry of the second with
some valid bit, all else 0. -/
def mallocAge (age : BitVec 2) : Malloc :=
  { (default : Malloc) with l1Entry := ⟨false, age, 0, fun _ => 0⟩ }

def mallocValid (v : Bool) : Malloc :=
  { (default : Malloc) with l2Entry := ⟨v, 0, 0, fun _ => 0⟩ }

theorem firstInvalid_ne_none_iff {s : Fin 64} :
    firstInvalid l1 s ≠ none ↔ ∃ w, (l1 (slot s w)).v = false := by
  simp [firstInvalid_eq_none_iff]

/-- Ways 0 to 3 clear a slot of the set the line goes to, and ways 4 to 7 one of another set. -/
theorem clearHit_full_iff (hset : paddr.set2 = 0) : firstInvalid (clearHit l1 k) paddr.set1 = none
    ↔ 4 ≤ k ∧ firstInvalid l1 paddr.set1 = none := by
  by_cases hk : k < 4
  · refine iff_of_false (fun hfull => ?_) fun h => absurd hk (not_lt.2 h.1)
    refine clearedSlot_not_full hfull ?_
    rw [set1_eq_zero hset]
    exact Fin.ext (Nat.div_eq_of_lt hk)
  · have hslot : ∀ w, clearHit l1 k (slot paddr.set1 w) = l1 (slot paddr.set1 w) :=
      clearHit_of_four_le hset (not_lt.1 hk)
    simp only [firstInvalid_eq_none_iff, hslot, not_lt.1 hk, true_and]

/-- What a hit in the second level leaves depends on the block only by the age it inserts. -/
theorem readL2Result_eq_iff {junk' : Malloc} :
    readL2Result junk paddr l1 l2 word k = readL2Result junk' paddr l1 l2 word k
      ↔ (readL2Result junk paddr l1 l2 word k).l1 = (readL2Result junk' paddr l1 l2 word k).l1 := by
  refine ⟨congrArg ReadResult.l1, fun h => ?_⟩
  rw [readL2Result_l1, readL2Result_l1] at h
  simp only [readL2Result, h]
  rfl

theorem age_clearHit (i : Fin (64 * 4)) : (clearHit l1 k i).age = (l1 i).age := by
  unfold clearHit clear
  by_cases hi : i = clearedSlot k
  · subst hi
    rw [Function.update_self]
  · rw [Function.update_of_ne hi]

/-- The ages of a full set hide the age of the entry only if all are 3. -/
theorem ages_three_iff {s : Fin 64} : (∀ w ≠ oldestWay l1 s, (l1 (slot s w)).age = BitVec.allOnes 2)
    ↔ ∀ w, (l1 (slot s w)).age = 3 := by
  constructor
  · intro h w
    by_cases hw : w = oldestWay l1 s
    · obtain ⟨w', hw'⟩ := exists_ne w
      have hle := (oldestWay_spec l1 s w').1
      rw [h w' (hw ▸ hw'), ← hw] at hle
      exact BitVec.eq_of_toNat_eq (le_antisymm (Nat.le_of_lt_succ (l1 (slot s w)).age.isLt) hle)
    · exact h w hw
  · exact fun h w _ => h w

theorem read_mallocFree_iff :
    MallocFree (fun junk => cacheRead junk memSpace paddr access l1 l2 word)
      ↔ ReadMallocFree size paddr l1 l2 := by
  rw [mallocFree_iff, cacheRead_runs_iff, ReadMallocFree]
  refine and_congr_right fun hruns => ?_
  rcases h1 : paddr.lookup1 l1 with _ | w
  swap
  · exact iff_of_true (fun _ _ => by rw [cacheRead_hit h1, cacheRead_hit h1]) (.inl nofun)
  rw [or_iff_right (not_not_intro rfl)]
  rcases h2 : paddr.lookup2 l2 with _ | k
  · refine iff_of_true (fun _ _ => ?_) (.inl nofun)
    rw [cacheRead_miss h1 h2, cacheRead_miss h1 h2]
  have hset : paddr.set2 = 0 := by simpa [ReadRuns, h1, h2] using hruns
  simp only [cacheRead_l2 h1 h2 hset, Except.ok.injEq, readL2Result_eq_iff, readL2Result_l1,
    Option.some.injEq, forall_eq']
  by_cases hroom : firstInvalid (clearHit l1 k) paddr.set1 = none
  · obtain ⟨hk, hfull⟩ := (clearHit_full_iff hset).1 hroom
    have hages := (insert_full_age_iff (e := paddr.entry 0 (l2 (slot paddr.set2 k)).line)
      hroom).trans ages_three_iff
    simp only [age_clearHit] at hages
    rw [or_iff_right (not_lt.2 hk), or_iff_right (by rwa [← firstInvalid_ne_none_iff, not_not]),
      ← hages]
    exact ⟨fun h b b' => h (mallocAge b) (mallocAge b'), fun h junk junk' => h _ _⟩
  · have hfree : k < 4 ∨ ∃ w, (l1 (slot paddr.set1 w)).v = false := by
      rw [← firstInvalid_ne_none_iff]
      by_contra! h
      exact hroom ((clearHit_full_iff hset).2 h)
    refine iff_of_true (fun junk junk' => ?_) (or_assoc.1 (.inl hfree))
    have hage := insert_room_age (e := paddr.entry 0 (l2 (slot paddr.set2 k)).line) hroom
    exact (hage junk.l1Entry.age).trans (hage junk'.l1Entry.age).symm

/-- The common end of a write, with a new entry and a valid bit from the blocks. -/
theorem evict_mallocFree_iff {entry : Malloc → L1Entry} {evicted : Malloc → L1Entry → L2Entry}
    {s₁ : Fin 64} {s₂ : Fin 512}
    (hentry : ∀ junk, entry junk = { entry default with age := (entry junk).age })
    (hv : ∀ junk e, (evicted junk e).v = junk.l2Entry.v) :
    (∀ junk junk', (.ok ⟨.errNone, memSpace, insert l1 s₁ (entry junk),
        evictInto (evicted junk) l1 s₁ l2 s₂⟩ : Exec (WriteResult size))
      = .ok ⟨.errNone, memSpace, insert l1 s₁ (entry junk'),
        evictInto (evicted junk') l1 s₁ l2 s₂⟩)
      ↔ ∃ w, (l1 (slot s₁ w)).v = false := by
  rw [← firstInvalid_ne_none_iff]
  constructor
  · intro h hfull
    have hl2 := congrArg WriteResult.l2 (Except.ok.inj (h (mallocValid true) (mallocValid false)))
    simp only [evictInto_full hfull] at hl2
    -- the valid bit of the block is that of the slot replaced
    have hself : ∀ e, (insert l2 s₂ e (replaceSlot l2 s₂)).v = e.v :=
      fun e => congrArg Content.v insert_self
    have hvalid := congrArg Entry.v (congrFun hl2 (replaceSlot l2 s₂))
    rw [hself, hself, hv, hv] at hvalid
    cases hvalid
  · intro hroom junk junk'
    have hinsert : ∀ junk, insert l1 s₁ (entry junk) = insert l1 s₁ (entry default) :=
      fun junk => by
        rw [hentry junk]
        exact insert_room_age hroom _
    rw [evictInto_room hroom, evictInto_room hroom, hinsert junk, hinsert junk']

theorem write_mallocFree_iff :
    MallocFree (fun junk => cacheWrite junk memSpace paddr l1 l2 word)
      ↔ WriteMallocFree size paddr l1 l2 := by
  rw [mallocFree_iff, cacheWrite_runs_iff, WriteMallocFree]
  refine and_congr_right fun ⟨hslots, hsize⟩ => ?_
  rcases h1 : paddr.lookup1 l1 with _ | w
  swap
  · exact iff_of_true (fun _ _ => by rw [cacheWrite_hit h1, cacheWrite_hit h1])
      (.inl (Option.some_ne_none _))
  rw [or_iff_right (not_not_intro rfl)]
  rcases h2 : paddr.lookup2 l2 with _ | k
  · simp only [cacheWrite_miss h1 h2, if_pos hsize]
    exact evict_mallocFree_iff (fun _ => rfl) fun _ _ => rfl
  · have hset : paddr.set2.val < 8 := by simpa [WriteInside, h1, h2] using hslots
    simp only [cacheWrite_l2 h1 h2, if_pos hsize, dif_pos hset]
    exact evict_mallocFree_iff (fun _ => rfl) fun _ _ => rfl

/-- A read and a write come to the same end whatever the blocks from `malloc` hold exactly under the
condition of the call on the address and the caches. -/
theorem malloc_free_iff (memSpace : Memory size) (paddr : PhyAddr) (l1 : L1Cache) (l2 : L2Cache)
    (word : Word) :
    (∀ access, MallocFree (fun junk => cacheRead junk memSpace paddr access l1 l2 word)
      ↔ ReadMallocFree size paddr l1 l2)
    ∧ (MallocFree (fun junk => cacheWrite junk memSpace paddr l1 l2 word)
      ↔ WriteMallocFree size paddr l1 l2) :=
  ⟨fun _ => read_mallocFree_iff, write_mallocFree_iff⟩

/-- With a full first level a write that misses, and a read of block 0 in way 7 of the second, come
to their ends, but not to the same. -/
theorem malloc_shows :
    ((∀ junk, ∃ x, cacheWrite junk (fun _ => 0 : Memory 64) ⟨0, 0⟩ promotedL1 noBlocks 1 = .ok x)
        ∧ ¬ MallocFree fun junk =>
          cacheWrite junk (fun _ => 0 : Memory 64) ⟨0, 0⟩ promotedL1 noBlocks 1)
      ∧ (∀ junk, ∃ x,
          cacheRead junk (fun _ => 0 : Memory 64) ⟨0, 0⟩ .data promotedL1 promotedL2 0 = .ok x)
        ∧ ¬ MallocFree fun junk =>
          cacheRead junk (fun _ => 0 : Memory 64) ⟨0, 0⟩ .data promotedL1 promotedL2 0 := by
  have h1 : PhyAddr.lookup1 ⟨0, 0⟩ promotedL1 = none := by decide
  have h2 : PhyAddr.lookup2 ⟨0, 0⟩ noBlocks = none := lookup_of_held_none held_noBlocks _
  have hway : PhyAddr.lookup2 ⟨0, 0⟩ promotedL2 = some 7 := by decide
  refine ⟨⟨fun _ => cacheWrite_runs_iff.2 ⟨.inr (.inl h2), by decide⟩, ?_⟩,
    fun _ => cacheRead_runs_iff.2 (.inr (.inr ⟨by rw [hway]; exact nofun, by decide⟩)), ?_⟩
  · rw [write_mallocFree_iff, WriteMallocFree, h1]
    exact fun h => absurd h.2 (by decide)
  · rw [read_mallocFree_iff, ReadMallocFree, h1, hway]
    exact fun h => absurd h.2 (by decide)

end KabyLake
