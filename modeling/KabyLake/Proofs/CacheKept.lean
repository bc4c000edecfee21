import KabyLake.Proofs.CacheMatches

/-!
# When no block of the first level is lost

A victim has to be found in the set and under the tag of its own block. A read that misses twice
drops it, and the three other evictions save it under another block or with an unset valid bit, so a
block is kept exactly when there is room, but for the victims of tag 0 of a read.
-/

namespace KabyLake

open SetAssoc

variable {size : ℕ} {junk : Malloc} {memSpace : Memory size} {paddr : PhyAddr} {access : MemAccess}
  {l1 l1' : L1Cache} {l2 l2' : L2Cache} {word : Word} {S W a t : ℕ}

/-- A valid entry of the block has the words of the line, but for those exempt. -/
def HasLine (c : CacheArray S W a t) (b : ℕ) (line : CacheLine) (exempt : Fin 4 → Prop) : Prop :=
  ∃ i, held c i = some b ∧ ∀ k, ¬ exempt k → (c i).line k = line k

/-- Each block of the first level is in it after the call, or else in the second level, in the set
and with the tag of the block. -/
def Kept (exempt : ℕ → Fin 4 → Prop) (l1 l1' : L1Cache) (l2' : L2Cache) : Prop :=
  ∀ i b, held l1 i = some b →
    HasLine l1' b (l1 i).line (exempt b) ∨ HasLine l2' b (l1 i).line (exempt b)

/-- The condition for a read: there is room in the first level, and a way found in the second is of
set 0, where slot `k` of the first level, which the read clears in its place, is invalid. -/
def ReadKeeps (size : ℕ) (paddr : PhyAddr) (l1 : L1Cache) (l2 : L2Cache) : Prop :=
  match paddr.lookup1 l1, paddr.lookup2 l2 with
  | some _, _ => True
  | none, some k => paddr.set2 = 0 ∧ (l1 (clearedSlot k)).v = false ∧
      (firstInvalid l1 paddr.set1 = none →
        (l1 (slot paddr.set1 (oldestWay l1 paddr.set1))).tag.toNat = 0)
  | none, none => paddr.addr + 16 ≤ size ∧ firstInvalid l1 paddr.set1 ≠ none

/-- The condition for a write: a miss in the first level finds room in it, and a way found in the
second is of one of its first 8 sets. -/
def WriteKeeps (size : ℕ) (paddr : PhyAddr) (l1 : L1Cache) (l2 : L2Cache) : Prop :=
  paddr.addr + 16 ≤ size ∧ (paddr.lookup1 l1 = none →
    firstInvalid l1 paddr.set1 ≠ none ∧ (paddr.lookup2 l2 ≠ none → paddr.set2.val < 8))

instance : Decidable (ReadKeeps size paddr l1 l2) := by
  unfold ReadKeeps
  rcases paddr.lookup1 l1 with _ | w <;> rcases paddr.lookup2 l2 with _ | k <;> infer_instance

instance : Decidable (WriteKeeps size paddr l1 l2) :=
  inferInstanceAs (Decidable (_ ∧ (_ → _ ∧ (_ → _))))

theorem kept_of_slots {exempt : ℕ → Fin 4 → Prop}
    (h : ∀ i b, held l1 i = some b → held l1' i = some b ∧
      ∀ k, ¬ exempt b k → (l1' i).line k = (l1 i).line k) : Kept exempt l1 l1' l2' :=
  fun i b hi => .inl ⟨i, (h i b hi).1, (h i b hi).2⟩

theorem hasLine_insert_of_ne [NeZero W] {c : CacheArray S W a t} {s : Fin S} {e : CacheEntry a t}
    {i : Fin (S * W)} {b : ℕ} {exempt : Fin 4 → Prop} (hne : i ≠ replaceSlot c s)
    (hi : held c i = some b) : HasLine (insert c s e) b (c i).line exempt :=
  ⟨i, by rw [held_insert, Function.update_of_ne hne, hi],
    fun k _ => by rw [line_insert_of_ne hne]⟩

theorem hasLine_insert_self [NeZero W] {c : CacheArray S W a t} {s : Fin S} {e : CacheEntry a t}
    {b : ℕ} {exempt : Fin 4 → Prop} (he : e.held s = some b) :
    HasLine (insert c s e) b e.line exempt :=
  ⟨replaceSlot c s, by rw [held_insert, Function.update_self, he],
    fun k _ => by rw [line_insert_self]⟩

/-- An insertion where there is room keeps every slot. -/
theorem kept_insert {exempt : ℕ → Fin 4 → Prop} {s : Fin 64} {e : L1Entry}
    (hfree : firstInvalid l1 s ≠ none) : Kept exempt l1 (insert l1 s e) l2' :=
  fun _ _ hi => .inl (hasLine_insert_of_ne (ne_replaceSlot hfree hi) hi)

theorem not_kept {exempt : ℕ → Fin 4 → Prop} {i : Fin (64 * 4)} {b : ℕ} (hi : held l1 i = some b)
    (hlost : ∀ p, holds l1' l2' p ≠ some b) : ¬ Kept exempt l1 l1' l2' := by
  intro h
  rcases h i b hi with ⟨j, hj, -⟩ | ⟨j, hj, -⟩
  · exact hlost (.inl j) hj
  · exact hlost (.inr j) hj

/-- The slot a full set gives up holds a block. -/
theorem exists_victim {s : Fin 64} (hfull : firstInvalid l1 s = none) :
    held l1 (replaceSlot l1 s) = some ((l1 (slot s (oldestWay l1 s))).tag.toNat * 64 + s) := by
  have hv := firstInvalid_eq_none_iff.1 hfull (oldestWay l1 s)
  rw [replaceSlot_of_full hfull, held, Entry.held, if_pos hv, setOf_slot]

section Read

theorem readMiss_keeps_iff (hexcl : Exclusive (holds l1 l2)) (h1 : paddr.lookup1 l1 = none)
    (line : CacheLine) :
    Kept (fun _ _ => False) l1
        (Function.update l1 (replaceSlot l1 paddr.set1) (paddr.entry 0 line)) l2
      ↔ firstInvalid l1 paddr.set1 ≠ none := by
  constructor
  · intro hkept hfull
    have hvictim := exists_victim hfull
    have hne := held_replaceSlot1_ne h1
    refine not_kept hvictim (fun p => ?_) hkept
    rw [holds_fill]
    exact hexcl.update_ne_some (i := .inl _) hvictim (hvictim ▸ hne.symm) p
  · intro hfree
    refine kept_of_slots fun i b hi => ?_
    have hne := ne_replaceSlot hfree hi
    rw [held_update, Function.update_of_ne hne, Function.update_of_ne hne]
    exact ⟨hi, fun _ _ => rfl⟩

theorem clearedSlot_not_full {k : Fin 8} (hfull : firstInvalid (clearHit l1 k) paddr.set1 = none) :
    SetAssoc.setOf (clearedSlot k) ≠ paddr.set1 := by
  intro hs
  obtain ⟨w, hw⟩ := exists_slot (clearedSlot k)
  have hv := firstInvalid_eq_none_iff.1 hfull w
  rw [← hs, ← hw] at hv
  simp [clearHit, clear] at hv

/-- The block in the slot that is cleared is lost. -/
theorem not_kept_of_cleared (hexcl : Exclusive (holds l1 l2)) {k : Fin 8}
    (h2 : paddr.lookup2 l2 = some k) (hset : paddr.set2 = 0) (hv : (l1 (clearedSlot k)).v = true) :
    ¬ Kept (fun _ _ => False) l1 (readL2Result junk paddr l1 l2 word k).l1
        (readL2Result junk paddr l1 l2 word k).l2 := by
  obtain ⟨y, hy⟩ := Option.ne_none_iff_exists'.1 fun h => by
    rw [held_eq_none_iff, hv] at h
    cases h
  have hne : some paddr.block ≠ some y := fun h => held_ne_of_lookup2 hexcl h2 _ (h ▸ hy)
  have hclear := hexcl.update_ne_some (i := .inl (clearedSlot k)) hy (o := none) nofun
  refine not_kept hy fun p => ?_
  by_cases hfull : firstInvalid (clearHit l1 k) paddr.set1 = none
  · have hpun : ∀ e : L1Entry, some (punnedBlock e) ≠ some y := by
      intro e he
      have hmod := ((held_eq_some_iff _).1 hy).2.2
      have hs : (SetAssoc.setOf (clearedSlot k)).val ≠ paddr.set1.val :=
        fun h => clearedSlot_not_full hfull (Fin.ext h)
      rw [set1_eq_zero hset, Fin.val_zero] at hs
      rw [punnedBlock, Option.some.injEq] at he
      omega
    rw [holds_readL2_full hset hfull]
    exact update_ne_some (update_ne_some hclear (hpun _) _) hne _ p
  · rw [holds_readL2_room hfull]
    exact update_ne_some hclear hne _ p

/-- The victim of a full set is saved under its own block if that is the one of its entry read as
an entry of the second level. -/
theorem readL2_keeps_full_iff (hexcl : Exclusive (holds l1 l2)) {k : Fin 8}
    (h2 : paddr.lookup2 l2 = some k) (hset : paddr.set2 = 0)
    (hv : (l1 (clearedSlot k)).v = false) (hfull : firstInvalid l1 paddr.set1 = none) :
    Kept (fun _ _ => False) l1 (readL2Result junk paddr l1 l2 word k).l1
        (readL2Result junk paddr l1 l2 word k).l2
      ↔ (l1 (slot paddr.set1 (oldestWay l1 paddr.set1))).tag.toNat = 0 := by
  have hclear : clearHit l1 k = l1 := clear_of_invalid hv
  have hvictim := exists_victim hfull
  have hs1 : paddr.set1.val = 0 := congrArg Fin.val (set1_eq_zero hset)
  rw [hs1, add_zero] at hvictim
  constructor
  · intro hkept
    by_contra htag
    refine not_kept hvictim (fun p => ?_) hkept
    have hnone : holds l1 l2 (.inl (clearedSlot k)) = none := (held_eq_none_iff _).2 hv
    rw [holds_readL2_full hset (hclear.symm ▸ hfull), hclear, ← hnone, Function.update_eq_self,
      Function.update_comm (by simp)]
    refine update_ne_some (hexcl.update_ne_some (i := .inl _) hvictim fun h => ?_)
      (fun h => ?_) _ p
    · exact held_ne_of_lookup2 hexcl h2 _ (h ▸ hvictim)
    · exact htag ((punnedBlock_eq_iff _).1 (Option.some.inj h))
  · intro htag i b hi
    have hv1 := firstInvalid_eq_none_iff.1 hfull (oldestWay l1 paddr.set1)
    have hpun := held_asL2Entry hv1
    rw [← hset, (punnedBlock_eq_iff _).2 htag] at hpun
    simp only [readL2Result, hclear, hfull]
    by_cases hne : i = replaceSlot l1 paddr.set1
    · right
      have hslot : i = slot paddr.set1 (oldestWay l1 paddr.set1) := by
        rw [hne, replaceSlot_of_full hfull]
      obtain rfl : _ = b := Option.some.inj (hvictim.symm.trans (hne ▸ hi))
      rw [hslot]
      exact hasLine_insert_self hpun
    · exact .inl (hasLine_insert_of_ne hne hi)

theorem readL2_keeps_iff (hexcl : Exclusive (holds l1 l2)) {k : Fin 8}
    (h2 : paddr.lookup2 l2 = some k) (hset : paddr.set2 = 0) :
    Kept (fun _ _ => False) l1 (readL2Result junk paddr l1 l2 word k).l1
        (readL2Result junk paddr l1 l2 word k).l2
      ↔ (l1 (clearedSlot k)).v = false ∧ (firstInvalid l1 paddr.set1 = none →
        (l1 (slot paddr.set1 (oldestWay l1 paddr.set1))).tag.toNat = 0) := by
  rcases hv : (l1 (clearedSlot k)).v
  swap
  · simp only [not_kept_of_cleared hexcl h2 hset hv, reduceCtorEq, false_and]
  rw [eq_self_iff_true, true_and]
  by_cases hfull : firstInvalid l1 paddr.set1 = none
  · rw [readL2_keeps_full_iff hexcl h2 hset hv hfull]
    exact ⟨fun htag _ => htag, fun htag => htag hfull⟩
  · refine iff_of_true ?_ fun h => absurd h hfull
    have hclear : clearHit l1 k = l1 := clear_of_invalid hv
    obtain ⟨w, hw⟩ := Option.ne_none_iff_exists'.1 hfull
    simp only [readL2Result, hclear, hw]
    exact kept_insert hfull

theorem read_keeps_iff (hexcl : Exclusive (holds l1 l2)) :
    (∀ junk word, ∃ r, cacheRead junk memSpace paddr access l1 l2 word = .ok r
      ∧ Kept (fun _ _ => False) l1 r.l1 r.l2) ↔ ReadKeeps size paddr l1 l2 := by
  unfold ReadKeeps
  rcases h1 : paddr.lookup1 l1 with _ | w
  · rcases h2 : paddr.lookup2 l2 with _ | k
    · simp only [cacheRead_miss h1 h2]
      by_cases hsize : paddr.addr + 16 ≤ size
      · simp only [hsize, if_true, Except.ok.injEq, exists_eq_left', readMiss_keeps_iff hexcl h1,
          forall_const, true_and]
      · simp [hsize]
    · by_cases hset : paddr.set2 = 0
      · simp [cacheRead_l2 h1 h2 hset, readL2_keeps_iff hexcl h2 hset, hset]
      · simp [cacheRead_l2_fault h1 h2 hset, hset]
  · refine iff_of_true (fun junk word => ⟨_, cacheRead_hit h1, ?_⟩) trivial
    exact kept_of_slots fun i b hi => ⟨by rw [held_touch, hi], fun k _ => by rw [line_touch]⟩

end Read

section Write

theorem writeHit_keeps {w : Fin 4} (h1 : paddr.lookup1 l1 = some w) :
    Kept (fun b k => b = paddr.block ∧ k = paddr.word) l1
      (Function.update (touch l1 paddr.set1 w) (slot paddr.set1 w)
        ⟨true, 0, (l1 (slot paddr.set1 w)).tag,
          Function.update (l1 (slot paddr.set1 w)).line paddr.word word⟩) l2' := by
  refine kept_of_slots fun i b hi => ⟨?_, fun k hk => ?_⟩
  · rw [held_writeWay1 h1, hi]
  · by_cases hne : i = slot paddr.set1 w
    · subst hne
      obtain rfl : _ = b := Option.some.inj ((held_of_lookup1 h1).symm.trans hi)
      rw [Function.update_self]
      exact Function.update_of_ne (fun h => hk ⟨rfl, h⟩) _ _
    · rw [Function.update_of_ne hne, line_touch]

/-- A victim that goes to the second level under another block, or as invalid, is lost. -/
theorem not_kept_of_evicted (hexcl : Exclusive (holds l1 l2)) {exempt : ℕ → Fin 4 → Prop}
    {age : BitVec 2} {line : CacheLine} {e : L2Entry} (hl2 : holds l1 l2' = holds l1 l2)
    (hfull : firstInvalid l1 paddr.set1 = none)
    (hne : held l1 (replaceSlot l1 paddr.set1) ≠ some paddr.block)
    (he : e.held paddr.set2 = none ∨ e.held paddr.set2 = some paddr.block) :
    ¬ Kept exempt l1 (insert l1 paddr.set1 (paddr.entry age line)) (insert l2' paddr.set2 e) := by
  have hvictim := exists_victim hfull
  rw [hvictim] at hne
  refine not_kept hvictim fun p => ?_
  rw [holds_insert1, holds_insert2, Function.update_comm (by simp), hl2]
  refine update_ne_some (hexcl.update_ne_some (i := .inl _) hvictim hne.symm) ?_ _ p
  rcases he with he | he
  · rw [he]
    exact (Option.some_ne_none _).symm
  · rw [he]
    exact hne.symm

theorem write_keeps_iff (hexcl : Exclusive (holds l1 l2)) :
    (∀ junk, ∃ r, cacheWrite junk memSpace paddr l1 l2 word = .ok r
      ∧ Kept (fun b k => b = paddr.block ∧ k = paddr.word) l1 r.l1 r.l2)
      ↔ WriteKeeps size paddr l1 l2 := by
  unfold WriteKeeps
  rcases h1 : paddr.lookup1 l1 with _ | w
  · rcases h2 : paddr.lookup2 l2 with _ | k
    · simp only [cacheWrite_miss h1 h2]
      by_cases hsize : paddr.addr + 16 ≤ size
      · simp only [hsize, if_true, Except.ok.injEq, exists_eq_left']
        by_cases hfull : firstInvalid l1 paddr.set1 = none
        · refine iff_of_false (fun h => ?_) (by simp [hfull])
          -- the valid bit of the victim in the second level is that of a block from `malloc`
          refine not_kept_of_evicted hexcl rfl hfull (held_replaceSlot1_ne h1) ?_
            (by simpa only [evictInto, hfull] using h default)
          exact .inl (held_stray false _ _)
        · exact iff_of_true (fun junk => kept_insert hfull) (by simp [hfull])
      · simp [hsize]
    · simp only [cacheWrite_l2 h1 h2]
      by_cases hsize : paddr.addr + 16 ≤ size
      · by_cases hset : paddr.set2.val < 8
        · simp only [hsize, hset, if_true, dite_true, Except.ok.injEq, exists_eq_left']
          by_cases hfull : firstInvalid l1 paddr.set1 = none
          · refine iff_of_false (fun h => ?_) (by simp [hfull])
            refine not_kept_of_evicted hexcl (holds_writeWay2 h2) hfull
              (held_ne_of_lookup2 hexcl h2 _) ?_
              (by simpa only [evictInto, hfull, copiedEntry] using h default)
            exact .inl (held_copied false _ _ _)
          · exact iff_of_true (fun junk => kept_insert hfull) (by simp [hfull])
        · simp [hsize, hset]
      · simp [hsize]
  · simp only [cacheWrite_hit h1]
    by_cases hsize : paddr.addr + 16 ≤ size
    · exact iff_of_true (fun junk => ⟨_, if_pos hsize, writeHit_keeps h1⟩) (by simp [hsize])
    · simp [hsize]

end Write

/-- From an exclusive state, a call keeps the blocks of the first level exactly when its condition
holds. -/
theorem cache_keeps_iff (memSpace : Memory size) (paddr : PhyAddr) (l1 : L1Cache) (l2 : L2Cache)
    (hexcl : Exclusive (holds l1 l2)) :
    (∀ access, (∀ junk word, ∃ r, cacheRead junk memSpace paddr access l1 l2 word = .ok r
        ∧ Kept (fun _ _ => False) l1 r.l1 r.l2) ↔ ReadKeeps size paddr l1 l2)
      ∧ ∀ word, (∀ junk, ∃ r, cacheWrite junk memSpace paddr l1 l2 word = .ok r
        ∧ Kept (fun b k => b = paddr.block ∧ k = paddr.word) l1 r.l1 r.l2)
          ↔ WriteKeeps size paddr l1 l2 :=
  ⟨fun _ => read_keeps_iff hexcl, fun _ => write_keeps_iff hexcl⟩

/-- A first level with the blocks 0, 64, 128 and 192 in set 0, the first used longest ago. -/
def fourBlocks : L1Cache := fun i =>
  if i.val < 4 then ⟨true, BitVec.ofNat 2 (3 - i), BitVec.ofNat 22 i, fun _ => 0⟩
  else ⟨false, 0, 0, fun _ => 0⟩

theorem held_fourBlocks (i : Fin (64 * 4)) :
    held fourBlocks i = if i.val < 4 then some (i.val * 64) else none := by
  by_cases hi : i.val < 4
  · have htag : (BitVec.ofNat 22 i.val).toNat = i.val := by
      rw [BitVec.toNat_ofNat]
      omega
    simp [held, Entry.held, fourBlocks, hi, htag]
  · simp [held, Entry.held, fourBlocks, hi]

theorem exclusive_fourBlocks : Exclusive (holds fourBlocks noBlocks) := by
  refine (exclusive_of_held2_none held_noBlocks).2 fun i j b hi hj => ?_
  rw [held_fourBlocks] at hi hj
  split_ifs at hi hj
  apply Fin.ext
  rw [Option.some.injEq] at hi hj
  omega

/-- A write of the block 192 keeps the four, and a read of a fifth block of the set does not. -/
theorem cache_keeps_iff_fourBlocks :
    (∀ word junk, ∃ r, cacheWrite junk (fun _ => 0 : Memory 8192) ⟨0, 3072⟩ fourBlocks noBlocks word
        = .ok r ∧ Kept (fun b k => b = PhyAddr.block ⟨0, 3072⟩ ∧ k = PhyAddr.word ⟨0, 3072⟩)
          fourBlocks r.l1 r.l2)
      ∧ ¬ ∀ junk word, ∃ r, cacheRead junk (fun _ => 0 : Memory 8192) ⟨1, 0⟩ .data fourBlocks
        noBlocks word = .ok r ∧ Kept (fun _ _ => False) fourBlocks r.l1 r.l2 := by
  have hkeeps := fun paddr =>
    cache_keeps_iff (fun _ => 0 : Memory 8192) paddr _ _ exclusive_fourBlocks
  exact ⟨fun word => ((hkeeps _).2 word).2 (by decide +kernel),
    fun h => absurd (((hkeeps _).1 .data).1 h) (by decide +kernel)⟩

/-- The fifth block of a set drops the first. -/
theorem cacheRead_drops_block :
    Exclusive (holds fourBlocks noBlocks) ∧ Matches (fun _ => 0 : Memory 8192) fourBlocks
      ∧ Matches (fun _ => 0 : Memory 8192) (noBlocks : L2Cache)
      ∧ ∃ r, cacheRead default (fun _ => 0 : Memory 8192) ⟨1, 0⟩ .data fourBlocks noBlocks 0 = .ok r
        ∧ ¬ Kept (fun _ _ => False) fourBlocks r.l1 r.l2 := by
  have h1 : PhyAddr.lookup1 ⟨1, 0⟩ fourBlocks = none := by decide
  have h2 : PhyAddr.lookup2 ⟨1, 0⟩ noBlocks = none := lookup_of_held_none held_noBlocks _
  have hfull : firstInvalid fourBlocks (PhyAddr.set1 ⟨1, 0⟩) = none := by decide
  have hsize : PhyAddr.addr ⟨1, 0⟩ + 16 ≤ 8192 := by decide
  refine ⟨exclusive_fourBlocks, ?_, ?_, _, (cacheRead_miss h1 h2).trans (if_pos hsize), ?_⟩
  · intro i b hi
    have hline : (fourBlocks i).line = fun _ => 0 := by
      unfold fourBlocks
      split_ifs <;> rfl
    rw [held_fourBlocks] at hi
    split_ifs at hi
    rw [Option.some.injEq] at hi
    rw [hline, HasBlock, Memory.lineAt_zero]
    exact ⟨by omega, rfl⟩
  · exact matches_of_held_none held_noBlocks
  · exact fun h => (readMiss_keeps_iff exclusive_fourBlocks h1 _).1 h hfull

end KabyLake
