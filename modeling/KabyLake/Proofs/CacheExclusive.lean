import KabyLake.Proofs.CachePlaces

/-!
# When no block is held twice

A read that finds a block in the second level copies it to the first, and leaves the second holding
it unless the victim of the first happens to fall into the same way. A write copies in the same way.
Misses in both levels keep the caches exclusive unless the block, or the block the victim is saved
under, is already there.
-/

namespace KabyLake

open SetAssoc

variable {size : ℕ} {junk : Malloc} {memSpace : Memory size} {paddr : PhyAddr} {access : MemAccess}
  {l1 l1' : L1Cache} {l2 l2' : L2Cache} {word : Word}

def ReadExclusive (size : ℕ) (paddr : PhyAddr) (l1 : L1Cache) (l2 : L2Cache) : Prop :=
  match paddr.lookup1 l1, paddr.lookup2 l2 with
  | some _, _ => True
  | none, some k =>
    let l1c := clearHit l1 k
    let victim := replaceSlot l1c paddr.set1
    paddr.set2 = 0 ∧ firstInvalid l1c paddr.set1 = none
      ∧ replaceSlot (touch l2 paddr.set2 k) paddr.set2 = slot paddr.set2 k
      ∧ punnedBlock (l1c victim) ≠ paddr.block
      ∧ ∀ p, p ≠ .inl (clearedSlot k) → p ≠ .inl victim → p ≠ .inr (slot paddr.set2 k) →
        holds l1 l2 p ≠ some (punnedBlock (l1c victim))
  | none, none => paddr.addr + 16 ≤ size ∧ ∀ p, holds l1 l2 p ≠ some paddr.block

instance : Decidable (ReadExclusive size paddr l1 l2) := by
  unfold ReadExclusive
  rcases paddr.lookup1 l1 with _ | w <;> rcases paddr.lookup2 l2 with _ | k <;> infer_instance

def WriteExclusive (size : ℕ) (paddr : PhyAddr) (l1 : L1Cache) (l2 : L2Cache) : Prop :=
  paddr.addr + 16 ≤ size ∧ match paddr.lookup1 l1, paddr.lookup2 l2 with
    | some _, _ => True
    | none, some _ => False
    | none, none =>
      let victim := replaceSlot l1 paddr.set1
      (∀ p, holds l1 l2 p ≠ some paddr.block)
        ∧ (firstInvalid l1 paddr.set1 = none → strayBlock paddr (l1 victim) ≠ paddr.block
          ∧ ∀ p, p ≠ .inl victim → p ≠ .inr (replaceSlot l2 paddr.set2) →
            holds l1 l2 p ≠ some (strayBlock paddr (l1 victim)))

instance : Decidable (WriteExclusive size paddr l1 l2) := by
  unfold WriteExclusive
  rcases paddr.lookup1 l1 with _ | w <;> rcases paddr.lookup2 l2 with _ | k <;> infer_instance

section Read

theorem readL2_exclusive_iff (hexcl : Exclusive (holds l1 l2)) {k : Fin 8}
    (h2 : paddr.lookup2 l2 = some k) (hset : paddr.set2 = 0) :
    Exclusive (holds (readL2Result junk paddr l1 l2 word k).l1
        (readL2Result junk paddr l1 l2 word k).l2)
      ↔ firstInvalid (clearHit l1 k) paddr.set1 = none
        ∧ replaceSlot (touch l2 paddr.set2 k) paddr.set2 = slot paddr.set2 k
        ∧ punnedBlock (clearHit l1 k (replaceSlot (clearHit l1 k) paddr.set1)) ≠ paddr.block
        ∧ ∀ p, p ≠ .inl (clearedSlot k) → p ≠ .inl (replaceSlot (clearHit l1 k) paddr.set1) →
          p ≠ .inr (slot paddr.set2 k) → holds l1 l2 p
            ≠ some (punnedBlock (clearHit l1 k (replaceSlot (clearHit l1 k) paddr.set1))) := by
  have hb : holds l1 l2 (.inr (slot paddr.set2 k)) = some paddr.block := held_of_lookup2 h2
  by_cases hfull : firstInvalid (clearHit l1 k) paddr.set1 = none
  swap
  · refine iff_of_false ?_ fun h => hfull h.1
    rw [holds_readL2_room hfull]
    refine not_exclusive_update ?_ (by simp : Sum.inr (slot paddr.set2 k) ≠ _)
    rw [Function.update_of_ne (by simp), hb]
  rw [holds_readL2_full hset hfull, ← replaceSlot_of_full hfull,
    exclusive_copy_iff hexcl hb (by simp) (by simp) (by simp), Sum.inr.injEq]
  simp only [hfull, true_and]

theorem read_exclusive_iff (memSpace : Memory size) (access : MemAccess)
    (hexcl : Exclusive (holds l1 l2)) :
    (∀ junk word, ∃ r, cacheRead junk memSpace paddr access l1 l2 word = .ok r
      ∧ Exclusive (holds r.l1 r.l2)) ↔ ReadExclusive size paddr l1 l2 := by
  unfold ReadExclusive
  rcases h1 : paddr.lookup1 l1 with _ | w
  · rcases h2 : paddr.lookup2 l2 with _ | k
    · simp only [cacheRead_miss h1 h2]
      by_cases hsize : paddr.addr + 16 ≤ size
      · simp only [hsize, if_true, Except.ok.injEq, exists_eq_left', holds_fill,
          exclusive_fill_iff hexcl (i := .inl _) (held_replaceSlot1_ne h1), forall_const, true_and]
      · simp [hsize]
    · by_cases hset : paddr.set2 = 0
      · simp only [cacheRead_l2 h1 h2 hset, Except.ok.injEq, exists_eq_left',
          readL2_exclusive_iff hexcl h2 hset, forall_const, hset, true_and]
      · simp [cacheRead_l2_fault h1 h2 hset, hset]
  · refine iff_of_true (fun junk word => ⟨_, cacheRead_hit h1, ?_⟩) trivial
    rwa [holds_touch1]

end Read

section Write

/-- A write that hits the second level leaves the block in both. -/
theorem writeL2_not_exclusive {k : Fin 8} (h2 : paddr.lookup2 l2 = some k) (age : BitVec 2)
    (line line' : CacheLine) : ¬ Exclusive (holds (insert l1 paddr.set1 (paddr.entry age line))
      (evictInto (fun _ => ⟨true, 0, ((paddr.entry age line).tag >>> 3).setWidth 19, line'⟩) l1
        paddr.set1 (writeWay2 paddr l2 word k) paddr.set2)) := by
  rw [holds_insert1]
  by_cases hfull : firstInvalid l1 paddr.set1 = none
  · rw [evictInto_full hfull, holds_insert2, held_copied, if_pos rfl]
    refine not_exclusive_update (Function.update_self ..) (by simp)
  · rw [evictInto_room hfull, holds_writeWay2 h2]
    exact not_exclusive_update (f := holds l1 l2) (j := .inr _) (held_of_lookup2 h2) (by simp)

theorem writeMiss_exclusive_iff (hexcl : Exclusive (holds l1 l2)) (h1 : paddr.lookup1 l1 = none)
    (h2 : paddr.lookup2 l2 = none) (line : CacheLine) (v : Bool) :
    Exclusive (holds (insert l1 paddr.set1 (paddr.entry 0 line))
      (evictInto (fun e => ⟨v, 0, (e.tag >>> 6).setWidth 19, e.line⟩) l1 paddr.set1 l2 paddr.set2))
      ↔ (∀ p, holds l1 l2 p ≠ some paddr.block) ∧ (firstInvalid l1 paddr.set1 = none → v = true →
        strayBlock paddr (l1 (replaceSlot l1 paddr.set1)) ≠ paddr.block
          ∧ ∀ p, p ≠ .inl (replaceSlot l1 paddr.set1) → p ≠ .inr (replaceSlot l2 paddr.set2) →
            holds l1 l2 p ≠ some (strayBlock paddr (l1 (replaceSlot l1 paddr.set1)))) := by
  have hv1 : holds l1 l2 (.inl (replaceSlot l1 paddr.set1)) ≠ some paddr.block :=
    held_replaceSlot1_ne h1
  have hv2 : holds l1 l2 (.inr (replaceSlot l2 paddr.set2)) ≠ some paddr.block :=
    held_replaceSlot2_ne h2
  by_cases hfull : firstInvalid l1 paddr.set1 = none
  · rw [evictInto_full hfull, holds_insert1, holds_insert2, held_stray,
      exclusive_evict_iff hexcl _ hv1 hv2 (by simp)]
    rcases v
    all_goals simp [hfull]
  · rw [evictInto_room hfull, holds_insert1, exclusive_fill_iff hexcl hv1]
    simp [hfull]

theorem write_exclusive_iff (memSpace : Memory size) (word : Word)
    (hexcl : Exclusive (holds l1 l2)) :
    (∀ junk, ∃ r, cacheWrite junk memSpace paddr l1 l2 word = .ok r
      ∧ Exclusive (holds r.l1 r.l2)) ↔ WriteExclusive size paddr l1 l2 := by
  unfold WriteExclusive
  by_cases hsize : paddr.addr + 16 ≤ size
  swap
  · refine iff_of_false (fun h => ?_) (fun h => hsize h.1)
    obtain ⟨r, hr, -⟩ := h default
    rcases h1 : paddr.lookup1 l1 with _ | w
    · rcases h2 : paddr.lookup2 l2 with _ | k
      · simp [cacheWrite_miss h1 h2, hsize] at hr
      · simp [cacheWrite_l2 h1 h2, hsize] at hr
    · simp [cacheWrite_hit h1, hsize] at hr
  rw [eq_true hsize, true_and]
  rcases h1 : paddr.lookup1 l1 with _ | w
  · rcases h2 : paddr.lookup2 l2 with _ | k
    · simp only [cacheWrite_miss h1 h2, hsize, if_true, Except.ok.injEq, exists_eq_left',
        writeMiss_exclusive_iff hexcl h1 h2]
      constructor
      · -- the second level keeps the victim if its valid bit happens to be set
        intro h
        have htrue := h ⟨⟨false, 0, 0, fun _ => 0⟩, ⟨true, 0, 0, fun _ => 0⟩, 0⟩
        exact ⟨htrue.1, fun hfull => htrue.2 hfull rfl⟩
      · exact fun h junk => ⟨h.1, fun hfull _ => h.2 hfull⟩
    · refine iff_of_false (fun h => ?_) id
      obtain ⟨r, hr, hrex⟩ := h ⟨⟨false, 0, 0, fun _ => 0⟩, ⟨true, 0, 0, fun _ => 0⟩, 0⟩
      rw [cacheWrite_l2 h1 h2, if_pos hsize] at hr
      split_ifs at hr with hset
      obtain rfl := Except.ok.inj hr
      exact writeL2_not_exclusive h2 _ _ _ hrex
  · refine iff_of_true (fun junk => ⟨_, (cacheWrite_hit h1).trans (if_pos hsize), ?_⟩) trivial
    rwa [holds_writeWay1 h1]

end Write

section Runs

/-- The condition for a call that reads or writes a word of data. -/
def ExclusiveCall (core : Core size) (i : Invocation) : Prop :=
  match i.call with
  | .read .data paddr => ReadExclusive size paddr core.l1d core.l2
  | .write paddr _ => WriteExclusive size paddr core.l1d core.l2
  | _ => False

instance (core : Core size) : DecidablePred (ExclusiveCall core)
  | ⟨.read .data _, _, _, _⟩ => inferInstanceAs (Decidable (ReadExclusive _ _ _ _))
  | ⟨.read .instruction _, _, _, _⟩ | ⟨.read .invalid _, _, _, _⟩ => isFalse id
  | ⟨.readByte _ _, _, _, _⟩ => isFalse id
  | ⟨.write _ _, _, _, _⟩ => inferInstanceAs (Decidable (WriteExclusive _ _ _ _))
  | ⟨.writeByte _ _, _, _, _⟩ => isFalse id

theorem executeCommand_exclusive (core : Core size) (i : Invocation)
    (hexcl : Exclusive (holds core.l1d core.l2)) (hok : ExclusiveCall core i) :
    ∃ out core', executeCommand core i = .ok (out, core')
      ∧ Exclusive (holds core'.l1d core'.l2) := by
  obtain ⟨call, junk, junk', word⟩ := i
  unfold ExclusiveCall at hok
  split at hok
  case h_1 paddr hcall =>
    obtain ⟨r, hr, hex⟩ := (read_exclusive_iff core.mem .data hexcl).2 hok junk word
    refine ⟨.word r.err r.word, { core with l1d := r.l1, l2 := r.l2 }, ?_, hex⟩
    simp only at hcall
    simp only [executeCommand, hcall, Core.l1, Core.setL1, reduceCtorEq, if_false, hr, Exec.ok_bind,
      Exec.pure_eq]
  case h_2 paddr word' hcall =>
    obtain ⟨r, hr, hex⟩ := (write_exclusive_iff core.mem word' hexcl).2 hok junk
    refine ⟨.code r.err, ⟨r.mem, core.l1i, r.l1, r.l2⟩, ?_, hex⟩
    simp only at hcall
    simp only [executeCommand, hcall, hr, Exec.ok_bind, Exec.pure_eq]
  case h_3 => exact hok.elim

end Runs

theorem exclusive_flushed (l1 : L1Cache) (l2 : L2Cache) :
    Exclusive (holds (flushed l1) (flushed l2)) := by
  rw [holds_flushed]
  exact fun _ _ _ hi => nomatch hi

/-- A call keeps the data caches exclusive exactly when its condition holds, so a run from flushed
caches does whose calls all meet it. -/
theorem cache_exclusive_iff (size : ℕ) :
    (∀ (memSpace : Memory size) (paddr : PhyAddr) (l1 : L1Cache) (l2 : L2Cache),
      Exclusive (holds l1 l2) →
        ((∀ junk word, ∃ r, cacheRead junk memSpace paddr .data l1 l2 word = .ok r
          ∧ Exclusive (holds r.l1 r.l2)) ↔ ReadExclusive size paddr l1 l2)
        ∧ ∀ word, (∀ junk, ∃ r, cacheWrite junk memSpace paddr l1 l2 word = .ok r
          ∧ Exclusive (holds r.l1 r.l2)) ↔ WriteExclusive size paddr l1 l2)
      ∧ ∀ (mem : Memory size) (l1i l1d : L1Cache) (l2 : L2Cache),
        ∃ core, flushAll mem l1i l1d l2 = .ok core ∧
          ∀ is, Run.Along executeCommand ExclusiveCall core is →
            ∃ outs core', Run.run executeCommand core is = .ok (outs, core')
              ∧ Exclusive (holds core'.l1d core'.l2) := by
  refine ⟨fun memSpace paddr l1 l2 hexcl => ⟨read_exclusive_iff memSpace .data hexcl,
    fun word => write_exclusive_iff memSpace word hexcl⟩, fun mem l1i l1d l2 => ?_⟩
  exact ⟨_, flushAll_eq mem l1i l1d l2, fun is h =>
    Run.run_of_inv executeCommand_exclusive is (exclusive_flushed l1d l2) h⟩

/-- A second level with block 0 alone. -/
def oneBlock : L2Cache := fun j => ⟨decide (j.val = 0), 0, 0, fun _ => 0⟩

theorem exclusive_oneBlock : Exclusive (holds noBlocks oneBlock) := by
  have hj : ∀ j b, held oneBlock j = some b → j.val = 0 := fun j b h => by
    simpa [oneBlock] using ((held_eq_some_iff j).1 h).1
  rintro (i | i) (j | j) b hi hj'
  all_goals simp only [holds_inl, holds_inr, held_noBlocks, reduceCtorEq] at hi hj'
  exact congrArg Sum.inr (Fin.ext ((hj i b hi).trans (hj j b hj').symm))

/-- A read of block 1 keeps the caches exclusive, and a read of block 0 does not. A run of four
writes that fill set 0, a read of the second of them and a write of block 512, which moves block 0
to the second level, keeps them exclusive. -/
theorem exclusive_of_evict :
    ((∀ junk word, ∃ r, cacheRead junk (fun _ => 0 : Memory 8208) ⟨0, 16⟩ .data noBlocks oneBlock
        word = .ok r ∧ Exclusive (holds r.l1 r.l2))
      ∧ ¬ ∀ junk word, ∃ r, cacheRead junk (fun _ => 0 : Memory 8208) ⟨0, 0⟩ .data noBlocks oneBlock
        word = .ok r ∧ Exclusive (holds r.l1 r.l2))
      ∧ ∃ core outs core', flushAll (fun _ => 0 : Memory 8208) noBlocks noBlocks noBlocks = .ok core
        ∧ Run.run executeCommand core [writeBlock 0 1, writeBlock 64 2, writeBlock 128 3,
          writeBlock 192 4, readBlock 64, writeBlock 512 5] = .ok (outs, core')
        ∧ Exclusive (holds core'.l1d core'.l2) := by
  have hread := fun paddr =>
    ((cache_exclusive_iff 8208).1 (fun _ => 0) paddr _ _ exclusive_oneBlock).1
  refine ⟨⟨(hread _).2 (by decide +kernel), fun h => ?_⟩, ?_⟩
  · exact absurd ((hread _).1 h) (by decide +kernel)
  obtain ⟨core, hcore, hrun⟩ := (cache_exclusive_iff 8208).2 (fun _ => 0) noBlocks noBlocks noBlocks
  obtain rfl := Except.ok.inj ((flushAll_eq _ _ _ _).symm.trans hcore)
  obtain ⟨outs, core', hok, hex⟩ := hrun [writeBlock 0 1, writeBlock 64 2, writeBlock 128 3,
    writeBlock 192 4, readBlock 64, writeBlock 512 5] (by decide +kernel)
  exact ⟨_, outs, core', hcore, hok, hex⟩

/-- A read of a block that is in the second level alone leaves it in both. -/
theorem cacheRead_duplicates_block :
    Exclusive (holds noBlocks oneBlock)
      ∧ ∃ r, cacheRead default (fun _ => 0 : Memory 16) ⟨0, 0⟩ .data noBlocks oneBlock 0 = .ok r
        ∧ r.err = .errNone ∧ ¬ Exclusive (holds r.l1 r.l2) := by
  have h1 : PhyAddr.lookup1 ⟨0, 0⟩ noBlocks = none := lookup_of_held_none held_noBlocks _
  have h2 : PhyAddr.lookup2 ⟨0, 0⟩ oneBlock = some 0 := by decide
  have hroom : firstInvalid (clearHit noBlocks 0) (PhyAddr.set1 ⟨0, 0⟩) = some 0 := by decide
  refine ⟨exclusive_oneBlock, _, cacheRead_l2 h1 h2 rfl, ?_, fun h => ?_⟩
  · simp only [readL2Result, hroom]
  · have hfull := ((readL2_exclusive_iff exclusive_oneBlock h2 rfl).1 h).1
    rw [hroom] at hfull
    cases hfull

end KabyLake
