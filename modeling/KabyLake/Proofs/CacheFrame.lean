import KabyLake.Proofs.CachePlaces
import KabyLake.CacheSystem

/-!
# What a call leaves alone

A read or write of an address uses its set of the first level and its set of the second, whose
numbers agree in the low six bits, and nothing else of the caches. The exception is the slot a read
invalidates when it hits in the second level: from way 4 on it is one of set 1 of the first level,
while the address is in set 0 (`call_isolated_iff`).
-/

namespace KabyLake

open SetAssoc

variable {size : ℕ} {core core' : Core size} {junk junk' : Malloc} {paddr : PhyAddr}
  {access : MemAccess} {l1 : L1Cache} {l2 l2' : L2Cache} {word : Word}

/-- Every first-level entry outside the set of the address is the same, and every second-level entry
whose set number differs from that set in its low six bits. -/
structure Isolated (paddr : PhyAddr) (core core' : Core size) : Prop where
  l1 : ∀ access, AgreeOff paddr.set1 (core.l1 access) (core'.l1 access)
  l2 : ∀ j, (setOf j).val % 64 ≠ paddr.set1.val → core'.l2 j = core.l2 j

/-- The block is found in the first level; or in neither, with 16 bytes of memory left; or in way
`k` of set 0 of the second, and slot `k` of the first is of set 0 or invalid. -/
def ReadIsolated (size : ℕ) (paddr : PhyAddr) (l1 : L1Cache) (l2 : L2Cache) : Prop :=
  match paddr.lookup1 l1, paddr.lookup2 l2 with
  | some _, _ => True
  | none, none => paddr.addr + 16 ≤ size
  | none, some k => paddr.set2 = 0 ∧ (4 ≤ k → (l1 (clearedSlot k)).v = false)

/-- 16 bytes of memory are left, and the block is found in the first level, or not in the second, or
there in one of the sets 0 to 7. -/
def WriteIsolated (size : ℕ) (paddr : PhyAddr) (l1 : L1Cache) (l2 : L2Cache) : Prop :=
  paddr.addr + 16 ≤ size
    ∧ (paddr.lookup1 l1 ≠ none ∨ paddr.lookup2 l2 = none ∨ paddr.set2.val < 8)

theorem agreeOff_set2 (h : AgreeOff paddr.set2 l2 l2') :
    ∀ j, (setOf j).val % 64 ≠ paddr.set1.val → l2' j = l2 j := by
  intro j hj
  refine h j fun hset => hj ?_
  rw [hset, paddr.set1_val, paddr.set2_val]
  omega

theorem agreeOff_evictInto (evicted : L1Entry → L2Entry) (l1 : L1Cache) (s₁ : Fin 64) (l2 : L2Cache)
    (s₂ : Fin 512) : AgreeOff s₂ l2 (evictInto evicted l1 s₁ l2 s₂) := by
  unfold evictInto
  rcases firstInvalid l1 s₁ with _ | w
  · exact agreeOff_insert l2 s₂ _
  · exact AgreeOff.refl s₂ l2

theorem agreeOff_writeWay2 (paddr : PhyAddr) (l2 : L2Cache) (word : Word) (k : Fin 8) :
    AgreeOff paddr.set2 l2 (writeWay2 paddr l2 word k) :=
  (agreeOff_touch l2 paddr.set2 k).trans (agreeOff_update _ paddr.set2 k _)

/-- Nothing is different in a first-level cache that is not replaced. -/
theorem agreeOff_setL1 (access : MemAccess) {l1' : L1Cache}
    (h : AgreeOff paddr.set1 (core.l1 access) l1') (access' : MemAccess) :
    AgreeOff paddr.set1 (core.l1 access') ((core.setL1 access l1').l1 access') := by
  unfold Core.l1 Core.setL1 at *
  split_ifs at *
  · exact h
  · exact AgreeOff.refl _ _
  · exact AgreeOff.refl _ _
  · exact h

section Read

/-- The slot cleared is of the set of the address for the ways 0 to 3, and of the next for the
others. -/
theorem setOf_clearedSlot (k : Fin 8) : setOf (clearedSlot k) = 0 ↔ ¬ 4 ≤ k := by
  revert k
  decide

theorem agreeOff_clearHit_iff (k : Fin 8) :
    AgreeOff 0 l1 (clearHit l1 k) ↔ (4 ≤ k → (l1 (clearedSlot k)).v = false) := by
  have hself : clearHit l1 k (clearedSlot k) = { l1 (clearedSlot k) with v := false } :=
    Function.update_self ..
  constructor
  · intro h hk
    rw [← h (clearedSlot k) (mt (setOf_clearedSlot k).1 (not_not.2 hk)), hself]
  · intro h i hi
    by_cases hik : i = clearedSlot k
    · subst hik
      have hv := h (not_not.1 (mt (setOf_clearedSlot k).2 hi))
      rw [hself, ← hv]
    · exact Function.update_of_ne hik ..

theorem readL2_l2 (k : Fin 8) :
    AgreeOff paddr.set2 l2 (readL2Result junk paddr l1 l2 word k).l2 := by
  have htouch := agreeOff_touch l2 paddr.set2 k
  simp only [readL2Result]
  split
  · exact htouch
  · exact htouch.trans (agreeOff_insert _ _ _)

theorem readL2_l1_iff (junk : Malloc) (l1 : L1Cache) (l2 : L2Cache) (word : Word) {k : Fin 8}
    (hset : paddr.set2 = 0) : AgreeOff paddr.set1 l1 (readL2Result junk paddr l1 l2 word k).l1
      ↔ (4 ≤ k → (l1 (clearedSlot k)).v = false) := by
  have hins := agreeOff_insert (clearHit l1 k) paddr.set1
    (paddr.entry junk.l1Entry.age (l2 (slot paddr.set2 k)).line)
  rw [readL2Result_l1, ← agreeOff_clearHit_iff k, ← set1_eq_zero hset]
  constructor
  · exact fun h i hi => (hins i hi).symm.trans (h i hi)
  · exact fun h => h.trans hins

/-- A read leaves the memory and the other sets exactly under its condition. -/
theorem read_isolated_iff : (∃ out core',
      executeCommand core ⟨.read access paddr, junk, junk', word⟩ = .ok (out, core')
        ∧ core'.mem = core.mem ∧ Isolated paddr core core')
    ↔ ReadIsolated size paddr (core.l1 access) core.l2 := by
  have hleft : ∀ {l1' l2'}, AgreeOff paddr.set1 (core.l1 access) l1' →
      AgreeOff paddr.set2 core.l2 l2' →
      ({ core.setL1 access l1' with l2 := l2' } : Core size).mem = core.mem
        ∧ Isolated paddr core { core.setL1 access l1' with l2 := l2' } :=
    fun h1 h2 => ⟨core.mem_setL1 access _, agreeOff_setL1 access h1, agreeOff_set2 h2⟩
  unfold ReadIsolated
  simp only [executeCommand]
  rcases h1 : paddr.lookup1 (core.l1 access) with _ | w
  · rcases h2 : paddr.lookup2 core.l2 with _ | k
    · rw [cacheRead_miss h1 h2]
      split_ifs with hsize
      · refine iff_of_true ⟨_, _, rfl, hleft ?_ (AgreeOff.refl _ _)⟩ hsize
        exact agreeOff_update _ _ _ _
      · exact iff_of_false (Exec.not_exists_ok _ _) hsize
    · by_cases hset : paddr.set2 = 0
      · rw [cacheRead_l2 h1 h2 hset]
        show _ ↔ paddr.set2 = 0 ∧ _
        rw [← readL2_l1_iff junk (core.l1 access) core.l2 word hset]
        constructor
        · rintro ⟨out, core', h, -, hiso⟩
          cases h
          refine ⟨hset, ?_⟩
          rw [← core.l1_setL1 access (readL2Result junk paddr (core.l1 access) core.l2 word k).l1]
          exact hiso.l1 access
        · rintro ⟨-, h⟩
          exact ⟨_, _, rfl, hleft h (readL2_l2 k)⟩
      · rw [cacheRead_l2_fault h1 h2 hset]
        exact iff_of_false (Exec.not_exists_ok _ _) fun h => hset h.1
  · rw [cacheRead_hit h1]
    refine iff_of_true ⟨_, _, rfl, hleft ?_ (AgreeOff.refl _ _)⟩ trivial
    exact agreeOff_touch _ _ _

end Read

section Write

theorem isolated_write {mem' : Memory size} {l1' : L1Cache}
    (h1 : AgreeOff paddr.set1 core.l1d l1') (h2 : AgreeOff paddr.set2 core.l2 l2') :
    Isolated paddr core ⟨mem', core.l1i, l1', l2'⟩ :=
  ⟨agreeOff_setL1 .data h1, agreeOff_set2 h2⟩

/-- A write leaves the other sets exactly under its condition. -/
theorem write_isolated_iff {w : Word} : (∃ out core',
      executeCommand core ⟨.write paddr w, junk, junk', word⟩ = .ok (out, core')
        ∧ Isolated paddr core core')
    ↔ WriteIsolated size paddr core.l1d core.l2 := by
  unfold WriteIsolated
  simp only [executeCommand]
  by_cases hsize : paddr.addr + 16 ≤ size
  swap
  · rw [cacheWrite_short (not_le.1 hsize)]
    exact iff_of_false (Exec.not_exists_ok _ _) fun h => hsize h.1
  rcases h1 : paddr.lookup1 core.l1d with _ | v
  · have hins := agreeOff_insert core.l1d paddr.set1
    rcases h2 : paddr.lookup2 core.l2 with _ | k
    · rw [cacheWrite_miss h1 h2, if_pos hsize]
      refine iff_of_true ⟨_, _, rfl, isolated_write (hins _) ?_⟩ ⟨hsize, .inr (.inl rfl)⟩
      dsimp only
      exact agreeOff_evictInto _ _ _ _ _
    · rw [cacheWrite_l2 h1 h2, if_pos hsize]
      split_ifs with hset
      · refine iff_of_true ⟨_, _, rfl, isolated_write (hins _) ?_⟩ ⟨hsize, .inr (.inr hset)⟩
        dsimp only
        exact (agreeOff_writeWay2 paddr core.l2 w k).trans (agreeOff_evictInto _ _ _ _ _)
      · refine iff_of_false (Exec.not_exists_ok _ _) ?_
        rintro ⟨-, h | h | h⟩
        · exact h rfl
        · cases h
        · exact hset h
  · rw [cacheWrite_hit h1, if_pos hsize]
    refine iff_of_true ⟨_, _, rfl, isolated_write ?_ (AgreeOff.refl _ _)⟩
      ⟨hsize, .inl (Option.some_ne_none _)⟩
    exact (agreeOff_touch _ _ _).trans (agreeOff_update _ _ _ _)

end Write

/-- A read leaves the memory and the other sets, and a write the other sets, exactly under its
condition on the address and the caches. -/
theorem call_isolated_iff (core : Core size) (paddr : PhyAddr) (junk junk' : Malloc)
    (word : Word) :
    (∀ access, (∃ out core',
        executeCommand core ⟨.read access paddr, junk, junk', word⟩ = .ok (out, core')
          ∧ core'.mem = core.mem ∧ Isolated paddr core core')
      ↔ ReadIsolated size paddr (core.l1 access) core.l2)
    ∧ ∀ w, (∃ out core',
        executeCommand core ⟨.write paddr w, junk, junk', word⟩ = .ok (out, core')
          ∧ Isolated paddr core core')
      ↔ WriteIsolated size paddr core.l1d core.l2 :=
  ⟨fun _ => read_isolated_iff, fun _ => write_isolated_iff⟩

/-- An entry in way 0 of set 1, and no other valid entry. -/
def nextSet : L1Cache := fun i => ⟨decide (i.val = 4), 0, 0, fun _ => 0⟩

/-- Block 0 in way 4 of set 0, after four entries of another tag. -/
def fifthWay : L2Cache := fun j => ⟨decide (j.val < 5), 0, if j.val = 4 then 0 else 1, fun _ => 0⟩

/-- A read of block 0 invalidates the entry in set 1. -/
theorem cacheRead_clears_next_set :
    setOf (clearedSlot 4) ≠ PhyAddr.set1 ⟨0, 0⟩ ∧ (nextSet (clearedSlot 4)).v = true
      ∧ ∃ r, cacheRead default (fun _ => 0 : Memory 64) ⟨0, 0⟩ .data nextSet fifthWay 0 = .ok r
        ∧ (r.l1 (clearedSlot 4)).v = false := by
  have hset : setOf (clearedSlot 4) ≠ PhyAddr.set1 ⟨0, 0⟩ := by decide
  have h1 : PhyAddr.lookup1 ⟨0, 0⟩ nextSet = none := by decide
  have h2 : PhyAddr.lookup2 ⟨0, 0⟩ fifthWay = some 4 := by decide
  refine ⟨hset, rfl, _, cacheRead_l2 h1 h2 rfl, ?_⟩
  rw [readL2Result_l1, agreeOff_insert _ _ _ _ hset]
  rfl

end KabyLake
