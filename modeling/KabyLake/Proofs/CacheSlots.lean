import KabyLake.Proofs.CachePlaces

/-!
# Accesses inside the arrays and the memory

A slot outside its array ends a call with the fault `slot`. The two branches for a hit in the second
level reach slots with the number of lines in the place of that of ways: a read is inside only from
set 0, and a write from the sets 0 to 7 (`slots_inside_iff`).

An offset past the memory ends a call with the fault `memory`. Lines are copied from and to the
address itself and not the start of its 16 bytes, so they may run past the end
(`memory_inside_iff`). A call comes to its end if it does neither (`cacheRead_runs_iff`,
`cacheWrite_runs_iff`).
-/

namespace KabyLake

open SetAssoc

variable {size : ℕ} {junk junk' : Malloc} {memSpace : Memory size} {paddr : PhyAddr}
  {access : MemAccess} {l1 : L1Cache} {l2 : L2Cache} {word : Word}

/-- Each slot a call reads or writes is inside the array it is taken from. In the source a copy that
runs past the memory goes on to the slots after it, so this asks for the slots of the call on every
memory. -/
def SlotsInside {α : ℕ → Type} (call : ∀ size, Memory size → Exec (α size)) : Prop :=
  ∀ size memSpace, call size memSpace ≠ .error .slot

/-- The block is found in the first level, or not in the second, or there in set 0. -/
def ReadInside (paddr : PhyAddr) (l1 : L1Cache) (l2 : L2Cache) : Prop :=
  paddr.lookup1 l1 ≠ none ∨ paddr.lookup2 l2 = none ∨ paddr.set2 = 0

/-- The block is found in the first level, or not in the second, or there in one of the sets 0 to
7. -/
def WriteInside (paddr : PhyAddr) (l1 : L1Cache) (l2 : L2Cache) : Prop :=
  paddr.lookup1 l1 ≠ none ∨ paddr.lookup2 l2 = none ∨ paddr.set2.val < 8

instance : Decidable (WriteInside paddr l1 l2) := inferInstanceAs (Decidable (_ ∨ _ ∨ _))

theorem cacheRead_slot_iff : cacheRead junk memSpace paddr access l1 l2 word = .error .slot
    ↔ ¬ ReadInside paddr l1 l2 := by
  unfold ReadInside
  rcases h1 : paddr.lookup1 l1 with _ | w
  · rcases h2 : paddr.lookup2 l2 with _ | k
    · rw [cacheRead_miss h1 h2]
      split_ifs <;> simp
    · by_cases hset : paddr.set2 = 0
      · simp [cacheRead_l2 h1 h2 hset, hset]
      · simp [cacheRead_l2_fault h1 h2 hset, hset]
  · simp [cacheRead_hit h1]

theorem cacheWrite_slot_iff : cacheWrite junk memSpace paddr l1 l2 word = .error .slot
    ↔ ¬ WriteInside paddr l1 l2 ∧ paddr.addr + 16 ≤ size := by
  unfold WriteInside
  rcases h1 : paddr.lookup1 l1 with _ | w
  · rcases h2 : paddr.lookup2 l2 with _ | k
    · rw [cacheWrite_miss h1 h2]
      split_ifs <;> simp
    · rw [cacheWrite_l2 h1 h2]
      split_ifs with hsize hset
      · simp [hset]
      · simp [hset, hsize]
      · simp [hsize]
  · rw [cacheWrite_hit h1]
    split_ifs <;> simp

theorem read_inside_iff :
    SlotsInside (fun _ memSpace => cacheRead junk memSpace paddr access l1 l2 word)
      ↔ ReadInside paddr l1 l2 := by
  constructor
  · intro h
    by_contra hslot
    exact h 0 Fin.elim0 (cacheRead_slot_iff.2 hslot)
  · exact fun h _ _ hslot => cacheRead_slot_iff.1 hslot h

theorem write_inside_iff :
    SlotsInside (fun _ memSpace => cacheWrite junk memSpace paddr l1 l2 word)
      ↔ WriteInside paddr l1 l2 := by
  constructor
  · intro h
    by_contra hslot
    -- a memory that ends with the line, so that the copy is inside
    exact h (paddr.addr + 16) (fun _ => 0) (cacheWrite_slot_iff.2 ⟨hslot, le_rfl⟩)
  · exact fun h _ _ hslot => (cacheWrite_slot_iff.1 hslot).1 h

/-- After a read with its slots inside, a write of the same address has them inside. -/
theorem write_inside_of_read {r : ReadResult}
    (h : cacheRead junk memSpace paddr access l1 l2 word = .ok r) :
    WriteInside paddr r.l1 r.l2 := by
  rcases h1 : paddr.lookup1 l1 with _ | w
  · rcases h2 : paddr.lookup2 l2 with _ | k
    · rw [cacheRead_miss h1 h2] at h
      split_ifs at h
      cases h
      left
      rw [PhyAddr.lookup1, lookup_update_replaceSlot h1 rfl (paddr.entry_tag _ _)]
      exact Option.some_ne_none _
    · by_cases hset : paddr.set2 = 0
      · exact .inr (.inr (by rw [hset]; decide))
      · rw [cacheRead_l2_fault h1 h2 hset] at h
        cases h
  · rw [cacheRead_hit h1] at h
    cases h
    left
    rw [PhyAddr.lookup1, lookup_congr content_touch, ← PhyAddr.lookup1, h1]
    exact Option.some_ne_none _

theorem writeByte_inside_iff {byte : Byte} :
    SlotsInside (fun _ memSpace => cacheWriteByte junk junk' memSpace paddr l1 l2 byte)
      ↔ byte = 0 ∨ ReadInside paddr l1 l2 := by
  by_cases hbyte : byte = 0
  · simp [hbyte, cacheWriteByte, SlotsInside]
  have hread : SlotsInside (fun _ memSpace =>
      cacheRead junk memSpace paddr .data l1 l2 junk.word) ↔ ReadInside paddr l1 l2 :=
    read_inside_iff
  rw [or_iff_right hbyte, ← hread]
  refine forall₂_congr fun size memSpace => not_congr ?_
  dsimp only
  rcases hr : cacheRead junk memSpace paddr .data l1 l2 junk.word with e | r
  · rw [cacheWriteByte, if_neg hbyte, hr, Exec.error_bind]
    simp
  · -- the read went through, so the write does not leave the arrays
    rw [cacheWriteByte_or junk' hbyte hr]
    exact iff_of_false (fun h => (cacheWrite_slot_iff.1 h).1 (write_inside_of_read hr)) nofun

/-- For each call the slots it reads and writes are inside the arrays exactly under its condition on
the address and the caches. -/
theorem slots_inside_iff (junk junk' : Malloc) (paddr : PhyAddr) (l1 : L1Cache) (l2 : L2Cache)
    (word : Word) :
    (∀ access, SlotsInside (fun _ memSpace => cacheRead junk memSpace paddr access l1 l2 word)
      ↔ ReadInside paddr l1 l2)
    ∧ (SlotsInside (fun _ memSpace => cacheWrite junk memSpace paddr l1 l2 word)
      ↔ WriteInside paddr l1 l2)
    ∧ ∀ byte, SlotsInside (fun _ memSpace => cacheWriteByte junk junk' memSpace paddr l1 l2 byte)
      ↔ byte = 0 ∨ ReadInside paddr l1 l2 :=
  ⟨fun _ => read_inside_iff, write_inside_iff, fun _ => writeByte_inside_iff⟩

/-- Block 1 in way 0 of set 1, and no other valid entry. -/
def secondSet : L2Cache := fun j => ⟨decide (j.val = 8), 0, 0, fun _ => 0⟩

/-- A read of block 1 looks for slot 512 of the first level. -/
theorem cacheRead_leaves_l1 :
    cacheRead default (fun _ => 0 : Memory 64) ⟨0, 16⟩ .data noBlocks secondSet 0 = .error .slot
      ∧ ¬ SlotsInside (fun _ memSpace =>
        cacheRead default memSpace ⟨0, 16⟩ .data noBlocks secondSet 0) := by
  have h1 : PhyAddr.lookup1 ⟨0, 16⟩ noBlocks = none := lookup_of_held_none held_noBlocks _
  have h2 : PhyAddr.lookup2 ⟨0, 16⟩ secondSet = some 0 := by decide
  have hfault : cacheRead default (fun _ => 0 : Memory 64) ⟨0, 16⟩ .data noBlocks secondSet 0
      = .error .slot := cacheRead_l2_fault h1 h2 (by decide)
  exact ⟨hfault, fun h => h _ _ hfault⟩

section Memory

/-- Each byte of memory a call reads or writes has an offset below the size. -/
def MemoryInside {α : Type} (call : Exec α) : Prop := call ≠ .error .memory

theorem read_memory_iff : MemoryInside (cacheRead junk memSpace paddr access l1 l2 word)
    ↔ paddr.lookup1 l1 ≠ none ∨ paddr.lookup2 l2 ≠ none ∨ paddr.addr + 16 ≤ size := by
  unfold MemoryInside
  rcases h1 : paddr.lookup1 l1 with _ | w
  · rcases h2 : paddr.lookup2 l2 with _ | k
    · rw [cacheRead_miss h1 h2]
      split_ifs with hsize <;> simp [hsize]
    · by_cases hset : paddr.set2 = 0
      · simp [cacheRead_l2 h1 h2 hset]
      · simp [cacheRead_l2_fault h1 h2 hset]
  · simp [cacheRead_hit h1]

theorem write_memory_iff : MemoryInside (cacheWrite junk memSpace paddr l1 l2 word)
    ↔ paddr.addr + 16 ≤ size := by
  unfold MemoryInside
  constructor
  · intro h
    by_contra hsize
    exact h (cacheWrite_short (not_le.1 hsize))
  · rintro hsize herr
    rcases cacheWrite_cases junk memSpace paddr l1 l2 word with ⟨-, hshort⟩ | hslot | ⟨r, hr, -⟩
    · omega
    · rw [hslot] at herr
      cases herr
    · rw [hr] at herr
      cases herr

theorem entryInit_memory_iff {a t : ℕ} (type : CacheT) :
    MemoryInside (cacheEntryInit memSpace paddr type : Exec (ErrorCode × CacheEntry a t))
      ↔ paddr.addr + 16 ≤ size := by
  unfold MemoryInside
  rcases type
  all_goals
    simp only [cacheEntryInit, initCache, Memory.loadLine, phyToUint32_toNat]
    split_ifs with hsize <;> simp [hsize]

/-- For each call the bytes of memory it reads and writes are inside exactly under its condition. -/
theorem memory_inside_iff (junk : Malloc) (memSpace : Memory size) (paddr : PhyAddr) (l1 : L1Cache)
    (l2 : L2Cache) (word : Word) :
    (∀ access, MemoryInside (cacheRead junk memSpace paddr access l1 l2 word)
      ↔ paddr.lookup1 l1 ≠ none ∨ paddr.lookup2 l2 ≠ none ∨ paddr.addr + 16 ≤ size)
    ∧ (MemoryInside (cacheWrite junk memSpace paddr l1 l2 word) ↔ paddr.addr + 16 ≤ size)
    ∧ ∀ a t type, MemoryInside
        (cacheEntryInit memSpace paddr type : Exec (ErrorCode × CacheEntry a t))
      ↔ paddr.addr + 16 ≤ size :=
  ⟨fun _ => read_memory_iff, write_memory_iff, fun _ _ => entryInit_memory_iff⟩

/-- The last word of a page of memory. -/
theorem cacheRead_leaves_memory :
    4 ∣ PhyAddr.addr ⟨0, 4092⟩ ∧ PhyAddr.addr ⟨0, 4092⟩ + 4 ≤ 4096
    ∧ ¬ MemoryInside (cacheRead default (fun _ => 0 : Memory 4096) ⟨0, 4092⟩ .data noBlocks
        noBlocks 0)
    ∧ ¬ MemoryInside (cacheWrite default (fun _ => 0 : Memory 4096) ⟨0, 4092⟩ noBlocks noBlocks 0)
    ∧ ¬ MemoryInside (cacheEntryInit (fun _ => 0 : Memory 4096) ⟨0, 4092⟩ .l1DCache :
        Exec (ErrorCode × L1Entry)) := by
  have hsize : ¬ PhyAddr.addr ⟨0, 4092⟩ + 16 ≤ 4096 := by decide
  refine ⟨by decide, by decide, ?_, mt write_memory_iff.1 hsize,
    mt (entryInit_memory_iff _).1 hsize⟩
  have h1 : PhyAddr.lookup1 ⟨0, 4092⟩ noBlocks = none := lookup_of_held_none held_noBlocks _
  have h2 : PhyAddr.lookup2 ⟨0, 4092⟩ noBlocks = none := lookup_of_held_none held_noBlocks _
  rw [read_memory_iff, h1, h2]
  simpa using hsize

end Memory

section Runs

/-- The block of a read is found in the first level; or in neither, with 16 bytes of memory left; or
in set 0 of the second. -/
def ReadRuns (size : ℕ) (paddr : PhyAddr) (l1 : L1Cache) (l2 : L2Cache) : Prop :=
  paddr.lookup1 l1 ≠ none ∨ paddr.lookup2 l2 = none ∧ paddr.addr + 16 ≤ size
    ∨ paddr.lookup2 l2 ≠ none ∧ paddr.set2 = 0

instance : Decidable (ReadRuns size paddr l1 l2) := inferInstanceAs (Decidable (_ ∨ _ ∧ _ ∨ _ ∧ _))

theorem cacheRead_runs_iff : (∃ r, cacheRead junk memSpace paddr access l1 l2 word = .ok r)
    ↔ ReadRuns size paddr l1 l2 := by
  unfold ReadRuns
  rcases h1 : paddr.lookup1 l1 with _ | w
  · rcases h2 : paddr.lookup2 l2 with _ | k
    · rw [cacheRead_miss h1 h2]
      split_ifs with hsize <;> simp [hsize]
    · by_cases hset : paddr.set2 = 0
      · simp [cacheRead_l2 h1 h2 hset, hset]
      · simp [cacheRead_l2_fault h1 h2 hset, hset]
  · simp [cacheRead_hit h1]

theorem cacheWrite_runs_iff : (∃ out, cacheWrite junk memSpace paddr l1 l2 word = .ok out)
    ↔ WriteInside paddr l1 l2 ∧ paddr.addr + 16 ≤ size := by
  have hmemory : MemoryInside (cacheWrite junk memSpace paddr l1 l2 word) ↔ _ := write_memory_iff
  have hslot : cacheWrite junk memSpace paddr l1 l2 word = .error .slot ↔ _ := cacheWrite_slot_iff
  rw [← hmemory] at hslot ⊢
  unfold MemoryInside at hslot ⊢
  rcases cacheWrite_cases junk memSpace paddr l1 l2 word with ⟨h, -⟩ | h | ⟨out, h, -⟩
  · simp [h]
  · simp [h, (hslot.1 h).1]
  · rw [h] at hslot
    simpa [h] using hslot

end Runs

end KabyLake
