import KabyLake.Proofs.CacheMatches

/-!
# When the data caches hold what the memory holds

A line is right from the start if it is loaded at its own block, so at an aligned address, and it
stays right if each write reaches every copy of its block. A victim saved in the second level under
the block of another line has to be equal to that line.
-/

namespace KabyLake

open SetAssoc

variable {size : ℕ} {junk : Malloc} {m : Memory size} {paddr : PhyAddr} {access : MemAccess}
  {l1 : L1Cache} {l2 : L2Cache} {word : Word}

/-- The data caches match the memory. -/
def Core.Through (core : Core size) : Prop := Matches core.mem core.l1d ∧ Matches core.mem core.l2

/-- The condition for a read through `l1`. Only a line that goes to the data cache has to be loaded
at its block. -/
def ReadThrough (m : Memory size) (access : MemAccess) (paddr : PhyAddr) (l1 : L1Cache)
    (l2 : L2Cache) : Prop :=
  match paddr.lookup1 l1, paddr.lookup2 l2 with
  | some _, _ => True
  | none, some k =>
    let l1c := clearHit l1 k
    let victim := l1c (replaceSlot l1c paddr.set1)
    paddr.set2 = 0
      ∧ (firstInvalid l1c paddr.set1 = none → HasBlock m (punnedBlock victim) victim.line)
  | none, none => paddr.addr + 16 ≤ size ∧ (access ≠ .instruction → 16 ∣ paddr.addr)

def WriteThrough (m : Memory size) (paddr : PhyAddr) (l1 : L1Cache) (l2 : L2Cache) : Prop :=
  16 ∣ paddr.addr ∧ paddr.addr + 16 ≤ size ∧ match paddr.lookup1 l1, paddr.lookup2 l2 with
    | some w, _ => ∀ p, p ≠ .inl (slot paddr.set1 w) → holds l1 l2 p ≠ some paddr.block
    | none, some k =>
      paddr.set2 = 0 ∧ ∀ p, p ≠ .inr (slot paddr.set2 k) → holds l1 l2 p ≠ some paddr.block
    | none, none =>
      let victim := l1 (replaceSlot l1 paddr.set1)
      (∀ p, holds l1 l2 p ≠ some paddr.block)
        ∧ (firstInvalid l1 paddr.set1 = none →
          strayBlock paddr victim ≠ paddr.block ∧ HasBlock m (strayBlock paddr victim) victim.line)

/-- The condition for a call that reads or writes a word. -/
def ThroughCall (core : Core size) (i : Invocation) : Prop :=
  match i.call with
  | .read access paddr => ReadThrough core.mem access paddr (core.l1 access) core.l2
  | .write paddr _ => WriteThrough core.mem paddr core.l1d core.l2
  | _ => False

instance : Decidable (ReadThrough m access paddr l1 l2) := by
  unfold ReadThrough
  rcases paddr.lookup1 l1 with _ | w <;> rcases paddr.lookup2 l2 with _ | k <;> infer_instance

instance : Decidable (WriteThrough m paddr l1 l2) := by
  unfold WriteThrough
  rcases paddr.lookup1 l1 with _ | w <;> rcases paddr.lookup2 l2 with _ | k <;> infer_instance

instance (core : Core size) : DecidablePred (ThroughCall core)
  | ⟨.read _ _, _, _, _⟩ => inferInstanceAs (Decidable (ReadThrough _ _ _ _ _))
  | ⟨.readByte _ _, _, _, _⟩ => isFalse id
  | ⟨.write _ _, _, _, _⟩ => inferInstanceAs (Decidable (WriteThrough _ _ _ _))
  | ⟨.writeByte _ _, _, _, _⟩ => isFalse id

section Read

theorem matches_readL2_2 {k : Fin 8} (hset : paddr.set2 = 0) (h : Matches m l2)
    (hvictim : firstInvalid (clearHit l1 k) paddr.set1 = none →
      HasBlock m (punnedBlock (clearHit l1 k (replaceSlot (clearHit l1 k) paddr.set1)))
        (clearHit l1 k (replaceSlot (clearHit l1 k) paddr.set1)).line) :
    Matches m (readL2Result junk paddr l1 l2 word k).l2 := by
  by_cases hfull : firstInvalid (clearHit l1 k) paddr.set1 = none
  · have hv := firstInvalid_eq_none_iff.1 hfull (oldestWay (clearHit l1 k) paddr.set1)
    have hpun := held_asL2Entry hv
    rw [replaceSlot_of_full hfull] at hvictim
    simp only [readL2Result, hfull]
    refine (h.touch _ _).insert fun b hb => ?_
    rw [hset, hpun, Option.some.injEq] at hb
    rw [← hb, asL2Entry_line]
    exact hvictim hfull
  · obtain ⟨w, hw⟩ := Option.ne_none_iff_exists'.1 hfull
    simp only [readL2Result, hw]
    exact h.touch _ _

/-- The first level is right after a read if it is that of data, and the second always. -/
theorem cacheRead_through (junk : Malloc) (word : Word)
    (h1 : access ≠ .instruction → Matches m l1) (h2 : Matches m l2)
    (hok : ReadThrough m access paddr l1 l2) : ∃ r, cacheRead junk m paddr access l1 l2 word = .ok r
      ∧ (access ≠ .instruction → Matches m r.l1) ∧ Matches m r.l2 := by
  unfold ReadThrough at hok
  rcases hl1 : paddr.lookup1 l1 with _ | w
  · rcases hl2 : paddr.lookup2 l2 with _ | k
    · simp only [hl1, hl2] at hok
      refine ⟨_, (cacheRead_miss hl1 hl2).trans (if_pos hok.1), fun hdata => ?_, h2⟩
      exact matches_readMiss (h1 hdata) (hok.2 hdata) hok.1
    · simp only [hl1, hl2] at hok
      refine ⟨_, cacheRead_l2 hl1 hl2 hok.1, fun hdata => ?_, matches_readL2_2 hok.1 h2 hok.2⟩
      exact matches_readL2_1 (h1 hdata) (h2 _ _ (held_of_lookup2 hl2))
  · exact ⟨_, cacheRead_hit hl1, fun hdata => (h1 hdata).touch _ _, h2⟩

end Read

section Write

theorem matches_writeWay2 {k : Fin 8} (h : Matches m l2) (halign : 16 ∣ paddr.addr)
    (hsize : paddr.addr + 16 ≤ size) (hl2 : paddr.lookup2 l2 = some k)
    (halone : ∀ j ≠ slot paddr.set2 k, held l2 j ≠ some paddr.block) (word : Word) :
    Matches (m.setLine paddr.addr (Function.update (l2 (slot paddr.set2 k)).line paddr.word word))
      (writeWay2 paddr l2 word k) := by
  rw [PhyAddr.addr_eq halign] at hsize ⊢
  exact h.setLine_touch hsize (held_of_lookup2 hl2) halone _

theorem cacheWrite_through (junk : Malloc) (word : Word) (h1 : Matches m l1) (h2 : Matches m l2)
    (hok : WriteThrough m paddr l1 l2) : ∃ r, cacheWrite junk m paddr l1 l2 word = .ok r
      ∧ Matches r.mem r.l1 ∧ Matches r.mem r.l2 := by
  obtain ⟨halign, hsize, hok⟩ := hok
  have hsize' : 16 * paddr.block + 16 ≤ size := PhyAddr.addr_eq halign ▸ hsize
  rcases hl1 : paddr.lookup1 l1 with _ | w
  · rcases hl2 : paddr.lookup2 l2 with _ | k
    · simp only [hl1, hl2] at hok
      obtain ⟨halone, hvictim⟩ := hok
      refine ⟨_, (cacheWrite_miss hl1 hl2).trans (if_pos hsize), ?_, ?_⟩
      · exact matches_writeInsert_1 h1 halign hsize (fun i => halone (.inl i)) _
      · have hmem := h2.setLine hsize' (fun j => halone (.inr j))
          (Function.update (m.lineAt paddr.addr) paddr.word word)
        simp only [PhyAddr.addr_eq halign] at hmem ⊢
        by_cases hfull : firstInvalid l1 paddr.set1 = none
        · rw [evictInto_full hfull]
          refine hmem.insert fun b hb => ?_
          rw [held_stray] at hb
          split_ifs at hb
          rw [← Option.some.inj hb]
          exact (hvictim hfull).2.setLine_of_ne hsize' (hvictim hfull).1 _
        · rwa [evictInto_room hfull]
    · simp only [hl1, hl2] at hok
      obtain ⟨hset, halone⟩ := hok
      have hlt : paddr.set2.val < 8 := by rw [hset]; norm_num
      refine ⟨_, (cacheWrite_l2 hl1 hl2).trans ((if_pos hsize).trans (dif_pos hlt)), ?_, ?_⟩
      · simp only [copiedEntry_eq hset hlt]
        exact matches_writeInsert_1 h1 halign hsize (fun i => halone (.inl i) (by simp)) _
      · have hway := matches_writeWay2 h2 halign hsize hl2
          (fun j hj => halone (.inr j) (by simpa using hj)) word
        by_cases hfull : firstInvalid l1 paddr.set1 = none
        · simp only [evictInto_full hfull, copiedEntry_eq hset hlt]
          refine hway.insert fun b hb => ?_
          rw [held_copied] at hb
          split_ifs at hb
          rw [← Option.some.inj hb, PhyAddr.addr_eq halign]
          exact hasBlock_setLine hsize' _
        · simp only [evictInto_room hfull]
          exact hway
  · simp only [hl1] at hok
    refine ⟨_, (cacheWrite_hit hl1).trans (if_pos hsize), ?_, ?_⟩
    · refine matches_writeHit_1 h1 halign hsize hl1 (fun i hi => ?_) _
      exact hok (.inl i) (by simpa using hi)
    · simp only [PhyAddr.addr_eq halign]
      exact h2.setLine hsize' (fun j => hok (.inr j) (by simp)) _

end Write

theorem executeCommand_through (core : Core size) (i : Invocation) (h : core.Through)
    (hok : ThroughCall core i) :
    ∃ out core', executeCommand core i = .ok (out, core') ∧ core'.Through := by
  obtain ⟨call, junk, junk', word⟩ := i
  unfold ThroughCall at hok
  split at hok
  case h_1 access paddr hcall =>
    simp only at hcall
    have hl1 : access ≠ .instruction → Matches core.mem (core.l1 access) := fun hdata => by
      rw [Core.l1, if_neg hdata]
      exact h.1
    obtain ⟨r, hr, hr1, hr2⟩ := cacheRead_through junk word hl1 h.2 hok
    refine ⟨.word r.err r.word, { core.setL1 access r.l1 with l2 := r.l2 }, ?_, ?_⟩
    · simp only [executeCommand, hcall, hr, Exec.ok_bind, Exec.pure_eq]
    · unfold Core.setL1
      split_ifs with hinstr
      · exact ⟨h.1, hr2⟩
      · exact ⟨hr1 hinstr, hr2⟩
  case h_2 paddr word' hcall =>
    simp only at hcall
    obtain ⟨r, hr, hr1, hr2⟩ := cacheWrite_through junk word' h.1 h.2 hok
    refine ⟨.code r.err, ⟨r.mem, core.l1i, r.l1, r.l2⟩, ?_, hr1, hr2⟩
    simp only [executeCommand, hcall, hr, Exec.ok_bind, Exec.pure_eq]
  case h_3 => exact hok.elim

/-- In a run from flushed caches whose calls meet their conditions, the data caches match the
memory. -/
theorem cache_writeThrough (mem : Memory size) (l1i l1d : L1Cache) (l2 : L2Cache) :
    ∃ core, flushAll mem l1i l1d l2 = .ok core ∧
      ∀ is, Run.Along executeCommand ThroughCall core is →
        ∃ outs core', Run.run executeCommand core is = .ok (outs, core')
          ∧ Matches core'.mem core'.l1d ∧ Matches core'.mem core'.l2 :=
  ⟨_, flushAll_eq mem l1i l1d l2, fun is h => Run.run_of_inv executeCommand_through is
    ⟨matches_of_held_none (held_flushed l1d), matches_of_held_none (held_flushed l2)⟩ h⟩

/-- Four writes fill set 0, and after a read of the second of them a write of block 512 moves block
0 to the second level. -/
theorem cache_writeThrough_evict : ∃ core outs core',
    flushAll (fun i => BitVec.ofNat 8 i.val : Memory 8208) noBlocks noBlocks noBlocks = .ok core
      ∧ Run.run executeCommand core [writeBlock 0 1, writeBlock 64 2, writeBlock 128 3,
        writeBlock 192 4, readBlock 64, writeBlock 512 5] = .ok (outs, core')
      ∧ Matches core'.mem core'.l1d ∧ Matches core'.mem core'.l2 := by
  obtain ⟨core, hcore, hrun⟩ := cache_writeThrough (fun i => BitVec.ofNat 8 i.val : Memory 8208)
    noBlocks noBlocks noBlocks
  obtain rfl := Except.ok.inj ((flushAll_eq _ _ _ _).symm.trans hcore)
  obtain ⟨outs, core', hok, hmatch⟩ := hrun [writeBlock 0 1, writeBlock 64 2, writeBlock 128 3,
    writeBlock 192 4, readBlock 64, writeBlock 512 5] (by decide +kernel)
  exact ⟨_, outs, core', hcore, hok, hmatch⟩

/-- A read at address 4 loads the line that begins there as block 0. -/
theorem cacheRead_loads_wrong_line : ∃ core outs core',
    flushAll (fun i => BitVec.ofNat 8 i.val : Memory 32) noBlocks noBlocks noBlocks = .ok core
      ∧ Run.run executeCommand core [⟨.read .data ⟨0, 4⟩, default, default, 0⟩] = .ok (outs, core')
      ∧ ¬ Matches core'.mem core'.l1d := by
  refine ⟨_, _, _, flushAll_eq _ _ _ _, run_first_read (by decide) _ _ _ _ _ _, fun h => ?_⟩
  have hline := (h (replaceSlot (flushed noBlocks) (PhyAddr.set1 ⟨0, 4⟩)) 0 (by
    rw [held_update, Function.update_self, replaceSlot, setOf_slot]
    exact PhyAddr.held_entry _ _)).2
  simp only [Function.update_self, PhyAddr.entry_line] at hline
  have hword := congrFun hline 0
  revert hword
  decide

end KabyLake
