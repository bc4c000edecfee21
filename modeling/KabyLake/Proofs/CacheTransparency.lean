import KabyLake.Proofs.CacheMatches

/-!
# When the data caches answer like the memory alone

A first level that matches the memory answers like it. A run keeps it matching if lines are loaded
and stored at their blocks and if a line that comes from the second level is still that of the
memory.
-/

namespace KabyLake

open SetAssoc

variable {size : ℕ} {m : Memory size} {paddr : PhyAddr} {l1 : L1Cache} {l2 : L2Cache}

/-- A memory without caches. -/
def flat (m : Memory size) (i : Invocation) : Output × Memory size :=
  match i.call with
  | .read _ paddr => (.word .errNone (m.wordAt paddr.addr), m)
  | .readByte _ paddr => (.byte .errNone (some (m.byteAt paddr.addr)), m)
  | .write paddr word => (.code .errNone, m.setWord paddr.addr word)
  | .writeByte paddr byte => (.code .errNone, m.setByte paddr.addr byte)

/-- The block of an address is in no slot of the first level but the one a lookup finds. -/
def Alone (paddr : PhyAddr) (l1 : L1Cache) : Prop :=
  ∀ i, held l1 i = some paddr.block → ∃ w, paddr.lookup1 l1 = some w ∧ i = slot paddr.set1 w

/-- The condition for a read. It sets no word when it takes a line from the second level and there
is room in the first. -/
def ReadTransparent (m : Memory size) (paddr : PhyAddr) (l1 : L1Cache) (l2 : L2Cache) : Prop :=
  match paddr.lookup1 l1, paddr.lookup2 l2 with
  | some _, _ => True
  | none, some k => paddr.set2 = 0 ∧ firstInvalid (clearHit l1 k) paddr.set1 = none
      ∧ HasBlock m paddr.block (l2 (slot paddr.set2 k)).line
  | none, none => 16 ∣ paddr.addr ∧ paddr.addr + 16 ≤ size

def WriteTransparent (m : Memory size) (paddr : PhyAddr) (l1 : L1Cache) (l2 : L2Cache) : Prop :=
  16 ∣ paddr.addr ∧ paddr.addr + 16 ≤ size ∧ Alone paddr l1 ∧ (paddr.lookup1 l1 = none →
    ∀ k, paddr.lookup2 l2 = some k →
      paddr.set2 = 0 ∧ HasBlock m paddr.block (l2 (slot paddr.set2 k)).line)

/-- The condition for a call on data. A byte that is written only adds bits to the one in memory,
and is not 0. -/
def TransparentCall (core : Core size) (i : Invocation) : Prop :=
  match i.call with
  | .read .data paddr => 4 ∣ paddr.addr ∧ ReadTransparent core.mem paddr core.l1d core.l2
  | .readByte .data paddr => ReadTransparent core.mem paddr core.l1d core.l2
  | .write paddr _ => WriteTransparent core.mem paddr core.l1d core.l2
  | .writeByte paddr byte => 16 ∣ paddr.addr ∧ paddr.addr + 16 ≤ size ∧ Alone paddr core.l1d
      ∧ ReadTransparent core.mem paddr core.l1d core.l2
      ∧ byte ≠ 0 ∧ core.mem.byteAt paddr.addr ||| byte = byte
  | _ => False

instance : Decidable (Alone paddr l1) := inferInstanceAs (Decidable (∀ _, _ → _))

instance : Decidable (ReadTransparent m paddr l1 l2) := by
  unfold ReadTransparent
  rcases paddr.lookup1 l1 with _ | w <;> rcases paddr.lookup2 l2 with _ | k <;> infer_instance

instance : Decidable (WriteTransparent m paddr l1 l2) :=
  inferInstanceAs (Decidable (_ ∧ _ ∧ _ ∧ (_ → ∀ _, _ → _)))

instance (core : Core size) : DecidablePred (TransparentCall core)
  | ⟨.read .data _, _, _, _⟩ => inferInstanceAs (Decidable (_ ∧ _))
  | ⟨.readByte .data _, _, _, _⟩ => inferInstanceAs (Decidable (ReadTransparent _ _ _ _))
  | ⟨.read .instruction _, _, _, _⟩ | ⟨.read .invalid _, _, _, _⟩ => isFalse id
  | ⟨.readByte .instruction _, _, _, _⟩ | ⟨.readByte .invalid _, _, _, _⟩ => isFalse id
  | ⟨.write _ _, _, _, _⟩ => inferInstanceAs (Decidable (WriteTransparent _ _ _ _))
  | ⟨.writeByte _ _, _, _, _⟩ => inferInstanceAs (Decidable (_ ∧ _))

section Address

theorem PhyAddr.word_offset (h : 4 ∣ paddr.addr) :
    16 * paddr.block + 4 * paddr.word = paddr.addr := by
  show 16 * (paddr.addr / 16) + 4 * (paddr.addr / 4 % 4) = paddr.addr
  omega

theorem PhyAddr.byte_offset (paddr : PhyAddr) :
    16 * paddr.block + 4 * paddr.word + paddr.addr % 4 = paddr.addr := by
  show 16 * (paddr.addr / 16) + 4 * (paddr.addr / 4 % 4) + paddr.addr % 4 = paddr.addr
  omega

theorem PhyAddr.pageOffset_mod (paddr : PhyAddr) : paddr.pageOffset.toNat % 4 = paddr.addr % 4 := by
  unfold PhyAddr.addr
  omega

/-- Writing back the line of a block with the word of an address changed is writing the word. -/
theorem setLine_word (halign : 16 ∣ paddr.addr) {line : CacheLine} (h : HasBlock m paddr.block line)
    (word : Word) : m.setLine paddr.addr (Function.update line paddr.word word)
      = m.setWord paddr.addr word := by
  have h4 : 4 ∣ paddr.addr := dvd_trans (by norm_num) halign
  rw [PhyAddr.addr_eq halign, h.2, Memory.setLine_update, PhyAddr.word_offset h4,
    ← PhyAddr.addr_eq halign]

end Address

section Alone

theorem Alone.held_ne (h : Alone paddr l1) (h1 : paddr.lookup1 l1 = none) (i : Fin (64 * 4)) :
    held l1 i ≠ some paddr.block := by
  intro hi
  obtain ⟨w, hw, -⟩ := h i hi
  rw [h1] at hw
  cases hw

theorem Alone.congr {l1' : L1Cache} (h : Alone paddr l1) (hc : content l1' = content l1) :
    Alone paddr l1' := by
  intro i hi
  obtain ⟨w, hw, rfl⟩ := h i (held_congr hc ▸ hi)
  exact ⟨w, (lookup_congr hc _ _).trans hw, rfl⟩

theorem lookup1_insert (h1 : paddr.lookup1 l1 = none) (age : BitVec 2) (line : CacheLine) :
    paddr.lookup1 (insert l1 paddr.set1 (paddr.entry age line))
      = some (replaceWay l1 paddr.set1) :=
  lookup_insert h1 rfl (PhyAddr.entry_tag age line)

/-- A block in no slot is alone once it is inserted. -/
theorem alone_insert (h1 : paddr.lookup1 l1 = none) (hne : ∀ i, held l1 i ≠ some paddr.block)
    (age : BitVec 2) (line : CacheLine) :
    Alone paddr (insert l1 paddr.set1 (paddr.entry age line)) := by
  intro i hi
  refine ⟨_, lookup1_insert h1 age line, ?_⟩
  by_contra hslot
  rw [held_insert, replaceSlot, Function.update_of_ne hslot] at hi
  exact hne i hi

end Alone

section Read

/-- A read returns the word of memory, and finds the block in the first level from then on. -/
theorem cacheRead_transparent (junk : Malloc) (word : Word) (h : Matches m l1)
    (hok : ReadTransparent m paddr l1 l2) : ∃ r, cacheRead junk m paddr .data l1 l2 word = .ok r
      ∧ r.err = .errNone ∧ r.word = m.wordAt (16 * paddr.block + 4 * paddr.word)
      ∧ Matches m r.l1 ∧ (Alone paddr l1 → Alone paddr r.l1 ∧ paddr.lookup1 r.l1 ≠ none) := by
  unfold ReadTransparent at hok
  rcases hl1 : paddr.lookup1 l1 with _ | w
  · rcases hl2 : paddr.lookup2 l2 with _ | k
    · simp only [hl1, hl2] at hok
      refine ⟨_, (cacheRead_miss hl1 hl2).trans (if_pos hok.2), rfl, ?_,
        matches_readMiss h hok.1 hok.2, fun halone => ?_⟩
      · rw [PhyAddr.addr_eq hok.1]
        rfl
      · have hc : content (Function.update l1 (replaceSlot l1 paddr.set1)
            (paddr.entry 0 (m.lineAt paddr.addr))) = _ := content_insert_eq.symm
        refine ⟨(alone_insert hl1 (halone.held_ne hl1) _ _).congr hc, ?_⟩
        rw [PhyAddr.lookup1, lookup_congr hc, ← PhyAddr.lookup1, lookup1_insert hl1]
        exact Option.some_ne_none _
    · simp only [hl1, hl2] at hok
      obtain ⟨hset, hfull, hline⟩ := hok
      refine ⟨_, cacheRead_l2 hl1 hl2 hset, ?_, ?_, matches_readL2_1 h hline, fun halone => ?_⟩
      · simp only [readL2Result, hfull]
      · simp only [readL2Result, hfull, PhyAddr.entry_line]
        rw [hline.2]
        rfl
      · have hne : ∀ i, held (clearHit l1 k) i ≠ some paddr.block := by
          rw [clearHit, held_clear]
          exact update_ne_some (halone.held_ne hl1) (Option.some_ne_none _).symm _
        have hnone : paddr.lookup1 (clearHit l1 k) = none := lookup_of_held_ne paddr.set1_val hne
        rw [readL2Result_l1]
        refine ⟨alone_insert hnone hne _ _, ?_⟩
        rw [lookup1_insert hnone]
        exact Option.some_ne_none _
  · refine ⟨_, cacheRead_hit hl1, rfl, ?_, h.touch _ _, fun halone => ?_⟩
    · rw [(h _ _ (held_of_lookup1 hl1)).2]
      rfl
    · refine ⟨halone.congr content_touch, ?_⟩
      rw [PhyAddr.lookup1, lookup_congr content_touch, ← PhyAddr.lookup1, hl1]
      exact Option.some_ne_none _

end Read

section Write

theorem cacheWrite_transparent (junk : Malloc) (l2 : L2Cache) (word : Word) (h : Matches m l1)
    (hok : WriteTransparent m paddr l1 l2) : ∃ r, cacheWrite junk m paddr l1 l2 word = .ok r
      ∧ r.err = .errNone ∧ r.mem = m.setWord paddr.addr word ∧ Matches r.mem r.l1 := by
  obtain ⟨halign, hsize, halone, hok⟩ := hok
  rcases hl1 : paddr.lookup1 l1 with _ | w
  · rcases hl2 : paddr.lookup2 l2 with _ | k
    · refine ⟨_, (cacheWrite_miss hl1 hl2).trans (if_pos hsize), rfl, ?_, ?_⟩
      · exact setLine_word halign (hasBlock_of_aligned halign hsize) word
      · exact matches_writeInsert_1 h halign hsize (halone.held_ne hl1) _
    · obtain ⟨hset, hline⟩ := hok hl1 k hl2
      have hlt : paddr.set2.val < 8 := by rw [hset]; norm_num
      refine ⟨_, (cacheWrite_l2 hl1 hl2).trans ((if_pos hsize).trans (dif_pos hlt)), rfl, ?_, ?_⟩
      · exact setLine_word halign hline word
      · simp only [copiedEntry_eq hset hlt]
        exact matches_writeInsert_1 h halign hsize (halone.held_ne hl1) _
  · refine ⟨_, (cacheWrite_hit hl1).trans (if_pos hsize), rfl, ?_, ?_⟩
    · exact setLine_word halign (h _ _ (held_of_lookup1 hl1)) word
    · refine matches_writeHit_1 h halign hsize hl1 (fun i hi hheld => hi ?_) _
      obtain ⟨w', hw', rfl⟩ := halone i hheld
      rw [hl1, Option.some.injEq] at hw'
      rw [hw']

end Write

section Bytes

theorem cacheReadByte_transparent (junk : Malloc) (h : Matches m l1)
    (hok : ReadTransparent m paddr l1 l2) : ∃ l1' l2',
      cacheReadByte junk m paddr .data l1 l2 = .ok (.errNone, some (m.byteAt paddr.addr), l1', l2')
        ∧ Matches m l1' := by
  obtain ⟨r, hr, herr, hword, hmatch, -⟩ := cacheRead_transparent junk junk.word h hok
  refine ⟨r.l1, r.l2, ?_, hmatch⟩
  have hbyte : ((r.word >>> (paddr.pageOffset.toNat % 4 * 8)) &&& 255).setWidth 8
      = m.byteAt paddr.addr := by
    rw [byteOf_mask, hword, PhyAddr.pageOffset_mod,
      Memory.byteOf_wordAt _ (Nat.mod_lt _ (by norm_num)), PhyAddr.byte_offset]
  simp only [cacheReadByte, hr, Exec.ok_bind, herr, ne_eq, not_true_eq_false, if_false, hbyte,
    Exec.pure_eq]

theorem cacheWriteByte_transparent (junk junk' : Malloc) {byte : Byte} (h : Matches m l1)
    (halign : 16 ∣ paddr.addr) (hsize : paddr.addr + 16 ≤ size) (halone : Alone paddr l1)
    (hok : ReadTransparent m paddr l1 l2) (hbyte : byte ≠ 0)
    (hor : m.byteAt paddr.addr ||| byte = byte) : ∃ r,
      cacheWriteByte junk junk' m paddr l1 l2 byte = .ok r ∧ r.err = .errNone
        ∧ r.mem = m.setByte paddr.addr byte ∧ Matches r.mem r.l1 := by
  obtain ⟨r, hr, -, hword, hmatch, hfound⟩ := cacheRead_transparent junk junk.word h hok
  obtain ⟨halone', hl1⟩ := hfound halone
  have h4 : 4 ∣ paddr.addr := dvd_trans (by norm_num) halign
  -- the byte is the first of its word, and the write finds the line that the read has left
  obtain ⟨w, hw, hwerr, hwmem, hwmatch⟩ := cacheWrite_transparent junk' r.l2
    (r.word ||| byte.setWidth 32) hmatch ⟨halign, hsize, halone', fun hnone => absurd hnone hl1⟩
  rw [hword, PhyAddr.word_offset h4, Memory.setWord_or _ _ hor] at hwmem
  refine ⟨w, ?_, hwerr, hwmem, hwmatch⟩
  rw [cacheWriteByte_or junk' hbyte hr, Nat.mod_eq_zero_of_dvd h4, mul_zero, BitVec.shiftLeft_zero,
    hw]

end Bytes

section Runs

/-- The memory is that of the machine without caches, and the first level matches it. -/
def Core.Transparent (core : Core size) (m : Memory size) : Prop :=
  core.mem = m ∧ Matches m core.l1d

theorem executeCommand_transparent (core : Core size) (m : Memory size) (i : Invocation)
    (h : core.Transparent m) (hok : TransparentCall core i) :
    ∃ core', executeCommand core i = .ok ((flat m i).1, core')
      ∧ core'.Transparent (flat m i).2 := by
  obtain ⟨rfl, hmatch⟩ := h
  obtain ⟨call, junk, junk', word⟩ := i
  unfold TransparentCall at hok
  split at hok
  case h_1 paddr hcall =>
    obtain rfl : call = _ := hcall
    obtain ⟨r, hr, herr, hword, hr1, -⟩ := cacheRead_transparent junk word hmatch hok.2
    rw [PhyAddr.word_offset hok.1] at hword
    refine ⟨{ core with l1d := r.l1, l2 := r.l2 }, ?_, rfl, hr1⟩
    simp only [executeCommand, Core.l1, Core.setL1, reduceCtorEq, if_false, hr, Exec.ok_bind,
      Exec.pure_eq, herr, hword, flat]
  case h_2 paddr hcall =>
    obtain rfl : call = _ := hcall
    obtain ⟨l1', l2', hr, hr1⟩ := cacheReadByte_transparent junk hmatch hok
    refine ⟨{ core with l1d := l1', l2 := l2' }, ?_, rfl, hr1⟩
    simp only [executeCommand, Core.l1, Core.setL1, reduceCtorEq, if_false, hr, Exec.ok_bind,
      Exec.pure_eq, flat]
  case h_3 paddr word' hcall =>
    obtain rfl : call = _ := hcall
    obtain ⟨r, hr, herr, hmem, hr1⟩ := cacheWrite_transparent junk core.l2 word' hmatch hok
    rw [hmem] at hr1
    refine ⟨⟨r.mem, core.l1i, r.l1, r.l2⟩, ?_, hmem, hr1⟩
    simp only [executeCommand, hr, Exec.ok_bind, Exec.pure_eq, herr, flat]
  case h_4 paddr byte hcall =>
    obtain rfl : call = _ := hcall
    obtain ⟨halign, hsize, halone, hread, hbyte, hor⟩ := hok
    obtain ⟨r, hr, herr, hmem, hr1⟩ :=
      cacheWriteByte_transparent junk junk' hmatch halign hsize halone hread hbyte hor
    rw [hmem] at hr1
    refine ⟨⟨r.mem, core.l1i, r.l1, r.l2⟩, ?_, hmem, hr1⟩
    simp only [executeCommand, hr, Exec.ok_bind, Exec.pure_eq, herr, flat]
  case h_5 => exact hok.elim

/-- A run from flushed caches whose calls meet their conditions returns what the memory without
caches returns. -/
theorem cache_transparent (mem : Memory size) (l1i l1d : L1Cache) (l2 : L2Cache) :
    ∃ core, flushAll mem l1i l1d l2 = .ok core ∧
      ∀ is, Run.Along executeCommand TransparentCall core is →
        ∃ core', Run.run executeCommand core is = .ok (Run.specRun flat mem is, core') :=
  ⟨_, flushAll_eq mem l1i l1d l2, fun is h => Run.run_eq_of_sim executeCommand_transparent is
    ⟨rfl, matches_of_held_none (held_flushed l1d)⟩ h⟩

/-- Writes of words and of a byte, reads that hit, and a write and a read that evict. -/
def mixedCalls : List Invocation :=
  [writeBlock 0 7, writeBlock 64 8, readBlock 0, ⟨.writeByte ⟨0, 2048⟩ 3, default, default, 0⟩,
    ⟨.readByte .data ⟨0, 2050⟩, default, default, 0⟩, writeBlock 192 9, writeBlock 256 5,
    readBlock 256, readBlock 64, readBlock 0]

theorem cache_transparent_mixedCalls : ∃ core core',
    flushAll (fun i => BitVec.ofNat 8 i.val : Memory 8192) noBlocks noBlocks noBlocks = .ok core
      ∧ Run.run executeCommand core mixedCalls = .ok
        ([.code .errNone, .code .errNone, .word .errNone 7, .code .errNone, .byte .errNone (some 2),
          .code .errNone, .code .errNone, .word .errNone 5, .word .errNone 8, .word .errNone 7],
          core') := by
  obtain ⟨core, hcore, hrun⟩ := cache_transparent (fun i => BitVec.ofNat 8 i.val : Memory 8192)
    noBlocks noBlocks noBlocks
  obtain rfl := Except.ok.inj ((flushAll_eq _ _ _ _).symm.trans hcore)
  obtain ⟨core', hok⟩ := hrun mixedCalls (by decide +kernel)
  have hspec : Run.specRun flat (fun i => BitVec.ofNat 8 i.val : Memory 8192) mixedCalls
      = [.code .errNone, .code .errNone, .word .errNone 7, .code .errNone, .byte .errNone (some 2),
        .code .errNone, .code .errNone, .word .errNone 5, .word .errNone 8, .word .errNone 7] := by
    decide +kernel
  exact ⟨_, core', hcore, hok.trans (by rw [hspec])⟩

/-- A read at address 4 returns the word at address 8. -/
theorem cacheRead_returns_wrong_word : ∃ core outs core',
    flushAll (fun i => BitVec.ofNat 8 i.val : Memory 32) noBlocks noBlocks noBlocks = .ok core
      ∧ Run.run executeCommand core [⟨.read .data ⟨0, 4⟩, default, default, 0⟩] = .ok (outs, core')
      ∧ outs ≠ Run.specRun flat (fun i => BitVec.ofNat 8 i.val : Memory 32)
        [⟨.read .data ⟨0, 4⟩, default, default, 0⟩] := by
  refine ⟨_, _, _, flushAll_eq _ _ _ _, run_first_read (by decide) _ _ _ _ _ _, fun h => ?_⟩
  simp only [Run.specRun, flat, List.cons.injEq, Output.word.injEq, and_true, true_and] at h
  revert h
  decide

end Runs

end KabyLake
