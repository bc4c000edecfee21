import KabyLake.Proofs.CacheTransparency

/-!
# Instruction and data caches over one memory

The instruction cache is read like the data cache, but a write does not reach it. So both answer
like the memory alone if each call meets the condition of the data cache for its own cache, and no
block is written that the instruction cache holds.
-/

namespace KabyLake

open SetAssoc

variable {size : ℕ} {m : Memory size} {paddr : PhyAddr} {l1 : L1Cache} {l2 : L2Cache}

/-- The condition for a call on either cache. -/
def CoherentCall (core : Core size) (i : Invocation) : Prop :=
  match i.call with
  | .read access paddr => 4 ∣ paddr.addr ∧ ReadTransparent core.mem paddr (core.l1 access) core.l2
  | .readByte access paddr => ReadTransparent core.mem paddr (core.l1 access) core.l2
  | .write paddr _ => WriteTransparent core.mem paddr core.l1d core.l2
      ∧ ∀ i, held core.l1i i ≠ some paddr.block
  | .writeByte paddr byte => 16 ∣ paddr.addr ∧ paddr.addr + 16 ≤ size ∧ Alone paddr core.l1d
      ∧ ReadTransparent core.mem paddr core.l1d core.l2
      ∧ byte ≠ 0 ∧ core.mem.byteAt paddr.addr ||| byte = byte
      ∧ ∀ i, held core.l1i i ≠ some paddr.block

instance (core : Core size) : DecidablePred (CoherentCall core)
  | ⟨.read _ _, _, _, _⟩ => inferInstanceAs (Decidable (_ ∧ _))
  | ⟨.readByte _ _, _, _, _⟩ => inferInstanceAs (Decidable (ReadTransparent _ _ _ _))
  | ⟨.write _ _, _, _, _⟩ => inferInstanceAs (Decidable (_ ∧ ∀ _, _))
  | ⟨.writeByte _ _, _, _, _⟩ => inferInstanceAs (Decidable (_ ∧ _))

/-- The memory is that of the machine without caches, and both first levels match it. -/
structure Core.Coherent (core : Core size) (m : Memory size) : Prop where
  mem : core.mem = m
  instruction : Matches m core.l1i
  data : Matches m core.l1d

section Access

/-- What a read does depends on the access only through the cache it is given. -/
theorem cacheRead_access (junk : Malloc) (m : Memory size) (paddr : PhyAddr) (access : MemAccess)
    (l1 : L1Cache) (l2 : L2Cache) (word : Word) : cacheRead junk m paddr access l1 l2 word
      = cacheRead junk m paddr .data l1 l2 word := by
  rcases h1 : paddr.lookup1 l1 with _ | w
  · rcases h2 : paddr.lookup2 l2 with _ | k
    · rw [cacheRead_miss h1 h2, cacheRead_miss h1 h2]
    · by_cases hset : paddr.set2 = 0
      · rw [cacheRead_l2 h1 h2 hset, cacheRead_l2 h1 h2 hset]
      · rw [cacheRead_l2_fault h1 h2 hset, cacheRead_l2_fault h1 h2 hset]
  · rw [cacheRead_hit h1, cacheRead_hit h1]

theorem cacheReadByte_access (junk : Malloc) (m : Memory size) (paddr : PhyAddr)
    (access : MemAccess) (l1 : L1Cache) (l2 : L2Cache) : cacheReadByte junk m paddr access l1 l2
      = cacheReadByte junk m paddr .data l1 l2 := by
  simp only [cacheReadByte, cacheRead_access junk m paddr access]

/-- Reading leaves the caches coherent if the cache that is read still matches the memory. -/
theorem Core.Coherent.read {core : Core size} (h : core.Coherent m) (access : MemAccess)
    (h1 : Matches m l1) (l2 : L2Cache) :
    Core.Coherent { core.setL1 access l1 with l2 := l2 } m := by
  unfold Core.setL1
  split_ifs
  · exact ⟨h.mem, h1, h.data⟩
  · exact ⟨h.mem, h.instruction, h1⟩

theorem Core.Coherent.matches_l1 {core : Core size} (h : core.Coherent m) (access : MemAccess) :
    Matches m (core.l1 access) := by
  unfold Core.l1
  split_ifs
  · exact h.instruction
  · exact h.data

end Access

section Write

variable {S W a t : ℕ} {c : CacheArray S W a t}

/-- Writing a block that a cache does not hold leaves it matching. -/
theorem Matches.setWord (h : Matches m c) (halign : 16 ∣ paddr.addr)
    (hsize : paddr.addr + 16 ≤ size) (hne : ∀ i, held c i ≠ some paddr.block) (word : Word) :
    Matches (m.setWord paddr.addr word) c := by
  have hword := setLine_word halign (hasBlock_of_aligned (m := m) halign hsize) word
  rw [← hword, PhyAddr.addr_eq halign]
  rw [PhyAddr.addr_eq halign] at hsize
  exact h.setLine hsize hne _

theorem Matches.setByte (h : Matches m c) (halign : 16 ∣ paddr.addr)
    (hsize : paddr.addr + 16 ≤ size) (hne : ∀ i, held c i ≠ some paddr.block) {byte : Byte}
    (hor : m.byteAt paddr.addr ||| byte = byte) : Matches (m.setByte paddr.addr byte) c := by
  rw [← Memory.setWord_or _ _ hor]
  exact h.setWord halign hsize hne _

end Write

/-- A call that meets its condition returns what the memory alone returns. -/
theorem executeCommand_coherent (core : Core size) (m : Memory size) (i : Invocation)
    (h : core.Coherent m) (hok : CoherentCall core i) :
    ∃ core', executeCommand core i = .ok ((flat m i).1, core')
      ∧ core'.Coherent (flat m i).2 := by
  obtain rfl := h.mem
  obtain ⟨call, junk, junk', word⟩ := i
  unfold CoherentCall at hok
  split at hok
  case h_1 access paddr hcall =>
    obtain rfl : call = _ := hcall
    obtain ⟨r, hr, herr, hword, hr1, -⟩ :=
      cacheRead_transparent junk word (h.matches_l1 access) hok.2
    rw [PhyAddr.word_offset hok.1] at hword
    refine ⟨_, ?_, h.read access hr1 r.l2⟩
    simp only [executeCommand, cacheRead_access junk core.mem paddr access, hr, Exec.ok_bind,
      Exec.pure_eq, herr, hword, flat]
  case h_2 access paddr hcall =>
    obtain rfl : call = _ := hcall
    obtain ⟨l1', l2', hr, hr1⟩ := cacheReadByte_transparent junk (h.matches_l1 access) hok
    refine ⟨_, ?_, h.read access hr1 l2'⟩
    simp only [executeCommand, cacheReadByte_access junk core.mem paddr access, hr, Exec.ok_bind,
      Exec.pure_eq, flat]
  case h_3 paddr word' hcall =>
    obtain rfl : call = _ := hcall
    obtain ⟨hwrite, hne⟩ := hok
    obtain ⟨r, hr, herr, hmem, hr1⟩ := cacheWrite_transparent junk core.l2 word' h.data hwrite
    rw [hmem] at hr1
    refine ⟨⟨r.mem, core.l1i, r.l1, r.l2⟩, ?_, hmem,
      h.instruction.setWord hwrite.1 hwrite.2.1 hne word', hr1⟩
    simp only [executeCommand, hr, Exec.ok_bind, Exec.pure_eq, herr, flat]
  case h_4 paddr byte hcall =>
    obtain rfl : call = _ := hcall
    obtain ⟨halign, hsize, halone, hread, hbyte, hor, hne⟩ := hok
    obtain ⟨r, hr, herr, hmem, hr1⟩ :=
      cacheWriteByte_transparent junk junk' h.data halign hsize halone hread hbyte hor
    rw [hmem] at hr1
    refine ⟨⟨r.mem, core.l1i, r.l1, r.l2⟩, ?_, hmem,
      h.instruction.setByte halign hsize hne hor, hr1⟩
    simp only [executeCommand, hr, Exec.ok_bind, Exec.pure_eq, herr, flat]

theorem coherent_flushed (mem : Memory size) (l1i l1d : L1Cache) (l2 : L2Cache) :
    Core.Coherent ⟨mem, flushed l1i, flushed l1d, flushed l2⟩ mem :=
  ⟨rfl, matches_of_held_none (held_flushed l1i), matches_of_held_none (held_flushed l1d)⟩

end KabyLake
