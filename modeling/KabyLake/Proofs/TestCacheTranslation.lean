import KabyLake.Proofs.CachePlaces
import KabyLake.Proofs.Walk
import KabyLake.TestCache

/-!
# Translating a program before it runs

`execute_command` walks the page tables as the commands before it have left them in memory. Whatever
the caches hold, a call changes at most the 16 bytes from the address it writes on
(`executeCommand_keeps`), and a walk depends on the four entries it follows alone. So if no write
comes within 16 bytes below an entry that a line follows, each line goes where the memory at the
start sends it (`translated_before`).
-/

namespace KabyLake

variable {size : ℕ} {m m' : Memory size} {paddr : PhyAddr} {l1 : L1Cache} {l2 : L2Cache}

section Writes

/-- The byte at `a` is one of the 16 from the address of a write on. -/
def Call.Writes (a : ℕ) : Call → Prop
  | .read _ _ => False
  | .readByte _ _ => False
  | .write paddr _ => paddr.addr ≤ a ∧ a < paddr.addr + 16
  | .writeByte paddr _ => paddr.addr ≤ a ∧ a < paddr.addr + 16

instance (a : ℕ) : DecidablePred (Call.Writes a)
  | .read _ _ => isFalse id
  | .readByte _ _ => isFalse id
  | .write _ _ => inferInstanceAs (Decidable (_ ∧ _))
  | .writeByte _ _ => inferInstanceAs (Decidable (_ ∧ _))

theorem Memory.byteAt_setLine_of_not {a j : ℕ} (h : ¬ (a ≤ j ∧ j < a + 16)) (line : CacheLine) :
    (m.setLine a line).byteAt j = m.byteAt j := by
  unfold Memory.byteAt
  split_ifs
  · exact if_neg h
  · rfl

theorem cacheWrite_mem {junk : Malloc} {word : Word} {out : WriteResult size}
    (h : cacheWrite junk m paddr l1 l2 word = .ok out) :
    ∃ line, out.mem = m.setLine paddr.addr line := by
  rcases h1 : paddr.lookup1 l1 with _ | w
  · rcases h2 : paddr.lookup2 l2 with _ | k
    · rw [cacheWrite_miss h1 h2] at h
      split_ifs at h
      cases h
      exact ⟨_, rfl⟩
    · rw [cacheWrite_l2 h1 h2] at h
      split_ifs at h
      cases h
      exact ⟨_, rfl⟩
  · rw [cacheWrite_hit h1] at h
    split_ifs at h
    cases h
    exact ⟨_, rfl⟩

theorem cacheWriteByte_mem {junk junk' : Malloc} {byte : Byte} {out : WriteResult size}
    (h : cacheWriteByte junk junk' m paddr l1 l2 byte = .ok out) :
    out.mem = m ∨ ∃ line, out.mem = m.setLine paddr.addr line := by
  by_cases hbyte : byte = 0
  · rw [cacheWriteByte, if_pos hbyte] at h
    cases h
    exact .inl rfl
  rcases hread : cacheRead junk m paddr .data l1 l2 junk.word with e | r
  · rw [cacheWriteByte, if_neg hbyte, hread] at h
    cases h
  · rw [cacheWriteByte_or junk' hbyte hread] at h
    exact .inr (cacheWrite_mem h)

/-- A call leaves every byte alone that is not one of the 16 it writes. -/
theorem executeCommand_keeps {core core' : Core size} {i : Invocation} {out : Output}
    (h : executeCommand core i = .ok (out, core')) {a : ℕ} (ha : ¬ i.call.Writes a) :
    core'.mem.byteAt a = core.mem.byteAt a := by
  obtain ⟨call, junk, junk', word⟩ := i
  rcases call with ⟨access, paddr⟩ | ⟨access, paddr⟩ | ⟨paddr, word'⟩ | ⟨paddr, byte⟩
  · obtain ⟨r, -, h⟩ := Exec.bind_eq_ok h
    cases h
    rw [Core.mem_setL1]
  · obtain ⟨⟨err, byte, l1, l2⟩, -, h⟩ := Exec.bind_eq_ok h
    cases h
    rw [Core.mem_setL1]
  · obtain ⟨r, hr, h⟩ := Exec.bind_eq_ok h
    cases h
    obtain ⟨line, hline⟩ := cacheWrite_mem hr
    rw [hline]
    exact Memory.byteAt_setLine_of_not ha line
  · obtain ⟨r, hr, h⟩ := Exec.bind_eq_ok h
    cases h
    rcases cacheWriteByte_mem hr with hmem | ⟨line, hline⟩
    · rw [hmem]
    · rw [hline]
      exact Memory.byteAt_setLine_of_not ha line

end Writes

section Entries

/-- The offsets of the entries a walk reads from a page on, up to one that is not page-aligned. -/
def entriesFrom (memSpace : Memory size) : Word → List ℕ → List ℕ
  | _, [] => []
  | page, index :: indices => 4 * (page.toNat / 4 + index) ::
      match readPageEntry memSpace page index with
      | .ok next => if next % 4096 = 0 then entriesFrom memSpace next indices else []
      | .error _ => []

/-- The offsets of the entries the walk of an address reads. -/
def VirtAddr.entries (vaddr : VirtAddr) (memSpace : Memory size) : List ℕ :=
  entriesFrom memSpace 0 vaddr.indices

theorem walkPages_congr_entries : ∀ {indices : List ℕ} {page : Word},
    (∀ a ∈ entriesFrom m page indices, m'.wordAt a = m.wordAt a) →
    walkPages m' page indices = walkPages m page indices
  | [], _, _ => rfl
  | index :: indices, page, h => by
    rw [entriesFrom, List.forall_mem_cons] at h
    have hread : readPageEntry m' page index = readPageEntry m page index := by
      simp only [readPageEntry, Memory.loadWord, h.1]
    rw [walkPages, walkPages, hread]
    rcases hnext : readPageEntry m page index with e | next
    · rfl
    rw [Exec.ok_bind, Exec.ok_bind]
    by_cases haligned : next % 4096 = 0
    · simp only [hnext, if_pos haligned] at h
      rw [if_neg (not_not_intro haligned), if_neg (not_not_intro haligned)]
      exact walkPages_congr_entries h.2
    · rw [if_pos haligned, if_pos haligned]

/-- A walk is the same in two memories that have the same words where it reads. -/
theorem pageWalk_congr_entries {vaddr : VirtAddr}
    (h : ∀ a ∈ vaddr.entries m, m'.wordAt a = m.wordAt a) (paddr : PhyAddr) :
    pageWalk m' vaddr paddr = pageWalk m vaddr paddr := by
  rw [pageWalk_eq, pageWalk_eq, walkFrame_eq, walkFrame_eq, walkPages_congr_entries h]

end Entries

namespace TestCache

theorem translate_congr {line : Command × Residue}
    (h : ∀ a ∈ line.1.vaddr.entries m, ∀ k < 4, m'.byteAt (a + k) = m.byteAt (a + k)) :
    translate m' line = translate m line := by
  simp only [translate,
    pageWalk_congr_entries (fun a ha => Memory.wordAt_congr (h a ha)) line.2.paddr]

/-- No line writes near an entry that a line follows, all of them translated by this memory. -/
def KeepsTables (m : Memory size) (lines : List (Command × Residue)) : Prop :=
  ∀ l ∈ lines, ∀ i, translate m l = .ok i →
    ∀ l' ∈ lines, ∀ a ∈ l'.1.vaddr.entries m, ∀ k < 4, ¬ i.call.Writes (a + k)

instance (m : Memory size) (lines : List (Command × Residue)) : Decidable (KeepsTables m lines) :=
  inferInstanceAs (Decidable (∀ l ∈ lines, ∀ i, translate m l = .ok i →
    ∀ l' ∈ lines, ∀ a ∈ l'.1.vaddr.entries m, ∀ k < 4, ¬ i.call.Writes (a + k)))

/-- The entries the lines follow are as they were. -/
def SameTables (m : Memory size) (lines : List (Command × Residue)) (core : Core size) : Prop :=
  ∀ l ∈ lines, ∀ a ∈ l.1.vaddr.entries m, ∀ k < 4, core.mem.byteAt (a + k) = m.byteAt (a + k)

theorem lift_eq_ok {α : Type} {x : Exec α} {a : α} (h : lift x = .ok a) : x = .ok a := by
  rcases x with e | b
  · cases h
  · cases h
    rfl

/-- `execute_command` of a line that is translated. -/
def executeCall (core : Core size) (i : Invocation) : Except Stop (Output × Core size) :=
  lift (KabyLake.executeCommand core i)

theorem executeCall_sameTables {lines : List (Command × Residue)} (hkeeps : KeepsTables m lines)
    {l : Command × Residue} (hl : l ∈ lines) {i : Invocation} (hi : translate m l = .ok i)
    {core core' : Core size} {out : Output} (h : SameTables m lines core)
    (hcall : executeCall core i = .ok (out, core')) : SameTables m lines core' :=
  fun l' hl' a ha k hk => (executeCommand_keeps (lift_eq_ok hcall)
    (hkeeps l hl i hi l' hl' a ha k hk)).trans (h l' hl' a ha k hk)

/-- If no line writes near an entry that a line follows, the lines run as if all of them were
translated before the first. -/
theorem translated_before (core : Core size) (lines : List (Command × Residue))
    (h : KeepsTables core.mem lines) : Run.trace executeCommand core lines
      = Run.trace (Run.decodedStep executeCall) core (lines.map (translate core.mem)) := by
  have hstep : (executeCommand : Core size → Command × Residue → _)
      = Run.decodeStep (fun core line => translate core.mem line) executeCall := rfl
  have hsame : SameTables core.mem lines core := fun _ _ _ _ _ _ => rfl
  have hdecode : ∀ l ∈ lines, ∀ core', SameTables core.mem lines core' →
      translate core'.mem l = translate core.mem l := fun l hl core' hinv =>
    translate_congr (hinv l hl)
  rw [hstep]
  exact Run.trace_decoded lines hsame hdecode
    fun l hl core' i out core'' hinv hi hcall => executeCall_sameTables h hl hi hinv hcall

/-- Writes to entries of the page of tables that no line follows, a read of what is written there, a
fetch of page 3, and the write of a byte. -/
def tableLines : List (Command × Residue) :=
  [(⟨.write, .data, 4, 0x1000, ⟨0, 0, 0, 0, 0, 64⟩⟩, default),
    (⟨.read, .data, 4, 0, ⟨0, 0, 0, 0, 3, 64⟩⟩, default),
    (⟨.read, .instruction, 0, 0, ⟨0, 0, 0, 0, 3, 32⟩⟩, default),
    (⟨.write, .data, 1, 5, ⟨0, 0, 0, 0, 0, 128⟩⟩, default)]

theorem translated_before_tableLines :
    Run.trace executeCommand (⟨fun _ => 0, noBlocks, noBlocks, noBlocks⟩ : Core 4096) tableLines
      = Run.trace (Run.decodedStep executeCall)
        (⟨fun _ => 0, noBlocks, noBlocks, noBlocks⟩ : Core 4096)
        [.ok ⟨.write ⟨0, 64⟩ 0x1000, default, default, 0⟩,
          .ok ⟨.read .data ⟨0, 64⟩, default, default, 0⟩,
          .ok ⟨.readByte .instruction ⟨0, 32⟩, default, default, 0⟩,
          .ok ⟨.writeByte ⟨0, 128⟩ 5, default, default, 0⟩] :=
  translated_before _ _ (by decide +kernel)

end TestCache

end KabyLake
