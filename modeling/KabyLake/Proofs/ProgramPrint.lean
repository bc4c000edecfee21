import KabyLake.Proofs.ProgramRead

/-!
# Printing a program that was read

Whatever text a program was read from, its commands are of the few forms `program_add_command`
accepts. Each is printed as a well-formed line that spells it, so the text printed is read without
an error as the same commands (`programPrint_read`).
-/

namespace KabyLake

open Scanf

/-- What holds of every command `program_read` makes. -/
structure Scanned (c : Command) : Prop where
  order : c.order = .read ∨ c.order = .write
  type : c.type = .instruction ∧ c.dataSize = 0 ∨ c.type = .data ∧ (c.dataSize = 1 ∨ c.dataSize = 4)
  vaddr : c.vaddr.reserved = 0

section Scan

variable {fuel : ℕ} {c : Char} {stream : Stream}

theorem readType_scanned {type : MemAccess} {dataSize : ℕ} {rest : Char × Stream}
    (h : readType c stream = some ((type, dataSize), rest)) :
    type = .instruction ∧ dataSize = 0 ∨ type = .data ∧ (dataSize = 1 ∨ dataSize = 4) := by
  unfold readType at h
  dsimp only at h
  split_ifs at h
  all_goals simp only [Option.some.injEq, Prod.mk.injEq] at h
  · exact .inl ⟨h.1.1.symm, h.1.2.symm⟩
  · exact .inr ⟨h.1.1.symm, .inl h.1.2.symm⟩
  · exact .inr ⟨h.1.1.symm, .inr h.1.2.symm⟩

theorem readAddress_scanned {vaddr : VirtAddr} {rest : Char × Stream}
    (h : readAddress c stream = some (vaddr, rest)) : vaddr.reserved = 0 := by
  unfold readAddress at h
  dsimp only at h
  split_ifs at h
  simp only [Option.some.injEq, Prod.mk.injEq] at h
  rw [← h.1]
  rfl

theorem readCommand_scanned {command : Command} {rest : Char × Stream}
    (h : readCommand fuel c stream = .ok (some (command, rest))) : Scanned command := by
  unfold readCommand at h
  obtain ⟨⟨c₁, st₁⟩, -, h⟩ := Exec.bind_eq_ok h
  dsimp only at h
  by_cases hchar : c₁ ≠ 'W' ∧ c₁ ≠ 'R'
  · rw [if_pos hchar] at h
    cases h
  rw [if_neg hchar] at h
  obtain ⟨⟨c₂, st₂⟩, -, h⟩ := Exec.bind_eq_ok h
  rcases htype : readType c₂ st₂ with _ | ⟨⟨type, dataSize⟩, c₃, st₃⟩
  · simp [htype] at h
  simp only [htype] at h
  obtain ⟨⟨c₄, st₄⟩, -, h⟩ := Exec.bind_eq_ok h
  obtain ⟨data, -, h⟩ := Exec.bind_eq_ok h
  rcases data with _ | ⟨writeData, c₅, st₅⟩
  · cases h
  dsimp only at h
  rcases haddr : readAddress c₅ st₅ with _ | ⟨vaddr, c₆, st₆⟩
  · simp [haddr] at h
  simp only [haddr, Exec.pure_eq, Except.ok.injEq, Option.some.injEq, Prod.mk.injEq] at h
  rw [← h.1]
  refine ⟨?_, readType_scanned htype, readAddress_scanned haddr⟩
  split_ifs
  · exact .inr rfl
  · exact .inl rfl

end Scan

section Print

/-- An address is the one its number stands for. -/
theorem address_toNat {vaddr : VirtAddr} (h : vaddr.reserved = 0) :
    Line.address (virtAddrToUint64 vaddr).toNat = vaddr := by
  have h1 := vaddr.pgdEntry.isLt
  have h2 := vaddr.pudEntry.isLt
  have h3 := vaddr.pmdEntry.isLt
  have h4 := vaddr.pteEntry.isLt
  have h5 := vaddr.pageOffset.isLt
  rw [virtAddrToUint64_toNat]
  unfold Line.address VirtAddr.vpn
  refine VirtAddr.ext h.symm ?_ ?_ ?_ ?_ ?_
  all_goals
    apply BitVec.eq_of_toNat_eq
    rw [BitVec.toNat_ofNat]
    omega

theorem space_ne_nil : [' '] ≠ [] := by decide

theorem space_blank : ∀ c ∈ [' '], isSpace c ∧ c ≠ '\n' := List.forall_mem_singleton.2 (by decide)

/-- The space and the numbers `program_print` puts in a line. -/
def printedBlank : Blanks := ⟨[' '], space_ne_nil, space_blank⟩

def printedHex (width : ℕ) {n bound : ℕ} (h : n < bound) : HexBelow bound where
  digits := printHex width n
  ne_nil := (printHex_spec width n).1
  digit := (printHex_spec width n).2.1
  lt := by rwa [(printHex_spec width n).2.2]

theorem printedHex_value (width : ℕ) {n bound : ℕ} (h : n < bound) :
    (printedHex width h).value = n := (printHex_spec width n).2.2

theorem virtAddr_lt (vaddr : VirtAddr) : (virtAddrToUint64 vaddr).toNat < 2 ^ 48 := by
  have hlt := vaddr.vpn_lt
  have hoff := vaddr.pageOffset.isLt
  rw [virtAddrToUint64_toNat]
  omega

/-- What an accepted command holds besides its address. -/
theorem Scanned.cases {c : Command} (hc : Scanned c) (hcheck : checkCommand c = .errNone) :
    c.order = .read ∧ c.type = .instruction ∧ c.dataSize = 0 ∧ c.writeData = 0
    ∨ c.order = .read ∧ c.type = .data ∧ (c.dataSize = 1 ∨ c.dataSize = 4) ∧ c.writeData = 0
    ∨ c.order = .write ∧ c.type = .data ∧ (c.dataSize = 1 ∨ c.dataSize = 4)
      ∧ c.writeData.toNat ≤ 0xFF := by
  obtain ⟨order, type, dataSize, writeData, vaddr⟩ := c
  obtain ⟨horder, htype, -⟩ := hc
  simp only at horder htype
  unfold checkCommand at hcheck
  rcases horder with rfl | rfl <;> rcases htype with ⟨rfl, rfl⟩ | ⟨rfl, hsize⟩
  · exact .inl ⟨rfl, rfl, rfl, by simpa using hcheck⟩
  · refine .inr (.inl ⟨rfl, rfl, hsize, ?_⟩)
    rcases hsize with rfl | rfl <;> simpa using hcheck
  · simp at hcheck
  · refine .inr (.inr ⟨rfl, rfl, hsize, ?_⟩)
    have hle : writeData ≤ 255#32 := by
      rcases hsize with rfl | rfl <;> simpa using hcheck
    exact BitVec.le_def.1 hle

/-- An accepted command is printed as a line that spells it. -/
theorem printCommand_line {c : Command} (hc : Scanned c) (hcheck : checkCommand c = .errNone) :
    ∃ l : Line, l.Fits ∧ l.command = c ∧ printCommand c = l.text ++ ['\n'] := by
  have haddr := address_toNat hc.vaddr
  set addr := printedHex 16 (virtAddr_lt c.vaddr) with haddrdef
  have hvalue : addr.value = (virtAddrToUint64 c.vaddr).toNat := printedHex_value 16 _
  rw [← hvalue] at haddr
  have hword : BitVec.ofNat 32 c.writeData.toNat = c.writeData := by simp
  obtain ⟨order, type, dataSize, writeData, vaddr⟩ := c
  rcases hc.cases hcheck with ⟨rfl, rfl, rfl, rfl⟩ | ⟨rfl, rfl, rfl | rfl, rfl⟩ |
    ⟨rfl, rfl, hsize, hdata⟩
  · exact ⟨.readInstruction printedBlank printedBlank addr, trivial, by rw [Line.command, haddr],
      by simp [printCommand, Line.text, printedBlank, haddrdef, printedHex]⟩
  · exact ⟨.readByte printedBlank printedBlank addr, trivial, by rw [Line.command, haddr],
      by simp [printCommand, Line.text, printedBlank, haddrdef, printedHex]⟩
  · exact ⟨.readWord printedBlank printedBlank addr, trivial, by rw [Line.command, haddr],
      by simp [printCommand, Line.text, printedBlank, haddrdef, printedHex]⟩
  · have h8 : writeData.toNat < 2 ^ 8 := by
      simp only at hdata
      omega
    rcases hsize with rfl | rfl
    · refine ⟨.writeByte printedBlank printedBlank (printedHex 2 h8) printedBlank addr, trivial, ?_,
        by simp [printCommand, Line.text, printedBlank, haddrdef, printedHex]⟩
      rw [Line.command, haddr, printedHex_value, hword]
    · refine ⟨.writeWord printedBlank printedBlank (printedHex 8 writeData.isLt) printedBlank addr,
        ?_, ?_, by simp [printCommand, Line.text, printedBlank, haddrdef, printedHex]⟩
      · rw [Line.Fits, printedHex_value]
        exact hdata
      · rw [Line.command, haddr, printedHex_value, hword]

/-- So are all commands of a program, and the text is that of a file of lines. -/
theorem printLines_lines : ∀ {cs : List Command} {listing : List (Option Command)},
    (∀ c ∈ cs, Scanned c ∧ checkCommand c = .errNone) → listing.take cs.length = cs.map some →
    ∃ lines : List Line, (∀ l ∈ lines, l.Fits) ∧ lines.map Line.command = cs
      ∧ printLines cs.length listing = .ok (fileText lines)
  | [], _, _, _ => ⟨[], by simp, rfl, rfl⟩
  | c :: cs, [], _, htake => by simp at htake
  | c :: cs, d :: listing, hcs, htake => by
    simp only [List.length_cons, List.take_succ_cons, List.map_cons, List.cons.injEq] at htake
    obtain ⟨rfl, htake⟩ := htake
    obtain ⟨hc, hcheck⟩ := hcs c List.mem_cons_self
    obtain ⟨l, hfits, hcommand, htext⟩ := printCommand_line hc hcheck
    obtain ⟨lines, hall, hmap, hprint⟩ := printLines_lines
      (fun c hc => hcs c (List.mem_cons_of_mem _ hc)) htake
    refine ⟨l :: lines, List.forall_mem_cons.2 ⟨hfits, hall⟩, by rw [List.map_cons, hcommand, hmap],
      ?_⟩
    rw [List.length_cons, printLines, hprint, htext]
    rfl

end Print

section RoundTrip

variable {fuel : ℕ} {p p' : Program} {cs : List Command}

theorem Program.Holds.getElem?_listing (hp : p.Holds cs) {i : ℕ} (hi : i < p.nbLines) :
    p.listing[i]? = cs[i]?.map some := by
  rw [← List.getElem?_take_of_lt hi, hp.take_eq, List.getElem?_map]

/-- Every command the loop adds was scanned and accepted. -/
theorem readCommands_scanned {inner : ℕ} {err : ErrorCode} : ∀ {fuel : ℕ} {c : Char}
    {stream : Stream} {p : Program} {cs : List Command}, p.Holds cs →
    (∀ c ∈ cs, Scanned c ∧ checkCommand c = .errNone) →
    readCommands inner fuel c stream p = .ok (err, p') →
    ∃ cs', p'.Holds cs' ∧ ∀ c ∈ cs', Scanned c ∧ checkCommand c = .errNone
  | 0, _, _, _, _, _, _, h => by cases h
  | fuel + 1, c, stream, p, cs, hp, hcs, h => by
    unfold readCommands at h
    by_cases heof : stream.eof
    · rw [if_pos heof] at h
      cases h
      exact ⟨cs, hp, hcs⟩
    rw [if_neg heof] at h
    obtain ⟨read, hread, h⟩ := Exec.bind_eq_ok h
    rcases read with _ | ⟨command, c', stream'⟩
    · cases h
      exact ⟨cs, hp, hcs⟩
    obtain ⟨⟨_, q⟩, hadd, h⟩ := Exec.bind_eq_ok h
    by_cases hcheck : checkCommand command = .errNone
    · obtain ⟨q', hadd', hq⟩ := programAddCommand_accept hp hcheck
      rw [hadd'] at hadd
      cases hadd
      refine readCommands_scanned hq (fun c hc => ?_) h
      rcases List.mem_append.1 hc with hc | hc
      · exact hcs c hc
      · rw [List.mem_singleton.1 hc]
        exact ⟨readCommand_scanned hread, hcheck⟩
    · rw [programAddCommand_reject p hcheck] at hadd
      cases hadd
      exact readCommands_scanned hp hcs h

theorem programRead_scanned {file : Option (List Char)} {c : Char} {err : ErrorCode}
    (h : programRead fuel file c = .ok (err, p)) :
    ∃ cs, p.Holds cs ∧ ∀ c ∈ cs, Scanned c ∧ checkCommand c = .errNone := by
  have hinit : programInit.2.Holds [] := programInit_holds
  rcases file with _ | text
  · cases h
    exact ⟨[], hinit, by simp⟩
  · have hnone : ∀ c ∈ ([] : List Command), Scanned c ∧ checkCommand c = .errNone := by simp
    exact readCommands_scanned hinit hnone h

/-- A program that was read is printed without an error, and the text is read, whatever the
variable of the scan held, as a program with the same commands in the same places. -/
theorem programPrint_read {text : List Char} {c : Char}
    (h : programRead fuel (some text) c = .ok (.errNone, p)) :
    ∃ printed, programPrint p = .ok (.errNone, printed) ∧ ∃ enough, ∀ fuel' ≥ enough, ∀ c', ∃ p',
      programRead fuel' (some printed) c' = .ok (.errNone, p') ∧ p'.nbLines = p.nbLines
      ∧ ∀ i < p.nbLines, ∃ command, p.listing[i]? = some (some command)
        ∧ p'.listing[i]? = some (some command) := by
  obtain ⟨cs, hp, hcs⟩ := programRead_scanned h
  have htake := hp.take_eq
  rw [hp.nbLines_eq] at htake
  obtain ⟨lines, hfits, hcommand, hprint⟩ := printLines_lines hcs htake
  refine ⟨fileText lines, ?_, (fileText lines).length + 1, fun fuel' hfuel c' => ?_⟩
  · rw [programPrint, hp.nbLines_eq, hprint]
    rfl
  · obtain ⟨p', hread, hp'⟩ := programRead_lines lines c' (Nat.lt_of_succ_le hfuel)
    rw [List.filter_eq_self.2 (by simpa using hfits), hcommand] at hp'
    refine ⟨p', hread, by rw [hp.nbLines_eq, hp'.nbLines_eq], fun i hi => ?_⟩
    have hlt : i < cs.length := hp.nbLines_eq ▸ hi
    have hget : cs[i]? = some cs[i] := List.getElem?_eq_getElem hlt
    refine ⟨cs[i], ?_, ?_⟩
    · rw [hp.getElem?_listing hi, hget, Option.map_some]
    · rw [hp'.getElem?_listing (hp'.nbLines_eq ▸ hlt), hget, Option.map_some]

/-- Three lines with a second blank, an address in lower case, an empty line between them and no
newline at the end. -/
def threeCommands : List Char :=
  "W  DB 0xa @0x40000010\n\n  R I @0x4\nR DW @0xabc".toList

def threeListed : Program :=
  ⟨[some ⟨.write, .data, 1, 10, ⟨0, 0, 1, 0, 0, 16⟩⟩,
    some ⟨.read, .instruction, 0, 0, ⟨0, 0, 0, 0, 0, 4⟩⟩,
    some ⟨.read, .data, 4, 0, ⟨0, 0, 0, 0, 0, 0xabc⟩⟩] ++ callocListing 7, 3, 8⟩

def threePrinted : List Char :=
  ("W DB 0x0A @0x0000000040000010\nR I @0x0000000000000004\n"
    ++ "R DW @0x0000000000000ABC\n").toList

theorem programPrint_read_threeCommands :
    programRead 60 (some threeCommands) 'W' = .ok (.errNone, threeListed)
      ∧ ∃ printed, programPrint threeListed = .ok (.errNone, printed) ∧ printed = threePrinted
        ∧ ∃ enough, ∀ fuel' ≥ enough, ∀ c', ∃ p',
          programRead fuel' (some printed) c' = .ok (.errNone, p')
          ∧ p'.nbLines = threeListed.nbLines
          ∧ ∀ i < threeListed.nbLines, ∃ command, threeListed.listing[i]? = some (some command)
            ∧ p'.listing[i]? = some (some command) := by
  have hread : programRead 60 (some threeCommands) 'W' = .ok (.errNone, threeListed) := by
    decide +kernel
  have htext : programPrint threeListed = .ok (.errNone, threePrinted) := by decide +kernel
  obtain ⟨printed, hprinted, hagain⟩ := programPrint_read hread
  refine ⟨hread, printed, hprinted, ?_, hagain⟩
  simpa using hprinted.symm.trans htext

end RoundTrip

end KabyLake
