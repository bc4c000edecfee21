import KabyLake.Proofs.Flushes
import KabyLake.Proofs.TestTlbSimple
import KabyLake.Proofs.TlbHrchyDirect
import KabyLake.TestTlbHrchy

/-!
# What test-tlb_hrchy prints

The flushes empty the first four lines of each table and leave the others as the stack had them. For
a program whose pages all lie in these four lines this does not show: of each search it prints the
frame of the walk, and a hit if the last page found in its line is its own (`main_last`).
-/

namespace KabyLake.TestTlbHrchy

open Run TlbHrchy
open TestTlbSimple (programLines zerosOutside zerosCommands zerosProgram zerosMemory
  zerosOutside_read zerosOutside_load)

variable {size fuel : ℕ} {memSpace : Memory size}

theorem accessOf_named (command : Command) : accessOf command ≠ .invalid := by
  unfold accessOf
  split_ifs <;> decide

/-- The body of the loop without the tables, given the pages found before. -/
def lastLine (memSpace : Memory size) (s : List ℕ × PhyAddr) (line : ℕ × Option Command) :
    Exec (List Char × List ℕ × PhyAddr) := do
  match line.2 with
  | none => throw .slot
  | some command =>
    let (r, used) ← lastStep memSpace s.1
      ⟨command.vaddr, s.2, accessOf command, accessOf_named command⟩
    return (printSearch line.1 command r, used, r.paddr)

/-- What is printed of each search. -/
def lastProgram (memSpace : Memory size) (program : Program) : Exec (List (List Char)) := do
  let (printed, _) ← run (lastLine memSpace) ([], ⟨0, 0⟩) (programLines program)
  return printed

/-- The pages of a program lie in the first lines of the tables. -/
def PagesBelow (k : ℕ) (program : Program) : Prop :=
  ∀ command, some command ∈ program.listing.take program.nbLines → command.vaddr.vpn % 64 < k

/-- A table whose first lines were flushed. -/
def flushedTo {n t : ℕ} (lines : ℕ) (tlb : Table n t) : Table n t :=
  fun i => if i.val < lines then ⟨0, 0, false⟩ else tlb i

theorem flushAll_eq (s : Tlbs) : flushAll s
    = .ok ⟨flushedTo 4 s.l1ITlb, flushedTo 4 s.l1DTlb, flushedTo 6 s.l2Tlb⟩ := by
  simp only [flushAll, tlbFlush, flush_eq s.l1ITlb (by decide : 4 ≤ 16),
    flush_eq s.l1DTlb (by decide : 4 ≤ 16), flush_eq s.l2Tlb (by decide : 6 ≤ 64), Exec.ok_bind,
    Exec.pure_eq]
  rfl

theorem flushedTo_empty {n t lines k : ℕ} (tlb : Table n t) (h : k ≤ lines) {i : Fin n}
    (hi : i.val < k) : (flushedTo lines tlb i).v = false := by
  rw [flushedTo, if_pos (hi.trans_le h)]

theorem flushAll_emptyBelow {s s' : Tlbs} (h : flushAll s = .ok s') : s'.EmptyBelow 4 := by
  rw [flushAll_eq] at h
  cases h
  refine ⟨fun access i hi => ?_, fun i hi => flushedTo_empty _ (by decide) hi⟩
  cases access with
  | instruction => exact flushedTo_empty _ le_rfl hi
  | data => exact flushedTo_empty _ le_rfl hi
  | invalid => exact flushedTo_empty _ le_rfl hi

/-- The state of the loop with the tables and without. -/
def SameLoop (memSpace : Memory size) (s : Tlbs × PhyAddr) (t : List ℕ × PhyAddr) : Prop :=
  s.1.Recalls memSpace 4 t.1 ∧ s.2 = t.2

/-- The body of the loop of which only the text of the search is kept. -/
def searchLine (memSpace : Memory size) (s : Tlbs × PhyAddr) (line : ℕ × Option Command) :
    Exec (List Char × Tlbs × PhyAddr) :=
  (executeLine memSpace s line).map fun x => (x.1.search, x.2)

theorem searchLine_lockstep (memSpace : Memory size) (line : ℕ × Option Command)
    (hpage : ∀ command, line.2 = some command → command.vaddr.vpn % 64 < 4) (s : Tlbs × PhyAddr)
    (t : List ℕ × PhyAddr) (h : SameLoop memSpace s t) :
    Lockstep (SameLoop memSpace) (searchLine memSpace s line) (lastLine memSpace t line) := by
  obtain ⟨s, paddr⟩ := s
  obtain ⟨used, paddr'⟩ := t
  obtain ⟨h, rfl⟩ : s.Recalls memSpace 4 used ∧ paddr = paddr' := h
  obtain ⟨i, _ | command⟩ := line
  · exact .stop _
  have hlock := searchStep_lockstep (by decide) s used
    ⟨command.vaddr, paddr, accessOf command, accessOf_named command⟩ h (hpage command rfl)
  simp only [searchStep] at hlock
  simp only [searchLine, executeLine, lastLine]
  generalize tlbSearch memSpace command.vaddr paddr (accessOf command) s = x,
    lastStep memSpace used ⟨command.vaddr, paddr, accessOf command, accessOf_named command⟩ = y
    at hlock
  cases hlock with
  | stop e => exact .stop e
  | next r h' => exact .next _ ⟨h', rfl⟩

/-- A line of the program is one of its commands. -/
theorem mem_take_of_line {program : Program} {line : ℕ × Option Command}
    (hline : line ∈ programLines program) {command : Command} (h : line.2 = some command) :
    some command ∈ program.listing.take program.nbLines := by
  obtain ⟨i, hi, rfl⟩ := List.mem_map.1 hline
  rw [List.mem_range] at hi
  rw [Option.join_eq_some_iff] at h
  exact List.mem_of_getElem? (by rw [List.getElem?_take_of_lt hi, h])

theorem runProgram_last {program : Program} (hpages : PagesBelow 4 program) (tlbs : Tlbs) :
    (runProgram memSpace program tlbs).map (fun printed => printed.map Printed.search)
      = lastProgram memSpace program := by
  have hflush := flushAll_eq tlbs
  set s : Tlbs := ⟨flushedTo 4 tlbs.l1ITlb, flushedTo 4 tlbs.l1DTlb, flushedTo 6 tlbs.l2Tlb⟩
  have hsame : SameLoop memSpace (s, ⟨0, 0⟩) ([], ⟨0, 0⟩) :=
    ⟨(flushAll_emptyBelow hflush).recalls, rfl⟩
  have hlock := run_lockstep (programLines program) (fun line hline s t =>
    searchLine_lockstep memSpace line
      (fun command h => hpages command (mem_take_of_line hline h)) s t) hsame
  have hmap : run (searchLine memSpace) (s, ⟨0, 0⟩) (programLines program)
      = (run (executeLine memSpace) (s, ⟨0, 0⟩) (programLines program)).map
        fun x => (x.1.map Printed.search, x.2) := run_map Printed.search _ _
  rw [hmap] at hlock
  simp only [runProgram, hflush, lastProgram, Exec.ok_bind]
  generalize run (executeLine memSpace) (s, ⟨0, 0⟩) (programLines program) = x,
    run (lastLine memSpace) ([], ⟨0, 0⟩) (programLines program) = y at hlock
  rcases x with e | ⟨printed, s'⟩
  · cases hlock
    rfl
  · cases hlock
    rfl

/-- The flush empties four lines of each first-level table and six of the second. Whatever the
tables held before it, of each search the program prints what the walk and the pages found before it
tell, as long as its pages lie in the first four lines. -/
theorem main_last (env : Environment)
    {name pgmFilename memFilename outFilename text : List Char} {rest : List (List Char)}
    (hargv : env.argv = name :: pgmFilename :: memFilename :: outFilename :: rest)
    {program : Program} (hfile : (env.files pgmFilename).map textOf = some text)
    (hread : programRead fuel (some text) env.currentChar = .ok (.errNone, program))
    (hwritable : env.writable = true)
    (hload : memInitFromDumpfile env.calloc env.files env.seek env.close memFilename 0
      = .ok ⟨.errNone, size, some memSpace⟩) (hpages : PagesBelow 4 program) :
    flushAll env.tlbs = .ok ⟨flushedTo 4 env.tlbs.l1ITlb, flushedTo 4 env.tlbs.l1DTlb,
        flushedTo 6 env.tlbs.l2Tlb⟩
      ∧ (main fuel env).map (fun x => (x.1, x.2.map Printed.search))
        = (lastProgram memSpace program).map fun printed => (0, printed) := by
  refine ⟨flushAll_eq env.tlbs, ?_⟩
  rw [← runProgram_last hpages env.tlbs]
  unfold main
  simp only [hargv, hfile, hread, hwritable, hload, Exec.ok_bind, ne_eq, not_true_eq_false,
    if_false, Bool.not_true, Bool.false_eq_true]
  rcases runProgram memSpace program env.tlbs with e | printed
  · rfl
  · rfl

/-- The tables held valid entries before the flush. -/
def zerosEnvironment : Environment :=
  { zerosOutside with
    tlbs := ⟨fun _ => ⟨0, 7, true⟩, fun _ => ⟨0, 7, true⟩, fun _ => ⟨0, 7, true⟩⟩ }

/-- The first search misses, and the others find its page. -/
def zerosPrinted : List (List Char) :=
  [printSearch 0 ⟨.read, .data, 4, 0, ⟨0, 0, 0, 0, 0, 16⟩⟩ ⟨.errNone, ⟨0, 16⟩, some false⟩,
    printSearch 1 ⟨.write, .data, 4, 7, ⟨0, 0, 0, 0, 0, 20⟩⟩ ⟨.errNone, ⟨0, 20⟩, some true⟩,
    printSearch 2 ⟨.read, .instruction, 0, 0, ⟨0, 0, 0, 0, 0, 24⟩⟩
      ⟨.errNone, ⟨0, 24⟩, some true⟩]

theorem main_last_zeros : (main 129 zerosEnvironment).map (fun x => (x.1, x.2.map Printed.search))
    = .ok (0, zerosPrinted) := by
  have hpages : PagesBelow 4 zerosProgram := fun command hc => by
    have hmem : some command ∈ zerosCommands.map some := hc
    have hcommand : command ∈ zerosCommands := by simpa using hmem
    have hbelow : ∀ command ∈ zerosCommands, command.vaddr.vpn % 64 < 4 := by decide
    exact hbelow command hcommand
  have hlast : lastProgram zerosMemory zerosProgram = .ok zerosPrinted := by decide +kernel
  refine (main_last zerosEnvironment rfl zerosOutside_read.1 zerosOutside_read.2 rfl
    zerosOutside_load hpages).2.trans ?_
  rw [hlast]
  rfl

end KabyLake.TestTlbHrchy
