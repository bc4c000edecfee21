import KabyLake.Proofs.Prints
import KabyLake.Proofs.ProgramPrint
import KabyLake.Proofs.TlbListed
import KabyLake.Proofs.WalkBounds
import KabyLake.TestTlbSimple

/-!
# What test-tlb_simple prints

Without its heap the program is a fold of its lines over the array and the order of its lines
(`listedProgram`). The program prints the same, has no fault but those of the walks, and leaves the
heap as it found it, whatever `malloc` returns and whatever the array held (`main_listed`).
-/

namespace KabyLake.TestTlbSimple

open Linked Run Tlb

variable {size fuel : ℕ}

/-- The body of the loop without the heap. Of the list only the next line to replace is printed. -/
def listedLine (memSpace : Memory size) (s : Listed × PhyAddr) (line : ℕ × Option Command) :
    Exec (List Char × Listed × PhyAddr) := do
  match line.2 with
  | none => throw .slot
  | some command =>
    let (r, t) ← listedSearch memSpace command.vaddr s.2 s.1
    let list := if r.err = .errNone then (ListT.printedValues (t.order.map lineIndex)).2 else []
    return (printSearch line.1 command.vaddr r t.tlb list, t, r.paddr)

/-- What is printed for each line. -/
def listedProgram (memSpace : Memory size) (program : Program) : Exec (List (List Char)) := do
  let (printed, _) ← run (listedLine memSpace) (Listed.start, ⟨0, 0⟩) (programLines program)
  return printed

variable {memSpace : Memory size} {h₀ : Heap Word} {A : Allocator Word}

/-- The list of a state prints the order of its lines. -/
theorem printList_realizes {s : State} {t : Listed} (h : Realizes h₀ A s t) (hfuel : 2 ≤ fuel) :
    s.policy.ll.printList fuel s.heap
      = .ok (ListT.printedValues (t.order.map lineIndex)) := by
  obtain ⟨ns, hb, hvals⟩ := h.built
  rw [← hvals]
  exact (ListT.printList_eq hb.spells hfuel).1

/-- The state of the loop with the heap and without. -/
def SameLoop (h₀ : Heap Word) (A : Allocator Word) (s : State × PhyAddr) (t : Listed × PhyAddr) :
    Prop := Realizes h₀ A s.1 t.1 ∧ s.2 = t.2

theorem executeLine_lockstep (memSpace : Memory size) (hfuel : tlbLines ≤ fuel)
    (s : State × PhyAddr) (t : Listed × PhyAddr) (line : ℕ × Option Command)
    (h : SameLoop h₀ A s t) : Lockstep (SameLoop h₀ A) (executeLine fuel memSpace s line)
      (listedLine memSpace t line) := by
  obtain ⟨s, paddr⟩ := s
  obtain ⟨t, paddr'⟩ := t
  obtain ⟨h, rfl⟩ : Realizes h₀ A s t ∧ paddr = paddr' := h
  obtain ⟨i, _ | command⟩ := line
  · exact .stop _
  have hlock := tlbSearch_lockstep memSpace command.vaddr paddr hfuel h
  simp only [executeLine, listedLine]
  generalize tlbSearch fuel memSpace command.vaddr paddr s = x,
    listedSearch memSpace command.vaddr paddr t = y at hlock
  cases hlock with
  | stop e => exact .stop e
  | @next r s' t' h' =>
    simp only [Exec.ok_bind]
    by_cases hr : r.err = .errNone
    · rw [if_pos hr, if_pos hr, printList_realizes h' (le_trans (by decide) hfuel), ← h'.tlb]
      exact .next _ ⟨h', rfl⟩
    · rw [if_neg hr, if_neg hr, ← h'.tlb]
      exact .next _ ⟨h', rfl⟩

theorem runProgram_listed (hfuel : tlbLines < fuel) (A : Allocator Word) (memSpace : Memory size)
    (program : Program) (tlb : Table) (h : Heap Word) : runProgram A fuel memSpace program tlb h
      = (listedProgram memSpace program).map fun printed => (printed, h) := by
  obtain ⟨s, hset, hstart⟩ := setUp_realizes A tlb h
  have hsame : SameLoop h A (s, ⟨0, 0⟩) (Listed.start, ⟨0, 0⟩) := ⟨hstart, rfl⟩
  have hlock := run_lockstep (programLines program)
    (fun line _ s t => executeLine_lockstep memSpace hfuel.le s t line) hsame
  simp only [runProgram, hset, Exec.ok_bind, listedProgram]
  generalize run (executeLine fuel memSpace) (s, ⟨0, 0⟩) (programLines program) = x,
    run (listedLine memSpace) (Listed.start, ⟨0, 0⟩) (programLines program) = y at hlock
  cases hlock with
  | stop e => rfl
  | @next printed s' t' h' =>
    simp only [Exec.ok_bind, h'.1.clearList hfuel]
    rfl

/-- A search has a fault only if its walk has one. -/
theorem listedSearch_ok {vaddr : VirtAddr}
    (hwalk : ∀ fault, walkFrame memSpace vaddr ≠ .error fault) (paddr : PhyAddr) (t : Listed) :
    ∃ x, listedSearch memSpace vaddr paddr t = .ok x := by
  unfold listedSearch
  rcases t.order.reverse.find? fun i => decide ((t.tlb i).page = some vaddr.vpn) with _ | i
  · rcases hw : walkFrame memSpace vaddr with fault | _ | frame
    · exact absurd hw (hwalk fault)
    · exact ⟨_, rfl⟩
    · rcases t.order with _ | ⟨i, order⟩
      · exact ⟨_, rfl⟩
      · exact ⟨_, rfl⟩
  · exact ⟨_, rfl⟩

theorem listedProgram_ok {program : Program} {cs : List Command} (hp : program.Holds cs)
    (hwalk : ∀ c ∈ cs, ∀ fault, walkFrame memSpace c.vaddr ≠ .error fault) :
    ∃ printed, listedProgram memSpace program = .ok printed
      ∧ printed.length = program.nbLines := by
  have hlines : ∀ line ∈ programLines program, ∃ c ∈ cs, line.2 = some c := by
    intro line hline
    obtain ⟨i, hi, rfl⟩ := List.mem_map.1 hline
    rw [List.mem_range] at hi
    have hlt : i < cs.length := hp.nbLines_eq ▸ hi
    refine ⟨cs[i], List.getElem_mem hlt, ?_⟩
    rw [hp.getElem?_listing hi, List.getElem?_eq_getElem hlt]
    rfl
  have hstep : ∀ (s : Listed × PhyAddr) (line : ℕ × Option Command), True →
      (∃ c ∈ cs, line.2 = some c) → ∃ r s', listedLine memSpace s line = .ok (r, s') ∧ True := by
    rintro s ⟨i, _⟩ - ⟨c, hc, rfl⟩
    obtain ⟨⟨r, t⟩, hsearch⟩ := listedSearch_ok (hwalk c hc) s.2 s.1
    simp only [listedLine, hsearch]
    exact ⟨_, _, rfl, trivial⟩
  obtain ⟨printed, s', hrun, -⟩ := run_of_inv hstep (programLines program) trivial
    (along_of_forall_mem fun line hline _ => hlines line hline)
  refine ⟨printed, ?_, ?_⟩
  · rw [listedProgram, hrun]
    rfl
  · rw [length_run hrun, programLines, List.length_map, List.length_range]

/-- The program prints what it would print without its heap and leaves the heap as it was. If no
walk of its lines has a fault, it comes to its end and prints something for each line. -/
theorem main_listed (hfuel : tlbLines < fuel) (A : Allocator Word) (env : Environment)
    {name pgmFilename memFilename outFilename text : List Char} {rest : List (List Char)}
    (hargv : env.argv = name :: pgmFilename :: memFilename :: outFilename :: rest)
    {program : Program} (hfile : (env.files pgmFilename).map textOf = some text)
    (hread : programRead fuel (some text) env.currentChar = .ok (.errNone, program))
    (hwritable : env.writable = true)
    (hload : memInitFromDumpfile env.calloc env.files env.seek env.close memFilename 0
      = .ok ⟨.errNone, size, some memSpace⟩) :
    main A fuel env = (listedProgram memSpace program).map (fun printed => (0, printed, env.heap))
      ∧ ((∀ command, some command ∈ program.listing.take program.nbLines →
          ∀ fault, walkFrame memSpace command.vaddr ≠ .error fault) →
        ∃ printed, main A fuel env = .ok (0, printed, env.heap)
          ∧ printed.length = program.nbLines) := by
  have hmain : main A fuel env
      = (listedProgram memSpace program).map fun printed => (0, printed, env.heap) := by
    unfold main
    simp only [hargv, hfile, hread, hwritable, hload, Exec.ok_bind, ne_eq, not_true_eq_false,
      if_false, Bool.not_true, Bool.false_eq_true, runProgram_listed hfuel]
    rcases listedProgram memSpace program with e | printed
    · rfl
    · rfl
  refine ⟨hmain, fun hwalk => ?_⟩
  obtain ⟨cs, hp, -⟩ := programRead_scanned hread
  have hcs : ∀ c ∈ cs, ∀ fault, walkFrame memSpace c.vaddr ≠ .error fault := by
    intro c hc
    refine hwalk c ?_
    rw [hp.take_eq]
    exact List.mem_map_of_mem hc
  obtain ⟨printed, hprogram, hlen⟩ := listedProgram_ok hp hcs
  exact ⟨printed, by rw [hmain, hprogram]; rfl, hlen⟩

/-- A read, a write and a fetch in one page. -/
def zerosText : List Char := "R DW @0x10\nW DW 0x7 @0x14\nR I @0x18\n".toList

/-- A dump of 32 zeros, which is its own page tables, and that program. -/
def zerosOutside : Outside where
  argv := [[], ['p'], [], ['o']]
  files name := some (if name = ['p'] then zerosText.map fun c => BitVec.ofNat 8 c.toNat
    else List.replicate 32 0)
  writable := true
  calloc _ := true
  seek := 0
  close := 0
  currentChar := ' '

def zerosCommands : List Command :=
  [⟨.read, .data, 4, 0, ⟨0, 0, 0, 0, 0, 16⟩⟩, ⟨.write, .data, 4, 7, ⟨0, 0, 0, 0, 0, 20⟩⟩,
    ⟨.read, .instruction, 0, 0, ⟨0, 0, 0, 0, 0, 24⟩⟩]

def zerosProgram : Program := ⟨zerosCommands.map some ++ callocListing 7, 3, 8⟩

def zerosMemory : Memory 32 := Blocks.put (fun _ => 0) (0, List.replicate 32 0)

theorem zerosOutside_read : (zerosOutside.files ['p']).map textOf = some zerosText
    ∧ programRead 129 (some zerosText) zerosOutside.currentChar = .ok (.errNone, zerosProgram) := by
  decide +kernel

theorem zerosOutside_load : memInitFromDumpfile zerosOutside.calloc zerosOutside.files
    zerosOutside.seek zerosOutside.close [] 0 = .ok ⟨.errNone, 32, some zerosMemory⟩ := by
  have hopen : zerosOutside.files [] = some (List.replicate 32 0) := rfl
  have hblock : zerosOutside.calloc (List.replicate 32 (0 : Byte)).length = true := rfl
  exact memInitFromDumpfile_image hopen hblock 0

def zerosEnvironment : Environment :=
  { zerosOutside with tlb := fun _ => ⟨0, 0, false⟩, heap := Heap.empty }

theorem main_listed_zeros : ∃ printed,
    main firstFit 129 zerosEnvironment = .ok (0, printed, Heap.empty) ∧ printed.length = 3 := by
  have hfuel : tlbLines < 129 := by decide
  refine (main_listed hfuel firstFit zerosEnvironment rfl zerosOutside_read.1
    zerosOutside_read.2 rfl zerosOutside_load).2 fun command hc fault => ?_
  have hmem : some command ∈ zerosCommands.map some := hc
  have hcommand : command ∈ zerosCommands := by simpa using hmem
  have hwalk : ∀ command ∈ zerosCommands, walkFrame zerosMemory command.vaddr = .ok (some 0) := by
    decide
  rw [hwalk command hcommand]
  exact nofun

end KabyLake.TestTlbSimple
