import KabyLake.Proofs.CacheDump
import KabyLake.Proofs.CacheSlots
import KabyLake.Proofs.ProgramPrint
import KabyLake.Proofs.TestCacheProgram
import KabyLake.Proofs.WalkBounds

/-!
# The status of test-cache

A program that was read has a command on each of its lines, and each is one of the four calls, so
nothing stops `main` but an access outside the image and a walk that fails. If its blocks fit in the
first level, the run without caches tells where it stops and with what status (`main_workingSet`).
-/

namespace KabyLake.TestCache

open Scanf

variable {size fuel : ℕ} {p : Program} {cs : List Command} {core : Core size}

section Calls

variable {junk junk' : Malloc} {m : Memory size} {paddr : PhyAddr} {access : MemAccess}
  {l1 : L1Cache} {l2 : L2Cache} {word : Word}

/-- What a call needs of the caches and the memory to come to its end. -/
def CallRuns (core : Core size) : Call → Prop
  | .read access paddr => ReadRuns size paddr (core.l1 access) core.l2
  | .readByte access paddr => ReadRuns size paddr (core.l1 access) core.l2
  | .write paddr _ => WriteInside paddr core.l1d core.l2 ∧ paddr.addr + 16 ≤ size
  | .writeByte paddr byte =>
    byte = 0 ∨ ReadRuns size paddr core.l1d core.l2 ∧ paddr.addr + 16 ≤ size

theorem cacheWriteByte_runs_iff {byte : Byte} :
    (∃ out, cacheWriteByte junk junk' m paddr l1 l2 byte = .ok out)
      ↔ byte = 0 ∨ ReadRuns size paddr l1 l2 ∧ paddr.addr + 16 ≤ size := by
  by_cases hbyte : byte = 0
  · simp [hbyte, cacheWriteByte]
  have hread : (∃ r, cacheRead junk m paddr .data l1 l2 junk.word = .ok r) ↔ _ :=
    cacheRead_runs_iff
  rw [or_iff_right hbyte, ← hread]
  rcases hr : cacheRead junk m paddr .data l1 l2 junk.word with e | r
  · have hcall : cacheWriteByte junk junk' m paddr l1 l2 byte = .error e := by
      rw [cacheWriteByte, if_neg hbyte, hr, Exec.error_bind]
    simp [hcall]
  · rw [cacheWriteByte_or junk' hbyte hr, cacheWrite_runs_iff, and_congr_left_iff]
    exact fun _ => iff_of_true (write_inside_of_read hr) ⟨r, rfl⟩

theorem cacheReadByte_runs_iff : (∃ x, cacheReadByte junk m paddr access l1 l2 = .ok x)
    ↔ ReadRuns size paddr l1 l2 := by
  have hread : (∃ r, cacheRead junk m paddr access l1 l2 junk.word = .ok r) ↔ _ :=
    cacheRead_runs_iff
  rw [← hread]
  rcases hr : cacheRead junk m paddr access l1 l2 junk.word with e | r
  · simp [cacheReadByte, hr]
  · simp [cacheReadByte, hr, cacheRead_err hr]

/-- A result put together from that of a call is there exactly if the call comes to its end. -/
theorem bind_runs_iff {α β : Type} (x : Exec α) (f : α → β) :
    (∃ y, (x >>= fun a => .ok (f a)) = .ok y) ↔ ∃ a, x = .ok a := by
  rcases x with e | a
  · simp
  · simp

theorem executeCommand_runs_iff (core : Core size) (i : Invocation) :
    (∃ x, KabyLake.executeCommand core i = .ok x) ↔ CallRuns core i.call := by
  obtain ⟨call, junk, junk', word⟩ := i
  rcases call with ⟨access, paddr⟩ | ⟨access, paddr⟩ | ⟨paddr, word'⟩ | ⟨paddr, byte⟩
  · exact (bind_runs_iff _ _).trans cacheRead_runs_iff
  · exact (bind_runs_iff _ _).trans cacheReadByte_runs_iff
  · exact (bind_runs_iff _ _).trans cacheWrite_runs_iff
  · exact (bind_runs_iff _ _).trans cacheWriteByte_runs_iff

/-- The walk of a line finds an address, and its call comes to its end. -/
def LineRuns (core : Core size) (line : Command × Residue) : Prop :=
  ∃ paddr call, pageWalk core.mem line.1.vaddr line.2.paddr = .ok (.errNone, paddr)
    ∧ switchCall line.1 paddr = some call ∧ CallRuns core call

theorem translate_ok_iff (line : Command × Residue) (i : Invocation) : translate m line = .ok i
    ↔ ∃ paddr call, pageWalk m line.1.vaddr line.2.paddr = .ok (.errNone, paddr)
      ∧ switchCall line.1 paddr = some call
      ∧ i = ⟨call, line.2.junk, line.2.junk', line.2.word⟩ := by
  obtain ⟨command, residue⟩ := line
  unfold translate
  dsimp only
  rcases pageWalk m command.vaddr residue.paddr with e | ⟨err, paddr⟩
  · simp [lift, Except.mapError, bind, Except.bind]
  by_cases herr : err = .errNone
  · subst herr
    rcases hcall : switchCall command paddr with _ | call
    · simp [lift, Except.mapError, bind, Except.bind, assert, hcall, throw, throwThe,
        MonadExceptOf.throw]
    · simp [lift, Except.mapError, bind, Except.bind, assert, hcall, pure, Except.pure, eq_comm]
  · simp [lift, Except.mapError, bind, Except.bind, assert, herr]

theorem executeCommand_ok_iff (core : Core size) (line : Command × Residue) :
    (∃ x, executeCommand core line = .ok x) ↔ LineRuns core line := by
  have hbind : (∃ x, executeCommand core line = .ok x)
      ↔ ∃ i, translate core.mem line = .ok i ∧ ∃ x, KabyLake.executeCommand core i = .ok x := by
    unfold executeCommand
    rcases translate core.mem line with stop | i
    · simp [bind, Except.bind]
    · rcases hcall : KabyLake.executeCommand core i with e | x
      · simp [lift, Except.mapError, bind, Except.bind, hcall]
      · refine iff_of_true ⟨x, ?_⟩ ⟨i, rfl, x, hcall⟩
        simp [lift, Except.mapError, bind, Except.bind, hcall]
  rw [hbind]
  constructor
  · rintro ⟨i, hi, hruns⟩
    obtain ⟨paddr, call, hwalk, hcall, rfl⟩ := (translate_ok_iff line i).1 hi
    exact ⟨paddr, call, hwalk, hcall, (executeCommand_runs_iff core _).1 hruns⟩
  · rintro ⟨paddr, call, hwalk, hcall, hruns⟩
    refine ⟨⟨call, line.2.junk, line.2.junk', line.2.word⟩, ?_, ?_⟩
    · exact (translate_ok_iff line _).2 ⟨paddr, call, hwalk, hcall, rfl⟩
    · exact (executeCommand_runs_iff core _).2 hruns

instance (core : Core size) (line : Command × Residue) : Decidable (LineRuns core line) :=
  decidable_of_iff (∃ x, executeCommand core line = .ok x) (executeCommand_ok_iff core line)

end Calls

section Lines

/-- The lines of a program that hold a command. -/
def commandLines (residue : ℕ → Residue) (program : Program) : List (Command × Residue) :=
  (forAllLines residue program).filterMap fun line => line.1.map fun command => (command, line.2)

theorem filterMap_some {α β : Type} : ∀ {lines : List (Option α × β)}, (∀ l ∈ lines, l.1 ≠ none) →
    (lines.filterMap fun l => l.1.map fun x => (x, l.2)).map (fun l => (some l.1, l.2)) = lines
  | [], _ => rfl
  | (none, y) :: lines, h => absurd rfl (h _ List.mem_cons_self)
  | (some x, y) :: lines, h => by
    rw [List.forall_mem_cons] at h
    simp only [List.filterMap_cons, Option.map_some, List.map_cons, filterMap_some h.2]

/-- Every line of a listing has its command. -/
theorem forAllLines_eq (hp : p.Holds cs) (residue : ℕ → Residue) :
    (commandLines residue p).map (fun l => (some l.1, l.2)) = forAllLines residue p := by
  refine filterMap_some fun l hl => ?_
  obtain ⟨i, hi, rfl⟩ := List.mem_map.1 hl
  rw [List.mem_range] at hi
  have hlt : i < cs.length := hp.nbLines_eq ▸ hi
  rw [hp.getElem?_listing hi, List.getElem?_eq_getElem hlt]
  exact Option.some_ne_none _

end Lines

section Dumps

/-- What `main` prints of the caches. -/
def dumped (core : Core size) : List Char := (printCaches core).toOption.getD []

theorem printCaches_eq (core : Core size) : printCaches core = .ok (dumped core) := by
  have htext : ∃ text, printCaches core = .ok text := by
    have hi := cacheDump_l1 core.l1i (by decide : CacheT.l1ICache ≠ .l2Cache)
    unfold printCaches
    simp only [hi, cacheDump_l1 core.l1d l1DCache_ne, cacheDump_l2 core.l2, Exec.ok_bind]
    exact ⟨_, rfl⟩
  obtain ⟨text, htext⟩ := htext
  rw [dumped, htext]
  rfl

theorem executeLine_some (core : Core size) (line : Command × Residue) :
    executeLine core (some line.1, line.2)
      = (executeCommand core line).map fun x => (dumped x.2, x.2) := by
  rcases hcommand : executeCommand core line with stop | ⟨out, core'⟩
  · simp only [executeLine, hcommand]
    rfl
  · have hdump : lift (printCaches core') = .ok (dumped core') := by
      rw [printCaches_eq]
      rfl
    simp only [executeLine, hcommand, hdump, bind, Except.bind, pure, Except.pure, Except.map]

/-- A program prints the caches after each line that is executed, and stops where its commands
do. -/
theorem runProgram_eq (hp : p.Holds cs) (residue : ℕ → Residue) (mem : Memory size)
    (hinit : initCaches mem = .ok core) :
    (runProgram residue mem p).2 = (Run.trace executeCommand core (commandLines residue p)).2
      ∧ (runProgram residue mem p).1.length
        = (Run.trace executeCommand core (commandLines residue p)).1.length := by
  have hrun : runProgram residue mem p
      = Run.trace executeLine core ((commandLines residue p).map fun l => (some l.1, l.2)) := by
    unfold runProgram
    rw [hinit, forAllLines_eq hp]
  have htrace := Run.trace_observed _ dumped executeLine_some (commandLines residue p) core
  rw [hrun]
  exact htrace

end Dumps

section Main

/-- The arguments name a file the memory is loaded from and a program file. -/
def Loads (env : Environment) (fuel : ℕ) (mem : Memory size) (pgmFilename : List Char) : Prop :=
  ∃ name command memFilename rest, env.argv = name :: command :: memFilename :: pgmFilename :: rest
    ∧ (command = "dump".toList ∧ memInitFromDumpfile env.calloc env.files env.seek env.close
          memFilename 0 = .ok ⟨.errNone, size, some mem⟩
      ∨ command = "desc".toList ∧ memInitFromDescription env.calloc env.files fuel env.locals
          memFilename 0 = .ok ⟨.errNone, size, some mem⟩)

theorem main_of_loads {env : Environment} {mem : Memory size} {pgmFilename : List Char}
    (h : Loads env fuel mem pgmFilename) :
    main fuel env = mainLoaded fuel env pgmFilename ⟨.errNone, size, some mem⟩ := by
  obtain ⟨name, command, memFilename, rest, hargv, ⟨rfl, hload⟩ | ⟨rfl, hload⟩⟩ := h
  · unfold main
    rw [hargv]
    dsimp only
    rw [if_neg fun h => h.1 rfl, if_pos rfl, hload]
  · unfold main
    rw [hargv]
    dsimp only
    rw [if_neg fun h => h.2 rfl, if_neg (by decide), hload]

/-- The status of `main` after its program. -/
def status : Option Stop → Except Stop ℕ
  | none => .ok 0
  | some stop => .error stop

theorem mainLoaded_eq {env : Environment} {mem : Memory size} {pgmFilename text : List Char}
    (hfile : (env.files pgmFilename).map textOf = some text)
    (hread : programRead fuel (some text) env.currentChar = .ok (.errNone, p)) :
    mainLoaded fuel env pgmFilename ⟨.errNone, size, some mem⟩
      = ((runProgram env.residue mem p).1, status (runProgram env.residue mem p).2) := by
  unfold mainLoaded
  simp only [hfile, hread, ne_eq, not_true_eq_false, if_false]
  rcases runProgram env.residue mem p with ⟨printed, _ | stop⟩
  · rfl
  · rfl

/-- Whatever its blocks, `main` comes to its end exactly if each line does that is reached, and then
it has printed the caches once for each line. -/
theorem main_returns_iff {env : Environment} {mem : Memory size} {pgmFilename text : List Char}
    (hload : Loads env fuel mem pgmFilename)
    (hfile : (env.files pgmFilename).map textOf = some text)
    (hread : programRead fuel (some text) env.currentChar = .ok (.errNone, p)) :
    ∃ core, initCaches mem = .ok core
      ∧ ((main fuel env).2 = .ok 0
        ↔ Run.Along executeCommand LineRuns core (commandLines env.residue p))
      ∧ ((main fuel env).2 = .ok 0 → (main fuel env).1.length = p.nbLines) := by
  obtain ⟨cs, hp, -⟩ := programRead_scanned hread
  obtain ⟨core, hinit, -⟩ := initCaches_eq mem
  obtain ⟨hstop, hlen⟩ := runProgram_eq hp env.residue mem hinit
  obtain ⟨hiff, hall⟩ : (_ ↔ Run.Along executeCommand (fun core line =>
      ∃ x, executeCommand core line = .ok x) core (commandLines env.residue p)) ∧ _ :=
    Run.trace_completes_iff (commandLines env.residue p)
  have hstatus : ∀ stop, status stop = .ok 0 ↔ stop = none := by
    rintro (_ | stop) <;> simp [status]
  have hruns : Run.Along executeCommand (fun core line => ∃ x, executeCommand core line = .ok x)
      core (commandLines env.residue p)
        ↔ Run.Along executeCommand LineRuns core (commandLines env.residue p) :=
    Run.along_congr fun line _ core => executeCommand_ok_iff core line
  have hlines : (commandLines env.residue p).length = p.nbLines := by
    have hmap := congrArg List.length (forAllLines_eq hp env.residue)
    rwa [List.length_map, forAllLines, List.length_map, List.length_range] at hmap
  rw [main_of_loads hload, mainLoaded_eq hfile hread, hstatus, hstop]
  refine ⟨core, hinit, hiff.trans hruns, fun h => ?_⟩
  rw [hlen, hall h, hlines]

/-- A dump of 64 zeros, which is each of its own page tables, and a program. -/
def zerosEnvironment (text : List Char) : Environment where
  argv := [[], "dump".toList, [], ['p']]
  files name := some (if name = ['p'] then text.map fun c => BitVec.ofNat 8 c.toNat
    else List.replicate 64 0)
  calloc _ := true
  seek := 0
  close := 0
  locals := ⟨[], ' ', [], 0, 0, ⟨0, 0⟩⟩
  currentChar := ' '
  residue _ := default

def zerosImage : Memory 64 := Blocks.put (fun _ => 0) (0, List.replicate 64 0)

theorem zerosEnvironment_loads (text : List Char) :
    Loads (zerosEnvironment text) 100 zerosImage ['p'] := by
  have hopen : (zerosEnvironment text).files [] = some (List.replicate 64 0) := rfl
  have hblock : (zerosEnvironment text).calloc (List.replicate 64 (0 : Byte)).length = true := rfl
  have hload := memInitFromDumpfile_image hopen hblock 0
  exact ⟨[], _, [], [], rfl, .inl ⟨rfl, hload⟩⟩

/-- Words and bytes are written and read again, and one is fetched. -/
def mixedText : List Char :=
  "W DW 0x7 @0x10\nR DW @0x14\nW DB 0x3 @0x20\nR DB @0x22\nR I @0x30\n".toList

def mixedCommands : List Command :=
  [⟨.write, .data, 4, 7, ⟨0, 0, 0, 0, 0, 16⟩⟩, ⟨.read, .data, 4, 0, ⟨0, 0, 0, 0, 0, 20⟩⟩,
    ⟨.write, .data, 1, 3, ⟨0, 0, 0, 0, 0, 32⟩⟩, ⟨.read, .data, 1, 0, ⟨0, 0, 0, 0, 0, 34⟩⟩,
    ⟨.read, .instruction, 0, 0, ⟨0, 0, 0, 0, 0, 48⟩⟩]

def mixedProgram : Program := ⟨mixedCommands.map some ++ callocListing 5, 5, 8⟩

theorem mixedText_file : ((zerosEnvironment mixedText).files ['p']).map textOf
    = some mixedText := by decide +kernel

theorem mixedText_program :
    programRead 100 (some mixedText) (zerosEnvironment mixedText).currentChar
      = .ok (.errNone, mixedProgram) := by decide +kernel

/-- The second line reads past the image. -/
def pastText : List Char := "W DW 0x7 @0x10\nR DW @0x40\n".toList

def pastProgram : Program :=
  ⟨[some ⟨.write, .data, 4, 7, ⟨0, 0, 0, 0, 0, 16⟩⟩, some ⟨.read, .data, 4, 0, ⟨0, 0, 0, 0, 0, 64⟩⟩]
    ++ callocListing 8, 2, 8⟩

/-- Each line of the first program comes to its end, and not the second line of the other. -/
theorem main_returns_mixed : ((main 100 (zerosEnvironment mixedText)).2 = .ok 0
      ∧ (main 100 (zerosEnvironment mixedText)).1.length = 5)
    ∧ (main 100 (zerosEnvironment pastText)).2 ≠ .ok 0 := by
  constructor
  · obtain ⟨core, hinit, hiff, hlen⟩ :=
      main_returns_iff (zerosEnvironment_loads mixedText) mixedText_file mixedText_program
    obtain rfl := Except.ok.inj ((flushAll_eq _ _ _ _).symm.trans hinit)
    have hreturns : (main 100 (zerosEnvironment mixedText)).2 = .ok 0 :=
      hiff.2 (by decide +kernel)
    exact ⟨hreturns, hlen hreturns⟩
  · have hfile : ((zerosEnvironment pastText).files ['p']).map textOf = some pastText := by
      decide +kernel
    have hread : programRead 100 (some pastText) (zerosEnvironment pastText).currentChar
        = .ok (.errNone, pastProgram) := by decide +kernel
    obtain ⟨core, hinit, hiff, -⟩ := main_returns_iff (zerosEnvironment_loads pastText) hfile hread
    obtain rfl := Except.ok.inj ((flushAll_eq _ _ _ _).symm.trans hinit)
    exact fun hreturns => absurd (hiff.1 hreturns) (by decide +kernel)

/-- If memory and program are read and the blocks of the program fit in the first level when it runs
on the memory alone, `main` prints the caches once for each line executed there, and returns 0
exactly if that run comes to its end; else the same stops it. -/
theorem main_workingSet {env : Environment} {mem : Memory size} {pgmFilename text : List Char}
    (hload : Loads env fuel mem pgmFilename)
    (hfile : (env.files pgmFilename).map textOf = some text)
    (hread : programRead fuel (some text) env.currentChar = .ok (.errNone, p))
    (hok : Run.Along usedCommand FitsLine (mem, ⟨[], []⟩) (commandLines env.residue p)) :
    (main fuel env).2 = status (Run.trace flatCommand mem (commandLines env.residue p)).2
      ∧ (main fuel env).1.length
        = (Run.trace flatCommand mem (commandLines env.residue p)).1.length := by
  obtain ⟨cs, hp, -⟩ := programRead_scanned hread
  obtain ⟨core, hinit, htrace⟩ := workingSet_transparent mem (commandLines env.residue p) hok
  obtain ⟨hstop, hlen⟩ := runProgram_eq hp env.residue mem hinit
  rw [main_of_loads hload, mainLoaded_eq hfile hread, ← htrace, hstop]
  exact ⟨rfl, by rw [hlen]⟩

theorem main_workingSet_mixed : (main 100 (zerosEnvironment mixedText)).2 = .ok 0
    ∧ (main 100 (zerosEnvironment mixedText)).1.length = 5 := by
  obtain ⟨hstatus, hlen⟩ := main_workingSet (zerosEnvironment_loads mixedText) mixedText_file
    mixedText_program (by decide +kernel)
  have hflat : Run.trace flatCommand zerosImage
        (commandLines (zerosEnvironment mixedText).residue mixedProgram)
      = ([.code .errNone, .word .errNone 0, .code .errNone, .byte .errNone (some 0),
        .byte .errNone (some 0)], none) := by decide +kernel
  rw [hflat] at hstatus hlen
  exact ⟨hstatus, hlen⟩

end Main

end KabyLake.TestCache
