import KabyLake.CacheDump
import KabyLake.CacheSystem
import KabyLake.Commands
import KabyLake.Library.Trace
import KabyLake.MemoryInit

/-!
# The program test-cache

`execute_command` and `main` of test-cache.c. The page tables a command is translated by lie in the
memory that the commands before it have written. What a call returns is an output here, though
`main` only prints the caches. The program is stopped by undefined behaviour and by an assertion
that fails; messages to the standard error are left out.
-/

namespace KabyLake.TestCache

open Scanf

/-- What stops the program before its end. -/
inductive Stop
  | fault (fault : Fault)
  | assertion
  deriving DecidableEq, Repr

/-- What `paddr`, `word` and the blocks of its call hold in `execute_command` before they are
written. -/
structure Residue where
  paddr : PhyAddr
  word : Word
  junk : Malloc
  junk' : Malloc

instance : Inhabited Residue := ⟨⟨⟨0, 0⟩, 0, default, default⟩⟩

variable {α : Type} {size : ℕ}

/-- A fault of a function stops its caller. -/
def lift (x : Exec α) : Except Stop α := x.mapError .fault

/-- `assert(condition)`. -/
def assert (condition : Prop) [Decidable condition] : Except Stop Unit :=
  if condition then .ok () else .error .assertion

/-- The call in the `switch` of `execute_command`, `none` in its default case. -/
def switchCall (command : Command) (paddr : PhyAddr) : Option Call :=
  match command.order with
  | .read =>
    if command.dataSize = 4 then some (.read command.type paddr)
    else some (.readByte command.type paddr)
  | .write =>
    if command.dataSize = 4 then some (.write paddr command.writeData)
    else some (.writeByte paddr (command.writeData.setWidth 8))
  | .invalid => none

/-- `execute_command` up to its call. -/
def translate (mem : Memory size) (line : Command × Residue) : Except Stop Invocation := do
  let (command, residue) := line
  let (err, paddr) ← lift (pageWalk mem command.vaddr residue.paddr)
  assert (err = .errNone)
  match switchCall command paddr with
  | some call => return ⟨call, residue.junk, residue.junk', residue.word⟩
  | none => throw .assertion

def executeCommand (core : Core size) (line : Command × Residue) :
    Except Stop (Output × Core size) := do
  let i ← translate core.mem line
  lift (KabyLake.executeCommand core i)

/-- `for_all_lines`: the slots of the listing up to the number of lines, `none` where there is no
command. -/
def forAllLines (residue : ℕ → Residue) (program : Program) : List (Option Command × Residue) :=
  (List.range program.nbLines).map fun i => (program.listing[i]?.join, residue i)

/-- What `main` prints after a line. -/
def printCaches (core : Core size) : Exec (List Char) := do
  let (_, l1i) ← cacheDump core.l1i .l1ICache
  let (_, l1d) ← cacheDump core.l1d .l1DCache
  let (_, l2) ← cacheDump core.l2 .l2Cache
  return "L1_ICACHE: \n\n".toList ++ l1i ++ "L1_DCACHE: \n\n".toList ++ l1d
    ++ "L2_CACHE: \n\n".toList ++ l2
    ++ "\n=======================================\n\n".toList

/-- The body of the loop of `main`. -/
def executeLine (core : Core size) (line : Option Command × Residue) :
    Except Stop (List Char × Core size) := do
  match line.1 with
  | none => throw (.fault .slot)
  | some command =>
    let (_, core) ← executeCommand core (command, line.2)
    return (← lift (printCaches core), core)

/-- The caches of `main` once they are set to 0 and flushed. -/
def initCaches (mem : Memory size) : Exec (Core size) :=
  flushAll mem (fun _ => ⟨false, 0, 0, fun _ => 0⟩) (fun _ => ⟨false, 0, 0, fun _ => 0⟩)
    (fun _ => ⟨false, 0, 0, fun _ => 0⟩)

/-- What a program prints for each of its lines, and what stops it. -/
def runProgram (residue : ℕ → Residue) (mem : Memory size) (program : Program) :
    List (List Char) × Option Stop :=
  match initCaches mem with
  | .error fault => ([], some (.fault fault))
  | .ok core => Run.trace executeLine core (forAllLines residue program)

/-- What the program is given: its arguments, the files, and what is in memory or returned by a
library function before it is known. -/
structure Environment where
  argv : List (List Char)
  files : Files
  calloc : ℕ → Bool
  seek : ℤ
  close : ℤ
  locals : Locals
  currentChar : Char
  residue : ℕ → Residue

/-- `main` from the block of memory on. -/
def mainLoaded (fuel : ℕ) (env : Environment) (pgmFilename : List Char) (load : LoadResult) :
    List (List Char) × Except Stop ℕ :=
  if load.err ≠ .errNone then ([], .ok 3)
  else
    match programRead fuel ((env.files pgmFilename).map textOf) env.currentChar, load.memory with
    | .error fault, _ => ([], .error (.fault fault))
    | .ok _, none => ([], .error (.fault .memory))
    | .ok (err, program), some mem =>
      if err ≠ .errNone then ([], .ok 3)
      else
        match runProgram env.residue mem program with
        | (printed, some stop) => (printed, .error stop)
        | (printed, none) => (printed, .ok 0)

/-- `main`, with what it prints and its status. -/
def main (fuel : ℕ) (env : Environment) : List (List Char) × Except Stop ℕ :=
  match env.argv with
  | _ :: command :: memFilename :: pgmFilename :: _ =>
    if command ≠ "dump".toList ∧ command ≠ "desc".toList then ([], .ok 1)
    else
      let load := if command = "dump".toList
        then memInitFromDumpfile env.calloc env.files env.seek env.close memFilename 0
        else memInitFromDescription env.calloc env.files fuel env.locals memFilename 0
      match load with
      | .error fault => ([], .error (.fault fault))
      | .ok load => mainLoaded fuel env pgmFilename load
  | _ => ([], .ok 1)

end KabyLake.TestCache
