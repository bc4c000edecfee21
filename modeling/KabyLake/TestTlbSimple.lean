import KabyLake.Commands
import KabyLake.Library.Printf
import KabyLake.Library.Run
import KabyLake.MemoryInit
import KabyLake.Prints
import KabyLake.Tlb

/-!
# The program test-tlb_simple

`main` of test-tlb_simple.c: each line of a program is searched in the fully-associative TLB, and
what was found is printed with the whole array and the list of its lines. What is printed before a
fault, and what goes to the standard error, is left out.
-/

namespace KabyLake.TestTlbSimple

open Linked (Heap Allocator)
open Printf (lowerHex)
open Scanf

variable {size : ℕ}

/-- `ERR_MESSAGES` of error.c. -/
def errMessage : ErrorCode → List Char
  | .errNone => []
  | .errMem => "Not enough memory".toList
  | .errIo => "IO error".toList
  | .errBadParameter => "Bad parameter".toList
  | .errEof => "End of file".toList
  | .errAddr => "Wrong address".toList
  | .errSize => "Wrong size".toList
  | .errPolicy => "Wrong size".toList
  | .errLast => "Not found".toList

def rule : List Char := List.replicate 67 '-' ++ ['\n']

/-- The loop that prints the array. -/
def printTable (tlb : Tlb.Table) : List Char :=
  (List.finRange Tlb.tlbLines).flatMap fun i =>
    Nat.toDigits 10 (tlb i).v.toNat ++ "; ".toList ++ lowerHex 0 (tlb i).tag.toNat ++ "; ".toList
      ++ printHex 5 (tlb i).phyPageNum.toNat ++ ";\n".toList

/-- What is printed of a search, `list` the text of the list. -/
def printSearch (progLineIndex : ℕ) (vaddr : VirtAddr) (r : Tlb.Search) (tlb : Tlb.Table)
    (list : List Char) : List Char :=
  rule ++ "After program line ".toList ++ Nat.toDigits 10 progLineIndex ++ "...\n\n".toList
    ++ "VA = ".toList ++ (printVirtualAddress vaddr).2
    ++ (if r.err = .errNone then
        "; PA  = ".toList ++ (printPhysicalAddress r.paddr).2 ++ "\n\n".toList
          ++ (if r.hitOrMiss then "HIT...\n\n".toList else "MISS...\n\n".toList)
          ++ printTable tlb ++ list
      else "error with tlb_search(): ".toList ++ errMessage r.err ++ ['\n'])
    ++ rule

/-- The body of the loop of `main`, with `paddr` left by the line before. -/
def executeLine (fuel : ℕ) (memSpace : Memory size) (s : Tlb.State × PhyAddr)
    (line : ℕ × Option Command) : Exec (List Char × Tlb.State × PhyAddr) := do
  match line.2 with
  | none => throw .slot
  | some command =>
    let (r, tlb) ← Tlb.tlbSearch fuel memSpace command.vaddr s.2 s.1
    let (_, list) ← if r.err = .errNone then tlb.policy.ll.printList fuel tlb.heap else pure (0, [])
    return (printSearch line.1 command.vaddr r tlb.tlb list, tlb, r.paddr)

/-- The lines of a program, `none` where there is no command. -/
def programLines (program : Program) : List (ℕ × Option Command) :=
  (List.range program.nbLines).map fun i => (i, program.listing[i]?.join)

/-- `main` from the allocation of the TLB on: what is printed for each line, and the heap in the
end. -/
def runProgram (A : Allocator Word) (fuel : ℕ) (memSpace : Memory size) (program : Program)
    (tlb : Tlb.Table) (h : Heap Word) : Exec (List (List Char) × Heap Word) := do
  let s ← Tlb.setUp A tlb h
  let (printed, s, _) ← Run.run (executeLine fuel memSpace) (s, ⟨0, 0⟩) (programLines program)
  let (h, _) ← s.policy.ll.clearList fuel s.heap
  return (printed, h)

/-- What a program is given: its arguments, the files, whether the output can be opened, and what
is in memory or returned by a library function before it is known. -/
structure Outside where
  argv : List (List Char)
  files : Files
  writable : Bool
  calloc : ℕ → Bool
  seek : ℤ
  close : ℤ
  currentChar : Char

structure Environment extends Outside where
  tlb : Tlb.Table
  heap : Heap Word

/-- `main`: its status, what it prints for each line, and the heap it leaves of list nodes. -/
def main (A : Allocator Word) (fuel : ℕ) (env : Environment) :
    Exec (ℕ × List (List Char) × Heap Word) :=
  match env.argv with
  | _ :: pgmFilename :: memFilename :: _ :: _ => do
    let (err, pgm) ← programRead fuel ((env.files pgmFilename).map textOf) env.currentChar
    if err ≠ .errNone then return (2, [], env.heap)
    if !env.writable then return (3, [], env.heap)
    let load ← memInitFromDumpfile env.calloc env.files env.seek env.close memFilename 0
    if load.err ≠ .errNone then return (4, [], env.heap)
    match load.memory with
    | none => throw .memory
    | some memSpace =>
      let (printed, heap) ← runProgram A fuel memSpace pgm env.tlb env.heap
      return (0, printed, heap)
  | _ => return (1, [], env.heap)

end KabyLake.TestTlbSimple
