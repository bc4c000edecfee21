import KabyLake.TestTlbSimple
import KabyLake.TlbHrchy

/-!
# The program test-tlb_hrchy

`main` of test-tlb_hrchy.c: each line of a program is searched in the two-level TLB, whatever the
search returns, and what was found is printed with the three tables. What is printed before a fault,
and what goes to the standard error, is left out.
-/

namespace KabyLake.TestTlbHrchy

open TestTlbSimple (Outside programLines rule)
open Scanf
open TlbHrchy

variable {n t size : ℕ}

/-- The access a line is searched by. -/
def accessOf (command : Command) : MemAccess :=
  if command.type = .data then .data else .instruction

/-- `print_all_tlb_entries`. -/
def printAllTlbEntries (tlb : Table n t) : List Char :=
  "\n\n".toList ++ (List.finRange n).flatMap fun tlbLineIndex =>
    let e := tlb tlbLineIndex
    if e.v then
      Nat.toDigits 10 e.v.toNat ++ "; ".toList ++ printHex 8 e.tag.toNat ++ "; ".toList
        ++ printHex 5 e.phyPageNum.toNat ++ ";\n".toList
    else Nat.toDigits 10 e.v.toNat ++ "; --------; -----;\n".toList

/-- What is printed of a search of line `progLineIndex`. -/
def printSearch (progLineIndex : ℕ) (command : Command) (r : Search) : List Char :=
  "\n".toList ++ Nat.toDigits 10 progLineIndex ++ ": DATA/INSTRUCTION = ".toList
    ++ (if accessOf command = .data then ['1'] else ['0']) ++ "\n".toList
    ++ rule ++ "After program line ".toList ++ Nat.toDigits 10 progLineIndex ++ "...\n\n".toList
    ++ "VA = ".toList ++ (printVirtualAddress command.vaddr).2
    ++ "; PA  = ".toList ++ (printPhysicalAddress r.paddr).2 ++ "\n\n".toList
    ++ (if r.hitOrMiss.getD false then "HIT...\n\n".toList else "MISS...\n\n".toList)

/-- What is printed after it. -/
def printTables (s : Tlbs) : List Char :=
  "\n\nL1_ITLB:".toList ++ printAllTlbEntries s.l1ITlb
    ++ "\n\nL1_DTLB:".toList ++ printAllTlbEntries s.l1DTlb
    ++ "\n\nL2_TLB:".toList ++ printAllTlbEntries s.l2Tlb ++ rule

/-- What is printed for a line, in two parts. -/
structure Printed where
  search : List Char
  tables : List Char

/-- The body of the loop of `main`, with `paddr` left by the line before. -/
def executeLine (memSpace : Memory size) (s : Tlbs × PhyAddr) (line : ℕ × Option Command) :
    Exec (Printed × Tlbs × PhyAddr) := do
  match line.2 with
  | none => throw .slot
  | some command =>
    let (r, tlbs) ← tlbSearch memSpace command.vaddr s.2 (accessOf command) s.1
    return (⟨printSearch line.1 command r, printTables tlbs⟩, tlbs, r.paddr)

/-- The three calls of `tlb_flush`. -/
def flushAll (s : Tlbs) : Exec Tlbs := do
  let (_, l1ITlb) ← tlbFlush .l1ITlb s.l1ITlb
  let (_, l1DTlb) ← tlbFlush .l1DTlb s.l1DTlb
  let (_, l2Tlb) ← tlbFlush .l2Tlb s.l2Tlb
  return ⟨l1ITlb, l1DTlb, l2Tlb⟩

/-- `main` from the first flush on, with what the tables held. -/
def runProgram (memSpace : Memory size) (program : Program) (tlbs : Tlbs) :
    Exec (List Printed) := do
  let s ← flushAll tlbs
  let (printed, _) ← Run.run (executeLine memSpace) (s, ⟨0, 0⟩) (programLines program)
  return printed

structure Environment extends Outside where
  tlbs : Tlbs

/-- `main`: its status and what it prints for each line. -/
def main (fuel : ℕ) (env : Environment) : Exec (ℕ × List Printed) :=
  match env.argv with
  | _ :: pgmFilename :: memFilename :: _ :: _ => do
    let (err, pgm) ← programRead fuel ((env.files pgmFilename).map textOf) env.currentChar
    if err ≠ .errNone then return (2, [])
    if !env.writable then return (3, [])
    let load ← memInitFromDumpfile env.calloc env.files env.seek env.close memFilename 0
    if load.err ≠ .errNone then return (4, [])
    match load.memory with
    | none => throw .memory
    | some memSpace => return (0, ← runProgram memSpace pgm env.tlbs)
  | _ => return (1, [])

end KabyLake.TestTlbHrchy
