import KabyLake.MemoryDump
import KabyLake.MemoryInit

/-!
# The program test-memory

`main` of test-memory.c: the memory is loaded from a dump or from a description, and the page of
each address among the arguments is dumped. What is printed before a fault, and what goes to the
standard error, is left out.
-/

namespace KabyLake.TestMemory

open Scanf

variable {size : ℕ}

/-- The `switch` on `argv[3][0]`. -/
def addrFmt (argument : List Char) : AddrFmt :=
  match argument with
  | 'p' :: _ => .pointer
  | 'o' :: _ => .offset
  | 'u' :: _ => .offsetU
  | _ => .none

/-- The body of the loop of `main`. `init_virt_addr64` has no error. -/
def dumpArgument (memSpace : Memory size) (tFmt : AddrFmt) (pointer : ℕ → List Char)
    (spacer argument : List Char) : Exec (List Char) := do
  match (scanHex ⟨argument, false⟩).1 with
  | none => return "pas compris ! ==> Abandon\n".toList
  | some vaddr64 =>
    let (_, printed) ← vmemPageDumpWithOptions memSpace (initVirtAddr64 vaddr64) tFmt 16
    return printed.flatMap (Printed.text pointer spacer)

/-- What the program is given: its arguments, the files, and what is in memory or returned by a
library function before it is known; `pointer` is what `%p` prints for an offset. -/
structure Environment where
  argv : List (List Char)
  files : Files
  calloc : ℕ → Bool
  seek : ℤ
  close : ℤ
  locals : Locals
  pointer : ℕ → List Char

/-- `main`, with its status and what it prints. The spacer is cut to one character, which writes
past the end of an empty one. -/
def main (fuel : ℕ) (env : Environment) : Exec (ℕ × List Char) :=
  match env.argv with
  | _ :: command :: filename :: format :: spacer :: address :: addresses => do
    if command ≠ "dump".toList ∧ command ≠ "desc".toList then return (1, [])
    let load ← if command = "dump".toList
      then memInitFromDumpfile env.calloc env.files env.seek env.close filename 0
      else memInitFromDescription env.calloc env.files fuel env.locals filename 0
    if spacer = [] then throw .memory
    if load.err ≠ .errNone then return (3, [])
    match load.memory with
    | none => throw .memory
    | some memSpace =>
      let texts ← (address :: addresses).mapM
        (dumpArgument memSpace (addrFmt format) env.pointer (spacer.take 1))
      return (0, texts.flatten)
  | _ => return (1, [])

end KabyLake.TestMemory
