import KabyLake.Commands
import KabyLake.MemoryInit

/-!
# The program test-commands

`main` of test-commands.c reads a program and prints it. What goes to the standard error is left
out, and so is `program_free`.
-/

namespace KabyLake.TestCommands

/-- `main`, with its status and what it prints; `currentChar` is what the variable of `program_read`
holds before the first scan. -/
def main (fuel : ℕ) (argv : List (List Char)) (files : Files) (currentChar : Char) :
    Exec (ℕ × List Char) :=
  match argv with
  | _ :: filename :: _ => do
    let (err, pgm) ← programRead fuel ((files filename).map textOf) currentChar
    if err = .errNone then
      let (_, text) ← programPrint pgm
      return (0, text)
    return (0, [])
  | _ => return (1, [])

end KabyLake.TestCommands
