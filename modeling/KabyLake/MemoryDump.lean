import KabyLake.Library.Scanf
import KabyLake.PageWalk

/-!
# The dump of a page

`address_print`, `mem_dump_with_options` and `vmem_page_dump_with_options` of memory.c. A pointer
into the memory is its offset there. Of a dump the result is the list of what is printed, and no
`printf` fails; `assert(line_size != 0)` is in the type of the line size.
-/

namespace KabyLake

open Scanf

/-- `addr_fmt_t`. -/
inductive AddrFmt
  | none
  | pointer
  | offset
  | offsetU
  deriving DecidableEq, Repr

/-- What is printed: an address and its colon, a byte of the memory, the gap in the place of a byte
and the end of a line. -/
inductive Printed
  | address (showAddr : AddrFmt) (addr : ℕ)
  | byte (addr : ℕ) (value : Byte)
  | gap
  | newline
  deriving DecidableEq, Repr

/-- The text of it, `pointer` what `%p` prints for an offset. -/
def Printed.text (pointer : ℕ → List Char) (sep : List Char) : Printed → List Char
  | .address .none _ => []
  | .address .pointer addr => pointer addr ++ ':' :: sep
  | .address .offset addr => printHex 0 addr ++ ':' :: sep
  | .address .offsetU addr => Nat.toDigits 10 addr ++ ':' :: sep
  | .byte _ value => printHex 2 value.toNat ++ sep
  | .gap => ' ' :: ' ' :: sep
  | .newline => ['\n']

def addressPrint (showAddr : AddrFmt) (addr : ℕ) : List Printed :=
  if showAddr = .none then [] else [.address showAddr addr]

variable {size : ℕ}

/-- Read the byte at an offset. -/
def Memory.loadByte (m : Memory size) (a : ℕ) : Exec Byte :=
  if a < size then .ok (m.byteAt a) else .error .memory

/-- The loop of `mem_dump_with_options`, with the number of bytes left and with `nb_to_print`. -/
def memDumpLoop (m : Memory size) (showAddr : AddrFmt) (lineSize : ℕ) :
    ℕ → ℕ → ℕ → Exec (List Printed × ℕ)
  | 0, _, nbToPrint => .ok ([], nbToPrint)
  | left + 1, addr, nbToPrint => do
    let address := if nbToPrint = lineSize then addressPrint showAddr addr else []
    let value ← m.loadByte addr
    let nbToPrint := nbToPrint - 1
    let ends := if nbToPrint = 0 then [.newline] else []
    let nbToPrint := if nbToPrint = 0 then lineSize else nbToPrint
    let (printed, nbToPrint) ← memDumpLoop m showAddr lineSize left (addr + 1) nbToPrint
    return (address ++ .byte addr value :: ends ++ printed, nbToPrint)

def memDumpWithOptions (m : Memory size) (first last : ℕ) (showAddr : AddrFmt) (lineSize : ℕ+) :
    Exec (List Printed) := do
  let (printed, nbToPrint) ← memDumpLoop m showAddr lineSize (last - first) first lineSize
  return printed ++ if nbToPrint ≠ lineSize then [.newline] else []

/-- `vmem_page_dump_with_options`. Nothing keeps `end_line` inside the page. -/
def vmemPageDumpWithOptions (memSpace : Memory size) (vaddr : VirtAddr) (showAddr : AddrFmt)
    (lineSize : ℕ+) : Exec (ErrorCode × List Printed) := do
  let (err, paddr) ← pageWalk memSpace vaddr ⟨0, 0⟩
  if err ≠ .errNone then return (err, [])
  let pageStart := (paddr.phyPageNum.setWidth 32 <<< 12 : Word).toNat
  let start := pageStart + paddr.pageOffset.toNat
  let endLine := start + (lineSize - paddr.pageOffset.toNat % lineSize)
  let pageEnd := pageStart + 4096
  let before ← memDumpWithOptions memSpace pageStart start showAddr lineSize
  let indent := paddr.pageOffset.toNat % lineSize
  let ends := if indent = 0 then [.newline] else []
  let line ← memDumpWithOptions memSpace start endLine .none lineSize
  let rest ← memDumpWithOptions memSpace endLine pageEnd showAddr lineSize
  return (.errNone, before ++ ends ++ addressPrint showAddr start
    ++ List.replicate indent .gap ++ line ++ rest)

end KabyLake
