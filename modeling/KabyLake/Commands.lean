import KabyLake.Addr
import KabyLake.Library.Scanf

/-!
# Programs of commands

commands.h and commands.c. The listing is a block of slots, `none` where `realloc` left the content
indeterminate; allocations succeed. A loop of `program_read` over the file takes fuel. Of a print
the text is the result, and no `fprintf` fails.
-/

namespace KabyLake

open Scanf

/-- `command_word_t`; `invalid` is any value the enumeration does not name. -/
inductive CommandWord
  | read
  | write
  | invalid
  deriving DecidableEq, Repr

@[ext]
structure Command where
  order : CommandWord
  type : MemAccess
  dataSize : ℕ
  writeData : Word
  vaddr : VirtAddr
  deriving DecidableEq, Repr

@[ext]
structure Program where
  listing : List (Option Command)
  nbLines : ℕ
  allocated : ℕ
  deriving DecidableEq, Repr

/-- `calloc(n, sizeof(command_t))`. -/
def callocListing (n : ℕ) : List (Option Command) :=
  List.replicate n (some ⟨.read, .instruction, 0, 0, ⟨0, 0, 0, 0, 0, 0⟩⟩)

/-- `realloc(listing, n * sizeof(command_t))`. -/
def reallocListing (listing : List (Option Command)) (n : ℕ) : List (Option Command) :=
  listing.take n ++ List.replicate (n - listing.length) none

/-- `program_init`. `allocated` is the size in bytes of the pointer, the block has 10 slots. -/
def programInit : ErrorCode × Program := (.errNone, ⟨callocListing 10, 0, 8⟩)

/-- What `program_add_command` checks. -/
def checkCommand (command : Command) : ErrorCode :=
  if command.order ≠ .write ∧ command.order ≠ .read then .errBadParameter
  else if command.type ≠ .instruction ∧ command.type ≠ .data then .errBadParameter
  else if command.dataSize ≠ 0 ∧ command.dataSize ≠ 1 ∧ command.dataSize % 4 ≠ 0 then
    .errBadParameter
  else if command.order = .read ∧ command.writeData ≠ 0 then .errBadParameter
  else if command.type = .instruction then
    if command.order = .write ∨ command.dataSize ≠ 0 then .errBadParameter else .errNone
  else if command.order = .write ∨ command.order = .read then
    if command.dataSize = 0 then .errBadParameter
    else if command.order = .write ∧ command.writeData > 0xff then .errBadParameter
    else .errNone
  else .errNone

/-- The block of `program_add_command`, twice as large if it is full. -/
def growListing (program : Program) : Program :=
  if program.nbLines = program.allocated then
    { program with
      allocated := 2 * program.allocated
      listing := reallocListing program.listing (2 * program.allocated) }
  else program

def programAddCommand (program : Program) (command : Command) : Exec (ErrorCode × Program) := do
  if checkCommand command ≠ .errNone then return (checkCommand command, program)
  let program := growListing program
  if program.nbLines < program.listing.length then
    return (.errNone,
      { program with
        listing := program.listing.set program.nbLines (some command)
        nbLines := program.nbLines + 1 })
  else throw .slot

def programShrink (program : Program) : ErrorCode × Program :=
  if program.nbLines > 0 then
    (.errNone,
      { program with
        allocated := program.nbLines
        listing := reallocListing program.listing program.nbLines })
  else
    (.errNone, { program with allocated := 10, listing := reallocListing program.listing 10 })

/-- `while (isspace(currentChar)) fscanf(open, "%c", &currentChar);` -/
def skipSpaces : ℕ → Char → Stream → Exec (Char × Stream)
  | 0, _, _ => .error .fuel
  | fuel + 1, currentChar, stream =>
    if isSpace currentChar then
      let (currentChar, stream) := scanChar currentChar stream
      skipSpaces fuel currentChar stream
    else .ok (currentChar, stream)

/-- One character scanned, and the next ones while it is a space. -/
def scanPastSpaces (fuel : ℕ) (currentChar : Char) (stream : Stream) : Exec (Char × Stream) :=
  let (currentChar, stream) := scanChar currentChar stream
  skipSpaces fuel currentChar stream

/-- The type and the data size, `none` where `program_read` returns `ERR_BAD_PARAMETER`. -/
def readType (currentChar : Char) (stream : Stream) : Option ((MemAccess × ℕ) × Char × Stream) :=
  if currentChar = 'I' then some ((.instruction, 0), currentChar, stream)
  else if currentChar = 'D' then
    let (currentChar, stream) := scanChar currentChar stream
    if currentChar = 'W' ∨ currentChar = 'B' then
      some ((.data, if currentChar = 'B' then 1 else 4), currentChar, stream)
    else none
  else none

/-- The data to write, 0 for a read. -/
def readWriteData (fuel : ℕ) (order : CommandWord) (currentChar : Char) (stream : Stream) :
    Exec (Option (Word × Char × Stream)) := do
  if order = .write then
    if currentChar ≠ '0' then return none
    let (currentChar, stream) := scanChar currentChar stream
    if currentChar ≠ 'x' then return none
    let (data, stream) := scanHex stream
    let (currentChar, stream) ← scanPastSpaces fuel currentChar stream
    return some ((data.getD 0).setWidth 32, currentChar, stream)
  else return some (0, currentChar, stream)

/-- The address after its `@0x`. -/
def readAddress (currentChar : Char) (stream : Stream) : Option (VirtAddr × Char × Stream) :=
  if currentChar ≠ '@' then none
  else
    let (currentChar, stream) := scanChar currentChar stream
    if currentChar ≠ '0' then none
    else
      let (currentChar, stream) := scanChar currentChar stream
      if currentChar ≠ 'x' then none
      else
        let (addr, stream) := scanHex stream
        some (initVirtAddr64 (addr.getD 0), currentChar, stream)

/-- The body of the loop of `program_read` up to the call of `program_add_command`. -/
def readCommand (fuel : ℕ) (currentChar : Char) (stream : Stream) :
    Exec (Option (Command × Char × Stream)) := do
  let (currentChar, stream) ← skipSpaces fuel currentChar stream
  if currentChar ≠ 'W' ∧ currentChar ≠ 'R' then return none
  let order := if currentChar = 'W' then CommandWord.write else .read
  let (currentChar, stream) ← scanPastSpaces fuel currentChar stream
  match readType currentChar stream with
  | none => return none
  | some ((type, dataSize), currentChar, stream) =>
    let (currentChar, stream) ← scanPastSpaces fuel currentChar stream
    match ← readWriteData fuel order currentChar stream with
    | none => return none
    | some (writeData, currentChar, stream) =>
      match readAddress currentChar stream with
      | none => return none
      | some (vaddr, currentChar, stream) =>
        return some (⟨order, type, dataSize, writeData, vaddr⟩, currentChar, stream)

/-- The loop of `program_read`, `inner` the fuel of the loops inside it. What `program_add_command`
returns is ignored. -/
def readCommands (inner : ℕ) : ℕ → Char → Stream → Program → Exec (ErrorCode × Program)
  | 0, _, _, _ => .error .fuel
  | fuel + 1, currentChar, stream, program => do
    if stream.eof then return (.errNone, program)
    match ← readCommand inner currentChar stream with
    | none => return (.errBadParameter, program)
    | some (currentCommand, currentChar, stream) =>
      let (_, program) ← programAddCommand program currentCommand
      let (currentChar, stream) := scanChar currentChar stream
      let (currentChar, stream) := scanChar currentChar stream
      readCommands inner fuel currentChar stream program

/-- `program_read` of a file's text, `none` if it cannot be opened. `currentChar` is what the
variable holds before the first scan. -/
def programRead (fuel : ℕ) (file : Option (List Char)) (currentChar : Char) :
    Exec (ErrorCode × Program) := do
  let (init, program) := programInit
  if init ≠ .errNone then return (.errBadParameter, program)
  match file with
  | none => return (.errIo, program)
  | some text =>
    let (currentChar, stream) := scanChar currentChar ⟨text, false⟩
    readCommands fuel fuel currentChar stream program

/-- What `program_print` writes for a line, in one of its four formats. -/
def printCommand (line : Command) : List Char :=
  let order := if line.order = .read then 'R' else 'W'
  let type := if line.type = .instruction then 'I' else 'D'
  let dataSize := if line.dataSize = 1 then 'B' else 'W'
  let vaddr := (virtAddrToUint64 line.vaddr).toNat
  if type = 'I' then
    [order, ' ', type, ' ', '@', '0', 'x'] ++ printHex 16 vaddr ++ ['\n']
  else if order = 'R' then
    [order, ' ', type, dataSize, ' ', '@', '0', 'x'] ++ printHex 16 vaddr ++ ['\n']
  else if order = 'W' ∧ dataSize = 'B' then
    [order, ' ', type, dataSize, ' ', '0', 'x'] ++ printHex 2 line.writeData.toNat
      ++ [' ', '@', '0', 'x'] ++ printHex 16 vaddr ++ ['\n']
  else
    [order, ' ', type, dataSize, ' ', '0', 'x'] ++ printHex 8 line.writeData.toNat
      ++ [' ', '@', '0', 'x'] ++ printHex 16 vaddr ++ ['\n']

/-- The loop of `program_print`, with the number of lines left. -/
def printLines : ℕ → List (Option Command) → Exec (List Char)
  | 0, _ => .ok []
  | nbLines + 1, some line :: listing => do
    return printCommand line ++ (← printLines nbLines listing)
  | _ + 1, _ => .error .slot

def programPrint (program : Program) : Exec (ErrorCode × List Char) := do
  return (.errNone, ← printLines program.nbLines program.listing)

end KabyLake
