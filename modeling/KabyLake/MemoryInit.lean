import KabyLake.Library.Blocks
import KabyLake.Library.Scanf
import KabyLake.PageWalk

/-!
# Building the memory from a dump or a description

`mem_init_from_dumpfile`, `mem_init_from_description` and `page_file_read` of memory.c. A file is
its bytes and a byte of a text is a character. A file that opens can be measured, read and closed,
but for `fseek` and `fclose` of a dump, which may fail, and its name has no null character.
`*memory` is null before the call. The loops over the text take fuel.
-/

namespace KabyLake

open Scanf

/-- The content of a file by its name, `none` if it cannot be opened. -/
abbrev Files := List Char → Option (List Byte)

def textOf (content : List Byte) : List Char := content.map fun b => Char.ofNat b.toNat

variable {size : ℕ}

/-- `fread(memory + address, 1, n, file)`, `n` the length of the content. -/
def Memory.readFile (m : Memory size) (address : ℕ) (content : List Byte) : Exec (Memory size) :=
  if address + content.length ≤ size then .ok (Blocks.put m (address, content))
  else .error .memory

/-- A block of the length of a file has room for it. -/
theorem Memory.readFile_whole (content : List Byte) (m : Memory content.length) :
    m.readFile 0 content = .ok (Blocks.put m (0, content)) :=
  if_pos (Nat.zero_add _).le

def pageFileRead (files : Files) (filename : List Char) (memory : Memory size) (address : Word) :
    Exec (ErrorCode × Memory size) := do
  match files filename with
  | none => return (.errIo, memory)
  | some content =>
    if content.length ≠ 4096 then return (.errIo, memory)
    return (.errNone, ← memory.readFile address.toNat content)

/-- `next_line`: at the end of the file it never sees a newline. -/
def nextLine : ℕ → Stream → Exec Stream
  | 0, _ => .error .fuel
  | fuel + 1, file =>
    let (curr, file) := getChar file
    if curr ≠ some '\n' then nextLine fuel file else .ok file

/-- `fscanf(file, "%s", name)`; the buffer has `MAX_FILE_NAME_SIZE` bytes, the last for the null. -/
def scanFileName (name : List Char) (file : Stream) : Exec (List Char × Stream) :=
  match scanString file with
  | (none, file) => .ok (name, file)
  | (some name, file) => if name.length < 128 then .ok (name, file) else .error .slot

/-- The variables of `mem_init_from_description` that a scan may leave as they are. -/
structure Locals where
  pgdFileName : List Char
  currChar : Char
  fileName : List Char
  addr : Word
  vaddr64 : BitVec 64
  paddr : PhyAddr

/-- Those variables, the file and the memory. -/
structure Loader (size : ℕ) extends Locals where
  file : Stream
  memory : Memory size

/-- The part the two loops share, once the first character of a line is scanned: `0x`, a number of
at most `width` digits and a space. It is `none` where they return `ERR_IO`. -/
def scanAddress (width : ℕ) (currChar : Char) (file : Stream) :
    Option (Option (BitVec 64) × Char × Stream) :=
  if currChar ≠ '0' then none
  else
    let (currChar, file) := scanChar currChar file
    if currChar ≠ 'x' then none
    else
      let (n, file) := scanHexWidth width file
      let (currChar, file) := scanChar currChar file
      if !isSpace currChar then none else some (n, currChar, file)

/-- The body of the loop over the translation pages. After an error only the memory is left. -/
def loadTranslationPage (files : Files) (fuel : ℕ) (s : Loader size) :
    Exec (ErrorCode × Loader size) := do
  let (currChar, file) := scanChar s.currChar s.file
  match scanAddress 8 currChar file with
  | none => return (.errIo, s)
  | some (n, currChar, file) =>
    let addr := (n.map (·.setWidth 32)).getD s.addr
    let (fileName, file) ← scanFileName s.fileName file
    let (read, memory) ← pageFileRead files fileName s.memory addr
    if read ≠ .errNone then return (.errBadParameter, s)
    let file ← nextLine fuel file
    return (.errNone, { s with currChar, fileName, addr, file, memory })

/-- The loop over the translation pages, with the number of passes left. -/
def loadTranslationPages (files : Files) (fuel : ℕ) : ℕ → Loader size →
    Exec (ErrorCode × Loader size)
  | 0, s => .ok (.errNone, s)
  | n + 1, s => do
    let (err, s) ← loadTranslationPage files fuel s
    if err ≠ .errNone then return (err, s)
    loadTranslationPages files fuel n s

/-- The body of the loop over the page files. -/
def loadPageFile (files : Files) (fuel : ℕ) (s : Loader size) : Exec (ErrorCode × Loader size) := do
  match scanAddress 16 s.currChar s.file with
  | none => return (.errIo, s)
  | some (n, currChar, file) =>
    let vaddr64 := n.getD s.vaddr64
    let vaddr := initVirtAddr64 vaddr64
    let (fileName, file) ← scanFileName s.fileName file
    let (pwalk, paddr) ← pageWalk s.memory vaddr s.paddr
    if pwalk ≠ .errNone then return (.errBadParameter, s)
    let address := (paddr.phyPageNum.setWidth 32 <<< 12) ||| paddr.pageOffset.setWidth 32
    let (read, memory) ← pageFileRead files fileName s.memory address
    if read ≠ .errNone then return (.errBadParameter, s)
    let file ← nextLine fuel file
    let (currChar, file) := scanChar currChar file
    return (.errNone, { s with currChar, fileName, vaddr64, paddr, file, memory })

/-- The loop over the page files, `inner` the fuel of the loop inside it. -/
def loadPageFiles (files : Files) (inner : ℕ) : ℕ → Loader size → Exec (ErrorCode × Loader size)
  | 0, _ => .error .fuel
  | fuel + 1, s => do
    if s.file.eof then return (.errNone, s)
    let (err, s) ← loadPageFile files inner s
    if err ≠ .errNone then return (err, s)
    loadPageFiles files inner fuel s

/-- `mem_init_from_description` from the second line of the file on, in the memory it has
allocated. -/
def loadPages (files : Files) (fuel : ℕ) (locals : Locals) (file : Stream) (memory : Memory size) :
    Exec (ErrorCode × Memory size) := do
  let (pgdFileName, file) ← scanFileName locals.pgdFileName file
  let (read, memory) ← pageFileRead files pgdFileName memory 0
  if read ≠ .errNone then return (.errBadParameter, memory)
  let file ← nextLine fuel file
  let (n, file) := scanInt file
  let transPages := n.getD 0
  let file ← nextLine fuel file
  -- the counter is a `size_t`, so the number of pages is sign-extended to 64 bits
  let (err, s) ← loadTranslationPages files fuel (transPages.signExtend 64).toNat
    ⟨{ locals with pgdFileName }, file, memory⟩
  if err ≠ .errNone then return (err, s.memory)
  let (currChar, file) := scanChar s.currChar s.file
  let (err, s) ← loadPageFiles files fuel fuel { s with currChar, file }
  return (err, s.memory)

/-- The code, `*mem_capacity_in_bytes` and `*memory`, `none` for null. -/
structure LoadResult where
  err : ErrorCode
  capacity : ℕ
  memory : Option (Memory capacity)

/-- `mem_init_from_description`. `calloc` tells the sizes of which a block is found, and
`memCapacityInBytes` is what the pointer leads to before the call. -/
def memInitFromDescription (calloc : ℕ → Bool) (files : Files) (fuel : ℕ) (locals : Locals)
    (masterFilename : List Char) (memCapacityInBytes : BitVec 64) : Exec LoadResult := do
  match files masterFilename with
  | none => return ⟨.errIo, memCapacityInBytes.toNat, none⟩
  | some content =>
    let (n, file) := scanSize ⟨textOf content, false⟩
    let capacity := n.getD memCapacityInBytes
    let file ← nextLine fuel file
    if !calloc capacity.toNat then return ⟨.errBadParameter, capacity.toNat, none⟩
    let (err, memory) ← loadPages files fuel locals file (fun _ => 0 : Memory capacity.toNat)
    return ⟨err, capacity.toNat, some memory⟩

/-- `mem_init_from_dumpfile`, with what `fseek` and `fclose` return. -/
def memInitFromDumpfile (calloc : ℕ → Bool) (files : Files) (seek close : ℤ) (filename : List Char)
    (memCapacityInBytes : BitVec 64) : Exec LoadResult := do
  match files filename with
  | none => return ⟨.errIo, memCapacityInBytes.toNat, none⟩
  | some content =>
    -- whatever `fclose` returns
    if seek ≠ 0 then return ⟨.errBadParameter, memCapacityInBytes.toNat, none⟩
    let capacity := content.length
    if !calloc capacity then return ⟨.errBadParameter, capacity, none⟩
    let memory : Memory capacity ← Memory.readFile (fun _ => 0) 0 content
    if close ≠ 0 then return ⟨.errBadParameter, capacity, some memory⟩
    return ⟨.errNone, capacity, some memory⟩

end KabyLake
