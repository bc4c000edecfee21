import KabyLake.Addr

/-!
# The memory image

The block of bytes `mem_space` points at. An access is checked against its size and faults outside
it. Words lie in it in little-endian order.
-/

namespace KabyLake

/-- A memory image of `size` bytes. -/
abbrev Memory (size : ℕ) := Fin size → Byte

variable {size : ℕ}

/-- The byte at an offset, 0 past the end. -/
def Memory.byteAt (m : Memory size) (a : ℕ) : Byte := if h : a < size then m ⟨a, h⟩ else 0

/-- The little-endian word at an offset. -/
def Memory.wordAt (m : Memory size) (a : ℕ) : Word :=
  m.byteAt (a + 3) ++ m.byteAt (a + 2) ++ m.byteAt (a + 1) ++ m.byteAt a

/-- Byte `i` of a word, the lowest first. -/
def byteOf (w : Word) (i : ℕ) : Byte := (w >>> (8 * i)).setWidth 8

/-- Read the word at an offset. -/
def Memory.loadWord (m : Memory size) (a : ℕ) : Exec Word :=
  if a + 4 ≤ size then .ok (m.wordAt a) else .error .memory

/-- Four words. -/
abbrev CacheLine := Fin 4 → Word

/-- The four words from an offset on. -/
def Memory.lineAt (m : Memory size) (a : ℕ) : CacheLine := fun k => m.wordAt (a + 4 * k)

/-- The memory with a line written at an offset. -/
def Memory.setLine (m : Memory size) (a : ℕ) (line : CacheLine) : Memory size := fun j =>
  if a ≤ j.val ∧ j.val < a + 16 then
    byteOf (line (Fin.ofNat 4 ((j.val - a) / 4))) ((j.val - a) % 4)
  else m j

/-- `memcpy(line, start + a, 16)`. -/
def Memory.loadLine (m : Memory size) (a : ℕ) : Exec CacheLine :=
  if a + 16 ≤ size then .ok (m.lineAt a) else .error .memory

/-- `memcpy(start + a, line, 16)`. -/
def Memory.storeLine (m : Memory size) (a : ℕ) (line : CacheLine) : Exec (Memory size) :=
  if a + 16 ≤ size then .ok (m.setLine a line) else .error .memory

/-- A flat memory after a word is written at `a`. -/
def Memory.setWord (m : Memory size) (a : ℕ) (w : Word) : Memory size :=
  fun j => if a ≤ j.val ∧ j.val < a + 4 then byteOf w (j.val - a) else m j

/-- A flat memory after a byte is written at `a`. -/
def Memory.setByte (m : Memory size) (a : ℕ) (b : Byte) : Memory size :=
  fun j => if j.val = a then b else m j

end KabyLake
