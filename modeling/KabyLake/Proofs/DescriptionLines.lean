import KabyLake.MemoryInit

/-!
# The lines of a description

A description is a capacity, the file of the PGD, the number of translation pages and then a line
for each page. The body of each loop of the loader reads one line and copies one page
(`loadTranslationPage_line`, `loadPageFile_line`).
-/

namespace KabyLake

open Scanf Blocks

/-- A line of an offset or an address, a blank and a file name. -/
structure PageLine where
  digits : List Char
  sep : List Char
  file : List Char

def PageLine.text (l : PageLine) : List Char :=
  '0' :: 'x' :: (l.digits ++ (l.sep ++ (l.file ++ ['\n'])))

def PageLine.value (l : PageLine) : ℕ := hexValue l.digits

def PageLine.vaddr (l : PageLine) : VirtAddr := initVirtAddr64 (BitVec.ofNat 64 l.value)

/-- The text of a description: the capacity, the file of the PGD, the number of translation pages,
a line for each of them and a line for each data page. -/
structure Description where
  capacity : List Char
  pgdFile : List Char
  count : List Char
  tables : List PageLine
  data : List PageLine

/-- The text of the lines of pages. -/
def Description.pageText (d : Description) : List Char :=
  d.tables.flatMap PageLine.text ++ d.data.flatMap PageLine.text

def Description.text (d : Description) : List Char :=
  d.capacity ++ '\n' :: (d.pgdFile ++ '\n' :: (d.count ++ '\n' :: d.pageText))

/-- A name the buffer has room for, without blanks. -/
def IsFileName (name : List Char) : Prop :=
  name ≠ [] ∧ name.length < 128 ∧ ∀ c ∈ name, isSpace c = false

/-- A page-aligned number of at most `width` digits, blanks and a file name. -/
structure PageLine.WellFormed (width : ℕ) (l : PageLine) : Prop where
  digits_ne : l.digits ≠ []
  digits_le : l.digits.length ≤ width
  digits : ∀ c ∈ l.digits, isXDigit c
  aligned : 4096 ∣ l.value
  sep_ne : l.sep ≠ []
  sep : ∀ c ∈ l.sep, c = ' ' ∨ c = '\t'
  file : IsFileName l.file

/-- The documented format, with a capacity that fits in a `size_t`. -/
structure Description.WellFormed (d : Description) (capacity : BitVec 64) : Prop where
  capacity_ne : d.capacity ≠ []
  capacity_digits : ∀ c ∈ d.capacity, c.isDigit
  capacity_value : decValue d.capacity = capacity.toNat
  pgdFile : IsFileName d.pgdFile
  count_ne : d.count ≠ []
  count_digits : ∀ c ∈ d.count, c.isDigit
  count_value : decValue d.count = d.tables.length
  tables : ∀ l ∈ d.tables, l.WellFormed 8
  data : ∀ l ∈ d.data, l.WellFormed 16

/-- The bytes of a file. -/
def contentOf (files : Files) (name : List Char) : List Byte := (files name).getD []

/-- A file of 4096 bytes. -/
def IsPage (files : Files) (name : List Char) : Prop :=
  ∃ bytes, files name = some bytes ∧ bytes.length = 4096

variable {size width fuel : ℕ} {files : Files} {l : PageLine} {rest : List Char}

theorem isSpace_newline : isSpace '\n' = true := by decide

theorem nextLine_newline (hfuel : 0 < fuel) :
    nextLine fuel ⟨'\n' :: rest, false⟩ = .ok ⟨rest, false⟩ := by
  obtain ⟨fuel, rfl⟩ := Nat.exists_eq_succ_of_ne_zero hfuel.ne'
  rfl

theorem isSpace_of_blank {c : Char} (h : c = ' ' ∨ c = '\t') : isSpace c = true := by
  rcases h with rfl | rfl <;> decide

theorem scanFileName_line {name sep : List Char} (hname : IsFileName name)
    (hsep : ∀ c ∈ sep, c = ' ' ∨ c = '\t') (old : List Char) :
    scanFileName old ⟨sep ++ (name ++ '\n' :: rest), false⟩
      = .ok (name, ⟨'\n' :: rest, false⟩) := by
  obtain ⟨hne, hlen, hname⟩ := hname
  have hsep : ∀ c ∈ sep, isSpace c := fun c hc => isSpace_of_blank (hsep c hc)
  simp only [scanFileName, scanString_word hsep hne hname isSpace_newline, hlen, if_true]

theorem scanFileName_first {name : List Char} (hname : IsFileName name) (old : List Char) :
    scanFileName old ⟨name ++ '\n' :: rest, false⟩ = .ok (name, ⟨'\n' :: rest, false⟩) :=
  scanFileName_line hname (List.forall_mem_nil _) old

theorem PageLine.WellFormed.value_lt (h : l.WellFormed width) : l.value < 16 ^ width :=
  (hexValue_lt l.digits).trans_le (Nat.pow_le_pow_right (by norm_num) h.digits_le)

/-- The number of a line is scanned up to its first blank. -/
theorem scanAddress_line (h : l.WellFormed width) (hwidth : width ≤ 16) (rest : List Char) :
    ∃ c sep, (∀ c ∈ sep, c = ' ' ∨ c = '\t') ∧ scanAddress width '0'
        ⟨'x' :: (l.digits ++ (l.sep ++ (l.file ++ '\n' :: rest))), false⟩
      = some (some (BitVec.ofNat 64 l.value), c, ⟨sep ++ (l.file ++ '\n' :: rest), false⟩) := by
  obtain ⟨c, sep, hsep⟩ := List.exists_cons_of_ne_nil h.sep_ne
  have hblank := h.sep
  rw [hsep] at hblank
  have hc : isSpace c = true := isSpace_of_blank (hblank c List.mem_cons_self)
  have hlt : hexValue l.digits < 2 ^ 64 :=
    h.value_lt.trans_le ((Nat.pow_le_pow_right (by norm_num) hwidth).trans (by norm_num))
  refine ⟨c, sep, fun c hc => hblank c (List.mem_cons_of_mem _ hc), ?_⟩
  simp only [scanAddress, hsep, List.cons_append, scanChar_cons,
    scanHexWidth_digits h.digits_ne h.digits h.digits_le hc hlt, hc]
  rfl

theorem IsPage.length {name : List Char} (h : IsPage files name) :
    (contentOf files name).length = 4096 := by
  obtain ⟨bytes, hfile, hlen⟩ := h
  rwa [contentOf, hfile]

theorem pageFileRead_page {name : List Char} {address : Word} (h : IsPage files name)
    (hinside : address.toNat + 4096 ≤ size) (m : Memory size) :
    pageFileRead files name m address
      = .ok (.errNone, put m (address.toNat, contentOf files name)) := by
  obtain ⟨bytes, hfile, hlen⟩ := h
  have hread : m.readFile address.toNat bytes = .ok (put m (address.toNat, bytes)) :=
    if_pos (by rwa [hlen])
  have hne : ¬ bytes.length ≠ 4096 := not_not_intro hlen
  simp only [pageFileRead, contentOf, hfile, if_neg hne, hread]
  rfl

/-- A line of a translation page is read and its file copied to its offset. -/
theorem loadTranslationPage_line (h : l.WellFormed 8) (hfile : IsPage files l.file)
    (hinside : l.value + 4096 ≤ size) (hfuel : 0 < fuel) {s : Loader size}
    (hs : s.file = ⟨l.text ++ rest, false⟩) :
    ∃ s', loadTranslationPage files fuel s = .ok (.errNone, s') ∧ s'.file = ⟨rest, false⟩
      ∧ s'.memory = put s.memory (l.value, contentOf files l.file) := by
  obtain ⟨c, sep, hblank, hscan⟩ := scanAddress_line h (by norm_num) rest
  have hvalue : ((BitVec.ofNat 64 l.value).setWidth 32).toNat = l.value := by
    have hlt := h.value_lt
    rw [BitVec.toNat_setWidth, BitVec.toNat_ofNat]
    omega
  have hread := pageFileRead_page hfile (hvalue ▸ hinside) s.memory
  rw [hvalue] at hread
  unfold loadTranslationPage
  rw [hs]
  simp only [PageLine.text, List.cons_append, List.append_assoc, List.nil_append, scanChar_cons,
    hscan, scanFileName_line h.file hblank, Exec.ok_bind, Option.map_some, Option.getD_some,
    hread, ne_eq, not_true_eq_false, if_false, nextLine_newline hfuel, Exec.pure_eq]
  exact ⟨_, rfl, rfl, rfl⟩

/-- The character scanned last is the first of a text, and the rest follows. -/
def Ahead (s : Loader size) (text : List Char) : Prop :=
  ∃ c, scanChar c ⟨text, false⟩ = (s.currChar, s.file)

/-- A line of a data page is read and its file copied to where its address walks to. -/
theorem loadPageFile_line {pa : PhyAddr} (h : l.WellFormed 16) (hfile : IsPage files l.file)
    (hinside : pa.addr + 4096 ≤ size) (hfuel : 0 < fuel) {s : Loader size}
    (hs : Ahead s (l.text ++ rest))
    (hwalk : ∀ paddr, pageWalk s.memory l.vaddr paddr = .ok (.errNone, pa)) :
    ∃ s', loadPageFile files fuel s = .ok (.errNone, s') ∧ Ahead s' rest
      ∧ s'.memory = put s.memory (pa.addr, contentOf files l.file) := by
  obtain ⟨c, sep, hblank, hscan⟩ := scanAddress_line h le_rfl rest
  have hread := pageFileRead_page hfile ((phyToUint32_toNat pa).symm ▸ hinside) s.memory
  rw [phyToUint32_toNat, phyToUint32] at hread
  have hwalk := hwalk s.paddr
  rw [PageLine.vaddr] at hwalk
  obtain ⟨c', hs⟩ := hs
  simp only [PageLine.text, List.cons_append, List.append_assoc, List.nil_append, scanChar_cons,
    Prod.mk.injEq] at hs
  unfold loadPageFile
  rw [← hs.1, ← hs.2]
  simp only [hscan, Option.getD_some, scanFileName_line h.file hblank, Exec.ok_bind, hwalk, hread,
    ne_eq, not_true_eq_false, if_false, nextLine_newline hfuel, Exec.pure_eq]
  exact ⟨_, rfl, ⟨c, rfl⟩, rfl⟩

/-- The lines of the translation pages are read one after the other. -/
theorem loadTranslationPages_lines {lines : List PageLine} (hwf : ∀ l ∈ lines, l.WellFormed 8)
    (hfile : ∀ l ∈ lines, IsPage files l.file) (hinside : ∀ l ∈ lines, l.value + 4096 ≤ size)
    (hfuel : 0 < fuel) {s : Loader size}
    (hs : s.file = ⟨lines.flatMap PageLine.text ++ rest, false⟩) :
    ∃ s', loadTranslationPages files fuel lines.length s = .ok (.errNone, s')
      ∧ s'.file = ⟨rest, false⟩
      ∧ s'.memory = putAll s.memory (lines.map fun l => (l.value, contentOf files l.file)) := by
  induction lines generalizing s with
  | nil => exact ⟨s, rfl, hs, rfl⟩
  | cons l lines ih =>
    rw [List.flatMap_cons, List.append_assoc] at hs
    obtain ⟨s₁, hstep, hs₁, hmem₁⟩ := loadTranslationPage_line (hwf l List.mem_cons_self)
      (hfile l List.mem_cons_self) (hinside l List.mem_cons_self) hfuel hs
    obtain ⟨s₂, hrun, hs₂, hmem₂⟩ := ih (fun l hl => hwf l (List.mem_cons_of_mem _ hl))
      (fun l hl => hfile l (List.mem_cons_of_mem _ hl))
      (fun l hl => hinside l (List.mem_cons_of_mem _ hl)) hs₁
    refine ⟨s₂, ?_, hs₂, ?_⟩
    · rw [List.length_cons, loadTranslationPages, hstep, Exec.ok_bind]
      exact hrun
    · rw [hmem₂, hmem₁]
      rfl

theorem signExtend_ofNat {n : ℕ} (h : n < 2 ^ 31) :
    ((BitVec.ofNat 32 n).signExtend 64).toNat = n := by
  have hn : (BitVec.ofNat 32 n).toNat = n := Nat.mod_eq_of_lt (by omega)
  have hmsb : (BitVec.ofNat 32 n).msb = false := by
    rw [BitVec.msb_eq_decide, hn]
    exact decide_eq_false (by omega)
  rw [BitVec.signExtend_eq_setWidth_of_msb_false hmsb, BitVec.toNat_setWidth, hn]
  omega

end KabyLake
