import KabyLake.Proofs.DescriptionLines

/-!
# The text of a description line by line

`mem_init_from_description` reads one line after the other, whatever is in them: that of the PGD
file, that of the number of translation pages, and then a line for each page. A line is read, its
page is copied and the rest of it is skipped (`Step`); or the loader stops there, as the text is at
its end (`Done`), the line is refused (`Fails`), the language leaves what it does undefined
(`Faults`) or no newline is left to skip to (`Endless`). Every text has a line where the loader
stops (`ends`).
-/

namespace KabyLake

open Scanf Blocks

variable {size : ℕ} {files : Files}

/-- Where the loader is: at the line of the PGD file, at that of the number of pages, at the line of
a translation page with the number of those after it, or at the line of a page file, with its first
character scanned. -/
inductive Point (size : ℕ)
  | pgd (s : Loader size)
  | count (s : Loader size)
  | table (more : ℕ) (s : Loader size)
  | page (s : Loader size)

def Point.memory : Point size → Memory size
  | .pgd s => s.memory
  | .count s => s.memory
  | .table _ s => s.memory
  | .page s => s.memory

/-- The lines of that many translation pages are next, or those of the page files. -/
def Point.enter : ℕ → Loader size → Point size
  | 0, s =>
    let (currChar, file) := scanChar s.currChar s.file
    .page { s with currChar, file }
  | more + 1, s => .table more s

/-- The number of translation pages, compared with a `size_t`. -/
def transPages (file : Stream) : ℕ := (((scanInt file).1.getD 0).signExtend 64).toNat

/-- The line after the one at a point. -/
def Point.next : Point size → Loader size → Point size
  | .pgd _, t => .count t
  | .count s, t => enter (transPages s.file) t
  | .table more _, t => enter more t
  | .page _, t => enter 0 t

/-- What follows the first newline. -/
def afterLine (file : Stream) : Stream := ⟨(file.rest.dropWhile (· ≠ '\n')).tail, file.eof⟩

/-- The first character of a line, `0x`, a number and a blank. -/
def tableNumber (s : Loader size) : Option (Option (BitVec 64) × Char × Stream) :=
  let (currChar, file) := scanChar s.currChar s.file
  scanAddress 8 currChar file

/-- A line is read up to the end of its file name, or of the number of pages: the state after it,
and the page to copy with where it goes. -/
inductive Reads : Point size → Loader size → Option (List Char × Word) → Prop
  | pgd {s : Loader size} {pgdFileName : List Char} {file : Stream}
      (hname : scanFileName s.pgdFileName s.file = .ok (pgdFileName, file)) :
      Reads (.pgd s) { s with pgdFileName, file } (some (pgdFileName, 0))
  | count (s : Loader size) : Reads (.count s) { s with file := (scanInt s.file).2 } none
  | table {more : ℕ} {s : Loader size} {n : Option (BitVec 64)} {currChar : Char} {file : Stream}
      {fileName : List Char} {after : Stream} (hnumber : tableNumber s = some (n, currChar, file))
      (hname : scanFileName s.fileName file = .ok (fileName, after)) :
      Reads (.table more s)
        { s with currChar, fileName, addr := (n.map (·.setWidth 32)).getD s.addr, file := after }
        (some (fileName, (n.map (·.setWidth 32)).getD s.addr))
  | page {s : Loader size} {n : Option (BitVec 64)} {currChar : Char} {file : Stream}
      {fileName : List Char} {after : Stream} {paddr : PhyAddr} (heof : s.file.eof = false)
      (hnumber : scanAddress 16 s.currChar s.file = some (n, currChar, file))
      (hname : scanFileName s.fileName file = .ok (fileName, after))
      (hwalk : pageWalk s.memory (initVirtAddr64 (n.getD s.vaddr64)) s.paddr
        = .ok (.errNone, paddr)) :
      Reads (.page s)
        { s with currChar, fileName, vaddr64 := n.getD s.vaddr64, paddr, file := after }
        (some (fileName, phyToUint32 paddr))

/-- The file is a page, and there is room for it. -/
def Copies (files : Files) (size : ℕ) (copy : Option (List Char × Word)) : Prop :=
  ∀ name address, copy = some (name, address) →
    IsPage files name ∧ address.toNat + 4096 ≤ size

def copied (files : Files) (m : Memory size) : Option (List Char × Word) → Memory size
  | none => m
  | some (name, address) => put m (address.toNat, contentOf files name)

/-- A line is read, its page copied and its end found. -/
inductive Step (files : Files) : Point size → Point size → Prop
  | line {p : Point size} {s : Loader size} {copy : Option (List Char × Word)}
      (hread : Reads p s copy) (hcopy : Copies files size copy) (hline : '\n' ∈ s.file.rest) :
      Step files p
        (p.next { s with file := afterLine s.file, memory := copied files s.memory copy })

/-- The lines from one on are all read, up to another. -/
def Reaches (files : Files) : Point size → Point size → Prop := Relation.ReflTransGen (Step files)

/-- The text is at its end. -/
inductive Done : Point size → Prop
  | page {s : Loader size} (heof : s.file.eof = true) : Done (.page s)

/-- A line is refused: its address is not written as one or walks to no page, or its file is no
page. -/
inductive Fails (files : Files) : Point size → ErrorCode → Prop
  | table {more : ℕ} {s : Loader size} (hnumber : tableNumber s = none) :
      Fails files (.table more s) .errIo
  | page {s : Loader size} (heof : s.file.eof = false)
      (hnumber : scanAddress 16 s.currChar s.file = none) : Fails files (.page s) .errIo
  | walk {s : Loader size} {n : Option (BitVec 64)} {currChar : Char} {file : Stream}
      {name : List Char × Stream} {err : ErrorCode} {paddr : PhyAddr} (heof : s.file.eof = false)
      (hnumber : scanAddress 16 s.currChar s.file = some (n, currChar, file))
      (hname : scanFileName s.fileName file = .ok name)
      (hwalk : pageWalk s.memory (initVirtAddr64 (n.getD s.vaddr64)) s.paddr = .ok (err, paddr))
      (herr : err ≠ .errNone) : Fails files (.page s) .errBadParameter
  | file {p : Point size} {s : Loader size} {name : List Char} {address : Word}
      (hread : Reads p s (some (name, address))) (hfile : ¬ IsPage files name) :
      Fails files p .errBadParameter

/-- Where the file name of a line is scanned, and the name there is so far. -/
inductive NameAt : Point size → List Char → Stream → Prop
  | pgd {s : Loader size} : NameAt (.pgd s) s.pgdFileName s.file
  | table {more : ℕ} {s : Loader size} {n : Option (BitVec 64)} {currChar : Char} {file : Stream}
      (hnumber : tableNumber s = some (n, currChar, file)) : NameAt (.table more s) s.fileName file
  | page {s : Loader size} {n : Option (BitVec 64)} {currChar : Char} {file : Stream}
      (heof : s.file.eof = false)
      (hnumber : scanAddress 16 s.currChar s.file = some (n, currChar, file)) :
      NameAt (.page s) s.fileName file

/-- A name does not fit in its buffer, a walk leaves the memory, or a page is copied outside it. -/
inductive Faults (files : Files) : Point size → Fault → Prop
  | name {p : Point size} {name : List Char} {file : Stream} {fault : Fault}
      (hat : NameAt p name file) (hname : scanFileName name file = .error fault) :
      Faults files p fault
  | walk {s : Loader size} {n : Option (BitVec 64)} {currChar : Char} {file : Stream}
      {name : List Char × Stream} {fault : Fault} (heof : s.file.eof = false)
      (hnumber : scanAddress 16 s.currChar s.file = some (n, currChar, file))
      (hname : scanFileName s.fileName file = .ok name)
      (hwalk : pageWalk s.memory (initVirtAddr64 (n.getD s.vaddr64)) s.paddr = .error fault) :
      Faults files (.page s) fault
  | outside {p : Point size} {s : Loader size} {name : List Char} {address : Word}
      (hread : Reads p s (some (name, address))) (hfile : IsPage files name)
      (houtside : size < address.toNat + 4096) : Faults files p .memory

/-- No newline is left after a line. -/
inductive Endless (files : Files) : Point size → Prop
  | line {p : Point size} {s : Loader size} {copy : Option (List Char × Word)}
      (hread : Reads p s copy) (hcopy : Copies files size copy) (hline : '\n' ∉ s.file.rest) :
      Endless files p

variable {p q : Point size}

/-- Where the loader stops, and what it comes to there. -/
inductive Stops (files : Files) : Point size → Exec (ErrorCode × Memory size) → Prop
  | done {p : Point size} (h : Done p) : Stops files p (.ok (.errNone, p.memory))
  | fails {p : Point size} {err : ErrorCode} (h : Fails files p err) :
      Stops files p (.ok (err, p.memory))
  | faults {p : Point size} {fault : Fault} (h : Faults files p fault) :
      Stops files p (.error fault)
  | endless {p : Point size} (h : Endless files p) : Stops files p (.error .fuel)

theorem Reads.not_done {s : Loader size} {copy : Option (List Char × Word)} (h : Reads p s copy) :
    ¬ Done p := by
  rintro ⟨heof⟩
  cases h with
  | page hne => exact Bool.eq_false_iff.1 hne heof

theorem Step.not_done (h : Step files p q) : ¬ Done p := by
  obtain ⟨hread, -, -⟩ := h
  exact hread.not_done

theorem Fails.not_done {err : ErrorCode} (h : Fails files p err) : ¬ Done p := by
  rintro ⟨heof⟩
  cases h with
  | page hne => exact Bool.eq_false_iff.1 hne heof
  | walk hne => exact Bool.eq_false_iff.1 hne heof
  | file hread => exact hread.not_done ⟨heof⟩

theorem Faults.not_done {fault : Fault} (h : Faults files p fault) : ¬ Done p := by
  rintro ⟨heof⟩
  cases h with
  | name hat =>
    cases hat with
    | page hne => exact Bool.eq_false_iff.1 hne heof
  | walk hne => exact Bool.eq_false_iff.1 hne heof
  | outside hread => exact hread.not_done ⟨heof⟩

theorem length_afterLine {file : Stream} (h : '\n' ∈ file.rest) :
    (afterLine file).rest.length < file.rest.length := by
  have hpos : 0 < file.rest.length := List.length_pos_of_mem h
  have hle : (file.rest.dropWhile (· ≠ '\n')).length ≤ file.rest.length :=
    (List.dropWhile_sublist _).length_le
  simp only [afterLine, List.length_tail]
  omega

/-- A line that is read is the last or not. -/
theorem Reads.step_or_stops {s : Loader size} {copy : Option (List Char × Word)}
    (h : Reads p s copy) : (∃ q, Step files p q) ∨ ∃ outcome, Stops files p outcome := by
  have hend : Copies files size copy →
      (∃ q, Step files p q) ∨ ∃ outcome, Stops files p outcome := by
    intro hcopy
    by_cases hline : '\n' ∈ s.file.rest
    · exact .inl ⟨_, .line h hcopy hline⟩
    · exact .inr ⟨_, .endless (.line h hcopy hline)⟩
  rcases copy with _ | ⟨name, address⟩
  · exact hend nofun
  by_cases hfile : IsPage files name
  · by_cases hinside : address.toNat + 4096 ≤ size
    · refine hend ?_
      rintro name address ⟨⟩
      exact ⟨hfile, hinside⟩
    · exact .inr ⟨_, .faults (.outside h hfile (not_le.1 hinside))⟩
  · exact .inr ⟨_, .fails (.file h hfile)⟩

theorem step_or_stops (files : Files) (p : Point size) :
    (∃ q, Step files p q) ∨ ∃ outcome, Stops files p outcome := by
  cases p with
  | pgd s =>
    rcases hname : scanFileName s.pgdFileName s.file with fault | ⟨pgdFileName, file⟩
    · exact .inr ⟨_, .faults (.name .pgd hname)⟩
    · exact (Reads.pgd hname).step_or_stops
  | count s => exact (Reads.count s).step_or_stops
  | table more s =>
    rcases hnumber : tableNumber s with _ | ⟨n, currChar, file⟩
    · exact .inr ⟨_, .fails (.table hnumber)⟩
    rcases hname : scanFileName s.fileName file with fault | ⟨fileName, after⟩
    · exact .inr ⟨_, .faults (.name (.table hnumber) hname)⟩
    · exact (Reads.table hnumber hname).step_or_stops
  | page s =>
    rcases heof : s.file.eof with _ | _
    · rcases hnumber : scanAddress 16 s.currChar s.file with _ | ⟨n, currChar, file⟩
      · exact .inr ⟨_, .fails (.page heof hnumber)⟩
      rcases hname : scanFileName s.fileName file with fault | ⟨fileName, after⟩
      · exact .inr ⟨_, .faults (.name (.page heof hnumber) hname)⟩
      rcases hwalk : pageWalk s.memory (initVirtAddr64 (n.getD s.vaddr64)) s.paddr
        with fault | ⟨err, paddr⟩
      · exact .inr ⟨_, .faults (.walk heof hnumber hname hwalk)⟩
      by_cases herr : err = .errNone
      · subst herr
        exact (Reads.page heof hnumber hname hwalk).step_or_stops
      · exact .inr ⟨_, .fails (.walk heof hnumber hname hwalk herr)⟩
    · exact .inr ⟨_, .done ⟨heof⟩⟩

theorem length_scanFileName {name name' : List Char} {file file' : Stream}
    (h : scanFileName name file = .ok (name', file')) : file'.rest.length ≤ file.rest.length := by
  have hle := length_scanString file
  unfold scanFileName at h
  rcases hscan : scanString file with ⟨_ | word, after⟩ <;> rw [hscan] at h hle
  · cases h
    exact hle
  · simp only at h
    split_ifs at h
    cases h
    exact hle

theorem length_scanAddress {width : ℕ} {c currChar : Char} {file after : Stream}
    {n : Option (BitVec 64)} (h : scanAddress width c file = some (n, currChar, after)) :
    after.rest.length ≤ file.rest.length := by
  unfold scanAddress at h
  split_ifs at h
  simp only at h
  split_ifs at h
  cases h
  exact (length_scanChar _ _).trans ((length_scanHexWidth _ _).trans (length_scanChar _ _))

/-- The line of a page file takes characters. -/
theorem Step.length_lt {s : Loader size} (h : Step files (.page s) q) :
    ∃ t, q = .page t ∧ t.file.rest.length < s.file.rest.length := by
  generalize hp : Point.page s = p at h
  obtain ⟨hread, hcopy, hline⟩ := h
  subst hp
  cases hread with
  | page heof hnumber hname hwalk =>
    refine ⟨_, rfl, ?_⟩
    calc _
      _ ≤ _ := length_scanChar _ _
      _ < _ := length_afterLine hline
      _ ≤ _ := length_scanFileName hname
      _ ≤ _ := length_scanAddress hnumber

/-- The loader stops somewhere. -/
def Ends (files : Files) (p : Point size) : Prop :=
  ∃ q outcome, Reaches files p q ∧ Stops files q outcome

theorem Ends.of_steps (h : ∀ q, Step files p q → Ends files q) : Ends files p := by
  rcases step_or_stops files p with ⟨q, hstep⟩ | ⟨outcome, hstops⟩
  · obtain ⟨q', outcome, hreach, hstops⟩ := h q hstep
    exact ⟨q', outcome, .head hstep hreach, hstops⟩
  · exact ⟨p, outcome, .refl, hstops⟩

theorem ends_page (s : Loader size) : Ends files (.page s) := by
  induction hn : s.file.rest.length using Nat.strong_induction_on generalizing s with
  | _ n ih =>
    refine .of_steps fun q hstep => ?_
    obtain ⟨t, rfl, hlt⟩ := hstep.length_lt
    exact ih _ (hn ▸ hlt) t rfl

theorem ends_enter : ∀ (n : ℕ) (s : Loader size), Ends files (.enter n s)
  | 0, _ => ends_page _
  | n + 1, s => .of_steps fun q hstep => by
    generalize hp : Point.enter (n + 1) s = p at hstep
    obtain ⟨hread, hcopy, hline⟩ := hstep
    subst hp
    exact ends_enter n _

/-- Whatever the text, the loader reaches a line where it stops: there are as many lines of
translation pages as their number says, and each line of a page file takes characters. -/
theorem ends (files : Files) (p : Point size) : Ends files p := by
  have hcount : ∀ s : Loader size, Ends files (.count s) := by
    refine fun s => .of_steps fun q hstep => ?_
    generalize hp : Point.count s = p at hstep
    obtain ⟨hread, hcopy, hline⟩ := hstep
    subst hp
    exact ends_enter _ _
  cases p with
  | pgd s =>
    refine .of_steps fun q hstep => ?_
    generalize hp : Point.pgd s = p at hstep
    obtain ⟨hread, hcopy, hline⟩ := hstep
    subst hp
    exact hcount _
  | count s => exact hcount s
  | table more s => exact ends_enter (more + 1) s
  | page s => exact ends_page s

end KabyLake
