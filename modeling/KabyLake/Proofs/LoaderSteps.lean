import KabyLake.Library.Fuel
import KabyLake.Proofs.LoaderText

/-!
# The loader line by line

`loadLine` is what the loader does for a line and `loadFrom` the part of the loader from a line on.
It comes to the same from one line as from the next (`Step.settles`), and what it comes to at a line
where it stops is that of the stop (`Stops.settles`).
-/

namespace KabyLake

open Scanf Blocks

variable {size : ℕ} {files : Files}

section Lines

theorem nextLine_gives : ∀ (rest : List Char) (eof : Bool) (fuel : ℕ), '\n' ∈ rest →
    Fuel.Gives .fuel rest.length fuel (nextLine fuel ⟨rest, eof⟩) (afterLine ⟨rest, eof⟩)
  | _, _, 0, _ => .inr ⟨Nat.zero_le _, rfl⟩
  | c :: rest, eof, fuel + 1, h => by
    by_cases hc : c = '\n'
    · subst hc
      exact .inl rfl
    · have hrest : '\n' ∈ rest := (List.mem_cons.1 h).resolve_left fun h => hc h.symm
      have ih := nextLine_gives rest eof fuel hrest
      have hafter : afterLine ⟨c :: rest, eof⟩ = afterLine ⟨rest, eof⟩ := by
        simp [afterLine, hc]
      rw [nextLine, hafter]
      simp only [getChar, ne_eq, Option.some.injEq, hc, not_false_eq_true, if_true]
      exact ih.imp_right fun h => ⟨Nat.succ_le_succ h.1, h.2⟩

theorem nextLine_settles {file : Stream} (h : '\n' ∈ file.rest) :
    Fuel.Settles .fuel (fun fuel => nextLine fuel file) (.ok (afterLine file)) :=
  Fuel.settles_of_gives fun fuel => nextLine_gives file.rest file.eof fuel h

/-- With no newline left the end of the file is read again and again. -/
theorem nextLine_endless : ∀ (fuel : ℕ) (rest : List Char) (eof : Bool), '\n' ∉ rest →
    nextLine fuel ⟨rest, eof⟩ = .error .fuel
  | 0, _, _, _ => rfl
  | fuel + 1, [], _, h => nextLine_endless fuel [] true h
  | fuel + 1, c :: rest, eof, h => by
    rw [List.mem_cons, not_or] at h
    have hc : ¬ c = '\n' := fun hc => h.1 hc.symm
    rw [nextLine]
    simp only [getChar, ne_eq, Option.some.injEq, hc, not_false_eq_true, if_true]
    exact nextLine_endless fuel rest eof h.2

/-- A line of the loader: the code, and the next line if there is no error. -/
def loadLine (files : Files) (fuel : ℕ) : Point size → Exec (ErrorCode × Point size)
  | .pgd s => do
    let (pgdFileName, file) ← scanFileName s.pgdFileName s.file
    let (read, memory) ← pageFileRead files pgdFileName s.memory 0
    if read ≠ .errNone then return (.errBadParameter, .pgd s)
    let file ← nextLine fuel file
    return (.errNone, .count { s with pgdFileName, file, memory })
  | .count s => do
    let (n, file) := scanInt s.file
    let file ← nextLine fuel file
    return (.errNone, .enter ((n.getD 0).signExtend 64).toNat { s with file })
  | .table more s => do
    let (err, t) ← loadTranslationPage files fuel s
    if err ≠ .errNone then return (err, .table more t)
    return (err, .enter more t)
  | .page s => do
    let (err, t) ← loadPageFile files fuel s
    return (err, .page t)

/-- The loops of the loader, from the translation pages on. -/
def loadTables (files : Files) (fuel : ℕ × ℕ) (n : ℕ) (s : Loader size) :
    Exec (ErrorCode × Memory size) := do
  let (err, s) ← loadTranslationPages files fuel.1 n s
  if err ≠ .errNone then return (err, s.memory)
  let (currChar, file) := scanChar s.currChar s.file
  let (err, s) ← loadPageFiles files fuel.1 fuel.2 { s with currChar, file }
  return (err, s.memory)

/-- The loader from a line on, with the fuel of `next_line` and of the loop over the page files. -/
def loadFrom (files : Files) (fuel : ℕ × ℕ) : Point size → Exec (ErrorCode × Memory size)
  | .pgd s => do
    let (pgdFileName, file) ← scanFileName s.pgdFileName s.file
    let (read, memory) ← pageFileRead files pgdFileName s.memory 0
    if read ≠ .errNone then return (.errBadParameter, memory)
    let file ← nextLine fuel.1 file
    let (n, file) := scanInt file
    let file ← nextLine fuel.1 file
    loadTables files fuel ((n.getD 0).signExtend 64).toNat { s with pgdFileName, file, memory }
  | .count s => do
    let (n, file) := scanInt s.file
    let file ← nextLine fuel.1 file
    loadTables files fuel ((n.getD 0).signExtend 64).toNat { s with file }
  | .table more s => loadTables files fuel (more + 1) s
  | .page s => do
    let (err, s) ← loadPageFiles files fuel.1 fuel.2 s
    return (err, s.memory)

theorem loadPages_eq (fuel : ℕ) (locals : Locals) (file : Stream) (memory : Memory size) :
    loadPages files fuel locals file memory
      = loadFrom files (fuel, fuel) (.pgd ⟨locals, file, memory⟩) := rfl

theorem loadFrom_enter (fuel : ℕ × ℕ) (n : ℕ) (s : Loader size) :
    loadFrom files fuel (.enter n s) = loadTables files fuel n s := by
  cases n with
  | zero => rfl
  | succ n => rfl

/-- What the loader does after a line. -/
def afterCall (rest : Point size → Exec (ErrorCode × Memory size)) (call : ErrorCode × Point size) :
    Exec (ErrorCode × Memory size) :=
  if call.1 ≠ .errNone then .ok (call.1, call.2.memory) else rest call.2

def copyPage (files : Files) (memory : Memory size) :
    Option (List Char × Word) → Exec (ErrorCode × Memory size)
  | none => .ok (.errNone, memory)
  | some (name, address) => pageFileRead files name memory address

theorem pageFileRead_of_not_isPage {name : List Char} (h : ¬ IsPage files name)
    (m : Memory size) (address : Word) :
    pageFileRead files name m address = .ok (.errIo, m) := by
  unfold pageFileRead
  rcases hfile : files name with _ | content
  · rfl
  · have hne : content.length ≠ 4096 := fun hlen => h ⟨content, hfile, hlen⟩
    simp only [if_pos hne]
    rfl

theorem pageFileRead_outside {name : List Char} {address : Word} (h : IsPage files name)
    (houtside : size < address.toNat + 4096) (m : Memory size) :
    pageFileRead files name m address = .error .memory := by
  obtain ⟨content, hfile, hlen⟩ := h
  have hread : m.readFile address.toNat content = .error .memory := if_neg (by omega)
  have hne : ¬ content.length ≠ 4096 := not_not_intro hlen
  simp only [pageFileRead, hfile, if_neg hne, hread]
  rfl

/-- A page file that is not read leaves the memory. -/
theorem pageFileRead_error {name : List Char} {m m' : Memory size} {address : Word}
    {err : ErrorCode} (h : pageFileRead files name m address = .ok (err, m'))
    (herr : err ≠ .errNone) : m' = m := by
  by_cases hfile : IsPage files name
  · by_cases hinside : address.toNat + 4096 ≤ size
    · rw [pageFileRead_page hfile hinside] at h
      cases h
      exact absurd rfl herr
    · rw [pageFileRead_outside hfile (not_le.1 hinside)] at h
      cases h
  · rw [pageFileRead_of_not_isPage hfile] at h
    cases h
    rfl

/-- A line that is read copies its page and is skipped to its end. -/
theorem Reads.loadLine_eq {p : Point size} {s : Loader size} {copy : Option (List Char × Word)}
    (h : Reads p s copy) (files : Files) (fuel : ℕ) : loadLine files fuel p
      = copyPage files s.memory copy >>= fun read =>
        if read.1 ≠ .errNone then .ok (.errBadParameter, p)
        else nextLine fuel s.file >>= fun file =>
          .ok (.errNone, p.next { s with file, memory := read.2 }) := by
  cases h with
  | pgd hname =>
    simp only [loadLine, hname]
    rfl
  | count s => rfl
  | @table more s n currChar file fileName after hnumber hname =>
    simp only [tableNumber] at hnumber
    simp only [loadLine, loadTranslationPage, hnumber, hname, copyPage, Exec.ok_bind]
    rcases pageFileRead files fileName s.memory _ with fault | ⟨read, memory⟩
    · rfl
    simp only [Exec.ok_bind]
    split_ifs with hread
    · rfl
    rcases nextLine fuel after with fault | file
    · rfl
    · rfl
  | @page s n currChar file fileName after paddr heof hnumber hname hwalk =>
    simp only [loadLine, loadPageFile, hnumber, hname, hwalk, copyPage, Exec.ok_bind, phyToUint32]
    rw [if_neg (not_not_intro rfl)]
    rcases pageFileRead files fileName s.memory _ with fault | ⟨read, memory⟩
    · rfl
    simp only [Exec.ok_bind]
    split_ifs with hread
    · rfl
    rcases nextLine fuel after with fault | file
    · rfl
    · rfl

theorem Fails.loadLine_eq {p : Point size} {err : ErrorCode} (h : Fails files p err) (fuel : ℕ) :
    err ≠ .errNone ∧ loadLine files fuel p = .ok (err, p) := by
  cases h with
  | @table more s hnumber =>
    simp only [tableNumber] at hnumber
    refine ⟨nofun, ?_⟩
    simp only [loadLine, loadTranslationPage, hnumber]
    rfl
  | page heof hnumber =>
    refine ⟨nofun, ?_⟩
    simp only [loadLine, loadPageFile, hnumber]
    rfl
  | @walk s n currChar file name err paddr heof hnumber hname hwalk herr =>
    refine ⟨nofun, ?_⟩
    simp only [loadLine, loadPageFile, hnumber, hname, hwalk, Exec.ok_bind, if_pos herr]
    rfl
  | @file p s name address hread hfile =>
    refine ⟨nofun, ?_⟩
    rw [hread.loadLine_eq, copyPage, pageFileRead_of_not_isPage hfile]
    rfl

theorem Faults.loadLine_eq {p : Point size} {fault : Fault} (h : Faults files p fault)
    (fuel : ℕ) : loadLine files fuel p = .error fault := by
  cases h with
  | name hat hname =>
    cases hat with
    | pgd =>
      simp only [loadLine, hname]
      rfl
    | table hnumber =>
      simp only [tableNumber] at hnumber
      simp only [loadLine, loadTranslationPage, hnumber, hname]
      rfl
    | page heof hnumber =>
      simp only [loadLine, loadPageFile, hnumber, hname]
      rfl
  | walk heof hnumber hname hwalk =>
    simp only [loadLine, loadPageFile, hnumber, hname, Exec.ok_bind, hwalk]
    rfl
  | outside hread hfile houtside =>
    rw [hread.loadLine_eq, copyPage, pageFileRead_outside hfile houtside]
    rfl

theorem copyPage_of_copies {copy : Option (List Char × Word)} (h : Copies files size copy)
    (m : Memory size) : copyPage files m copy = .ok (.errNone, copied files m copy) := by
  rcases copy with _ | ⟨name, address⟩
  · rfl
  · obtain ⟨hfile, hinside⟩ := h name address rfl
    exact pageFileRead_page hfile hinside m

theorem Endless.loadLine_eq {p : Point size} (h : Endless files p) (fuel : ℕ) :
    loadLine files fuel p = .error .fuel := by
  obtain ⟨hread, hcopy, hline⟩ := h
  rw [hread.loadLine_eq, copyPage_of_copies hcopy, Exec.ok_bind, if_neg (not_not_intro rfl),
    nextLine_endless fuel _ _ hline]
  rfl

theorem Step.loadLine_settles {p q : Point size} (h : Step files p q) :
    Fuel.Settles .fuel (fun fuel => loadLine files fuel p) (.ok (.errNone, q)) := by
  obtain ⟨hread, hcopy, hline⟩ := h
  simp only [hread.loadLine_eq, copyPage_of_copies hcopy, Exec.ok_bind]
  exact (nextLine_settles hline).bind (Fuel.settles_const ..)

theorem loadTables_succ (fuel : ℕ × ℕ) (n : ℕ) (s : Loader size) :
    loadTables files fuel (n + 1) s = loadTranslationPage files fuel.1 s >>= fun call =>
      if call.1 ≠ .errNone then .ok (call.1, call.2.memory)
      else loadTables files fuel n call.2 := by
  unfold loadTables
  rw [loadTranslationPages]
  rcases loadTranslationPage files fuel.1 s with fault | ⟨err, t⟩
  · rfl
  simp only [Exec.ok_bind]
  by_cases herr : err = .errNone
  · rw [if_neg (not_not_intro herr), if_neg (not_not_intro herr)]
  · rw [if_pos herr, if_pos herr, Exec.pure_eq, Exec.ok_bind]
    simp only [if_pos herr]
    rfl

/-- The loader from a line on is the line and then the loader from the next one on. Only the loop
over the page files takes fuel for a line. -/
theorem loadFrom_line {p : Point size} (h : ∀ s, p ≠ .page s) (fuel : ℕ × ℕ) :
    loadFrom files fuel p = loadLine files fuel.1 p >>= afterCall (loadFrom files fuel) := by
  cases p with
  | pgd s =>
    simp only [loadFrom, loadLine]
    rcases scanFileName s.pgdFileName s.file with fault | ⟨pgdFileName, file⟩
    · rfl
    rcases hread : pageFileRead files pgdFileName s.memory 0 with fault | ⟨read, memory⟩
    · simp only [Exec.ok_bind, hread]
      rfl
    simp only [Exec.ok_bind, hread]
    by_cases herr : read = .errNone
    · rw [if_neg (not_not_intro herr), if_neg (not_not_intro herr)]
      rcases nextLine fuel.1 file with fault | file
      · rfl
      · rfl
    · rw [if_pos herr, if_pos herr, pageFileRead_error hread herr]
      rfl
  | count s =>
    simp only [loadFrom, loadLine]
    rcases nextLine fuel.1 (scanInt s.file).2 with fault | file
    · rfl
    · exact (loadFrom_enter fuel _ _).symm
  | table more s =>
    simp only [loadFrom, loadLine, loadTables_succ]
    rcases loadTranslationPage files fuel.1 s with fault | ⟨err, t⟩
    · rfl
    simp only [Exec.ok_bind]
    by_cases herr : err = .errNone
    · rw [if_neg (not_not_intro herr), if_neg (not_not_intro herr), ← loadFrom_enter, herr]
      rfl
    · rw [if_pos herr, if_pos herr, Exec.pure_eq, Exec.ok_bind, afterCall, if_pos herr]
      rfl
  | page s => exact absurd rfl (h s)

theorem loadFrom_page (fuel rounds : ℕ) {s : Loader size} (h : s.file.eof = false) :
    loadFrom files (fuel, rounds + 1) (.page s)
      = loadLine files fuel (.page s) >>= afterCall (loadFrom files (fuel, rounds)) := by
  have heof : ¬ s.file.eof = true := by simp [h]
  simp only [loadFrom, loadLine, loadPageFiles, if_neg heof]
  rcases loadPageFile files fuel s with fault | ⟨err, t⟩
  · rfl
  simp only [Exec.ok_bind]
  by_cases herr : err = .errNone
  · rw [if_neg (not_not_intro herr), herr]
    rfl
  · rw [if_pos herr]
    simp only [Exec.pure_eq, Exec.ok_bind, afterCall, if_pos herr]
    rfl

/-- What the loader comes to from a line that is not past the end of the text. -/
theorem loadFrom_settles {p : Point size} (hdone : ¬ Done p) {line : Exec (ErrorCode × Point size)}
    {outcome : Exec (ErrorCode × Memory size)}
    (hline : Fuel.Settles .fuel (fun fuel => loadLine files fuel p) line)
    (hrest : Fuel.Settles .fuel (fun fuel => line >>= afterCall (loadFrom files fuel)) outcome) :
    Fuel.Settles .fuel (fun fuel => loadFrom files fuel p) outcome := by
  have hboth : Fuel.Settles .fuel (fun fuel : ℕ × ℕ =>
      loadLine files fuel.1 p >>= afterCall (loadFrom files fuel)) outcome :=
    hline.fst.bind hrest
  by_cases hp : ∃ s, p = .page s
  · obtain ⟨s, rfl⟩ := hp
    have heof : s.file.eof = false := Bool.eq_false_iff.2 fun h => hdone (.page h)
    exact hboth.succ (fun n => rfl) fun n m => loadFrom_page n m heof
  · rw [not_exists] at hp
    simp only [loadFrom_line hp]
    exact hboth

end Lines

section Stops

variable {p q : Point size} {outcome : Exec (ErrorCode × Memory size)}

theorem Stops.settles (h : Stops files p outcome) :
    Fuel.Settles .fuel (fun fuel => loadFrom files fuel p) outcome := by
  cases h with
  | done h =>
    obtain ⟨heof⟩ := h
    refine (Fuel.settles_const _ _).succ (fun n => rfl) fun n m => ?_
    simp only [loadFrom, loadPageFiles, if_pos heof]
    rfl
  | fails h =>
    refine loadFrom_settles h.not_done (Fuel.settles_of_eq fun fuel => (h.loadLine_eq fuel).2) ?_
    simp only [Exec.ok_bind, afterCall, if_pos (h.loadLine_eq 0).1]
    exact Fuel.settles_const ..
  | faults h =>
    exact loadFrom_settles h.not_done (Fuel.settles_of_eq h.loadLine_eq) (Fuel.settles_const ..)
  | endless h =>
    have hline := h.loadLine_eq
    obtain ⟨hread, -, -⟩ := h
    exact loadFrom_settles hread.not_done (Fuel.settles_of_eq hline) (Fuel.settles_const ..)

/-- The loader comes to the same from a line as from the next one. -/
theorem Step.settles (h : Step files p q)
    (hq : Fuel.Settles .fuel (fun fuel => loadFrom files fuel q) outcome) :
    Fuel.Settles .fuel (fun fuel => loadFrom files fuel p) outcome :=
  loadFrom_settles h.not_done h.loadLine_settles hq

theorem Reaches.settles (h : Reaches files p q)
    (hq : Fuel.Settles .fuel (fun fuel => loadFrom files fuel q) outcome) :
    Fuel.Settles .fuel (fun fuel => loadFrom files fuel p) outcome := by
  induction h using Relation.ReflTransGen.head_induction_on with
  | refl => exact hq
  | head hstep _ ih => exact hstep.settles ih

end Stops

end KabyLake
