import KabyLake.Proofs.LoaderEnds

/-!
# Where the loader writes

A run of the loader passes from line to line, each of them a `loadLine` of `loadFrom`, and the line
it is at calls `page_file_read` at most once (`Passes`, `pageCall`). Nothing compares the target
with the capacity, so every page lies inside the memory exactly if there is room at each line
reached (`copiesPage_inside_iff`): for page 0, at the offset written there, or at the frame the
address written there walks to; and for the name in its buffer and the entries of the walk, as
nothing is defined after a line that overruns these.
-/

namespace KabyLake

open Scanf

variable {size : ℕ} {files : Files} {p q : Point size}

/-- A run goes on from one line to another. -/
def Passes (files : Files) (fuel : ℕ) (p q : Point size) : Prop :=
  ¬ Done p ∧ loadLine files fuel p = .ok (.errNone, q)

/-- The name and the target of the call of `page_file_read` at a line, if there is one. -/
def pageCall : Point size → Exec (Option (List Char × Word))
  | .pgd s => do
    let (pgdFileName, _) ← scanFileName s.pgdFileName s.file
    return some (pgdFileName, 0)
  | .count _ => return none
  | .table _ s => do
    match tableNumber s with
    | none => return none
    | some (n, _, file) =>
      let (fileName, _) ← scanFileName s.fileName file
      return some (fileName, (n.map (·.setWidth 32)).getD s.addr)
  | .page s => do
    if s.file.eof then return none
    match scanAddress 16 s.currChar s.file with
    | none => return none
    | some (n, _, file) =>
      let (fileName, _) ← scanFileName s.fileName file
      let (pwalk, paddr) ← pageWalk s.memory (initVirtAddr64 (n.getD s.vaddr64)) s.paddr
      if pwalk ≠ .errNone then return none
      return some (fileName, (paddr.phyPageNum.setWidth 32 <<< 12) ||| paddr.pageOffset.setWidth 32)

/-- A run of `mem_init_from_description` copies a page to an address of a memory of that
capacity. -/
inductive CopiesPage (calloc : ℕ → Bool) (files : Files) (fuel : ℕ) (locals : Locals)
    (masterFilename : List Char) (memCapacityInBytes : BitVec 64) : ℕ → Word → Prop
  | line {content : List Byte} {file : Stream} {capacity : ℕ} {q : Point capacity}
      {name : List Char} {address : Word} (hopen : files masterFilename = some content)
      (hcapacity : capacity = capacityOf content memCapacityInBytes)
      (hnext : nextLine fuel (afterCapacity content) = .ok file)
      (hblock : calloc capacity = true)
      (hrun : Relation.ReflTransGen (Passes files fuel) (.pgd ⟨locals, file, fun _ => 0⟩) q)
      (hcall : pageCall q = .ok (some (name, address))) (hfile : IsPage files name) :
      CopiesPage calloc files fuel locals masterFilename memCapacityInBytes capacity address

/-- Every page a run copies is inside the capacity, and no run leaves a buffer or the memory. -/
def WritesInside (calloc : ℕ → Bool) (files : Files) (locals : Locals) (masterFilename : List Char)
    (memCapacityInBytes : BitVec 64) : Prop :=
  ∀ fuel, (∀ capacity address, CopiesPage calloc files fuel locals masterFilename memCapacityInBytes
      capacity address → address.toNat + 4096 ≤ capacity)
    ∧ ∀ fault, memInitFromDescription calloc files fuel locals masterFilename memCapacityInBytes
      = .error fault → fault = .fuel

/-- A line whose page does not fit: page 0, the offset of a translation page, or the frame of a page
file with the offset in it. Or its name does not fit in the buffer, or its walk reads an entry
outside the memory. -/
inductive NoRoom (files : Files) : Point size → Prop
  | name {p : Point size} {name : List Char} {file : Stream} {word : List Char} {after : Stream}
      (hat : NameAt p name file) (hword : scanString file = (some word, after))
      (hlong : 128 ≤ word.length) : NoRoom files p
  | walk {s : Loader size} {n : Option (BitVec 64)} {currChar : Char} {file : Stream}
      {name : List Char × Stream} (heof : s.file.eof = false)
      (hnumber : scanAddress 16 s.currChar s.file = some (n, currChar, file))
      (hname : scanFileName s.fileName file = .ok name)
      (hwalk : walkFrame s.memory (initVirtAddr64 (n.getD s.vaddr64)) = .error .memory) :
      NoRoom files (.page s)
  | pgd {s : Loader size} {name : List Char} {file : Stream}
      (hname : scanFileName s.pgdFileName s.file = .ok (name, file)) (hfile : IsPage files name)
      (hsize : size < 4096) : NoRoom files (.pgd s)
  | table {more : ℕ} {s : Loader size} {n : Option (BitVec 64)} {currChar : Char} {file : Stream}
      {name : List Char} {after : Stream} (hnumber : tableNumber s = some (n, currChar, file))
      (hname : scanFileName s.fileName file = .ok (name, after)) (hfile : IsPage files name)
      (hsize : size < ((n.map (·.setWidth 32)).getD s.addr).toNat + 4096) :
      NoRoom files (.table more s)
  | page {s : Loader size} {n : Option (BitVec 64)} {currChar : Char} {file : Stream}
      {name : List Char} {after : Stream} {frame : BitVec 20} (heof : s.file.eof = false)
      (hnumber : scanAddress 16 s.currChar s.file = some (n, currChar, file))
      (hname : scanFileName s.fileName file = .ok (name, after)) (hfile : IsPage files name)
      (hwalk : walkFrame s.memory (initVirtAddr64 (n.getD s.vaddr64)) = .ok (some frame))
      (hsize : size < frame.toNat * 4096
        + (initVirtAddr64 (n.getD s.vaddr64)).pageOffset.toNat + 4096) : NoRoom files (.page s)

theorem passes_iff_step : (∃ fuel, Passes files fuel p q) ↔ Step files p q := by
  constructor
  · rintro ⟨fuel, hdone, hline⟩
    rcases step_or_stops files p with ⟨q', hstep⟩ | ⟨_, h | h | h | h⟩
    · cases hstep.loadLine_settles.eq_of_ok hline
      exact hstep
    · exact absurd h hdone
    · obtain ⟨herr, hfails⟩ := h.loadLine_eq fuel
      rw [hfails] at hline
      cases hline
      exact absurd rfl herr
    · rw [h.loadLine_eq] at hline
      cases hline
    · rw [h.loadLine_eq] at hline
      cases hline
  · intro h
    obtain ⟨fuel, hline⟩ := h.loadLine_settles.exists_ok_iff.2 rfl
    exact ⟨fuel, h.not_done, hline⟩

theorem reaches_of_passes {fuel : ℕ} (h : Relation.ReflTransGen (Passes files fuel) p q) :
    Reaches files p q :=
  Relation.ReflTransGen.mono (fun _ _ h => passes_iff_step.1 ⟨fuel, h⟩) _ _ h

/-- The call at a line is that of the page the line names. -/
theorem pageCall_iff {name : List Char} {address : Word} :
    pageCall q = .ok (some (name, address)) ↔ ∃ s, Reads q s (some (name, address)) := by
  constructor
  · intro h
    cases q with
    | pgd s =>
      obtain ⟨⟨pgdFileName, file⟩, hname, h⟩ := Exec.bind_eq_ok h
      cases h
      exact ⟨_, .pgd hname⟩
    | count s => cases h
    | table more s =>
      rcases hnumber : tableNumber s with _ | ⟨n, currChar, file⟩ <;>
        simp only [pageCall, hnumber] at h
      · cases h
      obtain ⟨⟨fileName, after⟩, hname, h⟩ := Exec.bind_eq_ok h
      cases h
      exact ⟨_, .table hnumber hname⟩
    | page s =>
      simp only [pageCall] at h
      rcases heof : s.file.eof with _ | _ <;> simp only [heof] at h
      · rcases hnumber : scanAddress 16 s.currChar s.file with _ | ⟨n, currChar, file⟩ <;>
          simp only [hnumber] at h
        · cases h
        obtain ⟨⟨fileName, after⟩, hname, h⟩ := Exec.bind_eq_ok h
        obtain ⟨⟨pwalk, paddr⟩, hwalk, h⟩ := Exec.bind_eq_ok h
        simp only at h
        split_ifs at h with herr
        · cases h
        · rw [not_not.1 herr] at hwalk
          cases h
          exact ⟨_, .page heof hnumber hname hwalk⟩
      · cases h
  · rintro ⟨s, h⟩
    cases h with
    | pgd hname => simp only [pageCall, hname]; rfl
    | table hnumber hname =>
      simp only [pageCall, hnumber, hname]
      rfl
    | page heof hnumber hname hwalk =>
      simp only [pageCall, heof, hnumber, hname, hwalk]
      rfl

theorem scanFileName_error_iff {name : List Char} {file : Stream} :
    (∃ fault, scanFileName name file = .error fault)
      ↔ ∃ word after, scanString file = (some word, after) ∧ 128 ≤ word.length := by
  unfold scanFileName
  rcases scanString file with ⟨_ | word, after⟩
  · simp
  · by_cases hlong : word.length < 128
    · simp [hlong]
    · simp [hlong, not_lt.1 hlong]

theorem pageWalk_error_iff {m : Memory size} {vaddr : VirtAddr} {paddr : PhyAddr} :
    (∃ fault, pageWalk m vaddr paddr = .error fault) ↔ walkFrame m vaddr = .error .memory := by
  constructor
  · rintro ⟨fault, h⟩
    obtain rfl := pageWalk_error h
    rw [pageWalk_eq] at h
    rcases hwalk : walkFrame m vaddr with e | frame
    · rw [hwalk] at h
      cases h
      rfl
    · rw [hwalk] at h
      cases h
  · intro h
    rw [pageWalk_eq, h]
    exact ⟨.memory, rfl⟩

/-- There is no room at a line exactly if what it does is not defined. -/
theorem noRoom_iff : NoRoom files q ↔ ∃ fault, Faults files q fault := by
  constructor
  · intro h
    cases h with
    | name hat hword hlong =>
      obtain ⟨fault, hname⟩ := scanFileName_error_iff.2 ⟨_, _, hword, hlong⟩
      exact ⟨fault, .name hat hname⟩
    | @walk s n currChar file name heof hnumber hname hwalk =>
      obtain ⟨fault, hpage⟩ := pageWalk_error_iff.2 hwalk
      exact ⟨fault, .walk heof hnumber hname hpage⟩
    | pgd hname hfile hsize => exact ⟨_, .outside (.pgd hname) hfile (by simpa using hsize)⟩
    | table hnumber hname hfile hsize => exact ⟨_, .outside (.table hnumber hname) hfile hsize⟩
    | @page s n currChar file name after frame heof hnumber hname hfile hwalk hsize =>
      have hpage : pageWalk s.memory (initVirtAddr64 (n.getD s.vaddr64)) s.paddr
          = .ok (.errNone, ⟨frame, (initVirtAddr64 (n.getD s.vaddr64)).pageOffset⟩) :=
        (pageWalk_errNone_iff _ _ _ _).2 ⟨hwalk, rfl⟩
      refine ⟨_, .outside (.page heof hnumber hname hpage) hfile ?_⟩
      rw [phyToUint32_toNat]
      exact hsize
  · rintro ⟨fault, h⟩
    cases h with
    | name hat hname =>
      obtain ⟨word, after, hword, hlong⟩ := scanFileName_error_iff.1 ⟨_, hname⟩
      exact .name hat hword hlong
    | walk heof hnumber hname hwalk =>
      exact .walk heof hnumber hname (pageWalk_error_iff.1 ⟨_, hwalk⟩)
    | outside hread hfile hsize =>
      cases hread with
      | pgd hname => exact .pgd hname hfile (by simpa using hsize)
      | table hnumber hname => exact .table hnumber hname hfile hsize
      | page heof hnumber hname hwalk =>
        obtain ⟨hframe, hoffset⟩ := (pageWalk_errNone_iff _ _ _ _).1 hwalk
        rw [phyToUint32_toNat, PhyAddr.addr, hoffset] at hsize
        exact .page heof hnumber hname hfile hframe hsize

/-- Every page of a run of `mem_init_from_description` is copied to inside its memory, and no run
leaves a buffer or the memory, exactly if there is room at each line the loader reaches. -/
theorem copiesPage_inside_iff (calloc : ℕ → Bool) (files : Files) (locals : Locals)
    (masterFilename : List Char) (memCapacityInBytes : BitVec 64) :
    WritesInside calloc files locals masterFilename memCapacityInBytes
      ↔ AtEachLine calloc files locals masterFilename memCapacityInBytes fun q =>
        ¬ NoRoom files q := by
  constructor
  · intro hinside content hopen hline hblock q hreach hroom
    obtain ⟨fault, hfaults⟩ := noRoom_iff.1 hroom
    exact (description_defined_iff calloc files locals masterFilename memCapacityInBytes).1
      (fun fuel => (hinside fuel).2) content hopen hline hblock q hreach fault hfaults
  · refine fun hroom fuel => ⟨?_, ?_⟩
    · rintro capacity address
        (@⟨content, file, _, q, name, _, hopen, rfl, hnext, hblock, hrun, hcall, hfile⟩)
      have hline : '\n' ∈ (afterCapacity content).rest := by
        by_contra hline
        rw [nextLine_endless fuel _ _ hline] at hnext
        cases hnext
      cases (nextLine_settles hline).eq_of_ok hnext
      by_contra hsize
      obtain ⟨s, hread⟩ := pageCall_iff.1 hcall
      exact hroom _ hopen hline hblock _ (reaches_of_passes hrun)
        (noRoom_iff.2 ⟨_, .outside hread hfile (not_le.1 hsize)⟩)
    · exact (description_defined_iff calloc files locals masterFilename memCapacityInBytes).2
        (fun content hopen hline hblock q hreach fault hfaults =>
          hroom content hopen hline hblock q hreach (noRoom_iff.2 ⟨fault, hfaults⟩)) fuel

/-- A page file for a memory of 16 bytes. -/
theorem copiesPage_outside : ¬ ∀ fuel capacity address, CopiesPage (fun _ => true)
    (fun name => some (if name = ['m'] then
      "16\ng\n".toList.map fun c => BitVec.ofNat 8 c.toNat else List.replicate 4096 0))
    fuel ⟨[], '0', [], 0, 0, ⟨0, 0⟩⟩ ['m'] 0 capacity address →
      address.toNat + 4096 ≤ capacity := by
  intro h
  have hcopy := h 1 16 0 (.line rfl (by decide) rfl rfl .refl rfl ⟨_, rfl, List.length_replicate⟩)
  exact absurd hcopy (by decide)

end KabyLake
