import KabyLake.Proofs.LoaderSteps
import KabyLake.Proofs.Walk

/-!
# How loading ends

`mem_init_from_description` returns unless its first line has no newline, or the line where it stops
is one with no newline left or one that the language leaves undefined
(`memInitFromDescription_returns_iff`). It leaves the memory to its caller whatever that line is, so
an error comes with a memory when the line is refused, and nothing is defined from a line on that
leaves a buffer or the memory. A dump comes with a memory when its file cannot be closed
(`failedLoad_null_iff`).
-/

namespace KabyLake

open Scanf

variable {calloc : ℕ → Bool} {files : Files} {locals : Locals} {masterFilename : List Char}
  {memCapacityInBytes : BitVec 64} {content : List Byte}

/-- The capacity of the first line, or what there was. -/
def capacityOf (content : List Byte) (memCapacityInBytes : BitVec 64) : ℕ :=
  ((scanSize ⟨textOf content, false⟩).1.getD memCapacityInBytes).toNat

/-- What follows the number of the first line. -/
def afterCapacity (content : List Byte) : Stream := (scanSize ⟨textOf content, false⟩).2

/-- The loader at the second line, with the memory it has allocated. -/
def secondLine (content : List Byte) (locals : Locals) (size : ℕ) : Point size :=
  .pgd ⟨locals, afterLine (afterCapacity content), fun _ => 0⟩

/-- If the file opens, its first line ends and a block is found, `P` holds of each line the loader
reaches from the second one on. -/
def AtEachLine (calloc : ℕ → Bool) (files : Files) (locals : Locals) (masterFilename : List Char)
    (memCapacityInBytes : BitVec 64) (P : ∀ {size : ℕ}, Point size → Prop) : Prop :=
  ∀ content, files masterFilename = some content → '\n' ∈ (afterCapacity content).rest →
    calloc (capacityOf content memCapacityInBytes) = true →
    ∀ q, Reaches files (secondLine content locals (capacityOf content memCapacityInBytes)) q → P q

/-- With an error `*memory` is null; and what the call does is defined, unless it never ends. -/
def NullOnError (call : Exec LoadResult) : Prop :=
  (∀ r, call = .ok r → r.err ≠ .errNone → r.memory = none)
    ∧ ∀ fault, call = .error fault → fault = .fuel

/-- How the loading of a description ends: the file cannot be opened, its first line has no newline,
no block is found, or the loader stops at a line. -/
inductive LoadEnds (calloc : ℕ → Bool) (files : Files) (locals : Locals)
    (masterFilename : List Char) (memCapacityInBytes : BitVec 64) : Exec LoadResult → Prop
  | closed (h : files masterFilename = none) :
      LoadEnds calloc files locals masterFilename memCapacityInBytes
        (.ok ⟨.errIo, memCapacityInBytes.toNat, none⟩)
  | endless {content : List Byte} (hopen : files masterFilename = some content)
      (hline : '\n' ∉ (afterCapacity content).rest) :
      LoadEnds calloc files locals masterFilename memCapacityInBytes (.error .fuel)
  | noBlock {content : List Byte} (hopen : files masterFilename = some content)
      (hline : '\n' ∈ (afterCapacity content).rest)
      (hblock : calloc (capacityOf content memCapacityInBytes) = false) :
      LoadEnds calloc files locals masterFilename memCapacityInBytes
        (.ok ⟨.errBadParameter, capacityOf content memCapacityInBytes, none⟩)
  | stops {content : List Byte} {q : Point (capacityOf content memCapacityInBytes)}
      {outcome : Exec (ErrorCode × Memory (capacityOf content memCapacityInBytes))}
      (hopen : files masterFilename = some content) (hline : '\n' ∈ (afterCapacity content).rest)
      (hblock : calloc (capacityOf content memCapacityInBytes) = true)
      (hreach : Reaches files
        (secondLine content locals (capacityOf content memCapacityInBytes)) q)
      (hstops : Stops files q outcome) :
      LoadEnds calloc files locals masterFilename memCapacityInBytes
        (outcome.map fun r => ⟨r.1, capacityOf content memCapacityInBytes, some r.2⟩)

theorem LoadEnds.settles {outcome : Exec LoadResult}
    (h : LoadEnds calloc files locals masterFilename memCapacityInBytes outcome) :
    Fuel.Settles .fuel (fun fuel => memInitFromDescription calloc files fuel locals masterFilename
      memCapacityInBytes) outcome := by
  unfold memInitFromDescription
  cases h with
  | closed h =>
    simp only [h]
    exact Fuel.settles_const ..
  | endless hopen hline =>
    refine Fuel.settles_of_eq fun fuel => ?_
    have hnext : nextLine fuel (scanSize ⟨textOf _, false⟩).2 = .error .fuel :=
      nextLine_endless fuel _ _ hline
    simp only [hopen, hnext]
    rfl
  | noBlock hopen hline hblock =>
    simp only [hopen]
    refine (nextLine_settles hline).bind ?_
    unfold capacityOf at hblock
    simp only [Exec.ok_bind, hblock, Bool.not_false, if_true]
    exact Fuel.settles_const ..
  | @stops content q outcome hopen hline hblock hreach hstops =>
    simp only [hopen, loadPages_eq]
    refine (nextLine_settles hline).bind ?_
    unfold capacityOf at hblock
    simp only [Exec.ok_bind, hblock, Bool.not_true, Bool.false_eq_true, if_false]
    refine (hreach.settles hstops.settles).diag.bind ?_
    rcases outcome with fault | r
    · exact Fuel.settles_const ..
    · exact Fuel.settles_const ..

theorem exists_loadEnds (calloc : ℕ → Bool) (files : Files) (locals : Locals)
    (masterFilename : List Char) (memCapacityInBytes : BitVec 64) :
    ∃ outcome, LoadEnds calloc files locals masterFilename memCapacityInBytes outcome := by
  rcases hopen : files masterFilename with _ | content
  · exact ⟨_, .closed hopen⟩
  by_cases hline : '\n' ∈ (afterCapacity content).rest
  · rcases hblock : calloc (capacityOf content memCapacityInBytes) with _ | _
    · exact ⟨_, .noBlock hopen hline hblock⟩
    · obtain ⟨q, outcome, hreach, hstops⟩ := ends files
        (secondLine content locals (capacityOf content memCapacityInBytes))
      exact ⟨_, .stops hopen hline hblock hreach hstops⟩
  · exact ⟨_, .endless hopen hline⟩

/-- `mem_init_from_description` returns exactly if the first line ends and the loader does not reach
a line with no newline after it, nor one whose name, walk or page is outside its buffer or the
memory. -/
theorem memInitFromDescription_returns_iff (calloc : ℕ → Bool) (files : Files) (locals : Locals)
    (masterFilename : List Char) (memCapacityInBytes : BitVec 64) :
    (∃ fuel r, memInitFromDescription calloc files fuel locals masterFilename memCapacityInBytes
        = .ok r)
      ↔ (∀ content, files masterFilename = some content → '\n' ∈ (afterCapacity content).rest)
        ∧ AtEachLine calloc files locals masterFilename memCapacityInBytes fun q =>
          ¬ Endless files q ∧ ∀ fault, ¬ Faults files q fault := by
  constructor
  · rintro ⟨fuel, r, hr⟩
    refine ⟨fun content hopen => ?_, fun content hopen hline hblock q hreach => ⟨fun h => ?_, ?_⟩⟩
    · by_contra hline
      cases (LoadEnds.endless hopen hline).settles.eq_of_ok hr
    · cases (LoadEnds.stops hopen hline hblock hreach (.endless h)).settles.eq_of_ok hr
    · intro fault h
      cases (LoadEnds.stops hopen hline hblock hreach (.faults h)).settles.eq_of_ok hr
  · rintro ⟨hfirst, hlines⟩
    obtain ⟨outcome, hends⟩ :=
      exists_loadEnds calloc files locals masterFilename memCapacityInBytes
    suffices hok : ∃ r, outcome = .ok r by
      obtain ⟨r, rfl⟩ := hok
      obtain ⟨fuel, hr⟩ := hends.settles.exists_ok_iff.2 rfl
      exact ⟨fuel, r, hr⟩
    cases hends with
    | closed h => exact ⟨_, rfl⟩
    | endless hopen hline => exact absurd (hfirst _ hopen) hline
    | noBlock hopen hline hblock => exact ⟨_, rfl⟩
    | stops hopen hline hblock hreach hstops =>
      obtain ⟨hendless, hfaults⟩ := hlines _ hopen hline hblock _ hreach
      cases hstops with
      | done h => exact ⟨_, rfl⟩
      | fails h => exact ⟨_, rfl⟩
      | faults h => exact absurd h (hfaults _)
      | endless h => exact absurd h hendless

/-- A description that lacks only the newline at its end. -/
def noLastNewline : Files := fun name => some (if name = ['m'] then
  "4096\ng\n0".toList.map fun c => BitVec.ofNat 8 c.toNat else List.replicate 4096 0)

theorem memInitFromDescription_hangs_noLastNewline : ¬ ∃ fuel r, memInitFromDescription
    (fun _ => true) noLastNewline fuel ⟨[], '0', [], 0, 0, ⟨0, 0⟩⟩ ['m'] 0 = .ok r := by
  rintro ⟨fuel, r, hr⟩
  have hsize : capacityOf (contentOf noLastNewline ['m']) 0 = 4096 := by decide
  have hsecond : afterLine (afterCapacity (contentOf noLastNewline ['m']))
      = ⟨['g', '\n', '0'], false⟩ := by decide
  have hreads : Reads (secondLine (contentOf noLastNewline ['m']) ⟨[], '0', [], 0, 0, ⟨0, 0⟩⟩
        (capacityOf (contentOf noLastNewline ['m']) 0))
      ⟨⟨['g'], '0', [], 0, 0, ⟨0, 0⟩⟩, ⟨['\n', '0'], false⟩, fun _ => 0⟩ (some (['g'], 0)) := by
    unfold secondLine
    rw [hsecond]
    exact .pgd rfl
  have hpage : Copies noLastNewline (capacityOf (contentOf noLastNewline ['m']) 0)
      (some (['g'], 0)) := by
    rintro _ _ ⟨⟩
    exact ⟨⟨_, rfl, List.length_replicate⟩, hsize.ge⟩
  have hstep := Step.line hreads hpage (by decide)
  cases (LoadEnds.stops rfl (by decide) rfl (.single hstep)
    (.endless (.line (.count _) nofun (by decide)))).settles.eq_of_ok hr

/-- What a line does that is not defined is not that it never ends. -/
theorem Faults.ne_fuel {size : ℕ} {q : Point size} {fault : Fault} (h : Faults files q fault) :
    fault ≠ .fuel := by
  cases h with
  | name hat hname =>
    unfold scanFileName at hname
    split at hname
    · cases hname
    · split_ifs at hname
      cases hname
      decide
  | walk heof hnumber hname hwalk =>
    rw [pageWalk_error hwalk]
    decide
  | outside hread hfile houtside => decide

/-- The loader stays in its buffers and the memory exactly if each line that it reaches does. -/
theorem description_defined_iff (calloc : ℕ → Bool) (files : Files) (locals : Locals)
    (masterFilename : List Char) (memCapacityInBytes : BitVec 64) :
    (∀ fuel fault, memInitFromDescription calloc files fuel locals masterFilename memCapacityInBytes
        = .error fault → fault = .fuel)
      ↔ AtEachLine calloc files locals masterFilename memCapacityInBytes fun q =>
        ∀ fault, ¬ Faults files q fault := by
  constructor
  · intro hdefined content hopen hline hblock q hreach fault h
    obtain ⟨fuel, hr⟩ :=
      (LoadEnds.stops hopen hline hblock hreach (.faults h)).settles.exists_error
    exact h.ne_fuel (hdefined fuel fault hr)
  · intro hlines fuel fault hr
    by_contra hfuel
    obtain ⟨outcome, hends⟩ :=
      exists_loadEnds calloc files locals masterFilename memCapacityInBytes
    have herror := hends.settles.eq_of_error hfuel hr
    cases hends with
    | closed h => cases herror
    | endless hopen hline =>
      cases herror
      exact hfuel rfl
    | noBlock hopen hline hblock => cases herror
    | stops hopen hline hblock hreach hstops =>
      cases hstops with
      | done h => cases herror
      | fails h => cases herror
      | faults h => exact hlines _ hopen hline hblock _ hreach _ h
      | endless h =>
        cases herror
        exact hfuel rfl

theorem description_errors_iff (calloc : ℕ → Bool) (files : Files) (locals : Locals)
    (masterFilename : List Char) (memCapacityInBytes : BitVec 64) :
    (∀ fuel r, memInitFromDescription calloc files fuel locals masterFilename memCapacityInBytes
        = .ok r → r.err ≠ .errNone → r.memory = none)
      ↔ AtEachLine calloc files locals masterFilename memCapacityInBytes fun q =>
        ∀ err, ¬ Fails files q err := by
  constructor
  · intro hnull content hopen hline hblock q hreach err hfails
    obtain ⟨fuel, hr⟩ :=
      (LoadEnds.stops hopen hline hblock hreach (.fails hfails)).settles.exists_ok_iff.2 rfl
    cases hnull fuel _ hr (hfails.loadLine_eq 0).1
  · intro hlines fuel r hr herr
    obtain ⟨outcome, hends⟩ :=
      exists_loadEnds calloc files locals masterFilename memCapacityInBytes
    have hok := hends.settles.eq_of_ok hr
    cases hends with
    | closed h =>
      cases hok
      rfl
    | endless hopen hline => cases hok
    | noBlock hopen hline hblock =>
      cases hok
      rfl
    | stops hopen hline hblock hreach hstops =>
      cases hstops with
      | done h =>
        cases hok
        exact absurd rfl herr
      | fails h => exact absurd h (hlines _ hopen hline hblock _ hreach _)
      | faults h => cases hok
      | endless h => cases hok

theorem description_null_iff (calloc : ℕ → Bool) (files : Files) (locals : Locals)
    (masterFilename : List Char) (memCapacityInBytes : BitVec 64) :
    (∀ fuel, NullOnError
        (memInitFromDescription calloc files fuel locals masterFilename memCapacityInBytes))
      ↔ AtEachLine calloc files locals masterFilename memCapacityInBytes fun q =>
        (∀ err, ¬ Fails files q err) ∧ ∀ fault, ¬ Faults files q fault := by
  unfold NullOnError
  rw [forall_and, description_errors_iff, description_defined_iff]
  constructor
  · rintro ⟨hfails, hfaults⟩ content hopen hline hblock q hreach
    exact ⟨hfails content hopen hline hblock q hreach, hfaults content hopen hline hblock q hreach⟩
  · intro h
    exact ⟨fun content hopen hline hblock q hreach => (h content hopen hline hblock q hreach).1,
      fun content hopen hline hblock q hreach => (h content hopen hline hblock q hreach).2⟩

theorem dumpfile_null_iff (calloc : ℕ → Bool) (files : Files) (seek close : ℤ)
    (filename : List Char) (memCapacityInBytes : BitVec 64) :
    NullOnError (memInitFromDumpfile calloc files seek close filename memCapacityInBytes)
      ↔ ∀ content, files filename = some content → seek = 0 → calloc content.length = true →
        close = 0 := by
  unfold NullOnError memInitFromDumpfile
  rcases files filename with _ | content
  · refine iff_of_true ⟨?_, nofun⟩ nofun
    rintro _ ⟨⟩ -
    rfl
  simp only [Memory.readFile_whole, Option.some.injEq, forall_eq']
  by_cases hseek : seek = 0
  · rcases hblock : calloc content.length with _ | _
    · simp [hseek]
    · by_cases hclose : close = 0
      · simp [hseek, hclose]
      · simp [hseek, hclose]
  · simp [hseek]

/-- An error of `mem_init_from_description` comes with no memory exactly if no line that the loader
reaches is refused or leaves a buffer or the memory, and one of `mem_init_from_dumpfile` unless the
file is read and then cannot be closed. -/
theorem failedLoad_null_iff (calloc : ℕ → Bool) (files : Files) (locals : Locals)
    (filename : List Char) (seek close : ℤ) (memCapacityInBytes : BitVec 64) :
    ((∀ fuel, NullOnError
        (memInitFromDescription calloc files fuel locals filename memCapacityInBytes))
      ↔ AtEachLine calloc files locals filename memCapacityInBytes fun q =>
        (∀ err, ¬ Fails files q err) ∧ ∀ fault, ¬ Faults files q fault)
    ∧ (NullOnError (memInitFromDumpfile calloc files seek close filename memCapacityInBytes)
      ↔ ∀ content, files filename = some content → seek = 0 → calloc content.length = true →
        close = 0) :=
  ⟨description_null_iff calloc files locals filename memCapacityInBytes,
    dumpfile_null_iff calloc files seek close filename memCapacityInBytes⟩

/-- The file of the second line is not there. -/
theorem failedLoad_keeps_memory : ¬ ∀ fuel, NullOnError (memInitFromDescription (fun _ => true)
    (fun name => if name = ['m'] then
      some ("16\ng\n".toList.map fun c => BitVec.ofNat 8 c.toNat) else none)
    fuel ⟨[], '0', [], 0, 0, ⟨0, 0⟩⟩ ['m'] 0) := by
  intro h
  cases (h 1).1 ⟨.errBadParameter, 16, some fun _ => 0⟩ rfl nofun

end KabyLake
