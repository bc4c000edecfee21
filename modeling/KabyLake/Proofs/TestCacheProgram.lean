import KabyLake.Proofs.CacheWorkingSet
import KabyLake.Proofs.Walk
import KabyLake.TestCache

/-!
# Programs on the caches and on the memory alone

`flatCommand` is `execute_command` without caches. A program whose calls meet their conditions gives
the same outputs on both and stops for the same reason, though it may rewrite the page tables its
own addresses go through (`program_transparent`). If its blocks fit in the first level, the
conditions are on the run without caches alone (`workingSet_transparent`).
-/

namespace KabyLake.TestCache

variable {size : ℕ}

/-- `execute_command` on a memory without caches. -/
def flatCommand (m : Memory size) (line : Command × Residue) :
    Except Stop (Output × Memory size) := do
  let i ← translate m line
  return flat m i

/-- The same, with the blocks used so far. -/
def usedCommand (s : Memory size × Used) (line : Command × Residue) :
    Except Stop (Output × Memory size × Used) := do
  let i ← translate s.1 line
  return ((flat s.1 i).1, (flat s.1 i).2, s.2.use i)

/-- The call of a line meets the condition for it on the caches. -/
def CoherentLine (core : Core size) (line : Command × Residue) : Prop :=
  ∀ i, translate core.mem line = .ok i → CoherentCall core i

instance (core : Core size) (line : Command × Residue) : Decidable (CoherentLine core line) :=
  inferInstanceAs (Decidable (∀ i, translate core.mem line = .ok i → CoherentCall core i))

/-- The call of a line is aligned and there is room for its block. -/
def FitsLine (s : Memory size × Used) (line : Command × Residue) : Prop :=
  ∀ i, translate s.1 line = .ok i → FitsCoherent s.1 s.2 i

instance (s : Memory size × Used) (line : Command × Residue) : Decidable (FitsLine s line) :=
  inferInstanceAs (Decidable (∀ i, translate s.1 line = .ok i → FitsCoherent s.1 s.2 i))

section Steps

open Run

theorem executeCommand_lockstep (core : Core size) (m : Memory size) (line : Command × Residue)
    (h : core.Coherent m) (hok : CoherentLine core line) :
    Lockstep (fun core m => core.Coherent m) (executeCommand core line) (flatCommand m line) := by
  obtain rfl := h.mem
  unfold executeCommand flatCommand
  rcases hi : translate core.mem line with stop | i
  · exact .stop stop
  · obtain ⟨core', hcall, hcoherent⟩ := executeCommand_coherent core core.mem i h (hok i hi)
    have hleft : lift (KabyLake.executeCommand core i) = .ok ((flat core.mem i).1, core') := by
      rw [hcall]
      rfl
    show Lockstep _ (lift (KabyLake.executeCommand core i)) (.ok (flat core.mem i))
    rw [hleft]
    exact .next _ hcoherent

/-- The caches hold what was used and match the memory. -/
def Tracks (s : Memory size × Used) (core : Core size) : Prop :=
  core.Holds s.2 ∧ core.Coherent s.1

theorem usedCommand_lockstep (s : Memory size × Used) (core : Core size)
    (line : Command × Residue) (h : Tracks s core) (hok : FitsLine s line) :
    Lockstep Tracks (usedCommand s line) (executeCommand core line) := by
  obtain ⟨m, u⟩ := s
  obtain ⟨hholds, hcoherent⟩ := h
  obtain rfl : core.mem = m := hcoherent.mem
  unfold executeCommand usedCommand
  rcases hi : translate core.mem line with stop | i
  · exact .stop stop
  · obtain ⟨core', hcall, hholds', hcoherent'⟩ :=
      executeCommand_fitsCoherent core core.mem u i hholds hcoherent (hok i hi)
    have hright : lift (KabyLake.executeCommand core i) = .ok ((flat core.mem i).1, core') := by
      rw [hcall]
      rfl
    show Lockstep _ (.ok ((flat core.mem i).1, (flat core.mem i).2, u.use i))
      (lift (KabyLake.executeCommand core i))
    rw [hright]
    exact .next _ ⟨hholds', hcoherent'⟩

theorem usedCommand_flat (s : Memory size × Used) (m : Memory size) (line : Command × Residue)
    (h : s.1 = m) : Lockstep (fun s m => s.1 = m) (usedCommand s line) (flatCommand m line) := by
  subst h
  unfold usedCommand flatCommand
  rcases translate s.1 line with stop | i
  · exact .stop stop
  · exact .next _ rfl

end Steps

section Traces

variable (mem : Memory size) (lines : List (Command × Residue))

theorem initCaches_eq : ∃ core, initCaches mem = .ok core ∧ Tracks (mem, ⟨[], []⟩) core :=
  ⟨_, flushAll_eq mem _ _ _, holds_flushed_used mem _ _ _, coherent_flushed mem _ _ _⟩

/-- A program whose calls meet their conditions as it runs on the caches gives what it gives on the
memory alone. -/
theorem program_transparent : ∃ core, initCaches mem = .ok core ∧
    (Run.Along executeCommand CoherentLine core lines →
      Run.trace executeCommand core lines = Run.trace flatCommand mem lines) := by
  obtain ⟨core, hinit, htracks⟩ := initCaches_eq mem
  exact ⟨core, hinit, Run.trace_eq_of_lockstep executeCommand_lockstep lines htracks.2⟩

/-- A page that is each of its own tables and maps page 1. -/
def twoPages : Memory 8192 := fun j => if j.val = 5 then 16 else 0

/-- A line on an address in one of the first 512 pages. -/
def lineOf (order : CommandWord) (type : MemAccess) (dataSize : ℕ) (writeData : Word)
    (page : BitVec 9) (offset : BitVec 12) : Command × Residue :=
  (⟨order, type, dataSize, writeData, ⟨0, 0, 0, 0, page, offset⟩⟩, default)

/-- The first line maps page 4 to page 1, the sixth evicts a block, the seventh reads what it has
written through page 4, and the last finds that page unmapped by the line before. -/
def remappingLines : List (Command × Residue) :=
  [lineOf .write .data 4 0x1000 0 16, lineOf .write .data 4 2 0 1040,
    lineOf .write .data 4 3 0 2064, lineOf .read .data 4 0 0 16, lineOf .write .data 4 4 0 3088,
    lineOf .write .data 4 5 1 16, lineOf .read .data 4 0 4 16, lineOf .read .data 4 0 0 1040,
    lineOf .read .instruction 0 0 0 32, lineOf .write .data 1 7 0 48, lineOf .write .data 4 1 0 16,
    lineOf .read .data 4 0 4 16]

theorem program_transparent_remapping : ∃ core, initCaches twoPages = .ok core
    ∧ Run.trace executeCommand core remappingLines
      = ([.code .errNone, .code .errNone, .code .errNone, .word .errNone 0x1000, .code .errNone,
        .code .errNone, .word .errNone 5, .word .errNone 2, .byte .errNone (some 0),
        .code .errNone, .code .errNone], some .assertion) := by
  obtain ⟨core, hinit, htrace⟩ := program_transparent twoPages remappingLines
  obtain rfl := Except.ok.inj ((flushAll_eq _ _ _ _).symm.trans hinit)
  refine ⟨_, hinit, (htrace ?_).trans ?_⟩
  all_goals decide +kernel

/-- So does a program whose blocks fit in the first level when it runs on the memory alone. -/
theorem workingSet_transparent (hok : Run.Along usedCommand FitsLine (mem, ⟨[], []⟩) lines) :
    ∃ core, initCaches mem = .ok core ∧
      Run.trace executeCommand core lines = Run.trace flatCommand mem lines := by
  obtain ⟨core, hinit, htracks⟩ := initCaches_eq mem
  have hcaches := Run.trace_eq_of_lockstep usedCommand_lockstep lines htracks hok
  have hflat : Run.trace usedCommand (mem, (⟨[], []⟩ : Used)) lines
      = Run.trace flatCommand mem lines :=
    Run.trace_eq_of_lockstep (fun s m line h _ => usedCommand_flat s m line h) lines rfl hok
  exact ⟨core, hinit, hcaches.symm.trans hflat⟩

end Traces

end KabyLake.TestCache
