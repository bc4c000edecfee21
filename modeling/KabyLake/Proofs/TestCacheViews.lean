import KabyLake.Proofs.CacheViews
import KabyLake.Proofs.TestCacheProgram

/-!
# Programs that write what they fetch

A program may write a block that it has fetched. If its blocks fit in the first level, it gives the
outputs of the two memories of `Views`, where it still fetches what was there before the write, and
the page tables are those of the data (`program_views`).
-/

namespace KabyLake.TestCache

variable {size : ℕ}

/-- `execute_command` on the memory as data and as instructions. -/
def viewsCommand (v : Views size) (line : Command × Residue) :
    Except Stop (Output × Views size) := do
  let i ← translate v.data line
  return v.step i

/-- The call of a line is aligned and there is room for its block. -/
def FitsAlignedLine (v : Views size) (line : Command × Residue) : Prop :=
  ∀ i, translate v.data line = .ok i → FitsAligned size v.used i

theorem viewsCommand_lockstep (v : Views size) (core : Core size) (line : Command × Residue)
    (h : core.Holds v.used ∧ core.Shows v) (hok : FitsAlignedLine v line) :
    Run.Lockstep (fun v core => core.Holds v.used ∧ core.Shows v) (viewsCommand v line)
      (executeCommand core line) := by
  obtain ⟨hholds, hshows⟩ := h
  unfold executeCommand viewsCommand
  rw [hshows.mem]
  rcases hi : translate v.data line with stop | i
  · exact .stop stop
  · obtain ⟨core', hcall, hnext⟩ := executeCommand_views core v i hholds hshows (hok i hi)
    have hright : lift (KabyLake.executeCommand core i) = .ok ((v.step i).1, core') := by
      rw [hcall]
      rfl
    show Run.Lockstep _ (.ok (v.step i)) (lift (KabyLake.executeCommand core i))
    rw [hright]
    exact .next _ hnext

/-- A program whose blocks fit in the first level as it runs on the two memories gives on the caches
what it gives there, and stops for the same reason. -/
theorem program_views (mem : Memory size) (lines : List (Command × Residue))
    (hok : Run.Along viewsCommand FitsAlignedLine ⟨mem, mem, ⟨[], []⟩⟩ lines) :
    ∃ core, initCaches mem = .ok core ∧ Run.trace executeCommand core lines
      = Run.trace viewsCommand ⟨mem, mem, ⟨[], []⟩⟩ lines :=
  ⟨_, flushAll_eq mem _ _ _, (Run.trace_eq_of_lockstep viewsCommand_lockstep lines
    ⟨holds_flushed_used mem _ _ _, shows_flushed mem _ _ _⟩ hok).symm⟩

theorem along_fits {v : Views size} {line : Command × Residue} {i : Invocation}
    {lines : List (Command × Residue)} (hi : translate v.data line = .ok i)
    (hfits : FitsAligned size v.used i)
    (hrest : Run.Along viewsCommand FitsAlignedLine (v.step i).2 lines) :
    Run.Along viewsCommand FitsAlignedLine v (line :: lines) := by
  refine ⟨fun i' hi' => ?_, fun out v' hv => ?_⟩
  · obtain rfl := Except.ok.inj (hi.symm.trans hi')
    exact hfits
  · unfold viewsCommand at hv
    rw [hi] at hv
    obtain rfl := (Prod.ext_iff.1 (Except.ok.inj hv)).2
    exact hrest

/-- The word at 16 is fetched, written, fetched again and read, through tables of zeros. -/
def rewriting : List (Command × Residue) :=
  [⟨⟨.read, .instruction, 4, 0, ⟨0, 0, 0, 0, 0, 16⟩⟩, default⟩,
    ⟨⟨.write, .data, 4, 7, ⟨0, 0, 0, 0, 0, 16⟩⟩, default⟩,
    ⟨⟨.read, .instruction, 4, 0, ⟨0, 0, 0, 0, 0, 16⟩⟩, default⟩,
    ⟨⟨.read, .data, 4, 0, ⟨0, 0, 0, 0, 0, 16⟩⟩, default⟩]

/-- The second fetch returns the old word. -/
theorem program_views_rewriting : ∃ core, initCaches (fun _ => 0 : Memory 32) = .ok core
    ∧ Run.trace executeCommand core rewriting
      = ([.word .errNone 0, .code .errNone, .word .errNone 0, .word .errNone 7], none) := by
  have hok : Run.Along viewsCommand FitsAlignedLine
      ⟨(fun _ => 0 : Memory 32), fun _ => 0, ⟨[], []⟩⟩ rewriting := by
    refine along_fits rfl ⟨⟨fun _ => by decide, fun _ => by decide⟩, by decide,
      fun _ => by decide⟩ ?_
    refine along_fits rfl ⟨⟨fun _ => by decide, fun _ => by decide⟩, by decide⟩ ?_
    refine along_fits rfl ⟨⟨fun h => absurd (by decide) h, fun _ => by decide⟩, by decide,
      fun _ => by decide⟩ ?_
    exact along_fits rfl ⟨⟨fun h => absurd (by decide) h, fun _ => by decide⟩, by decide,
      fun _ => by decide⟩ trivial
  obtain ⟨core, hinit, htrace⟩ := program_views (fun _ => 0 : Memory 32) rewriting hok
  exact ⟨core, hinit, htrace.trans rfl⟩

end KabyLake.TestCache
