import KabyLake.Proofs.CacheMalloc
import KabyLake.Proofs.CacheRepeat
import KabyLake.Proofs.TestCacheMain

/-!
# What test-cache prints of uninitialised memory

A call leaves caches and memory that depend on what a block from `malloc` or a variable of its
caller held only in the few cases of `CallSettled`. As long as none is met, the program prints the
same for the same memory and the same text (`main_settled`). A program whose blocks fit in the first
level meets none (`main_workingSet_settled`).
-/

namespace KabyLake.TestCache

open SetAssoc

variable {size fuel : ℕ} {p : Program} {core : Core size}

section Calls

variable {junk junk' : Malloc} {m : Memory size} {paddr : PhyAddr} {access : MemAccess}
  {l1 : L1Cache} {l2 : L2Cache} {word word' : Word}

/-- A call comes to its end, and what it leaves does not depend on what it was given before it is
written. -/
def CallSettled (core : Core size) : Call → Prop
  | .read access paddr => ReadMallocFree size paddr (core.l1 access) core.l2
  | .readByte access paddr => ReadMallocFree size paddr (core.l1 access) core.l2
  | .write paddr _ => WriteMallocFree size paddr core.l1d core.l2
  | .writeByte paddr byte => byte = 0 ∨ ReadMallocFree size paddr core.l1d core.l2
      ∧ ¬ TakesFree paddr core.l1d core.l2 ∧ paddr.addr + 16 ≤ size

instance : Decidable (TakesFree paddr l1 l2) := inferInstanceAs (Decidable (_ ∧ ∃ _, _ ∧ _))

instance (core : Core size) : DecidablePred (CallSettled core)
  | .read _ _ => inferInstanceAs (Decidable (ReadMallocFree _ _ _ _))
  | .readByte _ _ => inferInstanceAs (Decidable (ReadMallocFree _ _ _ _))
  | .write _ _ => inferInstanceAs (Decidable (WriteMallocFree _ _ _ _))
  | .writeByte _ _ => inferInstanceAs (Decidable (_ ∨ _))

/-- The word a read is given is only in what it returns. -/
theorem cacheRead_word {α : Type} (word word' : Word) (f : L1Cache → L2Cache → Exec α) :
    (cacheRead junk m paddr access l1 l2 word' >>= fun r => f r.l1 r.l2)
      = cacheRead junk m paddr access l1 l2 word >>= fun r => f r.l1 r.l2 := by
  rcases h1 : paddr.lookup1 l1 with _ | w
  · rcases h2 : paddr.lookup2 l2 with _ | k
    · rw [cacheRead_miss h1 h2, cacheRead_miss h1 h2]
    · by_cases hset : paddr.set2 = 0
      · rw [cacheRead_l2 h1 h2 hset, cacheRead_l2 h1 h2 hset]
        unfold readL2Result
        dsimp only
        split <;> rfl
      · rw [cacheRead_l2_fault h1 h2 hset, cacheRead_l2_fault h1 h2 hset]
  · rw [cacheRead_hit h1, cacheRead_hit h1]

/-- It is not even there, unless the read takes its line into a free way. -/
theorem cacheRead_word_of_not_takesFree (h : ¬ TakesFree paddr l1 l2) (word word' : Word) :
    cacheRead junk m paddr access l1 l2 word' = cacheRead junk m paddr access l1 l2 word := by
  rcases h1 : paddr.lookup1 l1 with _ | w
  · rcases h2 : paddr.lookup2 l2 with _ | k
    · rw [cacheRead_miss h1 h2, cacheRead_miss h1 h2]
    · by_cases hset : paddr.set2 = 0
      · have hfull : firstInvalid (clearHit l1 k) paddr.set1 = none := by
          by_contra hfree
          exact h ⟨h1, k, h2, hfree⟩
        rw [cacheRead_l2 h1 h2 hset, cacheRead_l2 h1 h2 hset]
        unfold readL2Result
        simp only [hfull]
      · rw [cacheRead_l2_fault h1 h2 hset, cacheRead_l2_fault h1 h2 hset]
  · rw [cacheRead_hit h1, cacheRead_hit h1]

theorem cacheRead_mallocFree (h : ReadMallocFree size paddr l1 l2) :
    cacheRead junk' m paddr access l1 l2 word = cacheRead junk m paddr access l1 l2 word := by
  obtain ⟨r, hr⟩ : MallocFree fun junk => cacheRead junk m paddr access l1 l2 word :=
    read_mallocFree_iff.2 h
  exact (hr junk').trans (hr junk).symm

theorem cacheWrite_mallocFree (h : WriteMallocFree size paddr l1 l2) :
    cacheWrite junk' m paddr l1 l2 word = cacheWrite junk m paddr l1 l2 word := by
  obtain ⟨r, hr⟩ : MallocFree fun junk => cacheWrite junk m paddr l1 l2 word :=
    write_mallocFree_iff.2 h
  exact (hr junk').trans (hr junk).symm

theorem cacheRead_settled {α : Type} (h : ReadMallocFree size paddr l1 l2)
    (f : L1Cache → L2Cache → Exec α) :
    (cacheRead junk' m paddr access l1 l2 word' >>= fun r => f r.l1 r.l2)
      = cacheRead junk m paddr access l1 l2 word >>= fun r => f r.l1 r.l2 := by
  rw [cacheRead_mallocFree h]
  exact cacheRead_word word word' f

/-- The caches a read of a byte leaves are those of the read in it. -/
theorem cacheReadByte_caches {α : Type} (f : L1Cache → L2Cache → Exec α) :
    (cacheReadByte junk m paddr access l1 l2 >>= fun x => f x.2.2.1 x.2.2.2)
      = cacheRead junk m paddr access l1 l2 junk.word >>= fun r => f r.l1 r.l2 := by
  rcases hr : cacheRead junk m paddr access l1 l2 junk.word with e | r
  · simp only [cacheReadByte, hr, Exec.error_bind]
  · simp only [cacheReadByte, hr, Exec.ok_bind, cacheRead_err hr, ne_eq, not_true_eq_false,
      if_false, Exec.pure_eq]

/-- The write after a read of its block hits. -/
theorem cacheWrite_after_read {r : ReadResult}
    (h : cacheRead junk m paddr access l1 l2 word = .ok r) (junk₁ junk₂ : Malloc) (word' : Word) :
    cacheWrite junk₁ m paddr r.l1 r.l2 word' = cacheWrite junk₂ m paddr r.l1 r.l2 word' := by
  obtain ⟨line, ⟨w, hw, -⟩, -⟩ := cacheRead_freshest h
  rw [cacheWrite_hit hw, cacheWrite_hit hw]

theorem cacheWriteByte_settled {junk₁ junk₁' : Malloc} {byte : Byte}
    (h : byte = 0 ∨ ReadMallocFree size paddr l1 l2 ∧ ¬ TakesFree paddr l1 l2) :
    cacheWriteByte junk₁ junk₁' m paddr l1 l2 byte
      = cacheWriteByte junk junk' m paddr l1 l2 byte := by
  by_cases hbyte : byte = 0
  · rw [cacheWriteByte, cacheWriteByte, if_pos hbyte, if_pos hbyte]
  obtain ⟨hmalloc, htakes⟩ := h.resolve_left hbyte
  have hread : cacheRead junk₁ m paddr .data l1 l2 junk₁.word
      = cacheRead junk m paddr .data l1 l2 junk.word := by
    rw [cacheRead_mallocFree hmalloc]
    exact cacheRead_word_of_not_takesFree htakes _ _
  rcases hr : cacheRead junk m paddr .data l1 l2 junk.word with e | r
  · rw [hr] at hread
    simp only [cacheWriteByte, if_neg hbyte, hr, hread, Exec.error_bind]
  · rw [cacheWriteByte_or junk₁' hbyte (hread.trans hr), cacheWriteByte_or junk' hbyte hr]
    exact cacheWrite_after_read hr ..

/-- Two calls that differ in what they were given before it is written leave the same. -/
theorem executeCommand_settled (i i' : Invocation) (hcall : i'.call = i.call)
    (h : CallSettled core i.call) : (KabyLake.executeCommand core i').map Prod.snd
      = (KabyLake.executeCommand core i).map Prod.snd := by
  obtain ⟨call, junk, junk', word⟩ := i
  obtain ⟨call', junk₁, junk₁', word'⟩ := i'
  obtain rfl : call = call' := hcall.symm
  rcases call with ⟨access, paddr⟩ | ⟨access, paddr⟩ | ⟨paddr, data⟩ | ⟨paddr, byte⟩
  · simp only [KabyLake.executeCommand, Exec.map_bind]
    exact cacheRead_settled h fun l1 l2 => .ok { core.setL1 access l1 with l2 := l2 }
  · let f (l1 : L1Cache) (l2 : L2Cache) : Exec (Core size) :=
      .ok { core.setL1 access l1 with l2 := l2 }
    have hread : ∀ junk, (cacheReadByte junk core.mem paddr access (core.l1 access) core.l2
        >>= fun x => f x.2.2.1 x.2.2.2) = _ := fun junk => cacheReadByte_caches f
    simp only [KabyLake.executeCommand, Exec.map_bind]
    exact (hread junk₁).trans ((cacheRead_settled h f).trans (hread junk).symm)
  · have hwrite : cacheWrite junk₁ core.mem paddr core.l1d core.l2 data
        = cacheWrite junk core.mem paddr core.l1d core.l2 data := cacheWrite_mallocFree h
    simp only [KabyLake.executeCommand, hwrite]
  · have hwrite : cacheWriteByte junk₁ junk₁' core.mem paddr core.l1d core.l2 byte
        = cacheWriteByte junk junk' core.mem paddr core.l1d core.l2 byte :=
      cacheWriteByte_settled (h.imp_right fun h => ⟨h.1, h.2.1⟩)
    simp only [KabyLake.executeCommand, hwrite]

end Calls

section Lines

variable {m : Memory size} {command : Command} {residue residue' : Residue}

/-- The entries that the walk of a line reads are in the memory. -/
def WalksLine (m : Memory size) (line : Command × Residue) : Prop :=
  ∀ fault, translate m line ≠ .error (.fault fault)

instance (m : Memory size) (line : Command × Residue) : Decidable (WalksLine m line) :=
  match h : translate m line with
  | .error (.fault fault) => .isFalse fun hwalk => hwalk fault h
  | .error .assertion => .isTrue (by simp [WalksLine, h])
  | .ok _ => .isTrue (by simp [WalksLine, h])

/-- The walk of a line stays in the memory; and its call, if it finds an address, comes to its end,
and what that leaves does not depend on what it was given before it is written. -/
def SettledLine (core : Core size) (line : Command × Residue) : Prop :=
  WalksLine core.mem line ∧ ∀ i, translate core.mem line = .ok i → CallSettled core i.call

instance (core : Core size) (line : Command × Residue) : Decidable (SettledLine core line) :=
  inferInstanceAs (Decidable
    (WalksLine core.mem line ∧ ∀ i, translate core.mem line = .ok i → CallSettled core i.call))

/-- A line is the same call whatever the variables held. -/
theorem translate_residue (m : Memory size) (command : Command) (residue residue' : Residue) :
    translate m (command, residue') = (translate m (command, residue)).map fun i =>
      ⟨i.call, residue'.junk, residue'.junk', residue'.word⟩ := by
  unfold translate
  dsimp only
  rw [pageWalk_eq, pageWalk_eq]
  rcases walkFrame m command.vaddr with e | _ | frame
  · rfl
  · rfl
  · rcases hcall : switchCall command ⟨frame, command.vaddr.pageOffset⟩ with _ | call
    · simp [lift, Except.mapError, Except.map, bind, Except.bind, assert, hcall, throw, throwThe,
        MonadExceptOf.throw]
    · simp [lift, Except.mapError, Except.map, bind, Except.bind, assert, hcall, pure, Except.pure]

theorem map_lift {α β : Type} (x : Exec α) (f : α → β) : (lift x).map f = lift (x.map f) := by
  rcases x with e | a
  · rfl
  · rfl

theorem executeCommand_residue (h : SettledLine core (command, residue)) :
    (executeCommand core (command, residue')).map Prod.snd
      = (executeCommand core (command, residue)).map Prod.snd := by
  have htranslate := translate_residue core.mem command residue residue'
  rcases hi : translate core.mem (command, residue) with stop | i
  · rw [hi] at htranslate
    simp only [executeCommand, hi, htranslate]
    rfl
  · rw [hi] at htranslate
    have hsettled := executeCommand_settled i ⟨i.call, residue'.junk, residue'.junk',
      residue'.word⟩ rfl (h.2 i hi)
    have hleft : executeCommand core (command, residue') = lift (KabyLake.executeCommand core
        ⟨i.call, residue'.junk, residue'.junk', residue'.word⟩) := by
      simp only [executeCommand, htranslate]
      rfl
    have hright : executeCommand core (command, residue)
        = lift (KabyLake.executeCommand core i) := by
      simp only [executeCommand, hi]
      rfl
    rw [hleft, hright, map_lift, map_lift, hsettled]

/-- The lines of a program hold the same commands whatever is left for them. -/
theorem commandLines_forall₂ (residue residue' : ℕ → Residue) (p : Program) :
    List.Forall₂ (fun l l' : Command × Residue => l'.1 = l.1) (commandLines residue p)
      (commandLines residue' p) := by
  unfold commandLines forAllLines
  rw [List.filterMap_map, List.filterMap_map]
  induction List.range p.nbLines with
  | nil => exact .nil
  | cons i is ih =>
    rcases hcommand : p.listing[i]?.join with _ | command
    · rw [List.filterMap_cons_none (by simp [hcommand]), List.filterMap_cons_none
        (by simp [hcommand])]
      exact ih
    · rw [List.filterMap_cons_some (b := (command, residue i)) (by simp [hcommand]),
        List.filterMap_cons_some (b := (command, residue' i)) (by simp [hcommand])]
      exact .cons rfl ih

end Lines

section WorkingSets

variable {s : Memory size × Used} {i : Invocation}

/-- A call whose block has room in caches that hold what was used is settled. -/
theorem callSettled_of_fits {u : Used} (h : core.Holds u) (hok : Fits size u i) :
    CallSettled core i.call := by
  obtain ⟨call, junk, junk', word⟩ := i
  obtain ⟨hroom, hsize⟩ := hok
  have hread : ∀ {paddr : PhyAddr} {l1 : L1Cache} {used : List ℕ}, Resident l1 used →
      (paddr.block ∉ used → paddr.addr + 16 ≤ size) → ReadMallocFree size paddr l1 core.l2 := by
    intro paddr l1 used hl1 hsize
    have h2 : paddr.lookup2 core.l2 = none := lookup2_of_empty h.l2
    refine ⟨?_, .inr (.inl fun k hk => by rw [h2] at hk; cases hk)⟩
    by_cases h1 : paddr.lookup1 l1 = none
    · exact .inr (.inl ⟨h2, hsize ((lookup1_eq_none_iff hl1).1 h1)⟩)
    · exact .inl h1
  rcases call with ⟨access, paddr⟩ | ⟨access, paddr⟩ | ⟨paddr, data⟩ | ⟨paddr, byte⟩
  · exact hread (h.of_l1 access) fun hb => hsize (.inl hb)
  · exact hread (h.of_l1 access) fun hb => hsize (.inl hb)
  · refine ⟨⟨.inr (.inl (lookup2_of_empty h.l2)), hsize (.inr trivial)⟩, ?_⟩
    rcases h1 : paddr.lookup1 core.l1d with _ | w
    · have hb := (lookup1_eq_none_iff h.data).1 h1
      exact .inr (firstInvalid_ne_none_iff.1
        (h.data.firstInvalid_ne_none paddr.set1_val (hroom hb)))
    · exact .inl (Option.some_ne_none w)
  · refine .inr ⟨hread h.data fun hb => hsize (.inl hb), ?_, hsize (.inr trivial)⟩
    rintro ⟨-, k, hk, -⟩
    rw [lookup2_of_empty h.l2] at hk
    cases hk

/-- The call of a line is aligned and there is room for its block, and its walk stays in the
memory. -/
def FitsWalk (s : Memory size × Used) (line : Command × Residue) : Prop :=
  FitsLine s line ∧ WalksLine s.1 line

instance (s : Memory size × Used) (line : Command × Residue) : Decidable (FitsWalk s line) :=
  inferInstanceAs (Decidable (_ ∧ _))

theorem settledLine_of_fits (line : Command × Residue) (h : Tracks s core)
    (hok : FitsWalk s line) : SettledLine core line := by
  obtain ⟨m, u⟩ := s
  obtain rfl : core.mem = m := h.2.mem
  exact ⟨hok.2, fun i hi => callSettled_of_fits h.1 (hok.1 i hi).1⟩

end WorkingSets

section Main

variable {cs : List Command} {mem : Memory size} {residue residue' : ℕ → Residue}

theorem runProgram_settled (hp : p.Holds cs) (hinit : initCaches mem = .ok core)
    (hok : Run.Along executeCommand SettledLine core (commandLines residue p)) :
    runProgram residue' mem p = runProgram residue mem p := by
  unfold runProgram
  rw [hinit, ← forAllLines_eq hp residue, ← forAllLines_eq hp residue']
  refine Run.trace_observed_congr (fun l => (some l.1, l.2)) dumped executeLine_some ?_
    (commandLines_forall₂ residue residue' p) hok
  rintro core ⟨command, residue⟩ ⟨command', residue'⟩ hcommand hsettled
  obtain rfl : command' = command := hcommand
  exact executeCommand_residue hsettled

/-- What the variable of the scan held is overwritten or not used. -/
theorem programRead_currentChar (text : List Char) (c c' : Char) :
    programRead fuel (some text) c' = programRead fuel (some text) c := by
  rcases text with _ | ⟨b, t⟩
  · rcases fuel with _ | fuel
    · rfl
    · rfl
  · rfl

variable {env env' : Environment} {pgmFilename pgmFilename' text : List Char}

theorem main_eq_of_runProgram (hload : Loads env fuel mem pgmFilename)
    (hload' : Loads env' fuel mem pgmFilename')
    (hfile : (env.files pgmFilename).map textOf = some text)
    (hfile' : (env'.files pgmFilename').map textOf = some text)
    (hread : programRead fuel (some text) env.currentChar = .ok (.errNone, p))
    (hrun : runProgram env'.residue mem p = runProgram env.residue mem p) :
    main fuel env' = main fuel env := by
  have hread' : programRead fuel (some text) env'.currentChar = .ok (.errNone, p) :=
    (programRead_currentChar text env.currentChar env'.currentChar).trans hread
  rw [main_of_loads hload, main_of_loads hload', mainLoaded_eq hfile hread,
    mainLoaded_eq hfile' hread', hrun]

/-- Two runs of the program that load the same memory and the same text print the same and end the
same, whatever their variables and blocks held, if each line that the first one reaches is
settled. -/
theorem main_settled (hload : Loads env fuel mem pgmFilename)
    (hload' : Loads env' fuel mem pgmFilename')
    (hfile : (env.files pgmFilename).map textOf = some text)
    (hfile' : (env'.files pgmFilename').map textOf = some text)
    (hread : programRead fuel (some text) env.currentChar = .ok (.errNone, p))
    (hinit : initCaches mem = .ok core)
    (hok : Run.Along executeCommand SettledLine core (commandLines env.residue p)) :
    main fuel env' = main fuel env := by
  obtain ⟨cs, hp, -⟩ := programRead_scanned hread
  exact main_eq_of_runProgram hload hload' hfile hfile' hread (runProgram_settled hp hinit hok)

/-- The same files and arguments, with other variables and blocks. -/
def strayEnvironment (text : List Char) : Environment :=
  { zerosEnvironment text with
    currentChar := 'W'
    residue := fun _ => ⟨⟨5, 7⟩, 9, mallocAge 2, mallocValid true⟩ }

theorem strayEnvironment_loads (text : List Char) :
    Loads (strayEnvironment text) 100 zerosImage ['p'] := zerosEnvironment_loads text

theorem main_settled_mixed :
    main 100 (strayEnvironment mixedText) = main 100 (zerosEnvironment mixedText) :=
  main_settled (zerosEnvironment_loads mixedText) (strayEnvironment_loads mixedText) mixedText_file
    mixedText_file mixedText_program (flushAll_eq _ _ _ _) (by decide +kernel)

/-- So do two runs of a program whose blocks fit in the first level, and whose walks stay in the
memory, when it runs on the memory alone. -/
theorem main_workingSet_settled (hload : Loads env fuel mem pgmFilename)
    (hload' : Loads env' fuel mem pgmFilename')
    (hfile : (env.files pgmFilename).map textOf = some text)
    (hfile' : (env'.files pgmFilename').map textOf = some text)
    (hread : programRead fuel (some text) env.currentChar = .ok (.errNone, p))
    (hok : Run.Along usedCommand FitsWalk (mem, ⟨[], []⟩) (commandLines env.residue p)) :
    main fuel env' = main fuel env := by
  obtain ⟨cs, hp, -⟩ := programRead_scanned hread
  obtain ⟨core, hinit, htracks⟩ := initCaches_eq mem
  have hsettled : Run.Along executeCommand SettledLine core (commandLines env.residue p) :=
    Run.along_of_lockstep (fun s core line h hfits => usedCommand_lockstep s core line h hfits.1)
      (fun _ _ line h hfits => settledLine_of_fits line h hfits) _ htracks hok
  exact main_eq_of_runProgram hload hload' hfile hfile' hread (runProgram_settled hp hinit hsettled)

theorem main_workingSet_settled_mixed :
    main 100 (strayEnvironment mixedText) = main 100 (zerosEnvironment mixedText) :=
  main_workingSet_settled (zerosEnvironment_loads mixedText) (strayEnvironment_loads mixedText)
    mixedText_file mixedText_file mixedText_program (by decide +kernel)

end Main

end KabyLake.TestCache
