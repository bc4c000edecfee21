import KabyLake.Proofs.ProgramPrint
import KabyLake.TestCommands

/-!
# What test-commands prints

The program prints the commands it read in the format of `program_print`, whatever blanks, letters
and leading zeros the file had, or nothing. Given what it printed it prints the same again
(`main_again`).
-/

namespace KabyLake.TestCommands

variable {fuel status : ℕ} {argv : List (List Char)} {files : Files} {currentChar : Char}
  {printed : List Char}

/-- A listing is printed command by command. -/
theorem printLines_commands : ∀ {cs : List Command} {listing : List (Option Command)},
    listing.take cs.length = cs.map some →
    printLines cs.length listing = .ok (cs.flatMap printCommand)
  | [], _, _ => rfl
  | c :: cs, [], htake => by cases htake
  | c :: cs, d :: listing, htake => by
    rw [List.length_cons, List.take_succ_cons, List.map_cons, List.cons.injEq] at htake
    obtain ⟨rfl, htake⟩ := htake
    rw [List.length_cons, printLines, printLines_commands htake]
    rfl

theorem programPrint_holds {p : Program} {cs : List Command} (hp : p.Holds cs) :
    programPrint p = .ok (.errNone, cs.flatMap printCommand) := by
  have htake := hp.take_eq
  rw [hp.nbLines_eq] at htake
  rw [programPrint, hp.nbLines_eq, printLines_commands htake]
  rfl

/-- The program prints commands that were scanned and accepted. -/
theorem main_prints (h : main fuel argv files currentChar = .ok (status, printed)) :
    ∃ cs : List Command, (∀ c ∈ cs, Scanned c ∧ checkCommand c = .errNone)
      ∧ printed = cs.flatMap printCommand := by
  have hnone : ∃ cs : List Command, (∀ c ∈ cs, Scanned c ∧ checkCommand c = .errNone)
      ∧ ([] : List Char) = cs.flatMap printCommand := ⟨[], List.forall_mem_nil _, rfl⟩
  unfold main at h
  split at h
  · obtain ⟨⟨err, p⟩, hread, h⟩ := Exec.bind_eq_ok h
    obtain ⟨cs, hp, hcs⟩ := programRead_scanned hread
    dsimp only at h
    rw [programPrint_holds hp] at h
    split_ifs at h
    · cases h
      exact ⟨cs, hcs, rfl⟩
    · cases h
      exact hnone
  · cases h
    exact hnone

/-- Given a file that holds what it printed, the program prints the same, whatever the variable of
the scan held. -/
theorem main_again (h : main fuel argv files currentChar = .ok (status, printed)) :
    ∃ enough, ∀ fuel' ≥ enough, ∀ currentChar' name' filename' rest' files',
      (files' filename').map textOf = some printed →
        main fuel' (name' :: filename' :: rest') files' currentChar' = .ok (0, printed) := by
  obtain ⟨cs, hcs, rfl⟩ := main_prints h
  have htake : (cs.map some).take cs.length = cs.map some := List.take_of_length_le (by simp)
  obtain ⟨lines, hfits, hcommand, hprint⟩ := printLines_lines hcs htake
  rw [printLines_commands htake] at hprint
  have htext : cs.flatMap printCommand = fileText lines := Except.ok.inj hprint
  refine ⟨(fileText lines).length + 1, fun fuel' hfuel currentChar' name' filename' rest' files'
    hfile => ?_⟩
  obtain ⟨p, hread, hp⟩ := programRead_lines lines currentChar' (Nat.lt_of_succ_le hfuel)
  rw [List.filter_eq_self.2 (by simpa using hfits), hcommand] at hp
  simp only [main, hfile, htext, hread, Exec.ok_bind, if_true]
  rw [programPrint_holds hp, htext]
  rfl

/-- Three lines, and whatever file holds what is printed of them. -/
theorem main_again_threeCommands :
    main 60 [[], ['p']] (fun _ => some (threeCommands.map fun c => BitVec.ofNat 8 c.toNat)) 'W'
        = .ok (0, threePrinted)
      ∧ ∃ enough, ∀ fuel' ≥ enough, ∀ currentChar' name' filename' rest' files',
        (files' filename').map textOf = some threePrinted →
          main fuel' (name' :: filename' :: rest') files' currentChar' = .ok (0, threePrinted) := by
  have hread : main 60 [[], ['p']]
      (fun _ => some (threeCommands.map fun c => BitVec.ofNat 8 c.toNat)) 'W'
        = .ok (0, threePrinted) := by decide +kernel
  exact ⟨hread, main_again hread⟩

end KabyLake.TestCommands
