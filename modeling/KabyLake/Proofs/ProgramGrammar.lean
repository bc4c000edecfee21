import KabyLake.Proofs.ProgramEnds

/-!
# The files a program is read from

The grammar of `program_read`, with the command that each text spells. White space may stand before
each token and is not needed before any; a number is what `%x` takes for one, so its digits may be
missing; and after a command comes one more character, whatever it is, or the end of the file. A
text is read without an error exactly if it is in the grammar, and the listing then holds the
commands it spells that `program_add_command` accepts (`programRead_errNone_iff`).
-/

namespace KabyLake

open Scanf Fuel

/-- The number scanned at the start of the text, 0 if there is none. -/
def hexNumber (text : List Char) : BitVec 64 := (scanHex ⟨text, false⟩).1.getD 0

inductive SpelledOrder : CommandWord → List Char → List Char → Prop
  | read {text rest} : TokenAt ['R'] text rest → SpelledOrder .read text rest
  | write {text rest} : TokenAt ['W'] text rest → SpelledOrder .write text rest

/-- The type and the size of the data. -/
inductive SpelledType : MemAccess → ℕ → List Char → List Char → Prop
  | instruction {text rest} : TokenAt ['I'] text rest → SpelledType .instruction 0 text rest
  | word {text rest} : TokenAt ['D', 'W'] text rest → SpelledType .data 4 text rest
  | byte {text rest} : TokenAt ['D', 'B'] text rest → SpelledType .data 1 text rest

inductive SpelledData : CommandWord → Word → List Char → List Char → Prop
  | read {text} : SpelledData .read 0 text text
  | write {text number} : TokenAt ['0', 'x'] text number →
    SpelledData .write ((hexNumber number).setWidth 32) text (afterHex number)

inductive SpelledAddress : VirtAddr → List Char → List Char → Prop
  | number {text number} : TokenAt ['@', '0', 'x'] text number →
    SpelledAddress (initVirtAddr64 (hexNumber number)) text (afterHex number)

/-- The text starts with the command, and then the rest is left. -/
def SpelledCommand (command : Command) (text rest : List Char) : Prop :=
  ∃ t₁ t₂ t₃, SpelledOrder command.order text t₁ ∧ SpelledType command.type command.dataSize t₁ t₂
    ∧ SpelledData command.order command.writeData t₂ t₃ ∧ SpelledAddress command.vaddr t₃ rest

/-- The text is the commands, each but the last with a character after it. -/
inductive SpelledProgram : List Command → List Char → Prop
  | nil : SpelledProgram [] []
  | last {command text} : SpelledCommand command text [] → SpelledProgram [command] text
  | cons {command commands text d rest} : SpelledCommand command text (d :: rest) →
    SpelledProgram commands rest → SpelledProgram (command :: commands) text

section Parts

variable {text rest t t' : List Char} {order : CommandWord} {type : MemAccess} {dataSize n : ℕ}
  {data : Word} {vaddr : VirtAddr} {command : Command}

theorem commandAt_iff : CommandAt text rest ↔ ∃ command, SpelledCommand command text rest := by
  constructor
  · rintro ⟨o, t₁, t₂, t₃, ⟨ho, horder⟩, ⟨token, hmem, htype⟩, hdata, number, haddr, rfl⟩
    have htype' : ∃ type dataSize, SpelledType type dataSize t₁ t₂ := by
      simp only [List.mem_cons, List.not_mem_nil, or_false] at hmem
      rcases hmem with rfl | rfl | rfl
      · exact ⟨_, _, .instruction htype⟩
      · exact ⟨_, _, .word htype⟩
      · exact ⟨_, _, .byte htype⟩
    obtain ⟨type, dataSize, htype'⟩ := htype'
    rcases ho with rfl | rfl
    · obtain ⟨digits, hdigits, rfl⟩ : NumberAt ['0', 'x'] t₂ t₃ := hdata
      exact ⟨⟨.write, type, dataSize, _, _⟩, t₁, t₂, _, .write horder, htype', .write hdigits,
        .number haddr⟩
    · obtain rfl : t₃ = t₂ := hdata
      exact ⟨⟨.read, type, dataSize, _, _⟩, t₁, t₃, t₃, .read horder, htype', .read,
        .number haddr⟩
  · rintro ⟨⟨order, type, dataSize, data, vaddr⟩, t₁, t₂, t₃, horder, htype, hdata, haddr⟩
    dsimp only at horder htype hdata haddr
    have htype' : TypeAt t₁ t₂ := by
      cases htype with
      | instruction h | word h | byte h => exact ⟨_, by simp, h⟩
    have haddr' : NumberAt ['@', '0', 'x'] t₃ rest := by
      cases haddr with
      | number h => exact ⟨_, h, rfl⟩
    cases horder with
    | read h =>
      cases hdata
      exact ⟨'R', t₁, t₂, t₂, ⟨.inr rfl, h⟩, htype', rfl, haddr'⟩
    | write h =>
      cases hdata with
      | write hdigits => exact ⟨'W', t₁, t₂, _, ⟨.inl rfl, h⟩, htype', ⟨_, hdigits, rfl⟩, haddr'⟩

/-- What a number is does not depend on the end-of-file flag. -/
theorem scanHex_fst (text : List Char) (eof : Bool) :
    (scanHex ⟨text, eof⟩).1.getD 0 = hexNumber text := by
  unfold hexNumber scanHex
  dsimp only
  split_ifs <;> rfl

theorem readTail_spelled (h : SpelledAddress vaddr t rest) (hn : t.length ≤ n) (fuel : ℕ)
    (order : CommandWord) (type : MemAccess) (dataSize : ℕ) (data : Word) (c : Char) (e : Bool) :
    Gives Fault.fuel n fuel (readTail fuel order type dataSize data c ⟨t, e⟩)
      (some (⟨order, type, dataSize, data, vaddr⟩, 'x', ⟨rest, e || rest.isEmpty⟩)) := by
  cases h with
  | @number _ number htoken =>
    have haddr : readAddress '@' ⟨'0' :: 'x' :: number, e⟩ = some (initVirtAddr64
        (hexNumber number), 'x', ⟨afterHex number, e || (afterHex number).isEmpty⟩) := by
      rw [← scanHex_fst number e, ← scanHex_snd]
      rfl
    have hscan : Gives Fault.fuel n fuel (scanPastSpaces fuel c ⟨t, e⟩)
        ('@', ⟨'0' :: 'x' :: number, e⟩) := scanPastSpaces_tokenAt htoken hn fuel c e
    refine hscan.bind ?_
    simp only [haddr]
    exact gives_ok ..

theorem length_of_spelledAddress (h : SpelledAddress vaddr t rest) :
    3 + rest.length ≤ t.length := by
  cases h with
  | number htoken => exact length_of_numberAt ⟨_, htoken, rfl⟩

/-- The data and the address. -/
theorem operands_spelled (hdata : SpelledData order data t t')
    (haddr : SpelledAddress vaddr t' rest) (hn : t.length ≤ n) (fuel : ℕ) (type : MemAccess)
    (dataSize : ℕ) (c : Char) (e : Bool) :
    Gives Fault.fuel n fuel (scanPastSpaces fuel c ⟨t, e⟩ >>= readData fuel order type dataSize)
      (some (⟨order, type, dataSize, data, vaddr⟩, 'x', ⟨rest, e || rest.isEmpty⟩)) := by
  cases hdata with
  | read => exact readTail_spelled haddr hn fuel .read type dataSize 0 c e
  | @write _ number htoken =>
    have hlen : 2 + (afterHex number).length ≤ t.length :=
      length_of_numberAt ⟨number, htoken, rfl⟩
    have hlen' := length_of_spelledAddress haddr
    -- the number does not end the file, since the address follows
    have hflag : (e || (afterHex number).isEmpty) = e := by
      rcases hrest : afterHex number with _ | ⟨b, u⟩
      · rw [hrest, List.length_nil] at hlen'
        omega
      · rw [List.isEmpty_cons, Bool.or_false]
    have hread : readData fuel .write type dataSize ('0', ⟨'x' :: number, e⟩)
        = readTail fuel .write type dataSize ((hexNumber number).setWidth 32) 'x'
          ⟨afterHex number, e⟩ := by
      have hwrite : readWriteData fuel .write '0' ⟨'x' :: number, e⟩
          = scanPastSpaces fuel 'x' ⟨afterHex number, e⟩ >>= fun x =>
            pure (some ((hexNumber number).setWidth 32, x.1, x.2)) := by
        rw [← scanHex_fst number e]
        nth_rewrite 2 [← hflag]
        rw [← scanHex_snd]
        rfl
      simp only [readData, readTail, hwrite]
      rcases scanPastSpaces fuel 'x' ⟨afterHex number, e⟩ with f | ⟨c, st⟩
      · rfl
      · rfl
    refine (scan_zeroX htoken hn fuel c e).bind ?_
    rw [hread]
    exact readTail_spelled haddr (by omega) fuel .write type dataSize _ 'x' e

theorem readRest_spelled (h : SpelledType type dataSize t t') (e : Bool) : ∃ d r k,
    TokenAt [d] t r ∧ ∀ fuel order, readRest fuel order (d, ⟨r, e⟩)
      = scanPastSpaces fuel k ⟨t', e⟩ >>= readData fuel order type dataSize := by
  cases h with
  | instruction h => exact ⟨'I', t', 'I', h, fun _ _ => rfl⟩
  | word h => exact ⟨'D', 'W' :: t', 'W', h, fun _ _ => rfl⟩
  | byte h => exact ⟨'D', 'B' :: t', 'B', h, fun _ _ => rfl⟩

/-- A command is read as the one that the text spells. -/
theorem readCommand_spelled (h : SpelledCommand command text rest) (fuel : ℕ) (c : Char)
    (e : Bool) : Gives Fault.fuel text.length fuel
      (readCommand fuel (scanChar c ⟨text, e⟩).1 (scanChar c ⟨text, e⟩).2)
      (some (command, 'x', ⟨rest, e || rest.isEmpty⟩)) := by
  obtain ⟨order, type, dataSize, data, vaddr⟩ := command
  obtain ⟨t₁, t₂, t₃, horder, htype, hdata, haddr⟩ := h
  dsimp only at horder htype hdata haddr
  obtain ⟨o, ho, hword, htoken⟩ : ∃ o, (o = 'W' ∨ o = 'R')
      ∧ (if o = 'W' then CommandWord.write else .read) = order ∧ TokenAt [o] text t₁ := by
    cases horder with
    | read h => exact ⟨'R', .inr rfl, rfl, h⟩
    | write h => exact ⟨'W', .inl rfl, rfl, h⟩
  obtain ⟨d, r, k, hd, hrest⟩ := readRest_spelled htype e
  have hlen₁ := length_of_tokenAt htoken
  have hlen₂ : t₂.length ≤ t₁.length := by
    cases htype with
    | instruction h | word h | byte h => exact (Nat.le_add_left _ _).trans (length_of_tokenAt h)
  rw [readCommand_eq]
  refine (scanPastSpaces_tokenAt htoken le_rfl fuel c e).bind ?_
  rw [readFirst_order ho, hword]
  refine (scanPastSpaces_tokenAt hd (by omega) fuel _ e).bind ?_
  rw [hrest]
  exact operands_spelled hdata haddr (by omega) fuel type dataSize k e

end Parts

section Runs

variable {text : List Char} {inner : ℕ} {p p' : Program} {cs all : List Command}

/-- The commands that `program_add_command` accepts. -/
def accepted (all : List Command) : List Command := all.filter fun c => checkCommand c = .errNone

theorem accepted_cons (c : Command) (all : List Command) :
    accepted [c] ++ accepted all = accepted (c :: all) := (List.filter_append [c] all).symm

theorem Program.Holds.unique (hp : p.Holds cs) (hp' : p.Holds all) : cs = all := by
  have hmap : cs.map some = all.map some := hp.take_eq.symm.trans hp'.take_eq
  exact List.map_injective_iff.2 (Option.some_injective _) hmap

theorem programAddCommand_accepted (hp : p.Holds cs) (command : Command) :
    ∃ err p', programAddCommand p command = .ok (err, p')
      ∧ p'.Holds (cs ++ accepted [command]) := by
  by_cases hcheck : checkCommand command = .errNone
  · obtain ⟨p', hadd, hp'⟩ := programAddCommand_accept hp hcheck
    exact ⟨_, p', hadd, by simpa [accepted, hcheck] using hp'⟩
  · exact ⟨_, p, programAddCommand_reject p hcheck, by simpa [accepted, hcheck] using hp⟩

/-- At the end of the file the loop returns what it has. -/
theorem readCommands_eof {fuel : ℕ} (hfuel : 0 < fuel) (c : Char) (p : Program) :
    readCommands inner fuel c ⟨[], true⟩ p = .ok (.errNone, p) := by
  obtain ⟨fuel, rfl⟩ := Nat.exists_eq_succ_of_ne_zero hfuel.ne'
  exact if_pos rfl

theorem length_of_spelledCommand {command : Command} {rest : List Char}
    (h : SpelledCommand command text rest) : rest.length < text.length :=
  length_of_commandAt (commandAt_iff.2 ⟨command, h⟩)

/-- A program is read with the commands it spells, with more fuel than it has characters. -/
theorem readCommands_spelled (h : SpelledProgram all text) : ∀ (fuel : ℕ) (c : Char) (p : Program)
    (cs : List Command), p.Holds cs → text.length < inner → text.length < fuel →
    ∃ p', readCommands inner fuel (scanChar c ⟨text, false⟩).1 (scanChar c ⟨text, false⟩).2 p
        = .ok (.errNone, p') ∧ p'.Holds (cs ++ accepted all) := by
  induction h with
  | nil =>
    intro fuel c p cs hp _ hfuel
    exact ⟨p, readCommands_eof hfuel c p, by simpa [accepted] using hp⟩
  | @last command text h =>
    intro fuel c p cs hp hinner hfuel
    have hread := (readCommand_spelled h inner c false).eq_ok hinner
    obtain ⟨err, p', hadd, hp'⟩ := programAddCommand_accepted hp command
    have hlen := length_of_spelledCommand h
    obtain ⟨b, t, rfl⟩ := List.exists_cons_of_length_pos (Nat.zero_lt_of_lt hlen)
    obtain ⟨fuel, rfl⟩ := Nat.exists_eq_succ_of_ne_zero (Nat.ne_zero_of_lt hfuel)
    refine ⟨p', ?_, hp'⟩
    rw [scanChar_cons] at hread ⊢
    rw [readCommands, if_neg Bool.false_ne_true, hread]
    simp only [Exec.ok_bind, hadd]
    refine readCommands_eof ?_ _ p'
    rw [List.length_cons] at hfuel
    omega
  | @cons command commands text d rest h _ ih =>
    intro fuel c p cs hp hinner hfuel
    have hread := (readCommand_spelled h inner c false).eq_ok hinner
    obtain ⟨err, p', hadd, hp'⟩ := programAddCommand_accepted hp command
    have hlen := length_of_spelledCommand h
    obtain ⟨b, t, rfl⟩ := List.exists_cons_of_length_pos (Nat.zero_lt_of_lt hlen)
    obtain ⟨fuel, rfl⟩ := Nat.exists_eq_succ_of_ne_zero (Nat.ne_zero_of_lt hfuel)
    rw [List.length_cons, List.length_cons] at hlen
    rw [List.length_cons] at hinner hfuel
    obtain ⟨p'', hrest, hp''⟩ := ih fuel d p' _ hp' (by omega) (by omega)
    refine ⟨p'', ?_, by rwa [List.append_assoc, accepted_cons] at hp''⟩
    rw [scanChar_cons] at hread ⊢
    rw [readCommands, if_neg Bool.false_ne_true, hread]
    simp only [Exec.ok_bind, hadd]
    exact hrest

/-- What the loop has read without an error is a program. -/
theorem spelled_of_readCommands : ∀ (fuel : ℕ) (text : List Char) (c : Char) (p : Program)
    (cs : List Command), p.Holds cs →
    readCommands inner fuel (scanChar c ⟨text, false⟩).1 (scanChar c ⟨text, false⟩).2 p
      = .ok (.errNone, p') →
    ∃ all, SpelledProgram all text ∧ p'.Holds (cs ++ accepted all)
  | 0, _, _, _, _, _, h => by cases h
  | fuel + 1, [], c, p, cs, hp, h => by
    cases h.symm.trans (readCommands_eof (Nat.succ_pos fuel) c p)
    exact ⟨[], .nil, by simpa [accepted] using hp⟩
  | fuel + 1, b :: t, c, p, cs, hp, h => by
    by_cases hc : ∃ rest, CommandAt (b :: t) rest
    · obtain ⟨rest, hc⟩ := hc
      obtain ⟨command, hcommand⟩ := commandAt_iff.1 hc
      have hread := readCommand_spelled hcommand inner c false
      obtain ⟨err, p₁, hadd, hp₁⟩ := programAddCommand_accepted hp command
      rw [scanChar_cons] at hread h
      rw [readCommands, if_neg Bool.false_ne_true] at h
      replace h := hread.bind_eq_ok h
      simp only [hadd, Exec.ok_bind] at h
      rcases rest with _ | ⟨d, rest⟩
      · rcases fuel with _ | fuel
        · cases h
        · cases h.symm.trans (readCommands_eof (Nat.succ_pos fuel) 'x' p₁)
          exact ⟨[command], .last hcommand, hp₁⟩
      · obtain ⟨all, hall, hp'⟩ := spelled_of_readCommands fuel rest d p₁ _ hp₁ h
        refine ⟨command :: all, .cons hcommand hall, ?_⟩
        rwa [List.append_assoc, accepted_cons] at hp'
    · -- no other text is read without an error
      exfalso
      by_cases hstalls : Stalls (b :: t)
      · have hread := readCommand_stalls hstalls inner c false
        rw [scanChar_cons] at hread h
        rw [readCommands, if_neg Bool.false_ne_true, hread] at h
        cases h
      · have hread := readCommand_none (List.cons_ne_nil b t) hstalls (not_exists.1 hc) inner c
          false
        rw [scanChar_cons] at hread h
        rw [readCommands, if_neg Bool.false_ne_true] at h
        cases hread.bind_eq_ok h

/-- A file is read without an error exactly if it is a program, whatever the variable of the scan
held, and the listing has the commands that are accepted. -/
theorem programRead_errNone_iff (text : List Char) (currentChar : Char) (cs : List Command) :
    (∃ fuel p, programRead fuel (some text) currentChar = .ok (.errNone, p) ∧ p.Holds cs)
      ↔ ∃ all, SpelledProgram all text ∧ cs = accepted all := by
  constructor
  · rintro ⟨fuel, p, hread, hp⟩
    obtain ⟨all, hall, hp'⟩ :=
      spelled_of_readCommands fuel text currentChar programInit.2 [] programInit_holds hread
    exact ⟨all, hall, hp.unique hp'⟩
  · rintro ⟨all, hall, rfl⟩
    obtain ⟨p, hread, hp⟩ := readCommands_spelled hall (text.length + 1) currentChar programInit.2
      [] programInit_holds (Nat.lt_succ_self _) (Nat.lt_succ_self _)
    exact ⟨text.length + 1, p, hread, hp⟩

end Runs

end KabyLake
