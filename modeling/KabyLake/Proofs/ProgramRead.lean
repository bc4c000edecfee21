import KabyLake.Commands
import KabyLake.Proofs.VirtAddrCodec
import KabyLake.Library.Fuel

/-!
# Reading a program of well-formed lines

A file of well-formed lines is read to its end without an error, and the listing gets the commands
`program_add_command` accepts (`programRead_lines`). It accepts every line but a write of more than
0xFF, whatever its size, so no line is lost exactly when there is no such line.
-/

namespace KabyLake

open Scanf Fuel

/-- White space within a line. -/
structure Blanks where
  chars : List Char
  ne_nil : chars ≠ []
  blank : ∀ c ∈ chars, isSpace c ∧ c ≠ '\n'

/-- A hexadecimal number below a bound, as it is spelled. -/
structure HexBelow (bound : ℕ) where
  digits : List Char
  ne_nil : digits ≠ []
  digit : ∀ c ∈ digits, isXDigit c
  lt : hexValue digits < bound

def HexBelow.value {bound : ℕ} (n : HexBelow bound) : ℕ := hexValue n.digits

inductive Line
  | readInstruction (s₁ s₂ : Blanks) (addr : HexBelow (2 ^ 48))
  | readWord (s₁ s₂ : Blanks) (addr : HexBelow (2 ^ 48))
  | readByte (s₁ s₂ : Blanks) (addr : HexBelow (2 ^ 48))
  | writeByte (s₁ s₂ : Blanks) (data : HexBelow (2 ^ 8)) (s₃ : Blanks) (addr : HexBelow (2 ^ 48))
  | writeWord (s₁ s₂ : Blanks) (data : HexBelow (2 ^ 32)) (s₃ : Blanks) (addr : HexBelow (2 ^ 48))

namespace Line

def text : Line → List Char
  | readInstruction s₁ s₂ addr =>
    'R' :: (s₁.chars ++ 'I' :: (s₂.chars ++ '@' :: '0' :: 'x' :: addr.digits))
  | readWord s₁ s₂ addr =>
    'R' :: (s₁.chars ++ 'D' :: 'W' :: (s₂.chars ++ '@' :: '0' :: 'x' :: addr.digits))
  | readByte s₁ s₂ addr =>
    'R' :: (s₁.chars ++ 'D' :: 'B' :: (s₂.chars ++ '@' :: '0' :: 'x' :: addr.digits))
  | writeByte s₁ s₂ data s₃ addr =>
    'W' :: (s₁.chars ++ 'D' :: 'B' :: (s₂.chars ++ '0' :: 'x' ::
      (data.digits ++ (s₃.chars ++ '@' :: '0' :: 'x' :: addr.digits))))
  | writeWord s₁ s₂ data s₃ addr =>
    'W' :: (s₁.chars ++ 'D' :: 'W' :: (s₂.chars ++ '0' :: 'x' ::
      (data.digits ++ (s₃.chars ++ '@' :: '0' :: 'x' :: addr.digits))))

/-- The virtual address of a number below 2^48: four indices of nine bits, an offset of twelve. -/
def address (a : ℕ) : VirtAddr where
  reserved := 0
  pgdEntry := BitVec.ofNat 9 (a / 2 ^ 39)
  pudEntry := BitVec.ofNat 9 (a / 2 ^ 30)
  pmdEntry := BitVec.ofNat 9 (a / 2 ^ 21)
  pteEntry := BitVec.ofNat 9 (a / 2 ^ 12)
  pageOffset := BitVec.ofNat 12 a

/-- The command the line spells. -/
def command : Line → Command
  | readInstruction _ _ addr => ⟨.read, .instruction, 0, 0, address addr.value⟩
  | readWord _ _ addr => ⟨.read, .data, 4, 0, address addr.value⟩
  | readByte _ _ addr => ⟨.read, .data, 1, 0, address addr.value⟩
  | writeByte _ _ data _ addr => ⟨.write, .data, 1, BitVec.ofNat 32 data.value, address addr.value⟩
  | writeWord _ _ data _ addr => ⟨.write, .data, 4, BitVec.ofNat 32 data.value, address addr.value⟩

/-- The line writes no word above 0xFF. -/
def Fits : Line → Prop
  | writeWord _ _ data _ _ => data.value ≤ 0xFF
  | _ => True

instance : DecidablePred Fits := fun l => by
  cases l <;> unfold Fits <;> infer_instance

end Line

/-- The text of a file of these lines, each ended by a newline. -/
def fileText (lines : List Line) : List Char := lines.flatMap fun l => l.text ++ ['\n']

section Tokens

variable {fuel : ℕ} {c d t : Char} {r : List Char} {e : Bool} {bound : ℕ}

theorem skipSpaces_stop (hd : ¬ isSpace d) (stream : Stream) (hfuel : 0 < fuel) :
    skipSpaces fuel d stream = .ok (d, stream) := by
  obtain ⟨fuel, rfl⟩ := Nat.exists_eq_succ_of_ne_zero hfuel.ne'
  simp [skipSpaces, hd]

/-- White space is scanned with one fuel for each character of it. -/
theorem scanPastSpaces_gives (hd : ¬ isSpace d) :
    ∀ (bs : List Char) (c : Char) (fuel : ℕ), (∀ b ∈ bs, isSpace b) →
      Gives Fault.fuel bs.length fuel (scanPastSpaces fuel c ⟨bs ++ d :: r, e⟩) (d, ⟨r, e⟩)
  | _, _, 0, _ => .inr ⟨Nat.zero_le _, rfl⟩
  | [], _, _ + 1, _ => .inl (skipSpaces_stop hd _ (Nat.succ_pos _))
  | b :: bs, c, fuel + 1, hbs => by
    have hb : isSpace b = true := hbs b List.mem_cons_self
    have ih := scanPastSpaces_gives hd bs b fuel fun b hb => hbs b (List.mem_cons_of_mem _ hb)
    simp only [scanPastSpaces, List.cons_append, scanChar_cons, skipSpaces, hb, if_true] at ih ⊢
    exact ih.imp_right fun h => ⟨Nat.succ_le_succ h.1, h.2⟩

theorem scanHex_number (n : HexBelow bound) (hbound : bound ≤ 2 ^ 64) (ht : ¬ isXDigit t)
    (hx : t ≠ 'x' ∧ t ≠ 'X') :
    scanHex ⟨n.digits ++ t :: r, e⟩
      = (some (BitVec.ofNat 64 n.value), ⟨t :: r, e⟩) :=
  scanHex_digits n.ne_nil n.digit ht hx (n.lt.trans_le hbound)

theorem not_isXDigit_of_blank (h : isSpace t) : ¬ isXDigit t ∧ t ≠ 'x' ∧ t ≠ 'X' := by
  refine ⟨not_isXDigit_of_isSpace h, ?_, ?_⟩
  · rintro rfl
    exact absurd h (by decide)
  · rintro rfl
    exact absurd h (by decide)

/-- An index of nine bits, as `init_virt_addr64` takes it. -/
theorem indexBits_eq {a : ℕ} (ha : a < 2 ^ 64) (k : ℕ) :
    ((BitVec.ofNat 64 a >>> k).setWidth 16 &&& 0x01FF).setWidth 9 = BitVec.ofNat 9 (a / 2 ^ k) := by
  apply BitVec.eq_of_toNat_eq
  rw [indexBits_toNat, BitVec.toNat_ofNat, BitVec.toNat_ofNat, Nat.mod_eq_of_lt ha]

theorem offsetBits_eq {a : ℕ} (ha : a < 2 ^ 64) :
    ((BitVec.ofNat 64 a).setWidth 16 &&& 0x0FFF).setWidth 12 = BitVec.ofNat 12 a := by
  apply BitVec.eq_of_toNat_eq
  rw [offsetBits_toNat, BitVec.toNat_ofNat, BitVec.toNat_ofNat, Nat.mod_eq_of_lt ha]

theorem initVirtAddr64_ofNat (n : HexBelow (2 ^ 48)) :
    initVirtAddr64 (BitVec.ofNat 64 n.value) = Line.address n.value := by
  have ha : n.value < 2 ^ 64 := n.lt.trans (by norm_num)
  simp only [initVirtAddr64, Line.address, indexBits_eq ha, offsetBits_eq ha]

theorem readAddress_number (n : HexBelow (2 ^ 48)) :
    readAddress '@' ⟨'0' :: 'x' :: n.digits ++ '\n' :: r, e⟩
      = some (Line.address n.value, 'x', ⟨'\n' :: r, e⟩) := by
  have hscan := scanHex_number (r := r) (e := e) n (by norm_num)
    (not_isXDigit_of_blank (t := '\n') (by decide)).1 (by decide)
  simp only [readAddress, List.cons_append, scanChar_cons, hscan, Option.getD_some,
    initVirtAddr64_ofNat, ne_eq, not_true_eq_false, if_false]

theorem scanPastSpaces_token (s : Blanks) (c : Char) (hd : ¬ isSpace d)
    (hfuel : s.chars.length < fuel) :
    scanPastSpaces fuel c ⟨s.chars ++ d :: r, e⟩ = .ok (d, ⟨r, e⟩) :=
  (scanPastSpaces_gives hd s.chars c fuel fun b hb => (s.blank b hb).1).eq_ok hfuel

theorem readWriteData_number (data : HexBelow bound) (hbound : bound ≤ 2 ^ 32) (s₃ : Blanks)
    (hfuel : s₃.chars.length < fuel) :
    readWriteData fuel .write '0' ⟨'x' :: (data.digits ++ (s₃.chars ++ '@' :: r)), e⟩
      = .ok (some (BitVec.ofNat 32 data.value, '@', ⟨r, e⟩)) := by
  have hpast := scanPastSpaces_token (r := r) (e := e) s₃ 'x'
    (d := '@') (by decide) hfuel
  obtain ⟨b, bs, hs⟩ := List.exists_cons_of_ne_nil s₃.ne_nil
  have hb : isSpace b := (s₃.blank b (by rw [hs]; simp)).1
  have hscan := scanHex_number (r := bs ++ '@' :: r) (e := e) data
    (hbound.trans (by norm_num)) (not_isXDigit_of_blank hb).1 (not_isXDigit_of_blank hb).2
  rw [hs, List.cons_append] at hpast ⊢
  have hword : (BitVec.ofNat 64 data.value).setWidth 32 = BitVec.ofNat 32 data.value := by
    apply BitVec.eq_of_toNat_eq
    simp only [BitVec.toNat_setWidth, BitVec.toNat_ofNat]
    omega
  simp only [readWriteData, scanChar_cons, hscan, hpast, hword, Option.getD_some, Exec.ok_bind,
    Exec.pure_eq, ne_eq, not_true_eq_false, if_true, if_false]

/-- The body of the loop, from what each of its parts reads. -/
theorem readCommand_of_parts {o k₁ k₂ k₃ k₄ k₅ : Char} {st st₁ st₂ st₃ st₄ st₅ : Stream}
    {type : MemAccess} {dataSize : ℕ} {data : Word} {vaddr : VirtAddr} (ho : o = 'W' ∨ o = 'R')
    (hpos : 0 < fuel) (h₁ : scanPastSpaces fuel o st = .ok (k₁, st₁))
    (h₂ : readType k₁ st₁ = some ((type, dataSize), k₂, st₂))
    (h₃ : scanPastSpaces fuel k₂ st₂ = .ok (k₃, st₃))
    (h₄ : readWriteData fuel (if o = 'W' then .write else .read) k₃ st₃
      = .ok (some (data, k₄, st₄)))
    (h₅ : readAddress k₄ st₄ = some (vaddr, k₅, st₅)) :
    readCommand fuel o st
      = .ok (some (⟨if o = 'W' then .write else .read, type, dataSize, data, vaddr⟩, k₅, st₅)) := by
  have hspace : ¬ isSpace o := by
    rcases ho with rfl | rfl <;> decide
  have horder : ¬ (o ≠ 'W' ∧ o ≠ 'R') := by tauto
  simp only [readCommand, skipSpaces_stop hspace st hpos, horder, h₁, h₂, h₃, h₄, h₅, if_false,
    Exec.ok_bind, Exec.pure_eq]

/-- The body of the loop on a line. -/
theorem readCommand_line (l : Line) (hfuel : l.text.length < fuel) :
    ∃ c t, l.text = c :: t
      ∧ readCommand fuel c ⟨t ++ '\n' :: r, e⟩ = .ok (some (l.command, 'x', ⟨'\n' :: r, e⟩)) := by
  have hpos : 0 < fuel := by omega
  rcases l with ⟨s₁, s₂, addr⟩ | ⟨s₁, s₂, addr⟩ | ⟨s₁, s₂, addr⟩ | ⟨s₁, s₂, data, s₃, addr⟩ |
    ⟨s₁, s₂, data, s₃, addr⟩
  all_goals
    refine ⟨_, _, rfl, ?_⟩
    simp only [Line.text, List.length_append, List.length_cons] at hfuel
    simp only [List.append_assoc, List.cons_append]
  case readInstruction | readWord | readByte =>
    exact readCommand_of_parts (by decide) hpos (scanPastSpaces_token s₁ _ (by decide) (by omega))
      rfl (scanPastSpaces_token s₂ _ (by decide) (by omega)) rfl (readAddress_number addr)
  case writeByte | writeWord =>
    exact readCommand_of_parts (by decide) hpos (scanPastSpaces_token s₁ _ (by decide) (by omega))
      rfl (scanPastSpaces_token s₂ _ (by decide) (by omega))
      (readWriteData_number data (by norm_num) s₃ (by omega)) (readAddress_number addr)

end Tokens

section Listing

variable {p : Program} {cs : List Command} {c : Command}

/-- The listing holds these commands, in a block with room for `allocated`. -/
structure Program.Holds (p : Program) (cs : List Command) : Prop where
  take_eq : p.listing.take p.nbLines = cs.map some
  nbLines_eq : p.nbLines = cs.length
  nbLines_le : p.nbLines ≤ p.allocated
  allocated_le : p.allocated ≤ p.listing.length
  pos : 0 < p.allocated

theorem programInit_holds : programInit.2.Holds [] := ⟨rfl, rfl, by decide, by decide, by decide⟩

theorem programAddCommand_reject (p : Program) (h : checkCommand c ≠ .errNone) :
    programAddCommand p c = .ok (checkCommand c, p) := by
  simp only [programAddCommand, h, ne_eq, not_false_eq_true, if_true, Exec.pure_eq]

theorem growListing_holds (hp : p.Holds cs) :
    (growListing p).Holds cs ∧ (growListing p).nbLines < (growListing p).allocated := by
  obtain ⟨htake, hlen, hle, hal, hpos⟩ := hp
  unfold growListing
  split_ifs with hfull
  · refine ⟨⟨?_, hlen, ?_, ?_, ?_⟩, ?_⟩
    · show (reallocListing p.listing (2 * p.allocated)).take p.nbLines = cs.map some
      rw [reallocListing, List.take_append_of_le_length (by rw [List.length_take]; omega),
        List.take_take, Nat.min_eq_left (by omega), htake]
    · show p.nbLines ≤ 2 * p.allocated
      omega
    · show 2 * p.allocated ≤ (reallocListing p.listing (2 * p.allocated)).length
      rw [reallocListing, List.length_append, List.length_take, List.length_replicate]
      omega
    · show 0 < 2 * p.allocated
      omega
    · show p.nbLines < 2 * p.allocated
      omega
  · exact ⟨⟨htake, hlen, hle, hal, hpos⟩, by omega⟩

theorem programAddCommand_accept (hp : p.Holds cs) (h : checkCommand c = .errNone) :
    ∃ p', programAddCommand p c = .ok (.errNone, p') ∧ p'.Holds (cs ++ [c]) := by
  obtain ⟨⟨htake, hlen, hle, hal, hpos⟩, hlt⟩ := growListing_holds hp
  have hslot : (growListing p).nbLines < (growListing p).listing.length := by omega
  have hset : ((growListing p).listing.set (growListing p).nbLines (some c)).take
      ((growListing p).nbLines + 1) = cs.map some ++ [some c] := by
    rw [List.take_succ_eq_append_getElem (by rw [List.length_set]; omega), List.getElem_set_self,
      List.take_set_of_le (le_refl _), htake]
  refine ⟨⟨(growListing p).listing.set (growListing p).nbLines (some c),
    (growListing p).nbLines + 1, (growListing p).allocated⟩, ?_, ⟨?_, ?_, hlt, ?_, hpos⟩⟩
  · simp only [programAddCommand, h, hslot, ne_eq, not_true_eq_false, if_false, if_true,
      Exec.pure_eq]
  · rw [List.map_append]
    exact hset
  · simp [hlen]
  · simpa using hal

/-- Every line but a write of a word above 0xFF is accepted. -/
theorem checkCommand_line (l : Line) : checkCommand l.command = .errNone ↔ l.Fits := by
  rcases l with ⟨s₁, s₂, addr⟩ | ⟨s₁, s₂, addr⟩ | ⟨s₁, s₂, addr⟩ | ⟨s₁, s₂, data, s₃, addr⟩ |
    ⟨s₁, s₂, data, s₃, addr⟩
  case readInstruction | readWord | readByte => simp [checkCommand, Line.command, Line.Fits]
  case writeByte =>
    have hlt : data.value < 2 ^ 8 := data.lt
    simp only [checkCommand, Line.command, Line.Fits, gt_iff_lt, BitVec.lt_def, BitVec.toNat_ofNat]
    simp
    omega
  case writeWord =>
    have hlt : data.value < 2 ^ 32 := data.lt
    simp only [checkCommand, Line.command, Line.Fits, gt_iff_lt, BitVec.lt_def, BitVec.toNat_ofNat]
    simp
    omega

end Listing

section Runs

variable {lines : List Line} {cs : List Command}

/-- The loop on the lines left, from the scan of their first character. -/
theorem readCommands_lines {inner : ℕ} : ∀ (lines : List Line) (cs : List Command) (p : Program)
    (c : Char) {fuel : ℕ}, p.Holds cs → (∀ l ∈ lines, l.text.length < inner) → lines.length < fuel →
    ∃ p', readCommands inner fuel (scanChar c ⟨fileText lines, false⟩).1
        (scanChar c ⟨fileText lines, false⟩).2 p = .ok (.errNone, p')
      ∧ p'.Holds (cs ++ (lines.filter Line.Fits).map Line.command)
  | [], cs, p, c, fuel, hp, _, hfuel => by
    obtain ⟨fuel, rfl⟩ := Nat.exists_eq_succ_of_ne_zero (Nat.ne_zero_of_lt hfuel)
    exact ⟨p, rfl, by simpa using hp⟩
  | l :: lines, cs, p, c, fuel, hp, hinner, hfuel => by
    obtain ⟨fuel, rfl⟩ := Nat.exists_eq_succ_of_ne_zero (Nat.ne_zero_of_lt hfuel)
    obtain ⟨d, t, htext, hread⟩ := readCommand_line (r := fileText lines) (e := false) l
      (hinner l List.mem_cons_self)
    have hfile : fileText (l :: lines) = d :: (t ++ '\n' :: fileText lines) := by
      simp [fileText, htext]
    have hadd : ∃ err p', programAddCommand p l.command = .ok (err, p')
        ∧ p'.Holds (cs ++ ([l].filter Line.Fits).map Line.command) := by
      by_cases hfits : l.Fits
      · obtain ⟨p', hadd, hp'⟩ := programAddCommand_accept hp ((checkCommand_line l).2 hfits)
        exact ⟨_, p', hadd, by simpa [hfits] using hp'⟩
      · exact ⟨_, p, programAddCommand_reject p (mt (checkCommand_line l).1 hfits),
          by simpa [hfits] using hp⟩
    obtain ⟨err, p', hadd, hp'⟩ := hadd
    obtain ⟨p'', hrest, hp''⟩ := readCommands_lines lines _ p' '\n' hp'
      (fun l hl => hinner l (List.mem_cons_of_mem _ hl)) (Nat.lt_of_succ_lt_succ hfuel)
    refine ⟨p'', ?_, ?_⟩
    · rw [hfile, scanChar_cons, readCommands, hread]
      simp only [Bool.false_eq_true, if_false, Exec.ok_bind, hadd, scanChar_cons]
      exact hrest
    · rw [List.append_assoc, ← List.map_append, ← List.filter_append] at hp''
      exact hp''

theorem length_fileText : ∀ lines : List Line, lines.length ≤ (fileText lines).length
    ∧ ∀ l ∈ lines, l.text.length < (fileText lines).length
  | [] => by simp
  | l :: lines => by
    obtain ⟨hlen, htext⟩ := length_fileText lines
    have hcons : (fileText (l :: lines)).length = l.text.length + 1 + (fileText lines).length := by
      simp [fileText]
      omega
    refine ⟨by simp only [List.length_cons]; omega, fun l' hl => ?_⟩
    rcases List.mem_cons.1 hl with rfl | hl
    · omega
    · have := htext l' hl
      omega

/-- A file of lines is read without an error, and the listing holds those that fit. -/
theorem programRead_lines (lines : List Line) (c : Char) {fuel : ℕ}
    (hfuel : (fileText lines).length < fuel) :
    ∃ p, programRead fuel (some (fileText lines)) c = .ok (.errNone, p)
      ∧ p.Holds ((lines.filter Line.Fits).map Line.command) := by
  obtain ⟨hlen, htext⟩ := length_fileText lines
  have hinner : ∀ l ∈ lines, l.text.length < fuel := fun l hl => (htext l hl).trans hfuel
  obtain ⟨p, hrun, hp⟩ := readCommands_lines lines [] _ c programInit_holds hinner
    (Nat.lt_of_le_of_lt hlen hfuel)
  exact ⟨p, hrun, hp⟩

/-- The file is read without an error and the listing holds the command of each line, in order. -/
def KeepsLines (lines : List Line) : Prop :=
  ∃ enough, ∀ fuel ≥ enough, ∀ c, ∃ p,
    programRead fuel (some (fileText lines)) c = .ok (.errNone, p)
    ∧ p.nbLines = lines.length
    ∧ p.listing.take p.nbLines = lines.map fun l => some l.command

theorem fits_of_keepsLines (h : KeepsLines lines) : ∀ l ∈ lines, l.Fits := by
  obtain ⟨enough, hkeeps⟩ := h
  have hfuel : (fileText lines).length < enough + (fileText lines).length + 1 := by omega
  obtain ⟨p, hrun, hp⟩ := programRead_lines lines ' ' hfuel
  obtain ⟨q, hrun', hlen, -⟩ := hkeeps (enough + (fileText lines).length + 1) (by omega) ' '
  rw [hrun] at hrun'
  cases hrun'
  have hfilter : (lines.filter Line.Fits).length = lines.length := by
    rw [← hlen, hp.nbLines_eq, List.length_map]
  simpa using List.length_filter_eq_length_iff.1 hfilter

/-- No line is lost exactly when no word above 0xFF is written. -/
theorem programRead_keepsLines_iff (lines : List Line) :
    KeepsLines lines ↔ ∀ l ∈ lines, l.Fits := by
  refine ⟨fits_of_keepsLines, fun hfits => ?_⟩
  refine ⟨(fileText lines).length + 1, fun fuel hfuel c => ?_⟩
  obtain ⟨p, hrun, hp⟩ := programRead_lines lines c (Nat.lt_of_succ_le hfuel)
  rw [List.filter_eq_self.2 (by simpa using hfits)] at hp
  refine ⟨p, hrun, by simpa using hp.nbLines_eq, ?_⟩
  rw [hp.take_eq, List.map_map]
  rfl

/-- The last line of tests/files/commands01.txt. -/
def beefLine : Line :=
  let blank : Blanks := ⟨[' '], by decide, List.forall_mem_singleton.2 (by decide)⟩
  .writeWord blank blank
    ⟨"BEEF".toList, by decide, List.all_eq_true.1 (by decide), by decide⟩ blank
    ⟨"0000000040000010".toList, by decide, List.all_eq_true.1 (by decide), by decide⟩

/-- It is read without an error and lost. -/
theorem programRead_loses_beefLine :
    fileText [beefLine] = "W DW 0xBEEF @0x0000000040000010\n".toList
      ∧ programRead 40 (some (fileText [beefLine])) ' ' = .ok (.errNone, programInit.2)
      ∧ ¬ KeepsLines [beefLine] := by
  refine ⟨by decide, by decide, fun h => ?_⟩
  exact absurd (fits_of_keepsLines h beefLine (by simp)) (by decide)

end Runs

end KabyLake
