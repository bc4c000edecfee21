import KabyLake.Library.Run
import KabyLake.Proofs.ProgramRead

/-!
# The listing of a program

The listing holds the accepted commands whatever the order of additions and shrinks
(`listing_keeps_commands`). What `program_add_command` accepts is not quite what is well-formed: it
refuses a write of a word above 0xFF, and it takes any multiple of the size of a word for a size
(`programAddCommand_wellFormed_iff`).
-/

namespace KabyLake

open Run

variable {p : Program} {cs : List Command} {c : Command}

section Runs

inductive ListingCall
  | add (command : Command)
  | shrink
  deriving DecidableEq, Repr

def listingCall (p : Program) : ListingCall → Exec (ErrorCode × Program)
  | .add command => programAddCommand p command
  | .shrink => .ok (programShrink p)

/-- The code that a call returns. -/
def ListingCall.code : ListingCall → ErrorCode
  | .add command => checkCommand command
  | .shrink => .errNone

/-- The command a call that returned `err` has put into the listing. -/
def ListingCall.accepted : ListingCall → ErrorCode → List Command
  | .add command, err => if err = .errNone then [command] else []
  | .shrink, _ => []

/-- The commands accepted, by what the calls have returned. -/
def acceptedCommands (calls : List ListingCall) (codes : List ErrorCode) : List Command :=
  (List.zipWith ListingCall.accepted calls codes).flatten

theorem programShrink_holds (hp : p.Holds cs) :
    (programShrink p).1 = .errNone ∧ (programShrink p).2.Holds cs := by
  obtain ⟨htake, hlen, hle, hal, hpos⟩ := hp
  have hroom : ∀ n, p.nbLines ≤ n →
      (reallocListing p.listing n).take p.nbLines = cs.map some
        ∧ n ≤ (reallocListing p.listing n).length := by
    intro n hn
    have hmin : p.nbLines ≤ (p.listing.take n).length := by
      rw [List.length_take]
      omega
    refine ⟨?_, ?_⟩
    · rw [reallocListing, List.take_append_of_le_length hmin, List.take_take, min_eq_left hn,
        htake]
    · rw [reallocListing, List.length_append, List.length_take, List.length_replicate]
      omega
  unfold programShrink
  split_ifs with hlines
  · exact ⟨rfl, (hroom _ le_rfl).1, hlen, le_rfl, (hroom _ le_rfl).2, hlines⟩
  · have hzero : p.nbLines ≤ 10 := by omega
    exact ⟨rfl, (hroom 10 hzero).1, hlen, hzero, (hroom 10 hzero).2, by norm_num⟩

/-- A call keeps the listing and adds the command it accepts. -/
theorem listingCall_holds (hp : p.Holds cs) (call : ListingCall) :
    ∃ p', listingCall p call = .ok (call.code, p') ∧ p'.Holds (cs ++ call.accepted call.code) := by
  rcases call with command | _
  · rw [ListingCall.code]
    by_cases hcheck : checkCommand command = .errNone
    · obtain ⟨p', hadd, hp'⟩ := programAddCommand_accept hp hcheck
      rw [hcheck]
      exact ⟨p', hadd, hp'⟩
    · have hnone : (ListingCall.add command).accepted (checkCommand command) = [] := if_neg hcheck
      refine ⟨p, programAddCommand_reject p hcheck, ?_⟩
      rwa [hnone, List.append_nil]
  · obtain ⟨hcode, hshrink⟩ := programShrink_holds hp
    refine ⟨(programShrink p).2, ?_, by rwa [ListingCall.accepted, List.append_nil]⟩
    rw [listingCall, ListingCall.code, ← hcode]

theorem run_holds : ∀ (calls : List ListingCall) {cs : List Command} {p : Program}, p.Holds cs →
    ∃ p', run listingCall p calls = .ok (calls.map ListingCall.code, p')
      ∧ p'.Holds (cs ++ acceptedCommands calls (calls.map ListingCall.code))
  | [], cs, p, hp => ⟨p, rfl, by simpa [acceptedCommands] using hp⟩
  | call :: calls, cs, p, hp => by
    obtain ⟨p', hcall, hp'⟩ := listingCall_holds hp call
    obtain ⟨p'', hrun, hp''⟩ := run_holds calls hp'
    refine ⟨p'', by rw [run_cons_of_ok hcall, hrun, List.map_cons], ?_⟩
    rw [acceptedCommands, List.map_cons, List.zipWith_cons_cons, List.flatten_cons,
      ← List.append_assoc]
    exact hp''

/-- Additions and shrinks after `program_init` all return, so each command is written to a slot of
the block; an addition returns what the check of its command does. The lines are at most what is
recorded as allocated, that is at most the slots there are, and the first slots are the accepted
commands in order. -/
theorem listing_keeps_commands (calls : List ListingCall) :
    ∃ codes p, run listingCall programInit.2 calls = .ok (codes, p)
      ∧ codes = calls.map ListingCall.code
      ∧ p.nbLines ≤ p.allocated ∧ p.allocated ≤ p.listing.length
      ∧ p.listing.take p.nbLines = (acceptedCommands calls codes).map some
      ∧ p.nbLines = (acceptedCommands calls codes).length := by
  obtain ⟨p, hrun, hp⟩ := run_holds calls programInit_holds
  exact ⟨_, p, hrun, rfl, hp.nbLines_le, hp.allocated_le, hp.take_eq, hp.nbLines_eq⟩

end Runs

section Accepted

/-- The commands `program_add_command` is to accept. -/
def Command.WellFormed (c : Command) : Prop :=
  c.type = .instruction ∧ c.order = .read ∧ c.dataSize = 0 ∧ c.writeData = 0
    ∨ c.type = .data ∧ c.order = .read ∧ (c.dataSize = 1 ∨ c.dataSize = 4) ∧ c.writeData = 0
    ∨ c.type = .data ∧ c.order = .write
      ∧ (c.dataSize = 1 ∧ c.writeData ≤ 0xFF ∨ c.dataSize = 4)

/-- A write of a word that is no byte. -/
def Command.WideWord (c : Command) : Prop :=
  c.type = .data ∧ c.order = .write ∧ c.dataSize = 4 ∧ 0xFF < c.writeData

/-- Data of several words, with a value that a read or a write of a byte could have. -/
def Command.ManyWords (c : Command) : Prop :=
  c.type = .data ∧ 4 ∣ c.dataSize ∧ 4 < c.dataSize
    ∧ (c.order = .read ∧ c.writeData = 0 ∨ c.order = .write ∧ c.writeData ≤ 0xFF)

/-- The command is accepted exactly if it is well-formed, and then it is added to the listing;
otherwise the program is as before. -/
def AddsWellFormed (p : Program) (c : Command) : Prop :=
  ∃ err p', programAddCommand p c = .ok (err, p') ∧ (err = .errNone ↔ c.WellFormed)
    ∧ (err = .errNone → p'.nbLines = p.nbLines + 1
      ∧ p'.listing.take p'.nbLines = p.listing.take p.nbLines ++ [some c])
    ∧ (err ≠ .errNone → p' = p)

theorem check_eq_errNone {P : Prop} [Decidable P] {err : ErrorCode} :
    (if P then .errBadParameter else err) = ErrorCode.errNone ↔ ¬ P ∧ err = .errNone := by
  split_ifs with h
  · exact iff_of_false nofun fun hn => hn.1 h
  · exact (and_iff_right h).symm

theorem checkCommand_iff (c : Command) : checkCommand c = .errNone
    ↔ c.type = .instruction ∧ c.order = .read ∧ c.dataSize = 0 ∧ c.writeData = 0
      ∨ c.type = .data ∧ (c.dataSize = 1 ∨ 4 ∣ c.dataSize ∧ c.dataSize ≠ 0)
        ∧ (c.order = .read ∧ c.writeData = 0 ∨ c.order = .write ∧ c.writeData ≤ 0xFF) := by
  obtain ⟨order, type, dataSize, writeData, vaddr⟩ := c
  have hsize : dataSize = 1 ∨ 4 ∣ dataSize ∧ dataSize ≠ 0
      ↔ ¬ (dataSize ≠ 0 ∧ dataSize ≠ 1 ∧ dataSize % 4 ≠ 0) ∧ ¬ dataSize = 0 := by
    omega
  have hdata : writeData ≤ 0xFF ↔ ¬ 0xFF < writeData := BitVec.not_lt.symm
  simp only [checkCommand, hsize, hdata, check_eq_errNone, gt_iff_lt]
  cases type with
  | instruction =>
    simp only [if_true, check_eq_errNone]
    rcases order with _ | _ | _ <;> simp
    tauto
  | data =>
    simp only [reduceCtorEq, if_false]
    rcases order with _ | _ | _ <;> simp [check_eq_errNone]
    all_goals tauto
  | invalid => simp

/-- The check tells the well-formed commands from the others but for these two kinds. -/
theorem checkCommand_wellFormed_iff (c : Command) :
    (checkCommand c = .errNone ↔ c.WellFormed) ↔ ¬ c.WideWord ∧ ¬ c.ManyWords := by
  have hdata : 0xFF < c.writeData ↔ ¬ c.writeData ≤ 0xFF := BitVec.not_le.symm
  rw [checkCommand_iff]
  unfold Command.WellFormed Command.WideWord Command.ManyWords
  rw [hdata]
  rcases c.type with _ | _ | _ <;> rcases c.order with _ | _ | _ <;>
    simp only [reduceCtorEq, true_and, false_and, and_false, or_false, false_or, not_false_eq_true,
      and_self, iff_self]
  case data.read =>
    by_cases hd : c.writeData = 0
    · simp only [hd, and_true]
      omega
    · simp only [hd, and_false, not_false_eq_true, iff_self]
  case data.write =>
    by_cases hd : c.writeData ≤ 0xFF
    · simp only [hd, and_true, not_true_eq_false, and_false, not_false_eq_true, true_and]
      omega
    · simp only [hd, and_false, not_false_eq_true, and_true, false_or, false_iff]

/-- `program_add_command` does as it should exactly for a command that is neither a write of a word
above 0xFF nor of data of several words. -/
theorem programAddCommand_wellFormed_iff (hp : p.Holds cs) (c : Command) :
    AddsWellFormed p c ↔ ¬ c.WideWord ∧ ¬ c.ManyWords := by
  rw [← checkCommand_wellFormed_iff]
  by_cases hcheck : checkCommand c = .errNone
  · obtain ⟨p', hadd, hp'⟩ := programAddCommand_accept hp hcheck
    have happend : p'.nbLines = p.nbLines + 1
        ∧ p'.listing.take p'.nbLines = p.listing.take p.nbLines ++ [some c] := by
      refine ⟨?_, ?_⟩
      · rw [hp'.nbLines_eq, hp.nbLines_eq, List.length_append, List.length_singleton]
      · rw [hp'.take_eq, hp.take_eq, List.map_append, List.map_singleton]
    constructor
    · rintro ⟨err, q, hcall, hiff, -, -⟩
      rw [hadd, Except.ok.injEq, Prod.mk.injEq] at hcall
      rw [hcheck]
      rwa [← hcall.1] at hiff
    · intro hiff
      rw [hcheck] at hiff
      exact ⟨.errNone, p', hadd, hiff, fun _ => happend, fun h => absurd rfl h⟩
  · have hreject := programAddCommand_reject p hcheck
    constructor
    · rintro ⟨err, q, hcall, hiff, -, -⟩
      rw [hreject, Except.ok.injEq, Prod.mk.injEq] at hcall
      rwa [← hcall.1] at hiff
    · exact fun hiff => ⟨_, p, hreject, hiff, fun h => absurd h hcheck, fun _ => rfl⟩

/-- A listing that is full. -/
def fullListing : Program :=
  ⟨List.replicate 10 (some ⟨.read, .instruction, 0, 0, ⟨0, 0, 0, 0, 0, 4⟩⟩), 10, 10⟩

theorem fullListing_holds :
    fullListing.Holds (List.replicate 10 ⟨.read, .instruction, 0, 0, ⟨0, 0, 0, 0, 0, 4⟩⟩) :=
  ⟨rfl, rfl, by decide, by decide, by decide⟩

/-- The write of a byte is added to a full listing, and the write of an instruction refused. -/
theorem programAddCommand_wellFormed_full :
    AddsWellFormed fullListing ⟨.write, .data, 1, 0xFF, ⟨0, 0, 0, 0, 0, 16⟩⟩
      ∧ AddsWellFormed fullListing ⟨.write, .instruction, 0, 0, ⟨0, 0, 0, 0, 0, 16⟩⟩ := by
  constructor
  · refine (programAddCommand_wellFormed_iff fullListing_holds _).2 ⟨fun h => ?_, fun h => ?_⟩
    · exact absurd h.2.2.1 (by decide)
    · exact absurd h.2.2.1 (by decide)
  · refine (programAddCommand_wellFormed_iff fullListing_holds _).2 ⟨fun h => ?_, fun h => ?_⟩
    · exact absurd h.1 nofun
    · exact absurd h.1 nofun

/-- A write of 0xBEEF is refused, and a read of two words accepted. -/
theorem programAddCommand_not_wellFormed :
    ¬ AddsWellFormed programInit.2 ⟨.write, .data, 4, 0xBEEF, ⟨0, 0, 0, 0, 0, 0⟩⟩
      ∧ ¬ AddsWellFormed programInit.2 ⟨.read, .data, 8, 0, ⟨0, 0, 0, 0, 0, 0⟩⟩ := by
  constructor
  · rintro ⟨err, p, hadd, hiff, -, -⟩
    cases hadd
    exact absurd (hiff.2 (.inr (.inr ⟨rfl, rfl, .inr rfl⟩))) nofun
  · rintro ⟨err, p, hadd, hiff, -, -⟩
    cases hadd
    have hwf := hiff.1 rfl
    simp [Command.WellFormed] at hwf

end Accepted

end KabyLake
