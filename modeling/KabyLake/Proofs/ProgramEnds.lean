import Mathlib.Data.List.TakeWhile
import KabyLake.Proofs.ProgramRead

/-!
# Files on which `program_read` returns

The loops over white space do not test for the end of the file, where a failed scan leaves the white
space in `currentChar`. So one that finds nothing else up to the end never ends. Any other character
left there ends the call with an error, and a command takes characters away, so the call returns on
every other file (`programRead_returns_iff`).
-/

namespace KabyLake

open Scanf Fuel

/-- White space alone. -/
def Blank (text : List Char) : Prop := text ≠ [] ∧ ∀ c ∈ text, isSpace c

/-- After white space the text goes on with the token and then the rest. -/
def TokenAt (token text rest : List Char) : Prop := text.dropWhile isSpace = token ++ rest

instance (token text rest : List Char) : Decidable (TokenAt token text rest) :=
  inferInstanceAs (Decidable (_ = _))

/-- After white space the text goes on with the token, a hexadecimal number and then the rest. -/
def NumberAt (token text rest : List Char) : Prop :=
  ∃ number, TokenAt token text number ∧ afterHex number = rest

def OrderAt (order : Char) (text rest : List Char) : Prop :=
  (order = 'W' ∨ order = 'R') ∧ TokenAt [order] text rest

def TypeAt (text rest : List Char) : Prop :=
  ∃ token ∈ [['I'], ['D', 'W'], ['D', 'B']], TokenAt token text rest

/-- The data of a write; a read has none. -/
def DataAt (order : Char) (text rest : List Char) : Prop :=
  if order = 'W' then NumberAt ['0', 'x'] text rest else rest = text

def CommandAt (text rest : List Char) : Prop :=
  ∃ order t₁ t₂ t₃, OrderAt order text t₁ ∧ TypeAt t₁ t₂ ∧ DataAt order t₂ t₃
    ∧ NumberAt ['@', '0', 'x'] t₃ rest

/-- Only white space is left where a command starts, or after its order, its type or the data of a
write. -/
inductive Stalls : List Char → Prop
  | start {text} : Blank text → Stalls text
  | order {o text t₁} : OrderAt o text t₁ → Blank t₁ → Stalls text
  | type {o text t₁ t₂} : OrderAt o text t₁ → TypeAt t₁ t₂ → Blank t₂ → Stalls text
  | data {text t₁ t₂ t₃} : OrderAt 'W' text t₁ → TypeAt t₁ t₂ → NumberAt ['0', 'x'] t₂ t₃ →
    Blank t₃ → Stalls text

/-- The text stalls after some commands, each with the character after it. -/
inductive Hangs : List Char → Prop
  | stalls {text} : Stalls text → Hangs text
  | next {text c rest} : CommandAt text (c :: rest) → Hangs rest → Hangs text

section Spaces

variable {c d : Char} {t r : List Char} {e : Bool} {fuel n : ℕ}

theorem length_of_tokenAt {token : List Char} (h : TokenAt token t r) :
    token.length + r.length ≤ t.length := by
  have hle : (t.dropWhile isSpace).length ≤ t.length := (List.dropWhile_sublist _).length_le
  rwa [h, List.length_append] at hle

theorem length_of_numberAt {token : List Char} (h : NumberAt token t r) :
    token.length + r.length ≤ t.length := by
  obtain ⟨number, htoken, rfl⟩ := h
  have := length_of_tokenAt htoken
  have := length_afterHex number
  omega

theorem length_of_commandAt (h : CommandAt t r) : r.length < t.length := by
  obtain ⟨o, t₁, t₂, t₃, ho, ⟨token, -, ht⟩, hdata, hnum⟩ := h
  have horder := length_of_tokenAt ho.2
  have htype := length_of_tokenAt ht
  have hnumber := length_of_numberAt hnum
  have hlen : t₃.length ≤ t₂.length := by
    unfold DataAt at hdata
    split_ifs at hdata
    · have := length_of_numberAt hdata
      omega
    · rw [hdata]
  simp only [List.length_cons] at horder
  omega

theorem not_isSpace_of_tokenAt {token : List Char} (h : TokenAt (d :: token) t r) :
    ¬ isSpace d := by
  intro hd
  have hhead := List.head?_dropWhile_not isSpace t
  rw [h] at hhead
  simp [hd] at hhead

/-- White space alone is scanned for ever: at the end `currentChar` stays white space. -/
theorem skipSpaces_blank : ∀ (fuel : ℕ) (c : Char) (t : List Char) (e : Bool), isSpace c →
    (∀ b ∈ t, isSpace b) → skipSpaces fuel c ⟨t, e⟩ = .error .fuel
  | 0, _, _, _, _, _ => rfl
  | fuel + 1, c, [], e, hc, ht => by
    rw [skipSpaces, if_pos hc]
    exact skipSpaces_blank fuel c [] true hc ht
  | fuel + 1, c, b :: t, e, hc, ht => by
    rw [skipSpaces, if_pos hc]
    exact skipSpaces_blank fuel b t e (ht b List.mem_cons_self)
      fun b hb => ht b (List.mem_cons_of_mem _ hb)

theorem scanPastSpaces_blank (h : Blank t) (fuel : ℕ) (c : Char) (e : Bool) :
    scanPastSpaces fuel c ⟨t, e⟩ = .error .fuel := by
  obtain ⟨hne, hblank⟩ := h
  obtain ⟨b, t, rfl⟩ := List.exists_cons_of_ne_nil hne
  exact skipSpaces_blank fuel b t e (hblank b List.mem_cons_self)
    fun b hb => hblank b (List.mem_cons_of_mem _ hb)

theorem scanPastSpaces_tokenAt (h : TokenAt [d] t r) (hn : t.length ≤ n) (fuel : ℕ) (c : Char)
    (e : Bool) : Gives Fault.fuel n fuel (scanPastSpaces fuel c ⟨t, e⟩) (d, ⟨r, e⟩) := by
  have hsplit : t = t.takeWhile isSpace ++ d :: r := by
    rw [← List.singleton_append, ← h, List.takeWhile_append_dropWhile]
  have hle : (t.takeWhile isSpace).length ≤ n := (List.takeWhile_sublist _).length_le.trans hn
  have hgives := scanPastSpaces_gives (r := r) (e := e) (not_isSpace_of_tokenAt h)
    (t.takeWhile isSpace) c fuel fun b hb => List.mem_takeWhile_imp hb
  rw [← hsplit] at hgives
  exact hgives.mono hle

/-- What is scanned before a text that is not white space alone: the first other character, or at
the end of the file the one before it. -/
theorem scanPastSpaces_cases (hc : ¬ isSpace c) (h : ¬ Blank t) (hn : t.length ≤ n) (e : Bool) :
    ∃ d r e', (∀ fuel, Gives Fault.fuel n fuel (scanPastSpaces fuel c ⟨t, e⟩) (d, ⟨r, e'⟩))
      ∧ (TokenAt [d] t r ∨ d = c ∧ r = []) := by
  rcases ht : t.dropWhile isSpace with _ | ⟨d, r⟩
  · have hnil : t = [] := by
      by_contra hne
      exact h ⟨hne, List.dropWhile_eq_nil_iff.1 ht⟩
    subst hnil
    refine ⟨c, [], true, fun fuel => ?_, .inr ⟨rfl, rfl⟩⟩
    rcases Nat.eq_zero_or_pos fuel with rfl | hpos
    · exact .inr ⟨Nat.zero_le _, rfl⟩
    · exact .inl (skipSpaces_stop hc _ hpos)
  · exact ⟨d, r, e, fun fuel => scanPastSpaces_tokenAt ht hn fuel c e, .inl ht⟩

end Spaces

section Parts

variable {c d : Char} {t t' r u rest : List Char} {e : Bool} {fuel n : ℕ}

theorem readType_token {token : List Char} (hmem : token ∈ [['I'], ['D', 'W'], ['D', 'B']])
    (h : d :: r = token ++ u) (e : Bool) : ∃ type dataSize k,
      readType d ⟨r, e⟩ = some ((type, dataSize), k, ⟨u, e⟩) ∧ ¬ isSpace k := by
  simp only [List.mem_cons, List.not_mem_nil, or_false] at hmem
  rcases hmem with rfl | rfl | rfl <;> cases h
  · exact ⟨.instruction, 0, 'I', rfl, by decide⟩
  · exact ⟨.data, 4, 'W', rfl, by decide⟩
  · exact ⟨.data, 1, 'B', rfl, by decide⟩

theorem readType_none (e : Bool)
    (h : ∀ token ∈ [['I'], ['D', 'W'], ['D', 'B']], ∀ u, d :: r ≠ token ++ u) :
    readType d ⟨r, e⟩ = none := by
  have hI : d ≠ 'I' := fun hd => h ['I'] (by simp) r (by simp [hd])
  rw [readType, if_neg hI]
  by_cases hD : d = 'D'
  · subst hD
    rw [if_pos rfl]
    rcases r with _ | ⟨s, r⟩
    · rfl
    · have hs : ¬ (s = 'W' ∨ s = 'B') := by
        rintro (rfl | rfl)
        · exact h ['D', 'W'] (by simp) r rfl
        · exact h ['D', 'B'] (by simp) r rfl
      simp only [scanChar_cons, hs, if_false]
  · rw [if_neg hD]

theorem readAddress_token (u : List Char) (e : Bool) : ∃ vaddr,
    readAddress '@' ⟨'0' :: 'x' :: u, e⟩
      = some (vaddr, 'x', ⟨afterHex u, e || (afterHex u).isEmpty⟩) :=
  ⟨initVirtAddr64 ((scanHex ⟨u, e⟩).1.getD 0), by rw [← scanHex_snd]; rfl⟩

theorem readAddress_none (e : Bool) (h : ∀ u, d :: r ≠ ['@', '0', 'x'] ++ u) :
    readAddress d ⟨r, e⟩ = none := by
  unfold readAddress
  by_cases hd : d = '@'
  swap
  · rw [if_pos hd]
  subst hd
  rcases r with _ | ⟨a, r⟩
  · rfl
  by_cases ha : a = '0'
  swap
  · simp only [scanChar_cons, ha, ne_eq, not_true_eq_false, not_false_eq_true, if_true, if_false]
  subst ha
  rcases r with _ | ⟨b, r⟩
  · rfl
  have hb : b ≠ 'x' := by
    rintro rfl
    exact h r rfl
  simp only [scanChar_cons, hb, ne_eq, not_true_eq_false, not_false_eq_true, if_true, if_false]

/-- The data of a write is read in two steps: its number, and then as far as the address. -/
theorem readWriteData_token (fuel : ℕ) (u : List Char) (e : Bool) :
    ∃ data : Word, readWriteData fuel .write '0' ⟨'x' :: u, e⟩ = do
      let (c, st) ← scanPastSpaces fuel 'x' ⟨afterHex u, e || (afterHex u).isEmpty⟩
      return some (data, c, st) :=
  ⟨((scanHex ⟨u, e⟩).1.getD 0).setWidth 32, by rw [← scanHex_snd]; rfl⟩

theorem readWriteData_none (fuel : ℕ) (e : Bool) (h : ∀ u, d :: r ≠ ['0', 'x'] ++ u) :
    readWriteData fuel .write d ⟨r, e⟩ = .ok none := by
  unfold readWriteData
  rw [if_pos rfl]
  by_cases hd : d = '0'
  swap
  · rw [if_pos hd]
    rfl
  subst hd
  rcases r with _ | ⟨a, r⟩
  · rfl
  have ha : a ≠ 'x' := by
    rintro rfl
    exact h r rfl
  simp only [scanChar_cons, ha, ne_eq, not_true_eq_false, not_false_eq_true, if_true, if_false]
  rfl

end Parts

section Stages

variable {c d o : Char} {t t₁ t₂ t' r u rest text token : List Char} {e : Bool} {fuel n : ℕ}
  {order : CommandWord} {type : MemAccess} {dataSize : ℕ} {data : Word}

/-- Where the text has no token, what is scanned there is none. -/
theorem ne_token (hland : TokenAt [d] t r ∨ d = c ∧ r = []) (hno : ∀ u, ¬ TokenAt token t u)
    (hc : ∀ u, [c] ≠ token ++ u) (u : List Char) : d :: r ≠ token ++ u := by
  rcases hland with htoken | ⟨rfl, rfl⟩
  · exact fun h => hno u (htoken.trans h)
  · exact hc u

/-- The loop's body from the white space before the address on. -/
def readTail (fuel : ℕ) (order : CommandWord) (type : MemAccess) (dataSize : ℕ) (data : Word)
    (c : Char) (stream : Stream) : Exec (Option (Command × Char × Stream)) := do
  let (c, stream) ← scanPastSpaces fuel c stream
  match readAddress c stream with
  | none => return none
  | some (vaddr, c, stream) => return some (⟨order, type, dataSize, data, vaddr⟩, c, stream)

/-- The loop's body after the white space before the data on. -/
def readData (fuel : ℕ) (order : CommandWord) (type : MemAccess) (dataSize : ℕ) :
    Char × Stream → Exec (Option (Command × Char × Stream))
  | (c, stream) => do
    match ← readWriteData fuel order c stream with
    | none => return none
    | some (data, c, stream) =>
      match readAddress c stream with
      | none => return none
      | some (vaddr, c, stream) => return some (⟨order, type, dataSize, data, vaddr⟩, c, stream)

/-- The loop's body after the white space before the type on. -/
def readRest (fuel : ℕ) (order : CommandWord) :
    Char × Stream → Exec (Option (Command × Char × Stream))
  | (c, stream) =>
    match readType c stream with
    | none => return none
    | some ((type, dataSize), c, stream) =>
      scanPastSpaces fuel c stream >>= readData fuel order type dataSize

/-- The loop's body after the white space before the order on. -/
def readFirst (fuel : ℕ) : Char × Stream → Exec (Option (Command × Char × Stream))
  | (o, stream) => do
    if o ≠ 'W' ∧ o ≠ 'R' then return none
    scanPastSpaces fuel o stream >>= readRest fuel (if o = 'W' then .write else .read)

theorem readCommand_eq (fuel : ℕ) (c : Char) (stream : Stream) :
    readCommand fuel (scanChar c stream).1 (scanChar c stream).2
      = scanPastSpaces fuel c stream >>= readFirst fuel :=
  rfl

theorem readFirst_order (h : o = 'W' ∨ o = 'R') (fuel : ℕ) (stream : Stream) :
    readFirst fuel (o, stream)
      = scanPastSpaces fuel o stream >>= readRest fuel (if o = 'W' then .write else .read) :=
  if_neg (by tauto)

theorem readData_read (fuel : ℕ) (type : MemAccess) (dataSize : ℕ) (c : Char) (stream : Stream) :
    scanPastSpaces fuel c stream >>= readData fuel .read type dataSize
      = readTail fuel .read type dataSize 0 c stream :=
  rfl

theorem readData_write (fuel : ℕ) (type : MemAccess) (dataSize : ℕ) (u : List Char) (e : Bool) :
    ∃ data, readData fuel .write type dataSize ('0', ⟨'x' :: u, e⟩)
      = readTail fuel .write type dataSize data 'x' ⟨afterHex u, e || (afterHex u).isEmpty⟩ := by
  obtain ⟨data, hdata⟩ := readWriteData_token fuel u e
  refine ⟨data, ?_⟩
  simp only [readData, readTail, hdata]
  rcases scanPastSpaces fuel 'x' ⟨afterHex u, e || (afterHex u).isEmpty⟩ with f | ⟨c, st⟩ <;> rfl

section Tail

theorem readTail_blank (h : Blank t) (fuel : ℕ) (order : CommandWord) (type : MemAccess)
    (dataSize : ℕ) (data : Word) (c : Char) (e : Bool) :
    readTail fuel order type dataSize data c ⟨t, e⟩ = .error .fuel := by
  rw [readTail, scanPastSpaces_blank h]
  rfl

theorem readTail_number (h : NumberAt ['@', '0', 'x'] t rest) (hn : t.length ≤ n) (fuel : ℕ)
    (order : CommandWord) (type : MemAccess) (dataSize : ℕ) (data : Word) (c : Char) (e : Bool) :
    ∃ command, Gives Fault.fuel n fuel (readTail fuel order type dataSize data c ⟨t, e⟩)
      (some (command, 'x', ⟨rest, e || rest.isEmpty⟩)) := by
  obtain ⟨u, htoken, rfl⟩ := h
  obtain ⟨vaddr, haddr⟩ := readAddress_token u e
  refine ⟨⟨order, type, dataSize, data, vaddr⟩, ?_⟩
  have hscan : Gives Fault.fuel n fuel (scanPastSpaces fuel c ⟨t, e⟩) ('@', ⟨'0' :: 'x' :: u, e⟩) :=
    scanPastSpaces_tokenAt htoken hn fuel c e
  refine hscan.bind ?_
  simp only [haddr]
  exact gives_ok ..

theorem readTail_none (hc : ¬ isSpace c) (hblank : ¬ Blank t)
    (h : ∀ rest, ¬ NumberAt ['@', '0', 'x'] t rest) (hn : t.length ≤ n) (fuel : ℕ)
    (order : CommandWord) (type : MemAccess) (dataSize : ℕ) (data : Word) (e : Bool) :
    Gives Fault.fuel n fuel (readTail fuel order type dataSize data c ⟨t, e⟩) none := by
  obtain ⟨d, r, e', hscan, hland⟩ := scanPastSpaces_cases hc hblank hn e
  refine (hscan fuel).bind ?_
  have hno := ne_token hland (fun u hu => h _ ⟨u, hu, rfl⟩) (by simp)
  simp only [readAddress_none e' hno]
  exact gives_ok ..

end Tail

section Operands

theorem scan_zeroX (h : TokenAt ['0', 'x'] t u) (hn : t.length ≤ n) (fuel : ℕ) (c : Char)
    (e : Bool) :
    Gives Fault.fuel n fuel (scanPastSpaces fuel c ⟨t, e⟩) ('0', ⟨'x' :: u, e⟩) :=
  scanPastSpaces_tokenAt h hn fuel c e

theorem operands_data (h : NumberAt ['0', 'x'] t t') (hblank : Blank t') (fuel : ℕ)
    (type : MemAccess) (dataSize : ℕ) (c : Char) (e : Bool) :
    scanPastSpaces fuel c ⟨t, e⟩ >>= readData fuel .write type dataSize = .error .fuel := by
  obtain ⟨u, htoken, rfl⟩ := h
  obtain ⟨data, hdata⟩ := readData_write fuel type dataSize u e
  refine (scan_zeroX htoken le_rfl fuel c e).bind_error ?_
  rw [hdata, readTail_blank hblank]

theorem operands_number (ho : o = 'W' ∨ o = 'R') (hdata : DataAt o t t')
    (hnum : NumberAt ['@', '0', 'x'] t' rest) (hn : t.length ≤ n) (fuel : ℕ) (type : MemAccess)
    (dataSize : ℕ) (c : Char) (e : Bool) : ∃ command, Gives Fault.fuel n fuel
      (scanPastSpaces fuel c ⟨t, e⟩
        >>= readData fuel (if o = 'W' then .write else .read) type dataSize)
      (some (command, 'x', ⟨rest, e || rest.isEmpty⟩)) := by
  rcases ho with rfl | rfl
  · obtain ⟨u, htoken, rfl⟩ : NumberAt ['0', 'x'] t t' := hdata
    obtain ⟨data, hdata⟩ := readData_write fuel type dataSize u e
    have hlen := length_of_tokenAt htoken
    have hlen' := length_afterHex u
    -- the number does not end the file, since the address follows
    have hne : (afterHex u).isEmpty = false := by
      have := length_of_numberAt hnum
      rcases hu : afterHex u with _ | ⟨b, v⟩
      · simp [hu] at this
      · rfl
    obtain ⟨command, htail⟩ := readTail_number hnum (n := n) (by omega) fuel .write type dataSize
      data 'x' e
    refine ⟨command, (scan_zeroX htoken hn fuel c e).bind ?_⟩
    rw [if_pos rfl, hdata, hne, Bool.or_false]
    exact htail
  · obtain rfl : t' = t := hdata
    rw [if_neg (by decide), readData_read]
    exact readTail_number hnum hn fuel .read type dataSize 0 c e

theorem operands_none (ho : o = 'W' ∨ o = 'R') (hc : ¬ isSpace c) (hblank : ¬ Blank t)
    (hstall : o = 'W' → ∀ t', NumberAt ['0', 'x'] t t' → ¬ Blank t')
    (hno : ∀ t' rest, DataAt o t t' → ¬ NumberAt ['@', '0', 'x'] t' rest) (hn : t.length ≤ n)
    (fuel : ℕ) (type : MemAccess) (dataSize : ℕ) (e : Bool) : Gives Fault.fuel n fuel
      (scanPastSpaces fuel c ⟨t, e⟩
        >>= readData fuel (if o = 'W' then .write else .read) type dataSize) none := by
  rcases ho with rfl | rfl
  · rw [if_pos rfl]
    by_cases hdata : ∃ u, TokenAt ['0', 'x'] t u
    · obtain ⟨u, htoken⟩ := hdata
      have hnum : NumberAt ['0', 'x'] t (afterHex u) := ⟨u, htoken, rfl⟩
      obtain ⟨data, hdata⟩ := readData_write fuel type dataSize u e
      have hlen := length_of_numberAt hnum
      refine (scan_zeroX htoken hn fuel c e).bind ?_
      rw [hdata]
      exact readTail_none (by decide) (hstall rfl _ hnum) (fun rest => hno _ rest hnum) (by omega)
        fuel .write type dataSize data _
    · obtain ⟨d, r, e', hscan, hland⟩ := scanPastSpaces_cases hc hblank hn e
      refine (hscan fuel).bind ?_
      have hne := ne_token hland (not_exists.1 hdata) (by simp)
      simp only [readData, readWriteData_none fuel e' hne]
      exact gives_ok ..
  · rw [if_neg (by decide), readData_read]
    exact readTail_none hc hblank (fun rest => hno t rest rfl) hn fuel .read type dataSize 0 e

end Operands

section Types

theorem readRest_typeAt (h : TypeAt t₁ t₂) (e : Bool) : ∃ d r type dataSize k,
    TokenAt [d] t₁ r ∧ ¬ isSpace k ∧ ∀ fuel order, readRest fuel order (d, ⟨r, e⟩)
      = scanPastSpaces fuel k ⟨t₂, e⟩ >>= readData fuel order type dataSize := by
  obtain ⟨token, hmem, htoken⟩ := h
  obtain ⟨d, token, rfl⟩ : ∃ d token', token = d :: token' := by
    refine List.exists_cons_of_ne_nil ?_
    rintro rfl
    simp at hmem
  have hsplit : d :: (token ++ t₂) = d :: token ++ t₂ := rfl
  obtain ⟨type, dataSize, k, htype, hk⟩ := readType_token hmem hsplit e
  refine ⟨d, token ++ t₂, type, dataSize, k, htoken, hk, fun fuel order => ?_⟩
  simp only [readRest, htype]

theorem readRest_none (ho : o = 'W' ∨ o = 'R') (hblank : ¬ Blank t) (hno : ∀ r, ¬ TypeAt t r)
    (hn : t.length ≤ n) (fuel : ℕ) (order : CommandWord) (e : Bool) :
    Gives Fault.fuel n fuel (scanPastSpaces fuel o ⟨t, e⟩ >>= readRest fuel order) none := by
  have hspace : ¬ isSpace o := by
    rcases ho with rfl | rfl <;> decide
  obtain ⟨d, r, e', hscan, hland⟩ := scanPastSpaces_cases hspace hblank hn e
  refine (hscan fuel).bind ?_
  have hne : ∀ token ∈ [['I'], ['D', 'W'], ['D', 'B']], ∀ u, d :: r ≠ token ++ u := by
    intro token hmem
    refine ne_token hland (fun u hu => hno u ⟨token, hmem, hu⟩) fun u => ?_
    simp only [List.mem_cons, List.not_mem_nil, or_false] at hmem
    rcases ho with rfl | rfl <;> rcases hmem with rfl | rfl | rfl <;> simp
  simp only [readRest, readType_none e' hne]
  exact gives_ok ..

end Types

/-- A text that stalls runs out whatever fuel it is given. -/
theorem readCommand_stalls (h : Stalls text) (fuel : ℕ) (c : Char) (e : Bool) :
    readCommand fuel (scanChar c ⟨text, e⟩).1 (scanChar c ⟨text, e⟩).2 = .error .fuel := by
  rw [readCommand_eq]
  cases h with
  | start hblank =>
    rw [scanPastSpaces_blank hblank]
    rfl
  | order ho hblank =>
    refine (scanPastSpaces_tokenAt ho.2 le_rfl fuel c e).bind_error ?_
    rw [readFirst_order ho.1, scanPastSpaces_blank hblank]
    rfl
  | type ho ht hblank =>
    obtain ⟨d, r, type, dataSize, k, htoken, -, hrest⟩ := readRest_typeAt ht e
    refine (scanPastSpaces_tokenAt ho.2 le_rfl fuel c e).bind_error ?_
    rw [readFirst_order ho.1]
    refine (scanPastSpaces_tokenAt htoken le_rfl fuel _ e).bind_error ?_
    rw [hrest, scanPastSpaces_blank hblank]
    rfl
  | data ho ht hnum hblank =>
    obtain ⟨d, r, type, dataSize, k, htoken, -, hrest⟩ := readRest_typeAt ht e
    refine (scanPastSpaces_tokenAt ho.2 le_rfl fuel c e).bind_error ?_
    rw [readFirst_order ho.1]
    refine (scanPastSpaces_tokenAt htoken le_rfl fuel _ e).bind_error ?_
    rw [hrest, if_pos rfl]
    exact operands_data hnum hblank fuel type dataSize k e

/-- A command is read up to what the text has after it. -/
theorem readCommand_commandAt (h : CommandAt text rest) (fuel : ℕ) (c : Char) (e : Bool) :
    ∃ command, Gives Fault.fuel text.length fuel
      (readCommand fuel (scanChar c ⟨text, e⟩).1 (scanChar c ⟨text, e⟩).2)
      (some (command, 'x', ⟨rest, e || rest.isEmpty⟩)) := by
  obtain ⟨o, t₁, t₂, t₃, ho, ht, hdata, hnum⟩ := h
  have hlen₁ := length_of_tokenAt ho.2
  obtain ⟨d, r, type, dataSize, k, htoken, -, hrest⟩ := readRest_typeAt ht e
  obtain ⟨token, -, htype⟩ := ht
  have hlen₂ := length_of_tokenAt htype
  obtain ⟨command, hgives⟩ := operands_number ho.1 hdata hnum (n := text.length) (by omega) fuel
    type dataSize k e
  refine ⟨command, ?_⟩
  rw [readCommand_eq]
  refine (scanPastSpaces_tokenAt ho.2 le_rfl fuel c e).bind ?_
  rw [readFirst_order ho.1]
  refine (scanPastSpaces_tokenAt htoken (by omega) fuel _ e).bind ?_
  rw [hrest]
  exact hgives

/-- Any other text is refused. -/
theorem readCommand_none (hne : text ≠ []) (hstalls : ¬ Stalls text)
    (hno : ∀ rest, ¬ CommandAt text rest) (fuel : ℕ) (c : Char) (e : Bool) :
    Gives Fault.fuel text.length fuel
      (readCommand fuel (scanChar c ⟨text, e⟩).1 (scanChar c ⟨text, e⟩).2) none := by
  rw [readCommand_eq]
  rcases htext : text.dropWhile isSpace with _ | ⟨o, t₁⟩
  · exact absurd (.start ⟨hne, List.dropWhile_eq_nil_iff.1 htext⟩) hstalls
  refine (scanPastSpaces_tokenAt htext le_rfl fuel c e).bind ?_
  by_cases ho : o = 'W' ∨ o = 'R'
  swap
  · exact .inl (if_pos (not_or.1 ho))
  have horder : OrderAt o text t₁ := ⟨ho, htext⟩
  have hlen₁ := length_of_tokenAt horder.2
  have hblank₁ : ¬ Blank t₁ := fun h => hstalls (.order horder h)
  rw [readFirst_order ho]
  by_cases ht : ∃ t₂, TypeAt t₁ t₂
  swap
  · exact readRest_none ho hblank₁ (not_exists.1 ht) (by omega) fuel _ e
  obtain ⟨t₂, ht⟩ := ht
  obtain ⟨d, r, type, dataSize, k, htoken, hk, hrest⟩ := readRest_typeAt ht e
  have hlen₂ : t₂.length ≤ t₁.length := by
    obtain ⟨token, -, htype⟩ := ht
    have := length_of_tokenAt htype
    omega
  refine (scanPastSpaces_tokenAt htoken (by omega) fuel _ e).bind ?_
  rw [hrest]
  refine operands_none ho hk (fun h => hstalls (.type horder ht h)) ?_ ?_ (by omega) fuel type
    dataSize e
  · rintro rfl t₃ hnum hblank
    exact hstalls (.data horder ht hnum hblank)
  · exact fun t₃ rest hdata hnum => hno rest ⟨o, t₁, t₂, t₃, horder, ht, hdata, hnum⟩

end Stages

section Runs

variable {text : List Char} {p : Program} {cs : List Command}

theorem ne_nil_of_stalls (h : Stalls text) : text ≠ [] := by
  rintro rfl
  cases h with
  | start hblank => exact hblank.1 rfl
  | order ho | type ho | data ho => simpa using length_of_tokenAt ho.2

theorem programAddCommand_holds (hp : p.Holds cs) (command : Command) :
    ∃ err p' cs', programAddCommand p command = .ok (err, p') ∧ p'.Holds cs' := by
  by_cases hcheck : checkCommand command = .errNone
  · obtain ⟨p', hadd, hp'⟩ := programAddCommand_accept hp hcheck
    exact ⟨_, p', _, hadd, hp'⟩
  · exact ⟨_, p, cs, programAddCommand_reject p hcheck, hp⟩

/-- On a text that hangs the loop returns nothing, whatever fuel it is given. -/
theorem readCommands_hangs (h : Hangs text) : ∀ (inner fuel : ℕ) (c : Char) (p : Program)
    (r : ErrorCode × Program),
    readCommands inner fuel (scanChar c ⟨text, false⟩).1 (scanChar c ⟨text, false⟩).2 p
      ≠ .ok r := by
  induction h with
  | stalls h =>
    intro inner fuel c p r hr
    have hread := readCommand_stalls h inner c false
    obtain ⟨b, t, rfl⟩ := List.exists_cons_of_ne_nil (ne_nil_of_stalls h)
    rcases fuel with _ | fuel
    · cases hr
    rw [scanChar_cons] at hread hr
    rw [readCommands, if_neg (by simp), hread] at hr
    cases hr
  | @next text c' rest hc _ ih =>
    intro inner fuel c p r hr
    obtain ⟨command, hread⟩ := readCommand_commandAt hc inner c false
    have hlen := Nat.zero_lt_of_lt (length_of_commandAt hc)
    obtain ⟨b, t, rfl⟩ := List.exists_cons_of_length_pos hlen
    rcases fuel with _ | fuel
    · cases hr
    rw [scanChar_cons] at hread hr
    rw [readCommands, if_neg (by simp)] at hr
    replace hr := hread.bind_eq_ok hr
    rcases hadd : programAddCommand p command with f | ⟨err, p'⟩ <;> simp only [hadd] at hr
    · cases hr
    · exact ih inner fuel c' p' r hr

/-- On any other text the loop returns, with more fuel than the text has characters: each command
takes some. -/
theorem readCommands_returns {inner : ℕ} : ∀ (fuel : ℕ) (text : List Char) (c : Char) (p : Program)
    (cs : List Command), p.Holds cs → ¬ Hangs text → text.length < inner → text.length < fuel →
    ∃ r, readCommands inner fuel (scanChar c ⟨text, false⟩).1 (scanChar c ⟨text, false⟩).2 p
      = .ok r
  | 0, _, _, _, _, _, _, _, hfuel => absurd hfuel (Nat.not_lt_zero _)
  | _ + 1, [], _, _, _, _, _, _, _ => ⟨_, rfl⟩
  | fuel + 1, b :: t, c, p, cs, hp, hhangs, hinner, hfuel => by
    by_cases hc : ∃ rest, CommandAt (b :: t) rest
    · obtain ⟨rest, hc⟩ := hc
      obtain ⟨command, hread⟩ := readCommand_commandAt hc inner c false
      replace hread := hread.eq_ok hinner
      obtain ⟨err, p', cs', hadd, hp'⟩ := programAddCommand_holds hp command
      rw [scanChar_cons] at hread ⊢
      rw [readCommands, if_neg (by simp), hread]
      simp only [Exec.ok_bind, hadd]
      rcases rest with _ | ⟨c', rest⟩
      · -- the number ended the file
        simp only [List.length_cons] at hfuel
        obtain ⟨fuel, rfl⟩ : ∃ fuel', fuel = fuel' + 1 := Nat.exists_eq_succ_of_ne_zero (by omega)
        exact ⟨_, rfl⟩
      · have hlen := length_of_commandAt hc
        simp only [List.length_cons] at hlen hfuel hinner
        exact readCommands_returns fuel rest c' p' cs' hp' (fun h => hhangs (.next hc h))
          (by omega) (by omega)
    · have hstalls : ¬ Stalls (b :: t) := fun h => hhangs (.stalls h)
      have hread := (readCommand_none (List.cons_ne_nil b t) hstalls (not_exists.1 hc) inner c
        false).eq_ok hinner
      rw [scanChar_cons] at hread ⊢
      rw [readCommands, if_neg (by simp), hread]
      exact ⟨_, rfl⟩

/-- `program_read` returns exactly on the files that do not hang. -/
theorem programRead_returns_iff (file : Option (List Char)) (currentChar : Char) :
    (∃ fuel r, programRead fuel file currentChar = .ok r)
      ↔ ∀ text, file = some text → ¬ Hangs text := by
  rcases file with _ | text
  · exact iff_of_true ⟨0, _, rfl⟩ nofun
  constructor
  · rintro ⟨fuel, r, hr⟩ _ ⟨⟩ hhangs
    exact readCommands_hangs hhangs fuel fuel currentChar programInit.2 r hr
  · intro h
    exact ⟨text.length + 1, readCommands_returns _ text currentChar programInit.2 []
      programInit_holds (h text rfl) (Nat.lt_succ_self _) (Nat.lt_succ_self _)⟩

/-- A file that ends in a blank line. -/
theorem programRead_hangs_blankLine :
    ¬ ∃ fuel r, programRead fuel (some "R I @0x0\n\n".toList) ' ' = .ok r := by
  rintro ⟨fuel, r, hr⟩
  have hcommand : CommandAt "R I @0x0\n\n".toList "\n\n".toList :=
    ⟨'R', " I @0x0\n\n".toList, " @0x0\n\n".toList, " @0x0\n\n".toList, ⟨.inr rfl, by decide⟩,
      ⟨['I'], by decide, by decide⟩, rfl, "0\n\n".toList, by decide, by decide⟩
  have hblank : Blank "\n".toList := ⟨by decide, List.all_eq_true.1 (by decide)⟩
  exact readCommands_hangs (.next hcommand (.stalls (.start hblank))) fuel fuel ' ' programInit.2
    r hr

end Runs

end KabyLake
