import Mathlib.Tactic

/-!
# Scanning a character stream

What `fscanf` does on a text stream for one character (`%c`), a word (`%s`), a decimal number
(`%zu`, `%d`) and a hexadecimal one (`%x`, with or without a width): a number may follow white
space, a sign and the prefix `0x`, it ends before the first character that is no digit, and the
end-of-file flag is set by a read that finds no character. What `fprintf` prints for a number
(`%0nX`) is digits of its value.
-/

namespace Scanf

/-- The characters not read yet and the end-of-file flag. -/
@[ext]
structure Stream where
  rest : List Char
  eof : Bool
  deriving DecidableEq, Repr

/-- `isspace`, in the C locale. -/
def isSpace (c : Char) : Bool :=
  c = ' ' ∨ c = '\t' ∨ c = '\n' ∨ c = Char.ofNat 11 ∨ c = Char.ofNat 12 ∨ c = '\r'

def digitValue (c : Char) : Option ℕ :=
  if '0' ≤ c ∧ c ≤ '9' then some (c.toNat - 48)
  else if 'a' ≤ c ∧ c ≤ 'f' then some (c.toNat - 87)
  else if 'A' ≤ c ∧ c ≤ 'F' then some (c.toNat - 55)
  else none

def isXDigit (c : Char) : Bool := (digitValue c).isSome

def hexValue (digits : List Char) : ℕ :=
  digits.foldl (fun n c => 16 * n + (digitValue c).getD 0) 0

/-- `fscanf(stream, "%c", &c)`: `c` stays as it was at the end of the file. -/
def scanChar (c : Char) (stream : Stream) : Char × Stream :=
  match stream.rest with
  | [] => (c, ⟨[], true⟩)
  | d :: rest => (d, ⟨rest, stream.eof⟩)

def takeSign : List Char → Bool × List Char
  | '-' :: rest => (true, rest)
  | '+' :: rest => (false, rest)
  | rest => (false, rest)

/-- The `0x` a number may start with. -/
def dropPrefix : List Char → List Char
  | '0' :: c :: rest => if c = 'x' ∨ c = 'X' then rest else '0' :: c :: rest
  | rest => rest

/-- `fscanf(stream, "%lx", &n)`, `none` if nothing is converted. The conversion is that of
`strtoul`: too large a value saturates. -/
def scanHex (stream : Stream) : Option (BitVec 64) × Stream :=
  let (negative, rest) := takeSign (stream.rest.dropWhile isSpace)
  let rest := dropPrefix rest
  let digits := rest.takeWhile isXDigit
  let after := rest.dropWhile isXDigit
  let stream : Stream := ⟨after, stream.eof || after.isEmpty⟩
  if digits = [] then (none, stream)
  else if 2 ^ 64 ≤ hexValue digits then (some (BitVec.ofNat 64 (2 ^ 64 - 1)), stream)
  else
    let n := BitVec.ofNat 64 (hexValue digits)
    (some (if negative then -n else n), stream)

/-- What is left after a hexadecimal number. -/
def afterHex (text : List Char) : List Char :=
  (dropPrefix (takeSign (text.dropWhile isSpace)).2).dropWhile isXDigit

variable {c d t : Char} {ds rest : List Char} {eof : Bool}

theorem scanHex_snd (text : List Char) (eof : Bool) :
    (scanHex ⟨text, eof⟩).2 = ⟨afterHex text, eof || (afterHex text).isEmpty⟩ := by
  unfold scanHex
  dsimp only
  split_ifs <;> rfl

theorem length_takeSign (text : List Char) : (takeSign text).2.length ≤ text.length := by
  unfold takeSign
  split <;> simp

theorem length_dropPrefix (text : List Char) : (dropPrefix text).length ≤ text.length := by
  unfold dropPrefix
  split
  · split_ifs <;> simp only [List.length_cons] <;> omega
  · exact le_rfl

theorem length_afterHex (text : List Char) : (afterHex text).length ≤ text.length :=
  calc (afterHex text).length
    _ ≤ (dropPrefix (takeSign (text.dropWhile isSpace)).2).length :=
      (List.dropWhile_sublist _).length_le
    _ ≤ (takeSign (text.dropWhile isSpace)).2.length := length_dropPrefix _
    _ ≤ (text.dropWhile isSpace).length := length_takeSign _
    _ ≤ text.length := (List.dropWhile_sublist _).length_le

theorem length_scanChar (c : Char) (stream : Stream) :
    (scanChar c stream).2.rest.length ≤ stream.rest.length := by
  obtain ⟨_ | ⟨d, rest⟩, eof⟩ := stream
  · exact le_rfl
  · exact Nat.le_succ _

@[simp] theorem scanChar_cons : scanChar c ⟨d :: rest, eof⟩ = (d, ⟨rest, eof⟩) := rfl

@[simp] theorem scanChar_nil : scanChar c ⟨[], eof⟩ = (c, ⟨[], true⟩) := rfl

theorem not_isXDigit_of_isSpace (h : isSpace c) : ¬ isXDigit c := by
  simp only [isSpace, decide_eq_true_eq] at h
  rcases h with rfl | rfl | rfl | rfl | rfl | rfl <;> decide

theorem not_isSpace_of_isXDigit (h : isXDigit c) : isSpace c = false := by
  by_contra hs
  exact not_isXDigit_of_isSpace (by simpa using hs) h

theorem dropWhile_isSpace (h : isXDigit d) : (d :: rest).dropWhile isSpace = d :: rest :=
  List.dropWhile_cons_of_neg (by simp [not_isSpace_of_isXDigit h])

theorem ne_x_of_isSpace (h : isSpace c) : c ≠ 'x' ∧ c ≠ 'X' := by
  constructor
  · rintro rfl
    exact absurd h (by decide)
  · rintro rfl
    exact absurd h (by decide)

/-- A digit starts neither white space nor a sign. -/
theorem takeSign_of_isXDigit (rest : List Char) (h : isXDigit d) :
    takeSign ((d :: rest).dropWhile isSpace) = (false, d :: rest) := by
  rw [dropWhile_isSpace h]
  unfold takeSign
  split
  · rename_i heq
    cases heq
    exact absurd h (by decide)
  · rename_i heq
    cases heq
    exact absurd h (by decide)
  · rfl

theorem dropPrefix_of_not_x (h : ∀ c r, rest = c :: r → c ≠ 'x' ∧ c ≠ 'X') :
    dropPrefix (d :: rest) = d :: rest := by
  unfold dropPrefix
  split
  · rename_i c r heq
    cases heq
    rw [if_neg (not_or.2 (h c r rfl))]
  · rfl

/-- A string of digits before the end or another character is read as its value. -/
theorem scanHex_of_not_digit (hne : ds ≠ []) (hds : ∀ d ∈ ds, isXDigit d)
    (hrest : ∀ c r, rest = c :: r → ¬ isXDigit c ∧ c ≠ 'x' ∧ c ≠ 'X')
    (hlt : hexValue ds < 2 ^ 64) : scanHex ⟨ds ++ rest, eof⟩
      = (some (BitVec.ofNat 64 (hexValue ds)), ⟨rest, eof || rest.isEmpty⟩) := by
  obtain ⟨d, ds, rfl⟩ := List.exists_cons_of_ne_nil hne
  have hd : isXDigit d := hds d List.mem_cons_self
  have hnext : ∀ c r, ds ++ rest = c :: r → c ≠ 'x' ∧ c ≠ 'X' := by
    intro c r h
    rcases ds with _ | ⟨d', ds⟩
    · exact (hrest c r h).2
    · cases h
      have hc : isXDigit c := hds c (by simp)
      constructor
      · rintro rfl
        exact absurd hc (by decide)
      · rintro rfl
        exact absurd hc (by decide)
  have hsign := takeSign_of_isXDigit (ds ++ rest) hd
  have hprefix := dropPrefix_of_not_x (d := d) hnext
  have hstop : rest.takeWhile isXDigit = [] ∧ rest.dropWhile isXDigit = rest := by
    rcases rest with _ | ⟨t, rest⟩
    · exact ⟨rfl, rfl⟩
    · have ht := (hrest t rest rfl).1
      exact ⟨List.takeWhile_cons_of_neg ht, List.dropWhile_cons_of_neg ht⟩
  have htake : (d :: (ds ++ rest)).takeWhile isXDigit = d :: ds := by
    rw [← List.cons_append, List.takeWhile_append_of_pos hds, hstop.1, List.append_nil]
  have hdrop : (d :: (ds ++ rest)).dropWhile isXDigit = rest := by
    rw [← List.cons_append, List.dropWhile_append_of_pos hds, hstop.2]
  simp only [scanHex, List.cons_append, hsign, hprefix, htake, hdrop,
    reduceCtorEq, if_false, Bool.false_eq_true, not_le.2 hlt]

/-- A string of digits before another character is read as its value. -/
theorem scanHex_digits (hne : ds ≠ []) (hds : ∀ d ∈ ds, isXDigit d) (ht : ¬ isXDigit t)
    (hx : t ≠ 'x' ∧ t ≠ 'X') (hlt : hexValue ds < 2 ^ 64) :
    scanHex ⟨ds ++ t :: rest, eof⟩ = (some (BitVec.ofNat 64 (hexValue ds)), ⟨t :: rest, eof⟩) := by
  have hrest : ∀ c r, t :: rest = c :: r → ¬ isXDigit c ∧ c ≠ 'x' ∧ c ≠ 'X' := by
    intro c r h
    cases h
    exact ⟨ht, hx⟩
  rw [scanHex_of_not_digit hne hds hrest hlt, List.isEmpty_cons, Bool.or_false]

section Width

/-- `%nx` of `fscanf`: the number and what comes before its digits take at most `width`
characters. -/
def scanHexWidth (width : ℕ) (stream : Stream) : Option (BitVec 64) × Stream :=
  let text := stream.rest.dropWhile isSpace
  let (n, field) := scanHex ⟨text.take width, false⟩
  (n, ⟨field.rest ++ text.drop width, stream.eof || (field.eof && text.length < width)⟩)

theorem length_scanHexWidth (width : ℕ) (stream : Stream) :
    (scanHexWidth width stream).2.rest.length ≤ stream.rest.length := by
  have hfield : (scanHex ⟨(stream.rest.dropWhile isSpace).take width, false⟩).2.rest.length
      ≤ ((stream.rest.dropWhile isSpace).take width).length := by
    rw [scanHex_snd]
    exact length_afterHex _
  have htext : (stream.rest.dropWhile isSpace).length ≤ stream.rest.length :=
    (List.dropWhile_sublist _).length_le
  have hsplit := congrArg List.length (List.take_append_drop width (stream.rest.dropWhile isSpace))
  rw [List.length_append] at hsplit
  simp only [scanHexWidth, List.length_append]
  omega

theorem scanHexWidth_digits {width : ℕ} (hne : ds ≠ []) (hds : ∀ d ∈ ds, isXDigit d)
    (hlen : ds.length ≤ width) (ht : isSpace t) (hlt : hexValue ds < 2 ^ 64) :
    scanHexWidth width ⟨ds ++ t :: rest, eof⟩
      = (some (BitVec.ofNat 64 (hexValue ds)), ⟨t :: rest, eof⟩) := by
  have htext : (ds ++ t :: rest).dropWhile isSpace = ds ++ t :: rest := by
    obtain ⟨d, ds, rfl⟩ := List.exists_cons_of_ne_nil hne
    exact dropWhile_isSpace (hds d List.mem_cons_self)
  have htake : (ds ++ t :: rest).take width = ds ++ (t :: rest).take (width - ds.length) := by
    rw [List.take_append, List.take_of_length_le hlen]
  have hdrop : (ds ++ t :: rest).drop width = (t :: rest).drop (width - ds.length) := by
    rw [List.drop_append, List.drop_of_length_le hlen, List.nil_append]
  have hrest : ∀ c r, (t :: rest).take (width - ds.length) = c :: r →
      ¬ isXDigit c ∧ c ≠ 'x' ∧ c ≠ 'X' := by
    intro c r h
    have hc : c = t := by
      have hhead := congrArg List.head? h
      rcases Nat.eq_zero_or_pos (width - ds.length) with h0 | hpos
      · rw [h0] at h
        cases h
      · rw [List.head?_take, if_neg hpos.ne'] at hhead
        exact (Option.some.inj hhead).symm
    rw [hc]
    exact ⟨not_isXDigit_of_isSpace ht, ne_x_of_isSpace ht⟩
  -- the field ends before the stream does
  have heof : (((t :: rest).take (width - ds.length)).isEmpty
      && decide ((ds ++ t :: rest).length < width)) = false := by
    rw [Bool.and_eq_false_imp]
    intro h
    rw [List.isEmpty_iff, List.take_eq_nil_iff, or_iff_left (List.cons_ne_nil t rest)] at h
    refine decide_eq_false ?_
    rw [List.length_append, List.length_cons]
    omega
  simp only [scanHexWidth, htext, htake, hdrop, scanHex_of_not_digit hne hds hrest hlt,
    List.take_append_drop, Bool.false_or, heof, Bool.or_false]

theorem digitValue_lt (c : Char) : (digitValue c).getD 0 < 16 := by
  have hle : ∀ t : Char, c ≤ t → c.toNat ≤ t.toNat := fun t h => UInt32.le_iff_toNat_le.1 h
  unfold digitValue
  split_ifs with h9 hf hF
  · have h : c.toNat ≤ 57 := hle '9' h9.2
    simp only [Option.getD_some]
    omega
  · have h : c.toNat ≤ 102 := hle 'f' hf.2
    simp only [Option.getD_some]
    omega
  · have h : c.toNat ≤ 70 := hle 'F' hF.2
    simp only [Option.getD_some]
    omega
  · exact Nat.succ_pos 15

/-- A number is below the power of its digits. -/
theorem hexValue_lt (ds : List Char) : hexValue ds < 16 ^ ds.length := by
  induction ds using List.reverseRecOn with
  | nil => exact Nat.one_pos
  | append_singleton ds d ih =>
    have hd : (digitValue d).getD 0 < 16 := digitValue_lt d
    rw [hexValue, List.foldl_append, ← hexValue, List.length_append, pow_add]
    simp only [List.foldl_cons, List.foldl_nil, List.length_singleton]
    omega

end Width

section Decimal

def decValue (digits : List Char) : ℕ :=
  digits.foldl (fun n c => 10 * n + (digitValue c).getD 0) 0

/-- The sign and the digits of a decimal number. -/
def scanDigits (stream : Stream) : Bool × List Char × Stream :=
  let (negative, rest) := takeSign (stream.rest.dropWhile isSpace)
  let after := rest.dropWhile Char.isDigit
  (negative, rest.takeWhile Char.isDigit, ⟨after, stream.eof || after.isEmpty⟩)

/-- `fscanf(stream, "%zu", &n)`, with the conversion of `strtoul`. -/
def scanSize (stream : Stream) : Option (BitVec 64) × Stream :=
  let (negative, digits, stream) := scanDigits stream
  if digits = [] then (none, stream)
  else if 2 ^ 64 ≤ decValue digits then (some (BitVec.ofNat 64 (2 ^ 64 - 1)), stream)
  else
    let n := BitVec.ofNat 64 (decValue digits)
    (some (if negative then -n else n), stream)

/-- `fscanf(stream, "%d", &n)`: the low bits of the value of `strtol`, which saturates. -/
def scanInt (stream : Stream) : Option (BitVec 32) × Stream :=
  let (negative, digits, stream) := scanDigits stream
  if digits = [] then (none, stream)
  else if negative then (some (-BitVec.ofNat 32 (min (decValue digits) (2 ^ 63))), stream)
  else (some (BitVec.ofNat 32 (min (decValue digits) (2 ^ 63 - 1))), stream)

theorem isXDigit_of_isDigit (h : c.isDigit) : isXDigit c := by
  have hval : 48 ≤ c.val ∧ c.val ≤ 57 := by simpa [Char.isDigit] using h
  have hrange : '0' ≤ c ∧ c ≤ '9' := hval
  rw [isXDigit, digitValue, if_pos hrange]
  rfl

theorem not_isDigit_of_isSpace (h : isSpace c) : ¬ c.isDigit :=
  fun hd => not_isXDigit_of_isSpace h (isXDigit_of_isDigit hd)

theorem scanDigits_digits (hne : ds ≠ []) (hds : ∀ d ∈ ds, d.isDigit) (ht : isSpace t) :
    scanDigits ⟨ds ++ t :: rest, eof⟩ = (false, ds, ⟨t :: rest, eof⟩) := by
  have hsign : takeSign ((ds ++ t :: rest).dropWhile isSpace) = (false, ds ++ t :: rest) := by
    obtain ⟨d, ds, rfl⟩ := List.exists_cons_of_ne_nil hne
    exact takeSign_of_isXDigit _ (isXDigit_of_isDigit (hds d List.mem_cons_self))
  have ht := not_isDigit_of_isSpace ht
  have htake : (ds ++ t :: rest).takeWhile Char.isDigit = ds := by
    rw [List.takeWhile_append_of_pos hds, List.takeWhile_cons_of_neg ht, List.append_nil]
  have hdrop : (ds ++ t :: rest).dropWhile Char.isDigit = t :: rest := by
    rw [List.dropWhile_append_of_pos hds, List.dropWhile_cons_of_neg ht]
  simp only [scanDigits, hsign, htake, hdrop, List.isEmpty_cons, Bool.or_false]

theorem scanSize_digits (hne : ds ≠ []) (hds : ∀ d ∈ ds, d.isDigit) (ht : isSpace t)
    (hlt : decValue ds < 2 ^ 64) : scanSize ⟨ds ++ t :: rest, eof⟩
      = (some (BitVec.ofNat 64 (decValue ds)), ⟨t :: rest, eof⟩) := by
  simp only [scanSize, scanDigits_digits hne hds ht, hne, not_le.2 hlt, if_false,
    Bool.false_eq_true]

theorem scanInt_digits (hne : ds ≠ []) (hds : ∀ d ∈ ds, d.isDigit) (ht : isSpace t)
    (hlt : decValue ds < 2 ^ 63) : scanInt ⟨ds ++ t :: rest, eof⟩
      = (some (BitVec.ofNat 32 (decValue ds)), ⟨t :: rest, eof⟩) := by
  have hmin : min (decValue ds) (2 ^ 63 - 1) = decValue ds := min_eq_left (by omega)
  simp only [scanInt, scanDigits_digits hne hds ht, hne, if_false, Bool.false_eq_true, hmin]

end Decimal

section String

/-- `fscanf(stream, "%s", s)`, `none` if nothing is converted. -/
def scanString (stream : Stream) : Option (List Char) × Stream :=
  let text := stream.rest.dropWhile isSpace
  let after := text.dropWhile fun c => !isSpace c
  let word := text.takeWhile fun c => !isSpace c
  (if word = [] then none else some word, ⟨after, stream.eof || after.isEmpty⟩)

theorem length_scanString (stream : Stream) :
    (scanString stream).2.rest.length ≤ stream.rest.length :=
  ((List.dropWhile_sublist _).trans (List.dropWhile_sublist _)).length_le

/-- `fgetc`, `none` for `EOF`. -/
def getChar (stream : Stream) : Option Char × Stream :=
  match stream.rest with
  | [] => (none, ⟨[], true⟩)
  | c :: rest => (some c, ⟨rest, stream.eof⟩)

/-- A word after white space and before more of it is read whole. -/
theorem scanString_word {sep : List Char} (hsep : ∀ c ∈ sep, isSpace c) (hne : ds ≠ [])
    (hds : ∀ c ∈ ds, isSpace c = false) (ht : isSpace t) :
    scanString ⟨sep ++ (ds ++ t :: rest), eof⟩ = (some ds, ⟨t :: rest, eof⟩) := by
  have htext : (sep ++ (ds ++ t :: rest)).dropWhile isSpace = ds ++ t :: rest := by
    obtain ⟨d, ds, rfl⟩ := List.exists_cons_of_ne_nil hne
    rw [List.dropWhile_append_of_pos hsep]
    exact List.dropWhile_cons_of_neg (by simp [hds d List.mem_cons_self])
  have hword : ∀ c ∈ ds, (!isSpace c) = true := fun c hc => by rw [hds c hc, Bool.not_false]
  have hstop : ¬ (!isSpace t) = true := by simp [ht]
  have htake : (ds ++ t :: rest).takeWhile (fun c => !isSpace c) = ds := by
    rw [List.takeWhile_append_of_pos hword,
      List.takeWhile_cons_of_neg (p := fun c => !isSpace c) hstop, List.append_nil]
  have hdrop : (ds ++ t :: rest).dropWhile (fun c => !isSpace c) = t :: rest := by
    rw [List.dropWhile_append_of_pos hword,
      List.dropWhile_cons_of_neg (p := fun c => !isSpace c) hstop]
  simp only [scanString, htext, htake, hdrop, hne, if_false, List.isEmpty_cons, Bool.or_false]

end String

section Print

/-- The digit `%X` prints. -/
def upperDigit (n : ℕ) : Char := Char.ofNat (if n < 10 then 48 + n else 55 + n)

/-- `%0nX`, `n` the width. -/
def printHex (width n : ℕ) : List Char :=
  let digits := if n = 0 then ['0'] else (Nat.digits 16 n).reverse.map upperDigit
  List.replicate (width - digits.length) '0' ++ digits

theorem digitValue_upperDigit : ∀ n < 16, digitValue (upperDigit n) = some n := by decide

theorem hexValue_append (ds es : List Char) :
    hexValue (ds ++ es) = es.foldl (fun n c => 16 * n + (digitValue c).getD 0) (hexValue ds) :=
  List.foldl_append

theorem hexValue_zeros (k : ℕ) : hexValue (List.replicate k '0') = 0 := by
  induction k with
  | zero => rfl
  | succ k ih =>
    rw [List.replicate_succ', hexValue_append, ih]
    rfl

theorem hexValue_reverse : ∀ (ds : List ℕ), (∀ d ∈ ds, d < 16) →
    hexValue (ds.reverse.map upperDigit) = Nat.ofDigits 16 ds
  | [], _ => rfl
  | d :: ds, h => by
    have hd := digitValue_upperDigit d (h d List.mem_cons_self)
    have ih := hexValue_reverse ds fun d hd => h d (List.mem_cons_of_mem _ hd)
    rw [List.reverse_cons, List.map_append, hexValue_append, ih, Nat.ofDigits_cons]
    simp only [List.map_cons, List.map_nil, List.foldl_cons, List.foldl_nil, hd, Option.getD_some]
    simp [add_comm]

/-- What is printed for a number is its value in digits. -/
theorem printHex_spec (width n : ℕ) : printHex width n ≠ []
    ∧ (∀ c ∈ printHex width n, isXDigit c) ∧ hexValue (printHex width n) = n := by
  by_cases hn : n = 0
  · subst hn
    have hzeros : printHex width 0 = List.replicate (width - 1 + 1) '0' :=
      (List.replicate_succ' ..).symm
    rw [hzeros, hexValue_zeros]
    refine ⟨by simp, fun c hc => ?_, rfl⟩
    rw [List.eq_of_mem_replicate hc]
    decide
  · have hlt : ∀ d ∈ Nat.digits 16 n, d < 16 := fun d hd => Nat.digits_lt_base (by norm_num) hd
    simp only [printHex, hn, if_false]
    have hne : Nat.digits 16 n ≠ [] := Nat.digits_ne_nil_iff_ne_zero.2 hn
    refine ⟨by simp [hne], fun c hc => ?_, ?_⟩
    · rcases List.mem_append.1 hc with hc | hc
      · rw [List.eq_of_mem_replicate hc]
        decide
      · obtain ⟨d, hd, rfl⟩ := List.mem_map.1 hc
        rw [isXDigit, digitValue_upperDigit d (hlt d (List.mem_reverse.1 hd))]
        rfl
    · have hvalue := hexValue_reverse _ hlt
      rw [Nat.ofDigits_digits] at hvalue
      rw [hexValue_append, hexValue_zeros]
      exact hvalue

end Print

end Scanf
