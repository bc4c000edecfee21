import KabyLake.Library.Scanf

/-!
# What can be read off a printed text

A field that ends before a character it cannot contain can be told from the rest of the text
(`append_cons_inj`), a number printed in hexadecimal can be told from its digits (`lowerHex_inj`),
lines printed one after the other can be told apart (`flatten_inj`), and so can pieces of the same
lengths (`flatMap_eq_iff`).
-/

namespace Printf

open Scanf

/-- `%0nx`, `n` the width. -/
def lowerHex (width n : ℕ) : List Char := (printHex width n).map Char.toLower

/-- A text with a newline at its end and no other. -/
def IsLine (text : List Char) : Prop := ∃ content, text = content ++ ['\n'] ∧ '\n' ∉ content

section Fields

variable {p : Char → Bool} {xs ys rest rest' : List Char} {c c' : Char}

/-- A text is split at the first character that a predicate refuses. -/
theorem append_cons_inj (hxs : ∀ x ∈ xs, p x) (hys : ∀ y ∈ ys, p y) (hc : p c = false)
    (hc' : p c' = false) (h : xs ++ c :: rest = ys ++ c' :: rest') :
    xs = ys ∧ c :: rest = c' :: rest' := by
  have hstop : ∀ {c : Char}, p c = false → ¬ p c = true := fun hc => Bool.eq_false_iff.1 hc
  have htake := congrArg (List.takeWhile p) h
  rw [List.takeWhile_append_of_pos hxs, List.takeWhile_append_of_pos hys,
    List.takeWhile_cons_of_neg (hstop hc), List.takeWhile_cons_of_neg (hstop hc'),
    List.append_nil, List.append_nil] at htake
  subst htake
  exact ⟨rfl, List.append_cancel_left h⟩

theorem digitValue_toLower {c : Char} (h : isXDigit c) :
    digitValue c.toLower = digitValue c := by
  have hall : ∀ n < 128, isXDigit (Char.ofNat n) = true →
      digitValue (Char.ofNat n).toLower = digitValue (Char.ofNat n) := by decide
  have hlt : c.toNat < 128 := by
    rw [isXDigit, digitValue] at h
    split_ifs at h with h1 h2 h3
    · exact lt_of_le_of_lt h1.2 (by decide)
    · exact lt_of_le_of_lt h2.2 (by decide)
    · exact lt_of_le_of_lt h3.2 (by decide)
    · cases h
  have hc := hall c.toNat hlt
  rw [Char.ofNat_toNat] at hc
  exact hc h

theorem hexValue_map_toLower {ds : List Char} (h : ∀ c ∈ ds, isXDigit c) :
    hexValue (ds.map Char.toLower) = hexValue ds := by
  rw [hexValue, hexValue, List.foldl_map]
  refine List.foldl_ext _ _ _ fun n c hc => ?_
  rw [digitValue_toLower (h c hc)]

theorem lowerHex_spec (width n : ℕ) :
    (∀ c ∈ lowerHex width n, isXDigit c) ∧ hexValue (lowerHex width n) = n := by
  obtain ⟨-, hdigits, hvalue⟩ := printHex_spec width n
  refine ⟨fun c hc => ?_, ?_⟩
  · obtain ⟨d, hd, rfl⟩ := List.mem_map.1 hc
    rw [isXDigit, digitValue_toLower (hdigits d hd)]
    exact hdigits d hd
  · rw [lowerHex, hexValue_map_toLower hdigits, hvalue]

/-- A number before a character that is no digit. -/
theorem lowerHex_inj {width width' n n' : ℕ} (hc : isXDigit c = false) (hc' : isXDigit c' = false)
    (h : lowerHex width n ++ c :: rest = lowerHex width' n' ++ c' :: rest') :
    n = n' ∧ c :: rest = c' :: rest' := by
  obtain ⟨hdigits, hvalue⟩ := lowerHex_spec width n
  obtain ⟨hdigits', hvalue'⟩ := lowerHex_spec width' n'
  obtain ⟨hsame, hrest⟩ := append_cons_inj hdigits hdigits' hc hc' h
  exact ⟨by rw [← hvalue, hsame, hvalue'], hrest⟩

/-- A number before a text that does not begin with a digit. -/
theorem lowerHex_append_inj {width width' n n' : ℕ} {sep : List Char}
    (hsep : ∃ c after, sep = c :: after ∧ isXDigit c = false)
    (h : lowerHex width n ++ (sep ++ rest) = lowerHex width' n' ++ (sep ++ rest')) :
    n = n' ∧ rest = rest' := by
  obtain ⟨c, after, rfl, hc⟩ := hsep
  obtain ⟨hn, hrest⟩ := lowerHex_inj hc hc h
  exact ⟨hn, List.append_cancel_left (List.tail_eq_of_cons_eq hrest)⟩

/-- The same of a number in capital digits. -/
theorem printHex_append_inj {width width' n n' : ℕ} {sep : List Char}
    (hsep : ∃ c after, sep = c :: after ∧ isXDigit c = false)
    (h : printHex width n ++ (sep ++ rest) = printHex width' n' ++ (sep ++ rest')) :
    n = n' ∧ rest = rest' := by
  obtain ⟨c, after, rfl, hc⟩ := hsep
  obtain ⟨-, hdigits, hvalue⟩ := printHex_spec width n
  obtain ⟨-, hdigits', hvalue'⟩ := printHex_spec width' n'
  obtain ⟨hsame, hrest⟩ := append_cons_inj hdigits hdigits' hc hc h
  exact ⟨by rw [← hvalue, hsame, hvalue'],
    List.append_cancel_left (List.tail_eq_of_cons_eq hrest)⟩

theorem printHex_inj {width n n' : ℕ} (h : printHex width n = printHex width n') : n = n' := by
  rw [← (printHex_spec width n).2.2, h, (printHex_spec width n').2.2]

/-- A number that fits the width is as long as the width. -/
theorem length_printHex {width n : ℕ} (hwidth : 0 < width) (h : n < 16 ^ width) :
    (printHex width n).length = width := by
  unfold printHex
  by_cases hn : n = 0
  · simp only [hn, if_true, List.length_append, List.length_replicate, List.length_singleton]
    omega
  · have hle : (Nat.digits 16 n).length ≤ width :=
      (Nat.digits_length_le_iff (by norm_num) n).2 h
    simp only [hn, if_false, List.length_append, List.length_replicate, List.length_map,
      List.length_reverse]
    omega

/-- Texts made of pieces as long as each other are equal piece by piece. -/
theorem flatMap_eq_iff {β : Type*} {f g : β → List Char} : ∀ {l : List β},
    (∀ x ∈ l, (f x).length = (g x).length) → (l.flatMap f = l.flatMap g ↔ ∀ x ∈ l, f x = g x)
  | [], _ => iff_of_true rfl (List.forall_mem_nil _)
  | x :: l, h => by
    rw [List.forall_mem_cons] at h ⊢
    rw [List.flatMap_cons, List.flatMap_cons, ← flatMap_eq_iff h.2]
    exact ⟨fun heq => List.append_inj heq h.1, fun heq => congrArg₂ _ heq.1 heq.2⟩

end Fields

section Lines

theorem newline_not_mem_lowerHex (width n : ℕ) : '\n' ∉ lowerHex width n := by
  intro h
  have hdigit := (lowerHex_spec width n).1 _ h
  revert hdigit
  decide

theorem IsLine.append_left {xs l : List Char} (h : IsLine l) (hxs : '\n' ∉ xs) :
    IsLine (xs ++ l) := by
  obtain ⟨content, rfl, hc⟩ := h
  exact ⟨xs ++ content, (List.append_assoc ..).symm, List.not_mem_append hxs hc⟩

theorem IsLine.append_inj {l l' rest rest' : List Char} (h : IsLine l) (h' : IsLine l')
    (heq : l ++ rest = l' ++ rest') : l = l' ∧ rest = rest' := by
  obtain ⟨content, rfl, hc⟩ := h
  obtain ⟨content', rfl, hc'⟩ := h'
  rw [List.append_assoc, List.append_assoc] at heq
  have hp : ∀ {ds : List Char}, '\n' ∉ ds → ∀ d ∈ ds, (d != '\n') = true := by
    intro ds hds d hd
    rw [bne_iff_ne]
    rintro rfl
    exact hds hd
  obtain ⟨rfl, hrest⟩ := append_cons_inj (hp hc) (hp hc') rfl rfl heq
  exact ⟨rfl, List.tail_eq_of_cons_eq hrest⟩

/-- Lines printed one after the other can be told apart. -/
theorem flatten_inj : ∀ {ls ls' : List (List Char)}, (∀ l ∈ ls, IsLine l) → (∀ l ∈ ls', IsLine l) →
    ls.flatten = ls'.flatten → ls = ls'
  | [], [], _, _, _ => rfl
  | [], l' :: ls', _, h', heq => by
    obtain ⟨content, rfl, -⟩ := h' l' List.mem_cons_self
    simp at heq
  | l :: ls, [], h, _, heq => by
    obtain ⟨content, rfl, -⟩ := h l List.mem_cons_self
    simp at heq
  | l :: ls, l' :: ls', h, h', heq => by
    rw [List.forall_mem_cons] at h h'
    rw [List.flatten_cons, List.flatten_cons] at heq
    obtain ⟨rfl, hrest⟩ := h.1.append_inj h'.1 heq
    rw [flatten_inj h.2 h'.2 hrest]

end Lines

end Printf
