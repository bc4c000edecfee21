import KabyLake.Memory

/-!
# Lines and words of a memory

A line reads back the words it was written with and leaves the lines beside it; writing a line back
with one word changed is writing the word.
-/

namespace KabyLake

variable {size : ℕ} {m : Memory size}

theorem append_byteOf (w : Word) : byteOf w 3 ++ byteOf w 2 ++ byteOf w 1 ++ byteOf w 0 = w := by
  ext i hi
  simp only [byteOf, BitVec.getElem_append, BitVec.getElem_setWidth, BitVec.getLsbD_ushiftRight]
  split_ifs
  all_goals
    rw [← BitVec.getLsbD_eq_getElem]
    congr 1
    omega

/-- Byte `i` of a word as `cache_read_byte` takes it. -/
theorem byteOf_mask (w : Word) (i : ℕ) : ((w >>> (i * 8)) &&& 255).setWidth 8 = byteOf w i := by
  have h255 : ∀ k < 8, (255 : Word).getLsbD k = true := by decide
  ext k hk
  simp only [byteOf, BitVec.getElem_setWidth, BitVec.getLsbD_and, h255 k hk, Bool.and_true,
    mul_comm i 8]

theorem byteOf_append (b₃ b₂ b₁ b₀ : Byte) : byteOf (b₃ ++ b₂ ++ b₁ ++ b₀) 0 = b₀
    ∧ byteOf (b₃ ++ b₂ ++ b₁ ++ b₀) 1 = b₁ ∧ byteOf (b₃ ++ b₂ ++ b₁ ++ b₀) 2 = b₂
    ∧ byteOf (b₃ ++ b₂ ++ b₁ ++ b₀) 3 = b₃ := by
  refine ⟨?_, ?_, ?_, ?_⟩
  all_goals
    ext i hi
    simp only [byteOf, BitVec.getElem_setWidth, BitVec.getLsbD_ushiftRight, BitVec.getLsbD_append]
    simp only [← BitVec.getLsbD_eq_getElem]
    split_ifs <;> first | omega | congr 1; omega

namespace Memory

theorem byteAt_setLine {a : ℕ} (ha : a + 16 ≤ size) (line : CacheLine) (j : ℕ) :
    (m.setLine a line).byteAt j = if a ≤ j ∧ j < a + 16 then
      byteOf (line (Fin.ofNat 4 ((j - a) / 4))) ((j - a) % 4) else m.byteAt j := by
  unfold byteAt setLine
  split_ifs <;> first | rfl | omega

theorem wordAt_setLine_self {a : ℕ} (ha : a + 16 ≤ size) (line : CacheLine) (k : Fin 4) :
    (m.setLine a line).wordAt (a + 4 * k) = line k := by
  have hk := k.isLt
  have hbyte : ∀ i < 4, (m.setLine a line).byteAt (a + 4 * k + i) = byteOf (line k) i := by
    intro i hi
    have hdiv : (a + 4 * k.val + i - a) / 4 = k.val := by omega
    have hmod : (a + 4 * k.val + i - a) % 4 = i := by omega
    rw [byteAt_setLine ha, if_pos (by omega), hdiv, hmod]
    simp
  rw [wordAt, hbyte 3 (by norm_num), hbyte 2 (by norm_num), hbyte 1 (by norm_num)]
  have h0 := hbyte 0 (by norm_num)
  rw [add_zero] at h0
  rw [h0, append_byteOf]

theorem wordAt_congr {m' : Memory size} {a : ℕ}
    (h : ∀ k < 4, m'.byteAt (a + k) = m.byteAt (a + k)) : m'.wordAt a = m.wordAt a := by
  have h0 : m'.byteAt a = m.byteAt a := h 0 (by norm_num)
  simp only [wordAt, h0, h 1 (by norm_num), h 2 (by norm_num), h 3 (by norm_num)]

theorem lineAt_setLine_self {a : ℕ} (ha : a + 16 ≤ size) (line : CacheLine) :
    (m.setLine a line).lineAt a = line :=
  funext fun k => wordAt_setLine_self ha line k

/-- A line beside the one written. -/
theorem lineAt_setLine_of_disjoint {a b : ℕ} (ha : a + 16 ≤ size) (h : b + 16 ≤ a ∨ a + 16 ≤ b)
    (line : CacheLine) : (m.setLine a line).lineAt b = m.lineAt b := by
  funext k
  have hk := k.isLt
  have hbyte : ∀ i < 4, (m.setLine a line).byteAt (b + 4 * k + i) = m.byteAt (b + 4 * k + i) := by
    intro i hi
    rw [byteAt_setLine ha, if_neg (by omega)]
  have h0 := hbyte 0 (by norm_num)
  rw [add_zero] at h0
  simp only [lineAt, wordAt, hbyte 3 (by norm_num), hbyte 2 (by norm_num), hbyte 1 (by norm_num),
    h0]

theorem lineAt_zero (a : ℕ) : lineAt (fun _ => 0 : Memory size) a = fun _ => 0 := by
  have hbyte : ∀ i, byteAt (fun _ => 0 : Memory size) i = 0 := fun i => by
    unfold byteAt
    split_ifs <;> rfl
  funext k
  simp only [lineAt, wordAt, hbyte]
  rfl

theorem byteOf_wordAt (a : ℕ) {i : ℕ} (hi : i < 4) : byteOf (m.wordAt a) i = m.byteAt (a + i) := by
  obtain ⟨h0, h1, h2, h3⟩ := byteOf_append (m.byteAt (a + 3)) (m.byteAt (a + 2)) (m.byteAt (a + 1))
    (m.byteAt a)
  interval_cases i
  · exact h0
  · exact h1
  · exact h2
  · exact h3

theorem setLine_update (a : ℕ) (k : Fin 4) (w : Word) :
    m.setLine a (Function.update (m.lineAt a) k w) = m.setWord (a + 4 * k) w := by
  funext j
  have hk := k.isLt
  unfold setLine setWord
  by_cases hj : a + 4 * k.val ≤ j.val ∧ j.val < a + 4 * k.val + 4
  · have hword : Fin.ofNat 4 ((j.val - a) / 4) = k := by
      apply Fin.ext
      simp only [Fin.val_ofNat]
      omega
    rw [if_pos (by omega), if_pos hj, hword, Function.update_self]
    congr 1
    omega
  · rw [if_neg hj]
    split_ifs with hin
    · have hword : Fin.ofNat 4 ((j.val - a) / 4) ≠ k := by
        intro h
        have := congrArg Fin.val h
        simp only [Fin.val_ofNat] at this
        omega
      rw [Function.update_of_ne hword, lineAt, byteOf_wordAt _ (Nat.mod_lt _ (by norm_num))]
      have hj' : a + 4 * (Fin.ofNat 4 ((j.val - a) / 4)).val + (j.val - a) % 4 = j.val := by
        simp only [Fin.val_ofNat]
        omega
      rw [hj', byteAt, dif_pos j.isLt]
    · rfl

/-- Writing a line changes one word only if the line is that of the memory but for the word. -/
theorem setLine_eq_setWord_iff {a : ℕ} (ha : a + 16 ≤ size) (line : CacheLine) (w : Word) :
    m.setLine a line = m.setWord a w ↔ line = Function.update (m.lineAt a) 0 w := by
  have hword : m.setWord a w = m.setLine a (Function.update (m.lineAt a) 0 w) := by
    rw [setLine_update]
    rfl
  rw [hword]
  constructor
  · intro h
    rw [← lineAt_setLine_self (m := m) ha line, h, lineAt_setLine_self ha]
  · rintro rfl
    rfl

/-- A memory is another one with a word written if it has its bytes and is the same elsewhere. -/
theorem eq_setWord_iff {a : ℕ} (ha : a + 4 ≤ size) (m' : Memory size) (w : Word) :
    m' = m.setWord a w ↔ (∀ i < 4, m'.byteAt (a + i) = byteOf w i)
      ∧ ∀ j, j.val < a ∨ a + 4 ≤ j.val → m' j = m j := by
  unfold setWord
  constructor
  · rintro rfl
    refine ⟨fun i hi => ?_, fun j hj => if_neg (by omega)⟩
    rw [byteAt, dif_pos (by omega)]
    simp [hi]
  · rintro ⟨hin, hout⟩
    funext j
    split_ifs with hj
    · have hbyte := hin (j.val - a) (by omega)
      have hja : a + (j.val - a) = j.val := by omega
      rwa [hja, byteAt, dif_pos j.isLt] at hbyte
    · exact hout j (by omega)

/-- A byte that has the bits of the one in memory is written by adding its bits to the word. -/
theorem setWord_or (a : ℕ) (b : Byte) (h : m.byteAt a ||| b = b) :
    m.setWord a (m.wordAt a ||| b.setWidth 32) = m.setByte a b := by
  have hor : ∀ (x y : Word) i, byteOf (x ||| y) i = byteOf x i ||| byteOf y i := by
    intro x y i
    ext k hk
    simp [byteOf]
  have hfirst : byteOf (b.setWidth 32) 0 = b := by
    ext k hk
    simp [byteOf]
  have hrest : ∀ i, 0 < i → byteOf (b.setWidth 32) i = 0 := by
    intro i hi
    ext k hk
    simp only [byteOf, BitVec.getElem_setWidth, BitVec.getLsbD_ushiftRight, BitVec.getLsbD_setWidth]
    rw [BitVec.getLsbD_of_ge b _ (by omega)]
    simp
  funext j
  unfold setWord setByte
  by_cases hj : a ≤ j.val ∧ j.val < a + 4
  · rw [if_pos hj, hor, byteOf_wordAt _ (by omega)]
    rcases Nat.eq_zero_or_pos (j.val - a) with hzero | hpos
    · rw [hzero, add_zero, hfirst, h, if_pos (by omega)]
    · have hja : a + (j.val - a) = j.val := by omega
      rw [hrest _ hpos, hja, if_neg (by omega), byteAt, dif_pos j.isLt]
      exact BitVec.or_zero
  · rw [if_neg hj, if_neg (by omega)]

end Memory

end KabyLake
