import KabyLake.Proofs.CacheSlots
import KabyLake.Proofs.CacheWord

/-!
# Writing a byte

`cache_write_byte` reads the word, adds the bits of the byte to it and writes it back, and takes a
byte 0 for a null pointer. So it replaces the byte exactly when that has all the bits of the old one
and is not 0 (`cacheWriteByte_replaces_iff`).
-/

namespace KabyLake

open SetAssoc

section Bytes

variable {w w' : Word} {b : Byte} {i k : ℕ}

/-- A word with byte `i` replaced. -/
def withByte (w : Word) (i : ℕ) (b : Byte) : Word :=
  (if i = 3 then b else byteOf w 3) ++ (if i = 2 then b else byteOf w 2)
    ++ (if i = 1 then b else byteOf w 1) ++ (if i = 0 then b else byteOf w 0)

theorem word_ext (h : ∀ k < 4, byteOf w k = byteOf w' k) : w = w' := by
  rw [← append_byteOf w, ← append_byteOf w', h 0 (by norm_num), h 1 (by norm_num),
    h 2 (by norm_num), h 3 (by norm_num)]

theorem byteOf_withByte (hk : k < 4) :
    byteOf (withByte w i b) k = if i = k then b else byteOf w k := by
  obtain ⟨h0, h1, h2, h3⟩ := byteOf_append (if i = 3 then b else byteOf w 3)
    (if i = 2 then b else byteOf w 2) (if i = 1 then b else byteOf w 1)
    (if i = 0 then b else byteOf w 0)
  interval_cases k
  · exact h0
  · exact h1
  · exact h2
  · exact h3

theorem byteOf_or (k : ℕ) : byteOf (w ||| w') k = byteOf w k ||| byteOf w' k := by
  ext j hj
  simp [byteOf]

theorem byteOf_shift (hi : i < 4) (hk : k < 4) :
    byteOf (b.setWidth 32 <<< (8 * i)) k = if i = k then b else 0 := by
  ext j hj
  have hlt : 8 * k + j < 32 := by omega
  simp only [byteOf, BitVec.getElem_setWidth, BitVec.getLsbD_ushiftRight, BitVec.getLsbD_shiftLeft,
    BitVec.getLsbD_setWidth, hlt, decide_true, Bool.true_and]
  rcases lt_trichotomy k i with hki | rfl | hki
  · rw [if_neg (by omega), decide_eq_true (by omega : 8 * k + j < 8 * i)]
    simp
  · rw [if_pos rfl, decide_eq_false (by omega : ¬ 8 * k + j < 8 * k), Nat.add_sub_cancel_left,
      decide_eq_true (by omega : j < 32), BitVec.getLsbD_eq_getElem hj]
    simp
  · rw [if_neg (by omega), BitVec.getLsbD_of_ge b _ (by omega)]
    simp

/-- Adding the bits of a byte replaces a byte whose bits it has. -/
theorem or_eq_withByte_iff (hi : i < 4) :
    w ||| b.setWidth 32 <<< (8 * i) = withByte w i b ↔ byteOf w i ||| b = b := by
  constructor
  · intro h
    have hbyte := congrArg (byteOf · i) h
    simpa only [byteOf_or, byteOf_shift hi hi, byteOf_withByte hi, if_true] using hbyte
  · intro h
    refine word_ext fun k hk => ?_
    rw [byteOf_or, byteOf_shift hi hk, byteOf_withByte hk]
    split_ifs with hik
    · rw [← hik, h]
    · exact BitVec.or_zero

end Bytes

variable {size : ℕ} {m : Memory size} {junk junk' : Malloc} {paddr : PhyAddr} {access : MemAccess}
  {l1 : L1Cache} {l2 : L2Cache} {word : Word} {byte : Byte}

/-- After a read of the word `r.word`, the call that writes the byte returns `ERR_NONE` and leaves
what writing that word with the byte replaced leaves. -/
def ReplacesByte (junk junk' : Malloc) (m : Memory size) (paddr : PhyAddr) (l1 : L1Cache)
    (l2 : L2Cache) (byte : Byte) (r : ReadResult) : Prop :=
  ∃ out, cacheWriteByte junk junk' m paddr l1 l2 byte = .ok out ∧ out.err = .errNone
    ∧ cacheWrite junk' m paddr r.l1 r.l2 (withByte r.word (paddr.addr % 4) byte) = .ok out

/-- Two words that leave the same memory are the same. -/
theorem word_eq_of_cacheWrite {word' : Word} {out : WriteResult size}
    (h : cacheWrite junk m paddr l1 l2 word = .ok out)
    (h' : cacheWrite junk m paddr l1 l2 word' = .ok out) : word = word' := by
  have hword : ∀ word, cacheWrite junk m paddr l1 l2 word = .ok out →
      out.mem.wordAt (paddr.addr + 4 * paddr.word) = word := by
    intro word h
    rcases cacheWrite_cases junk m paddr l1 l2 word with ⟨he, -⟩ | he | ⟨out', hout, -, hword⟩
    · rw [h] at he
      cases he
    · rw [h] at he
      cases he
    · rw [h] at hout
      cases hout
      exact hword
  rw [← hword word h, hword word' h']

theorem ReplacesByte.bits {r : ReadResult}
    (hread : cacheRead junk m paddr .data l1 l2 junk.word = .ok r)
    (h : ReplacesByte junk junk' m paddr l1 l2 byte r) :
    byte ≠ 0 ∧ byteOf r.word (paddr.addr % 4) ||| byte = byte := by
  obtain ⟨out, hout, herr, hreplaced⟩ := h
  have hbyte : byte ≠ 0 := by
    rintro rfl
    cases hout
    cases herr
  rw [cacheWriteByte_or junk' hbyte hread] at hout
  exact ⟨hbyte, (or_eq_withByte_iff (Nat.mod_lt _ (by norm_num))).1
    (word_eq_of_cacheWrite hout hreplaced)⟩

/-- A read that misses everywhere finds the word in memory. -/
theorem cacheRead_noBlocks (paddr : PhyAddr) (h : paddr.addr + 16 ≤ size) :
    ∃ r, cacheRead junk m paddr access noBlocks noBlocks word = .ok r
      ∧ r.word = m.lineAt paddr.addr paddr.word := by
  have h1 : paddr.lookup1 noBlocks = none := lookup_of_held_none held_noBlocks _
  have h2 : paddr.lookup2 noBlocks = none := lookup_of_held_none held_noBlocks _
  exact ⟨_, (cacheRead_miss h1 h2).trans (if_pos h), rfl⟩

end KabyLake
