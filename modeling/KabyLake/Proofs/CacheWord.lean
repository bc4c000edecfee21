import KabyLake.Proofs.CacheMatches
import KabyLake.Proofs.CacheSlots

/-!
# The memory a write leaves

Each branch of `cache_write` puts the word at its place in a line and copies the 16 bytes of the
line back to the address itself, not to the start of the line. So only the word changes if the
address is divisible by 16, and else only if the memory happens to hold what is copied. What a call
that leaves the memory or the arrays does to the memory is not defined (`cacheWrite_word_iff`).
-/

namespace KabyLake

open SetAssoc

variable {size : ℕ} {m : Memory size} {junk : Malloc} {paddr : PhyAddr} {l1 : L1Cache}
  {l2 : L2Cache} {word : Word} {line : CacheLine}

/-- The call comes to its end, and if it returns `ERR_NONE` the four bytes at the address are those
of the word, the lowest first, and every other byte is what it was. -/
def WritesWord (m : Memory size) (paddr : PhyAddr) (word : Word) (call : Exec (WriteResult size)) :
    Prop :=
  ∃ r, call = .ok r ∧ (r.err = .errNone →
    (∀ i < 4, r.mem.byteAt (paddr.addr + i) = byteOf word i)
    ∧ ∀ j, j.val < paddr.addr ∨ paddr.addr + 4 ≤ j.val → r.mem j = m j)

/-- The memory has at the address what a line with the word of the address replaced is, the first
word apart, which is the one written. -/
def Repeats (m : Memory size) (paddr : PhyAddr) (word : Word) (line : CacheLine) : Prop :=
  line 0 = word ∧ m.wordAt (paddr.addr + 4 * paddr.word) = word
    ∧ ∀ k, k ≠ 0 → k ≠ paddr.word → m.wordAt (paddr.addr + 4 * k) = line k

/-- The line a write changes: that of the block if it is found, else the 16 bytes at the address. -/
def changedLine (m : Memory size) (paddr : PhyAddr) (l1 : L1Cache) (l2 : L2Cache) : CacheLine :=
  if paddr.lookup1 l1 = none ∧ paddr.lookup2 l2 = none then m.lineAt paddr.addr
  else m.lineAt (16 * paddr.block)

/-- The 16 bytes at the address are in the memory and the slots of the call in the arrays; and the
address is divisible by 16, or the memory repeats what is copied. -/
def WordOnly (m : Memory size) (paddr : PhyAddr) (l1 : L1Cache) (l2 : L2Cache) (word : Word) :
    Prop :=
  paddr.addr + 16 ≤ size ∧ WriteInside paddr l1 l2
    ∧ (16 ∣ paddr.addr ∨ Repeats m paddr word (changedLine m paddr l1 l2))

theorem word_eq_zero_iff (h4 : 4 ∣ paddr.addr) : paddr.word = 0 ↔ 16 ∣ paddr.addr := by
  have hval : paddr.word.val = paddr.addr / 4 % 4 := rfl
  rw [← Fin.val_inj, hval]
  show paddr.addr / 4 % 4 = 0 ↔ 16 ∣ paddr.addr
  omega

/-- The line copied back. -/
theorem setLine_word_iff (hsize : paddr.addr + 16 ≤ size) (h4 : 4 ∣ paddr.addr)
    (hline : 16 ∣ paddr.addr → line = m.lineAt paddr.addr) :
    m.setLine paddr.addr (Function.update line paddr.word word) = m.setWord paddr.addr word
      ↔ 16 ∣ paddr.addr ∨ Repeats m paddr word line := by
  rw [Memory.setLine_eq_setWord_iff hsize]
  by_cases h16 : 16 ∣ paddr.addr
  · rw [hline h16, (word_eq_zero_iff h4).2 h16]
    simp [h16]
  · have hword : paddr.word ≠ 0 := fun h => h16 ((word_eq_zero_iff h4).1 h)
    rw [or_iff_right h16, funext_iff]
    unfold Repeats
    constructor
    · intro h
      refine ⟨?_, ?_, fun k hk0 hk => ?_⟩
      · simpa [hword.symm] using h 0
      · simpa [hword, Memory.lineAt] using (h paddr.word).symm
      · simpa [hk0, hk, Memory.lineAt] using (h k).symm
    · rintro ⟨h0, hw, hrest⟩ k
      by_cases hk : k = paddr.word
      · subst hk
        simp [hword, Memory.lineAt, hw]
      by_cases hk0 : k = 0
      · subst hk0
        simp [hword.symm, h0]
      · simp [hk, hk0, Memory.lineAt, hrest k hk0 hk]

/-- A call that copies a line back to the address and has nothing more to do with the memory. -/
theorem writesWord_setLine_iff (hsize : paddr.addr + 16 ≤ size) (h4 : 4 ∣ paddr.addr)
    (hline : 16 ∣ paddr.addr → line = m.lineAt paddr.addr) (l1' : L1Cache) (l2' : L2Cache) :
    WritesWord m paddr word (.ok ⟨.errNone,
      m.setLine paddr.addr (Function.update line paddr.word word), l1', l2'⟩)
      ↔ 16 ∣ paddr.addr ∨ Repeats m paddr word line := by
  rw [← setLine_word_iff hsize h4 hline, Memory.eq_setWord_iff (by omega)]
  constructor
  · rintro ⟨r, hr, h⟩
    cases hr
    exact h rfl
  · exact fun h => ⟨_, rfl, fun _ => h⟩

/-- The line a write copies back is the one the condition is about. -/
theorem cacheWrite_changedLine (junk : Malloc) (word : Word) (h1 : Matches m l1)
    (h2 : Matches m l2) (hsize : paddr.addr + 16 ≤ size) (hslots : WriteInside paddr l1 l2) :
    ∃ l1' l2', cacheWrite junk m paddr l1 l2 word = .ok ⟨.errNone, m.setLine paddr.addr
      (Function.update (changedLine m paddr l1 l2) paddr.word word), l1', l2'⟩ := by
  unfold changedLine
  rcases hw : paddr.lookup1 l1 with _ | w
  · rcases hk : paddr.lookup2 l2 with _ | k
    · rw [if_pos ⟨rfl, rfl⟩]
      exact ⟨_, _, (cacheWrite_miss hw hk).trans (if_pos hsize)⟩
    · rw [if_neg (by simp), ← (h2 _ _ (held_of_lookup2 hk)).2]
      have hset : paddr.set2.val < 8 :=
        (hslots.resolve_left (not_not_intro hw)).resolve_left (by simp [hk])
      exact ⟨_, _, (cacheWrite_l2 hw hk).trans ((if_pos hsize).trans (dif_pos hset))⟩
  · rw [if_neg (by simp), ← (h1 _ _ (held_of_lookup1 hw)).2]
    exact ⟨_, _, (cacheWrite_hit hw).trans (if_pos hsize)⟩

/-- A write changes exactly its word of the memory if and only if it comes to its end, and the
address is divisible by 16 or the memory already repeats what is copied. -/
theorem cacheWrite_word_iff (junk : Malloc) (word : Word) (h1 : Matches m l1) (h2 : Matches m l2)
    (h4 : 4 ∣ paddr.addr) : WritesWord m paddr word (cacheWrite junk m paddr l1 l2 word)
      ↔ WordOnly m paddr l1 l2 word := by
  by_cases hruns : WriteInside paddr l1 l2 ∧ paddr.addr + 16 ≤ size
  swap
  · refine iff_of_false (fun ⟨r, hr, _⟩ => ?_) fun h => hruns ⟨h.2.1, h.1⟩
    exact hruns (cacheWrite_runs_iff.1 ⟨r, hr⟩)
  obtain ⟨hslots, hsize⟩ := hruns
  have haligned : 16 ∣ paddr.addr → changedLine m paddr l1 l2 = m.lineAt paddr.addr := fun h => by
    rw [changedLine, ← PhyAddr.addr_eq h, ite_self]
  obtain ⟨l1', l2', hcall⟩ := cacheWrite_changedLine junk word h1 h2 hsize hslots
  rw [hcall, writesWord_setLine_iff hsize h4 haligned, WordOnly]
  exact ⟨fun h => ⟨hsize, hslots, h⟩, fun h => h.2.2⟩

/-- A word at address 16, nothing valid. -/
theorem cacheWrite_word_aligned : WritesWord (fun _ => 7 : Memory 32) ⟨0, 16⟩ 1
    (cacheWrite default (fun _ => 7 : Memory 32) ⟨0, 16⟩ noBlocks noBlocks 1) :=
  (cacheWrite_word_iff default 1 (matches_of_held_none held_noBlocks)
    (matches_of_held_none held_noBlocks) (by decide)).2 ⟨by decide,
      .inr (.inl (lookup_of_held_none held_noBlocks _)), .inl (by decide)⟩

/-- A word at address 4 goes to address 8. -/
theorem cacheWrite_misplaces_word :
    Matches (fun _ => 0 : Memory 32) (noBlocks : L1Cache)
      ∧ Matches (fun _ => 0 : Memory 32) (noBlocks : L2Cache)
      ∧ 4 ∣ PhyAddr.addr ⟨0, 4⟩
      ∧ ¬ WritesWord (fun _ => 0 : Memory 32) ⟨0, 4⟩ 1
        (cacheWrite default (fun _ => 0 : Memory 32) ⟨0, 4⟩ noBlocks noBlocks 1) := by
  refine ⟨matches_of_held_none held_noBlocks, matches_of_held_none held_noBlocks, by decide, ?_⟩
  have h1 : PhyAddr.lookup1 ⟨0, 4⟩ noBlocks = none := lookup_of_held_none held_noBlocks _
  have h2 : PhyAddr.lookup2 ⟨0, 4⟩ noBlocks = none := lookup_of_held_none held_noBlocks _
  rw [cacheWrite_miss h1 h2, if_pos (by decide)]
  rintro ⟨r, hr, h⟩
  cases hr
  have hbyte := (h rfl).1 0 (by norm_num)
  revert hbyte
  decide

end KabyLake
