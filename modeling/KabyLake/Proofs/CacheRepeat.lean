import KabyLake.Library.Ages
import KabyLake.Proofs.CacheByte
import KabyLake.Proofs.CacheTransparency

/-!
# Reading again, and reading what was written

A read or a write that returns leaves its block in the first level, in a way of age 0, whatever the
caches held. A read of the block then changes nothing more and gives the words of that line. They
are the words the call dealt with, but for two slips: a read sets no word when it takes its line
from the second level into a free way, and a write copies another line when it finds its block in
the sets 1 to 7 of the second level.
-/

namespace KabyLake

open SetAssoc

variable {size size' : ℕ} {junk junk' : Malloc} {m : Memory size} {m' : Memory size'}
  {paddr paddr' : PhyAddr} {access access' : MemAccess} {l1 : L1Cache} {l2 : L2Cache}
  {word word' : Word} {line : CacheLine}

/-- The block of an address is found in the first level, in a way of age 0 with this line. -/
def Freshest (paddr : PhyAddr) (l1 : L1Cache) (line : CacheLine) : Prop :=
  ∃ w, paddr.lookup1 l1 = some w ∧ (l1 (slot paddr.set1 w)).age.toNat = 0
    ∧ (l1 (slot paddr.set1 w)).line = line

theorem PhyAddr.set1_congr (h : paddr'.block = paddr.block) : paddr'.set1 = paddr.set1 := by
  rw [PhyAddr.set1, PhyAddr.set1, h]

theorem PhyAddr.lookup1_congr (h : paddr'.block = paddr.block) (l1 : L1Cache) :
    paddr'.lookup1 l1 = paddr.lookup1 l1 := by
  rw [PhyAddr.lookup1, PhyAddr.lookup1, PhyAddr.set1_congr h, h]

/-- A read of such a block changes no cache. -/
theorem Freshest.cacheRead (h : Freshest paddr l1 line) (hblock : paddr'.block = paddr.block) :
    cacheRead junk m paddr' access l1 l2 word = .ok ⟨.errNone, line paddr'.word, l1, l2⟩ := by
  obtain ⟨w, hw, hage, rfl⟩ := h
  have hw' : paddr'.lookup1 l1 = some w := (PhyAddr.lookup1_congr hblock l1).trans hw
  rw [cacheRead_hit hw', PhyAddr.set1_congr hblock,
    touch_of_age_zero (BitVec.eq_of_toNat_eq hage)]

section Lines

theorem freshest_touch {w : Fin 4} (h : paddr.lookup1 l1 = some w) :
    Freshest paddr (touch l1 paddr.set1 w) (l1 (slot paddr.set1 w)).line := by
  refine ⟨w, ?_, age_touch_self, line_touch⟩
  rw [PhyAddr.lookup1, lookup_congr content_touch, ← PhyAddr.lookup1, h]

theorem freshest_update (h : paddr.lookup1 l1 = none) (line : CacheLine) :
    Freshest paddr (Function.update l1 (replaceSlot l1 paddr.set1) (paddr.entry 0 line)) line := by
  refine ⟨replaceWay l1 paddr.set1, lookup_update_replaceSlot h rfl (paddr.entry_tag 0 line), ?_⟩
  rw [← replaceSlot, Function.update_self]
  exact ⟨rfl, rfl⟩

theorem freshest_insert (h : paddr.lookup1 l1 = none) (age : BitVec 2) (line : CacheLine) :
    Freshest paddr (insert l1 paddr.set1 (paddr.entry age line)) line :=
  ⟨replaceWay l1 paddr.set1, lookup_insert h rfl (paddr.entry_tag age line), age_insert_self,
    line_insert_self⟩

theorem freshest_writeWay {w : Fin 4} (h : paddr.lookup1 l1 = some w) (line : CacheLine) :
    Freshest paddr (Function.update (touch l1 paddr.set1 w) (slot paddr.set1 w)
      ⟨true, 0, (l1 (slot paddr.set1 w)).tag, line⟩) line := by
  obtain ⟨hv, ht, hbefore⟩ := lookup_eq_some_iff.1 h
  refine ⟨w, lookup_eq_some_iff.2 ?_, ?_⟩
  swap
  · rw [Function.update_self]
    exact ⟨rfl, rfl⟩
  rw [Function.update_self]
  refine ⟨rfl, ht, fun w' hlt => ?_⟩
  rw [Function.update_of_ne fun he => hlt.ne (slot_inj.1 he).2, v_touch, tag_touch]
  exact hbefore w' hlt

end Lines

/-- The read takes its line from the second level into a free way of the first. -/
def TakesFree (paddr : PhyAddr) (l1 : L1Cache) (l2 : L2Cache) : Prop :=
  paddr.lookup1 l1 = none ∧ ∃ k, paddr.lookup2 l2 = some k
    ∧ firstInvalid (clearHit l1 k) paddr.set1 ≠ none

/-- A read that returns leaves its block freshest, and gives the word of its line unless it takes
the line into a free way: then the word is the one it was given. -/
theorem cacheRead_freshest {r : ReadResult}
    (h : cacheRead junk m paddr access l1 l2 word = .ok r) : ∃ line, Freshest paddr r.l1 line
      ∧ (¬ TakesFree paddr l1 l2 → r.word = line paddr.word)
      ∧ (TakesFree paddr l1 l2 → r.word = word) := by
  rcases h1 : paddr.lookup1 l1 with _ | w
  · rcases h2 : paddr.lookup2 l2 with _ | k
    · rw [cacheRead_miss h1 h2] at h
      split_ifs at h
      cases h
      refine ⟨_, freshest_update h1 _, fun _ => rfl, ?_⟩
      rintro ⟨-, k, hk, -⟩
      rw [h2] at hk
      cases hk
    · by_cases hset : paddr.set2 = 0
      swap
      · rw [cacheRead_l2_fault h1 h2 hset] at h
        cases h
      rw [cacheRead_l2 h1 h2 hset] at h
      cases h
      have hnone : paddr.lookup1 (clearHit l1 k) = none := lookup_clear h1
      have htakes : TakesFree paddr l1 l2 ↔ firstInvalid (clearHit l1 k) paddr.set1 ≠ none := by
        simp only [TakesFree, h1, h2, true_and, Option.some.injEq, exists_eq_left']
      rw [readL2Result_l1, htakes]
      refine ⟨_, freshest_insert hnone _ _, ?_⟩
      rcases hfree : firstInvalid (clearHit l1 k) paddr.set1 with _ | v
      · simp only [readL2Result, hfree, PhyAddr.entry_line, ne_eq, not_true_eq_false,
          not_false_eq_true, forall_const, false_implies, and_self]
      · simp only [readL2Result, hfree, ne_eq, reduceCtorEq, not_false_eq_true, not_true_eq_false,
          false_implies, forall_const, and_self]
  · rw [cacheRead_hit h1] at h
    cases h
    refine ⟨_, freshest_touch h1, fun _ => rfl, ?_⟩
    rintro ⟨hnone, -⟩
    rw [h1] at hnone
    cases hnone

/-- After a read that returns, every later read in its block hits: it returns a word of the one line
the block then has and leaves both caches as they are, whatever the memory holds by then. The first
read gave the word the second gives exactly if it did not take the line from the second level into a
free way, or was given that word. -/
theorem cacheRead_again {r : ReadResult} (h : cacheRead junk m paddr access l1 l2 word = .ok r) :
    ∃ line : CacheLine,
      (∀ size' (m' : Memory size') junk' access' word' (paddr' : PhyAddr),
        paddr'.block = paddr.block → cacheRead junk' m' paddr' access' r.l1 r.l2 word'
          = .ok ⟨.errNone, line paddr'.word, r.l1, r.l2⟩)
      ∧ (r.word = line paddr.word ↔ TakesFree paddr l1 l2 → word = line paddr.word) := by
  obtain ⟨line, hfresh, hword, hword'⟩ := cacheRead_freshest h
  refine ⟨line, fun _ _ _ _ _ _ hblock => hfresh.cacheRead hblock, ?_⟩
  by_cases htakes : TakesFree paddr l1 l2
  · rw [hword' htakes]
    exact ⟨fun he _ => he, fun he => he htakes⟩
  · exact ⟨fun _ hf => absurd hf htakes, fun _ => hword htakes⟩

/-- A word of memory read twice. -/
theorem cacheRead_again_noBlocks : ∃ (r : ReadResult) (line : CacheLine),
    cacheRead default (fun _ => 7 : Memory 32) ⟨0, 4⟩ .data noBlocks noBlocks 0 = .ok r
      ∧ cacheRead default (fun _ => 9 : Memory 16) ⟨0, 4⟩ .data r.l1 r.l2 0
        = .ok ⟨.errNone, line 1, r.l1, r.l2⟩ := by
  obtain ⟨r, hr, -⟩ : ∃ r,
      cacheRead default (fun _ => 7 : Memory 32) ⟨0, 4⟩ .data noBlocks noBlocks 0 = .ok r
        ∧ r.word = Memory.lineAt (fun _ => 7 : Memory 32) 4 1 := cacheRead_noBlocks _ (by decide)
  obtain ⟨line, hread, -⟩ := cacheRead_again hr
  exact ⟨r, line, hr, hread 16 (fun _ => 9) default .data 0 ⟨0, 4⟩ rfl⟩

/-- The line a write leaves in the first level has the word, but where the write finds its block in
the second level alone, outside set 0: then it is the line of the slot it copies. -/
def ReadsBack (paddr : PhyAddr) (l1 : L1Cache) (l2 : L2Cache) (word : Word) : Prop :=
  paddr.lookup1 l1 = none → ∀ k, paddr.lookup2 l2 = some k →
    paddr.set2 = 0 ∨ ∀ h : paddr.set2.val < 8,
      (l2 (copiedSlot paddr.set2 k h)).line paddr.word = word

/-- Outside set 0 the slot that is copied is not the one that was written. -/
theorem copiedSlot_ne {k : Fin 8} (hset : paddr.set2 ≠ 0) (h : paddr.set2.val < 8) :
    copiedSlot paddr.set2 k h ≠ slot paddr.set2 k := by
  have hpos : 0 < paddr.set2.val := Nat.pos_of_ne_zero fun he => hset (Fin.ext he)
  intro he
  have hval := congrArg Fin.val he
  rw [← slot_index] at hval
  have hcopied : (copiedSlot paddr.set2 k h).val = paddr.set2.val * 512 + k.val := rfl
  omega

theorem copiedEntry_word (junk : Malloc) {k : Fin 8} (h : paddr.set2.val < 8) :
    (copiedEntry junk paddr l2 word k h).line paddr.word = word
      ↔ paddr.set2 = 0 ∨ (l2 (copiedSlot paddr.set2 k h)).line paddr.word = word := by
  by_cases hset : paddr.set2 = 0
  · rw [copiedEntry_eq hset h, PhyAddr.entry_line, Function.update_self]
    exact iff_of_true rfl (.inl hset)
  · rw [copiedEntry, PhyAddr.entry_line, writeWay2, Function.update_of_ne (copiedSlot_ne hset h),
      line_touch, or_iff_right hset]

theorem cacheWrite_freshest {out : WriteResult size}
    (h : cacheWrite junk m paddr l1 l2 word = .ok out) : ∃ line, Freshest paddr out.l1 line
      ∧ (line paddr.word = word ↔ ReadsBack paddr l1 l2 word) := by
  by_cases hsize : paddr.addr + 16 ≤ size
  swap
  · rw [cacheWrite_short (by omega)] at h
    cases h
  unfold ReadsBack
  rcases h1 : paddr.lookup1 l1 with _ | w
  · rcases h2 : paddr.lookup2 l2 with _ | k
    · rw [cacheWrite_miss h1 h2, if_pos hsize] at h
      cases h
      refine ⟨_, freshest_insert h1 _ _, iff_of_true (Function.update_self ..) ?_⟩
      rintro - k ⟨⟩
    · rw [cacheWrite_l2 h1 h2, if_pos hsize] at h
      split_ifs at h with hset
      cases h
      refine ⟨_, freshest_insert h1 _ _, ?_⟩
      simp only [forall_const, Option.some.injEq, forall_eq', hset, forall_true_left]
      exact copiedEntry_word junk hset
  · rw [cacheWrite_hit h1, if_pos hsize] at h
    cases h
    refine ⟨_, freshest_writeWay h1 _, iff_of_true (Function.update_self ..) ?_⟩
    rintro ⟨⟩

/-- After a write that returns, every read in its block hits and leaves both caches as they are, and
the read of the address gives the word written exactly if the block was not found in the second
level alone outside set 0, or the line copied there has the word too. -/
theorem cacheWrite_then_read {out : WriteResult size}
    (h : cacheWrite junk m paddr l1 l2 word = .ok out) : ∃ line : CacheLine,
      (∀ size' (m' : Memory size') junk' access word' (paddr' : PhyAddr),
        paddr'.block = paddr.block → cacheRead junk' m' paddr' access out.l1 out.l2 word'
          = .ok ⟨.errNone, line paddr'.word, out.l1, out.l2⟩)
      ∧ (line paddr.word = word ↔ ReadsBack paddr l1 l2 word) := by
  obtain ⟨line, hfresh, hword⟩ := cacheWrite_freshest h
  exact ⟨line, fun _ _ _ _ _ _ hblock => hfresh.cacheRead hblock, hword⟩

/-- A word written at address 4 and read. -/
theorem cacheWrite_then_read_noBlocks : ∃ (out : WriteResult 32) (line : CacheLine),
    cacheWrite default (fun _ => 7 : Memory 32) ⟨0, 4⟩ noBlocks noBlocks 9 = .ok out
      ∧ cacheRead default (fun _ => 0 : Memory 16) ⟨0, 4⟩ .data out.l1 out.l2 0
        = .ok ⟨.errNone, line 1, out.l1, out.l2⟩ ∧ line 1 = 9 := by
  have h1 : PhyAddr.lookup1 ⟨0, 4⟩ noBlocks = none := lookup_of_held_none held_noBlocks _
  have h2 : PhyAddr.lookup2 ⟨0, 4⟩ noBlocks = none := lookup_of_held_none held_noBlocks _
  have hwrite : cacheWrite default (fun _ => 7 : Memory 32) ⟨0, 4⟩ noBlocks noBlocks 9 = .ok _ :=
    (cacheWrite_miss h1 h2).trans (if_pos (by decide))
  obtain ⟨line, hread, hword⟩ := cacheWrite_then_read hwrite
  refine ⟨_, line, hwrite, hread 16 (fun _ => 0) default .data 0 ⟨0, 4⟩ rfl, hword.2 ?_⟩
  rintro - k hk
  rw [h2] at hk
  cases hk

/-- The byte that is read after a byte was written has the bits of the byte and of the one that
would have been read before, so it is the byte exactly if that had no other bits. -/
theorem cacheWriteByte_then_read {byte : Byte} {out : WriteResult size}
    (h : cacheWriteByte junk junk' m paddr l1 l2 byte = .ok out) (herr : out.err = .errNone) :
    ∃ old l1' l2', cacheReadByte junk m paddr .data l1 l2 = .ok (.errNone, some old, l1', l2')
      ∧ ∀ size' (m' : Memory size') junk'' access,
        cacheReadByte junk'' m' paddr access out.l1 out.l2
          = .ok (.errNone, some (old ||| byte), out.l1, out.l2) := by
  have hbyte : byte ≠ 0 := by
    rintro rfl
    cases h
    cases herr
  obtain ⟨r, hread⟩ : ∃ r, cacheRead junk m paddr .data l1 l2 junk.word = .ok r := by
    rw [cacheWriteByte, if_neg hbyte] at h
    obtain ⟨r, hr, -⟩ := Exec.bind_eq_ok h
    exact ⟨r, hr⟩
  rw [cacheWriteByte_or junk' hbyte hread] at h
  obtain ⟨old, ⟨w, hw, -⟩, -⟩ := cacheRead_freshest hread
  obtain ⟨line, hfresh, hword⟩ := cacheWrite_freshest h
  -- the write finds the line the read has left
  have hline := hword.2 fun hnone => by
    rw [hw] at hnone
    cases hnone
  have hoff := paddr.pageOffset_mod
  have hlt : paddr.addr % 4 < 4 := Nat.mod_lt _ (by norm_num)
  refine ⟨byteOf r.word (paddr.addr % 4), r.l1, r.l2, ?_, fun size' m' junk'' access => ?_⟩
  · simp only [cacheReadByte, hread, Exec.ok_bind, cacheRead_err hread, ne_eq, not_true_eq_false,
      if_false, Exec.pure_eq, byteOf_mask, hoff]
  · have hbits : byteOf (line paddr.word) (paddr.addr % 4)
        = byteOf r.word (paddr.addr % 4) ||| byte := by
      rw [hline, byteOf_or, byteOf_shift hlt hlt, if_pos rfl]
    simp only [cacheReadByte, hfresh.cacheRead rfl, Exec.ok_bind, ne_eq, not_true_eq_false,
      if_false, Exec.pure_eq, byteOf_mask, hoff, hbits]

/-- Over a byte 1 a byte 2 is written and read as 3. -/
theorem cacheWriteByte_then_read_one : ∃ (out : WriteResult 32) (old : Byte),
    cacheWriteByte default default (fun _ => 1 : Memory 32) ⟨0, 2⟩ noBlocks noBlocks 2 = .ok out
      ∧ cacheReadByte default (fun _ => 0 : Memory 16) ⟨0, 2⟩ .data out.l1 out.l2
        = .ok (.errNone, some (old ||| 2), out.l1, out.l2) := by
  have hsize : PhyAddr.addr ⟨0, 2⟩ + 16 ≤ 32 := by decide
  obtain ⟨r, hread, -⟩ : ∃ r,
      cacheRead default (fun _ => 1 : Memory 32) ⟨0, 2⟩ .data noBlocks noBlocks 0 = .ok r
        ∧ r.word = Memory.lineAt (fun _ => 1 : Memory 32) 2 0 := cacheRead_noBlocks _ hsize
  obtain ⟨line, ⟨w, hw, -⟩, -⟩ := cacheRead_freshest hread
  have hbyte : (2 : Byte) ≠ 0 := by decide
  have hwrite := (cacheWriteByte_or default hbyte hread).trans
    ((cacheWrite_hit hw).trans (if_pos hsize))
  obtain ⟨old, -, -, -, hagain⟩ := cacheWriteByte_then_read hwrite rfl
  exact ⟨_, old, hwrite, hagain 16 (fun _ => 0) default .data⟩

end KabyLake
