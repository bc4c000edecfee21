import KabyLake.Proofs.CachePlaces

/-!
# Caches whose lines are those of the memory

A cache matches a memory if each valid line is that of the block it holds. Ageing and clearing keep
this, an insertion keeps it if the new line is right, and writing a line of memory keeps it if no
slot but the one that takes the new line holds the block.
-/

namespace KabyLake

open SetAssoc

variable {S W a t size : ℕ} {m : Memory size} {c : CacheArray S W a t} {s : Fin S} {w : Fin W}
  {i : Fin (S * W)} {e : CacheEntry a t} {b : ℕ} {line : CacheLine}

/-- The memory has the block, with this line. -/
def HasBlock (m : Memory size) (b : ℕ) (line : CacheLine) : Prop :=
  16 * b + 16 ≤ size ∧ line = m.lineAt (16 * b)

instance (m : Memory size) (b : ℕ) (line : CacheLine) : Decidable (HasBlock m b line) :=
  inferInstanceAs (Decidable (_ ∧ _))

def Matches (m : Memory size) (c : CacheArray S W a t) : Prop :=
  ∀ i b, held c i = some b → HasBlock m b (c i).line

theorem matches_of_held_none (h : held c = fun _ => none) : Matches m c := by
  intro i b hi
  rw [h] at hi
  cases hi

theorem Matches.congr {c' : CacheArray S W a t} (h : Matches m c) (hc : content c' = content c) :
    Matches m c' := by
  intro i b hi
  have hline : (c' i).line = (c i).line := congrArg Content.line (congrFun hc i)
  rw [hline]
  exact h i b (held_congr hc ▸ hi)

theorem Matches.touch (h : Matches m c) (s : Fin S) (w : Fin W) : Matches m (touch c s w) :=
  h.congr content_touch

theorem Matches.clear (h : Matches m c) (i : Fin (S * W)) : Matches m (clear c i) := by
  intro j b hj
  rw [held_clear] at hj
  rcases eq_or_ne j i with rfl | hne
  · rw [Function.update_self] at hj
    cases hj
  · rw [Function.update_of_ne hne] at hj
    rw [SetAssoc.clear, Function.update_of_ne hne]
    exact h j b hj

theorem Matches.update (h : Matches m c)
    (he : ∀ b, e.held (SetAssoc.setOf i) = some b → HasBlock m b e.line) :
    Matches m (Function.update c i e) := by
  intro j b hj
  rw [held_update] at hj
  rcases eq_or_ne j i with rfl | hne
  · rw [Function.update_self] at hj ⊢
    exact he b hj
  · rw [Function.update_of_ne hne] at hj ⊢
    exact h j b hj

theorem Matches.insert [NeZero W] (h : Matches m c)
    (he : ∀ b, e.held s = some b → HasBlock m b e.line) : Matches m (SetAssoc.insert c s e) := by
  refine (h.update fun b hb => he b ?_).congr content_insert_eq
  rwa [replaceSlot, setOf_slot] at hb

theorem HasBlock.setLine_of_ne {b' : ℕ} (h : HasBlock m b line) (hsize : 16 * b' + 16 ≤ size)
    (hne : b ≠ b') (line' : CacheLine) : HasBlock (m.setLine (16 * b') line') b line := by
  refine ⟨h.1, ?_⟩
  rw [Memory.lineAt_setLine_of_disjoint hsize (by omega)]
  exact h.2

theorem hasBlock_setLine (hsize : 16 * b + 16 ≤ size) (line : CacheLine) :
    HasBlock (m.setLine (16 * b) line) b line :=
  ⟨hsize, (Memory.lineAt_setLine_self hsize line).symm⟩

/-- A block that is in no slot is written to memory. -/
theorem Matches.setLine (h : Matches m c) (hsize : 16 * b + 16 ≤ size)
    (hb : ∀ i, held c i ≠ some b) (line : CacheLine) : Matches (m.setLine (16 * b) line) c :=
  fun i b' hi => (h i b' hi).setLine_of_ne hsize (fun hbb => hb i (hbb ▸ hi)) line

/-- A block is written to memory and to the only slot that may hold it. -/
theorem Matches.setLine_update (h : Matches m c) (hsize : 16 * b + 16 ≤ size)
    (hb : ∀ j ≠ i, held c j ≠ some b) (he : e.held (SetAssoc.setOf i) = some b) :
    Matches (m.setLine (16 * b) e.line) (Function.update c i e) := by
  intro j b' hj
  rw [held_update] at hj
  rcases eq_or_ne j i with rfl | hne
  · rw [Function.update_self] at hj ⊢
    obtain rfl : b = b' := Option.some.inj (he.symm.trans hj)
    exact hasBlock_setLine hsize e.line
  · rw [Function.update_of_ne hne] at hj ⊢
    exact (h j b' hj).setLine_of_ne hsize (fun hbb => hb j hne (hbb ▸ hj)) e.line

theorem Matches.setLine_touch (h : Matches m c) (hsize : 16 * b + 16 ≤ size)
    (hw : held c (slot s w) = some b) (hb : ∀ j ≠ slot s w, held c j ≠ some b)
    (line : CacheLine) : Matches (m.setLine (16 * b) line)
      (Function.update (SetAssoc.touch c s w) (slot s w) ⟨true, 0, (c (slot s w)).tag, line⟩) := by
  have hv : (c (slot s w)).v = true := ((held_eq_some_iff _).1 hw).1
  refine (h.touch _ _).setLine_update hsize (fun j hj => ?_) ?_
  · rw [held_touch]
    exact hb j hj
  · simpa only [held, Entry.held, hv, if_true] using hw

theorem Matches.setLine_insert [NeZero W] (h : Matches m c) (hsize : 16 * b + 16 ≤ size)
    (hb : ∀ j ≠ replaceSlot c s, held c j ≠ some b) (he : e.held s = some b) :
    Matches (m.setLine (16 * b) e.line) (SetAssoc.insert c s e) := by
  refine (h.setLine_update hsize hb ?_).congr content_insert_eq
  rwa [replaceSlot, setOf_slot]

section Calls

variable {junk : Malloc} {paddr : PhyAddr} {l1 : L1Cache} {l2 : L2Cache} {word : Word}

theorem PhyAddr.addr_eq (h : 16 ∣ paddr.addr) : paddr.addr = 16 * paddr.block :=
  (Nat.mul_div_cancel' h).symm

/-- An entry of the block of an address. -/
theorem hasBlock_entry {age : BitVec 2} (h : HasBlock m paddr.block line) (b : ℕ)
    (hb : (paddr.entry age line).held paddr.set1 = some b) :
    HasBlock m b (paddr.entry age line).line := by
  rw [paddr.held_entry, Option.some.injEq] at hb
  exact hb ▸ h

theorem hasBlock_of_aligned (halign : 16 ∣ paddr.addr) (hsize : paddr.addr + 16 ≤ size) :
    HasBlock m paddr.block (m.lineAt paddr.addr) := by
  rw [PhyAddr.addr_eq halign] at hsize ⊢
  exact ⟨hsize, rfl⟩

theorem matches_readL2_1 {k : Fin 8} (h : Matches m l1)
    (hline : HasBlock m paddr.block (l2 (slot paddr.set2 k)).line) :
    Matches m (readL2Result junk paddr l1 l2 word k).l1 := by
  rw [readL2Result_l1]
  exact (h.clear _).insert (hasBlock_entry hline)

theorem matches_readMiss (h : Matches m l1) (halign : 16 ∣ paddr.addr)
    (hsize : paddr.addr + 16 ≤ size) : Matches m (Function.update l1 (replaceSlot l1 paddr.set1)
      (paddr.entry 0 (m.lineAt paddr.addr))) := by
  refine h.update fun b hb => hasBlock_entry (hasBlock_of_aligned halign hsize) b ?_
  rwa [replaceSlot, setOf_slot] at hb

theorem matches_writeHit_1 {v : Fin 4} (h : Matches m l1) (halign : 16 ∣ paddr.addr)
    (hsize : paddr.addr + 16 ≤ size) (h1 : paddr.lookup1 l1 = some v)
    (halone : ∀ i ≠ slot paddr.set1 v, held l1 i ≠ some paddr.block) (line : CacheLine) :
    Matches (m.setLine paddr.addr line) (Function.update (touch l1 paddr.set1 v)
      (slot paddr.set1 v) ⟨true, 0, (l1 (slot paddr.set1 v)).tag, line⟩) := by
  rw [PhyAddr.addr_eq halign] at hsize ⊢
  exact h.setLine_touch hsize (held_of_lookup1 h1) halone line

/-- A write that misses the first level puts the new line of its block in it. -/
theorem matches_writeInsert_1 {age : BitVec 2} (h : Matches m l1) (halign : 16 ∣ paddr.addr)
    (hsize : paddr.addr + 16 ≤ size) (halone : ∀ i, held l1 i ≠ some paddr.block)
    (line : CacheLine) : Matches (m.setLine paddr.addr line)
      (insert l1 paddr.set1 (paddr.entry age line)) := by
  rw [PhyAddr.addr_eq halign] at hsize ⊢
  exact h.setLine_insert hsize (fun j _ => halone j) (paddr.held_entry age line)

/-- In set 0 the way written is the one copied to the first level. -/
theorem copiedEntry_eq {k : Fin 8} (hset : paddr.set2 = 0) (h : paddr.set2.val < 8) :
    copiedEntry junk paddr l2 word k h = paddr.entry junk.l1Entry.age
      (Function.update (l2 (slot paddr.set2 k)).line paddr.word word) := by
  have hslot : copiedSlot paddr.set2 k h = slot paddr.set2 k := by
    apply Fin.ext
    rw [← slot_index]
    simp [copiedSlot, hset]
  rw [copiedEntry, hslot, writeWay2, Function.update_self]

end Calls

end KabyLake
