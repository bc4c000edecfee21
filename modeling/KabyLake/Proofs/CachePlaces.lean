import KabyLake.CacheSystem
import KabyLake.Proofs.CacheCases

/-!
# The blocks held before and after a call

A place is a slot of the first level or of the second. Every outcome of a read or a write changes
the block held at no more than three places, and each such change is one `Function.update`.
-/

namespace KabyLake

open SetAssoc

/-- A slot of the first level or of the second. -/
abbrev Place := Fin (64 * 4) ⊕ Fin (512 * 8)

def holds (l1 : L1Cache) (l2 : L2Cache) : Place → Option ℕ := Sum.elim (held l1) (held l2)

variable {size : ℕ} {paddr : PhyAddr} {junk : Malloc} {l1 l1' : L1Cache} {l2 l2' : L2Cache}
  {word : Word}

@[simp] theorem holds_inl (i : Fin (64 * 4)) : holds l1 l2 (.inl i) = held l1 i := rfl

@[simp] theorem holds_inr (j : Fin (512 * 8)) : holds l1 l2 (.inr j) = held l2 j := rfl

theorem holds_update1 {i : Fin (64 * 4)} {o : Option ℕ}
    (h : held l1' = Function.update (held l1) i o) :
    holds l1' l2 = Function.update (holds l1 l2) (.inl i) o := by
  rw [holds, h, holds, Sum.update_elim_inl]

theorem holds_update2 {j : Fin (512 * 8)} {o : Option ℕ}
    (h : held l2' = Function.update (held l2) j o) :
    holds l1 l2' = Function.update (holds l1 l2) (.inr j) o := by
  rw [holds, h, holds, Sum.update_elim_inr]

section Sets

/-- The places of the sets of a block, the only ones that hold it. -/
def placesOf (b : ℕ) : List Place :=
  (List.finRange 4).map (fun w => .inl (slot (Fin.ofNat 64 b) w))
    ++ (List.finRange 8).map fun w => .inr (slot (Fin.ofNat 512 b) w)

theorem mem_placesOf {p : Place} {b : ℕ} (h : holds l1 l2 p = some b) : p ∈ placesOf b := by
  rw [placesOf, List.mem_append, List.mem_map, List.mem_map]
  rcases p with i | j
  · obtain ⟨w, hw⟩ := exists_slot i
    have hset : Fin.ofNat 64 b = setOf i := Fin.ext ((held_eq_some_iff i).1 h).2.2.symm
    exact .inl ⟨w, List.mem_finRange w, by rw [hset, ← hw]⟩
  · obtain ⟨w, hw⟩ := exists_slot j
    have hset : Fin.ofNat 512 b = setOf j := Fin.ext ((held_eq_some_iff j).1 h).2.2.symm
    exact .inr ⟨w, List.mem_finRange w, by rw [hset, ← hw]⟩

variable (P Q R : Place → Prop) [DecidablePred P] [DecidablePred Q] [DecidablePred R] (b : ℕ)

/-- Whether a block is anywhere is decided at the places of its sets, also if some do not count. -/
instance decidableNowhere : Decidable (∀ p, holds l1 l2 p ≠ some b) :=
  decidable_of_iff (∀ p ∈ placesOf b, holds l1 l2 p ≠ some b)
    ⟨fun h p hp => h p (mem_placesOf hp) hp, fun h p _ => h p⟩

instance decidableNotElsewhere : Decidable (∀ p, P p → holds l1 l2 p ≠ some b) :=
  decidable_of_iff (∀ p ∈ placesOf b, P p → holds l1 l2 p ≠ some b)
    ⟨fun h p hP hp => h p (mem_placesOf hp) hP hp, fun h p _ => h p⟩

instance decidableNotElsewhere₂ : Decidable (∀ p, P p → Q p → holds l1 l2 p ≠ some b) :=
  decidable_of_iff (∀ p, P p ∧ Q p → holds l1 l2 p ≠ some b) (by simp only [and_imp])

instance decidableNotElsewhere₃ : Decidable (∀ p, P p → Q p → R p → holds l1 l2 p ≠ some b) :=
  decidable_of_iff (∀ p, P p ∧ Q p ∧ R p → holds l1 l2 p ≠ some b) (by simp only [and_imp])

end Sets

section Invocations

/-- The address of a block, and a read and a write of its first word. -/
def blockAddr (b : ℕ) : PhyAddr := ⟨BitVec.ofNat 20 (b / 256), BitVec.ofNat 12 (b % 256 * 16)⟩

def readBlock (b : ℕ) : Invocation := ⟨.read .data (blockAddr b), default, default, 0⟩

def writeBlock (b : ℕ) (word : Word) : Invocation :=
  ⟨.write (blockAddr b) word, default, default, 0⟩

end Invocations

section Flushed

variable {S W a t : ℕ}

def noBlocks : CacheArray S W a t := fun _ => ⟨false, 0, 0, fun _ => 0⟩

theorem held_of_invalid {c : CacheArray S W a t} (h : ∀ i, (c i).v = false) :
    held c = fun _ => none :=
  funext fun i => (held_eq_none_iff i).2 (h i)

theorem held_flushed (c : CacheArray S W a t) : held (flushed c) = fun _ => none :=
  held_of_invalid fun _ => rfl

theorem held_noBlocks : held (noBlocks : CacheArray S W a t) = fun _ => none :=
  held_of_invalid fun _ => rfl

theorem lookup1_flushed (paddr : PhyAddr) (c : L1Cache) : paddr.lookup1 (flushed c) = none :=
  lookup_of_held_none (held_flushed c) _

theorem lookup2_flushed (paddr : PhyAddr) (c : L2Cache) : paddr.lookup2 (flushed c) = none :=
  lookup_of_held_none (held_flushed c) _

theorem flushAll_eq (mem : Memory size) (l1i l1d : L1Cache) (l2 : L2Cache) :
    flushAll mem l1i l1d l2 = .ok ⟨mem, flushed l1i, flushed l1d, flushed l2⟩ := by
  simp only [flushAll, cacheFlush_l1 _ (by simp : CacheT.l1ICache ≠ .l2Cache),
    cacheFlush_l1 _ l1DCache_ne, cacheFlush_l2, Exec.ok_bind, Exec.pure_eq]

/-- The first call of a run, a read of data. -/
theorem run_first_read {mem : Memory size} (hsize : paddr.addr + 16 ≤ size) (l1i l1d : L1Cache)
    (l2 : L2Cache) (junk junk' : Malloc) (word : Word) :
    Run.run executeCommand ⟨mem, flushed l1i, flushed l1d, flushed l2⟩
        [⟨.read .data paddr, junk, junk', word⟩]
      = .ok ([.word .errNone (mem.lineAt paddr.addr paddr.word)], ⟨mem, flushed l1i,
          Function.update (flushed l1d) (replaceSlot (flushed l1d) paddr.set1)
            (paddr.entry 0 (mem.lineAt paddr.addr)), flushed l2⟩) := by
  simp only [Run.run, executeCommand, Core.l1, Core.setL1, reduceCtorEq, if_false,
    cacheRead_miss (lookup1_flushed paddr l1d) (lookup2_flushed paddr l2), if_pos hsize,
    Exec.ok_bind, Exec.pure_eq]

end Flushed

theorem holds_flushed (l1 : L1Cache) (l2 : L2Cache) :
    holds (flushed l1) (flushed l2) = fun _ => none := by
  funext p
  rcases p with i | j
  · rw [holds_inl, held_flushed]
  · rw [holds_inr, held_flushed]

/-- With no block in the second level, exclusive means no block twice in the first. -/
theorem exclusive_of_held2_none (h : held l2 = fun _ => none) :
    Exclusive (holds l1 l2) ↔ Exclusive (held l1) := by
  constructor
  · exact fun hexcl i j b hi hj => Sum.inl.inj (hexcl (.inl i) (.inl j) b hi hj)
  · rintro hexcl (i | i) (j | j) b hi hj
    · exact congrArg Sum.inl (hexcl i j b hi hj)
    all_goals
      simp only [holds_inr, h, reduceCtorEq] at hi hj

section Blocks

theorem PhyAddr.block_lt (paddr : PhyAddr) : paddr.block < 2 ^ 28 := by
  have := paddr.addr_lt
  unfold PhyAddr.block
  omega

theorem PhyAddr.set1_val (paddr : PhyAddr) : paddr.set1.val = paddr.block % 64 := rfl

theorem PhyAddr.set2_val (paddr : PhyAddr) : paddr.set2.val = paddr.block % 512 := rfl

theorem PhyAddr.entry_tag (age : BitVec 2) (line : CacheLine) :
    (paddr.entry age line).tag.toNat = paddr.block / 64 := by
  have hlt := paddr.block_lt
  rw [entry, BitVec.toNat_ofNat, Nat.mod_eq_of_lt (by omega)]

theorem PhyAddr.held_entry (age : BitVec 2) (line : CacheLine) :
    (paddr.entry age line).held paddr.set1 = some paddr.block := by
  rw [Entry.held, PhyAddr.entry_tag, paddr.set1_val, Nat.div_add_mod']
  rfl

/-- The block an L1 entry is of once it is read as an L2 entry of set 0. -/
def punnedBlock (e : L1Entry) : ℕ := e.tag.toNat / 2 % 524288 * 512

theorem punnedBlock_eq_iff (e : L1Entry) : punnedBlock e = e.tag.toNat * 64 ↔ e.tag.toNat = 0 := by
  unfold punnedBlock
  constructor
  · intro h
    -- the tag is `8 u` with `4 u % 2 ^ 19 = u`, so `2 ^ 19` divides `3 u`, and `u < 2 ^ 19`
    obtain ⟨u, hu⟩ : ∃ u, u = e.tag.toNat / 2 % 524288 := ⟨_, rfl⟩
    rw [← hu] at h
    have ht : e.tag.toNat = 8 * u := by clear hu; omega
    have hhalf : 8 * u / 2 = 4 * u := by clear hu; omega
    have hthree : 4 * u - u = 3 * u := by clear hu; omega
    rw [ht, hhalf] at hu
    have hlt : u < 524288 := hu ▸ Nat.mod_lt _ (by norm_num)
    have hdvd : 524288 ∣ 4 * u - 4 * u % 524288 := Nat.dvd_sub_mod _
    rw [← hu, hthree] at hdvd
    have hzero : 524288 ∣ u := Nat.Coprime.dvd_of_dvd_mul_left (by norm_num) hdvd
    rw [ht, Nat.eq_zero_of_dvd_of_lt hzero hlt]
  · intro h
    rw [h]

theorem asL2Entry_line (e : L1Entry) : (asL2Entry e).line = e.line := rfl

theorem held_asL2Entry {e : L1Entry} (hv : e.v = true) :
    (asL2Entry e).held (0 : Fin 512) = some (punnedBlock e) := by
  have htag : (asL2Entry e).tag.toNat = e.tag.toNat / 2 % 524288 := by
    rw [asL2Entry, BitVec.toNat_setWidth, BitVec.toNat_ushiftRight, Nat.shiftRight_eq_div_pow,
      pow_one]
  have hv' : (asL2Entry e).v = true := hv
  rw [Entry.held, if_pos hv', htag, punnedBlock, Fin.val_zero, add_zero]

/-- The block the victim of a miss in a write goes under. -/
def strayBlock (paddr : PhyAddr) (e : L1Entry) : ℕ := e.tag.toNat / 64 * 512 + paddr.set2

theorem held_stray (v : Bool) (e : L1Entry) (line : CacheLine) :
    (⟨v, 0, (e.tag >>> 6).setWidth 19, line⟩ : L2Entry).held paddr.set2
      = if v then some (strayBlock paddr e) else none := by
  have hlt := e.tag.isLt
  have htag : ((e.tag >>> 6).setWidth 19).toNat = e.tag.toNat / 64 := by
    rw [BitVec.toNat_setWidth, BitVec.toNat_ushiftRight, Nat.shiftRight_eq_div_pow]
    omega
  simp only [Entry.held, htag, strayBlock]

theorem held_copied (v : Bool) (age : BitVec 2) (line line' : CacheLine) :
    (⟨v, 0, ((paddr.entry age line).tag >>> 3).setWidth 19, line'⟩ : L2Entry).held paddr.set2
      = if v then some paddr.block else none := by
  have hlt := paddr.block_lt
  have htag : (((paddr.entry age line).tag >>> 3).setWidth 19).toNat = paddr.block / 512 := by
    rw [PhyAddr.entry, BitVec.toNat_setWidth, BitVec.toNat_ushiftRight, Nat.shiftRight_eq_div_pow,
      BitVec.toNat_ofNat]
    omega
  simp only [Entry.held, htag, paddr.set2_val, Nat.div_add_mod']

end Blocks

section Lookups

theorem held_of_lookup1 {w : Fin 4} (h : paddr.lookup1 l1 = some w) :
    held l1 (slot paddr.set1 w) = some paddr.block := held_of_lookup h paddr.set1_val

theorem held_of_lookup2 {k : Fin 8} (h : paddr.lookup2 l2 = some k) :
    held l2 (slot paddr.set2 k) = some paddr.block := held_of_lookup h paddr.set2_val

/-- A block held in the second level alone is not in the first. -/
theorem held_ne_of_lookup2 (hexcl : Exclusive (holds l1 l2)) {k : Fin 8}
    (h : paddr.lookup2 l2 = some k) (i : Fin (64 * 4)) : held l1 i ≠ some paddr.block :=
  fun hi => nomatch hexcl (.inl i) (.inr (slot paddr.set2 k)) paddr.block hi (held_of_lookup2 h)

theorem held_replaceSlot1_ne (h : paddr.lookup1 l1 = none) :
    held l1 (replaceSlot l1 paddr.set1) ≠ some paddr.block :=
  held_replaceSlot_ne h paddr.set1_val

theorem held_replaceSlot2_ne (h : paddr.lookup2 l2 = none) :
    held l2 (replaceSlot l2 paddr.set2) ≠ some paddr.block :=
  held_replaceSlot_ne h paddr.set2_val

end Lookups

section Outcomes

theorem holds_insert1 (l1 : L1Cache) (l2 : L2Cache) (age : BitVec 2) (line : CacheLine) :
    holds (insert l1 paddr.set1 (paddr.entry age line)) l2
      = Function.update (holds l1 l2) (.inl (replaceSlot l1 paddr.set1)) (some paddr.block) :=
  holds_update1 (by rw [held_insert, paddr.held_entry])

theorem holds_fill (l1 : L1Cache) (l2 : L2Cache) (line : CacheLine) :
    holds (Function.update l1 (replaceSlot l1 paddr.set1) (paddr.entry 0 line)) l2
      = Function.update (holds l1 l2) (.inl (replaceSlot l1 paddr.set1)) (some paddr.block) := by
  refine holds_update1 ?_
  rw [held_update, replaceSlot, setOf_slot, paddr.held_entry]

theorem holds_insert2 (l1 : L1Cache) (l2 : L2Cache) (s : Fin 512) (e : L2Entry) :
    holds l1 (insert l2 s e)
      = Function.update (holds l1 l2) (.inr (replaceSlot l2 s)) (e.held s) :=
  holds_update2 held_insert

theorem holds_clearHit (l1 : L1Cache) (l2 : L2Cache) (k : Fin 8) :
    holds (clearHit l1 k) l2 = Function.update (holds l1 l2) (.inl (clearedSlot k)) none :=
  holds_update1 (held_clear _)

@[simp] theorem holds_touch1 (s : Fin 64) (w : Fin 4) : holds (touch l1 s w) l2 = holds l1 l2 := by
  rw [holds, held_touch, holds]

@[simp] theorem holds_touch2 (s : Fin 512) (k : Fin 8) : holds l1 (touch l2 s k) = holds l1 l2 := by
  rw [holds, held_touch, holds]

theorem held_writeWay1 {w : Fin 4} (h : paddr.lookup1 l1 = some w) (line : CacheLine) :
    held (Function.update (touch l1 paddr.set1 w) (slot paddr.set1 w)
      ⟨true, 0, (l1 (slot paddr.set1 w)).tag, line⟩) = held l1 :=
  held_update_touch (lookup_eq_some_iff.1 h).1 0 line

theorem holds_writeWay1 {w : Fin 4} (h : paddr.lookup1 l1 = some w) (line : CacheLine) :
    holds (Function.update (touch l1 paddr.set1 w) (slot paddr.set1 w)
      ⟨true, 0, (l1 (slot paddr.set1 w)).tag, line⟩) l2 = holds l1 l2 := by
  rw [holds, held_writeWay1 h, holds]

theorem held_writeWay2 {k : Fin 8} (h : paddr.lookup2 l2 = some k) :
    held (writeWay2 paddr l2 word k) = held l2 :=
  held_update_touch (lookup_eq_some_iff.1 h).1 0 _

theorem holds_writeWay2 {k : Fin 8} (h : paddr.lookup2 l2 = some k) :
    holds l1 (writeWay2 paddr l2 word k) = holds l1 l2 := by
  rw [holds, held_writeWay2 h, holds]

/-- A read that hits way `k` of the second level at set 0 and finds room in the first. -/
theorem holds_readL2_room {k : Fin 8} (hroom : firstInvalid (clearHit l1 k) paddr.set1 ≠ none) :
    holds (readL2Result junk paddr l1 l2 word k).l1 (readL2Result junk paddr l1 l2 word k).l2
      = Function.update (Function.update (holds l1 l2) (.inl (clearedSlot k)) none)
          (.inl (replaceSlot (clearHit l1 k) paddr.set1)) (some paddr.block) := by
  obtain ⟨w, hw⟩ := Option.ne_none_iff_exists'.1 hroom
  simp only [readL2Result, hw, holds_insert1, holds_touch2, holds_clearHit]

/-- One that does not puts the victim in the second. -/
theorem holds_readL2_full {k : Fin 8} (hset : paddr.set2 = 0)
    (hfull : firstInvalid (clearHit l1 k) paddr.set1 = none) :
    holds (readL2Result junk paddr l1 l2 word k).l1 (readL2Result junk paddr l1 l2 word k).l2
      = Function.update (Function.update (Function.update (holds l1 l2) (.inl (clearedSlot k)) none)
          (.inr (replaceSlot (touch l2 paddr.set2 k) paddr.set2))
          (some (punnedBlock (clearHit l1 k
            (slot paddr.set1 (oldestWay (clearHit l1 k) paddr.set1))))))
        (.inl (replaceSlot (clearHit l1 k) paddr.set1)) (some paddr.block) := by
  have hv := firstInvalid_eq_none_iff.1 hfull (oldestWay (clearHit l1 k) paddr.set1)
  have hpun := held_asL2Entry hv
  rw [← hset] at hpun
  simp only [readL2Result, hfull]
  rw [holds_insert1, holds_insert2, holds_touch2, holds_clearHit, hpun]

end Outcomes

end KabyLake
