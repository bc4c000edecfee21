import KabyLake.Cache
import KabyLake.Library.Loops

/-!
# The cache macros as operations on sets

Given a line and a way inside the array, each macro is an operation of a set-associative array: the
loops over the ways are the pointwise or first-match operations on the set.
-/

namespace KabyLake

open SetAssoc

section Geometry

variable {S W a t : ℕ} (c : CacheArray S W a t) (s : Fin S) (w : Fin W)

theorem slot_index : s.val * W + w.val = (slot s w).val := by
  rw [Fin.coe_mkDivMod, mul_comm]

@[simp] theorem cacheEntry_slot : cacheEntry c W s w = .ok (c (slot s w)) := by
  have hlt : s.val * W + w.val < S * W := slot_index s w ▸ (slot s w).isLt
  rw [cacheEntry, dif_pos hlt]
  simp only [slot_index]

@[simp] theorem setCacheEntry_slot (e : CacheEntry a t) :
    setCacheEntry c W s w e = .ok (Function.update c (slot s w) e) := by
  have hlt : s.val * W + w.val < S * W := slot_index s w ▸ (slot s w).isLt
  rw [setCacheEntry, dif_pos hlt]
  simp only [slot_index]

theorem foreachWay_eq (f : CacheEntry a t → CacheEntry a t) :
    foreachWay W s f c = .ok fun i => if setOf i = s then f (c i) else c i := by
  have hpos : Function.Injective (slot (W := W) s) := fun _ _ h => (slot_inj.1 h).2
  have hstep : ∀ (c : CacheArray S W a t) (w : Fin W),
      (do let e ← cacheEntry c W s w; setCacheEntry c W s w (f e))
        = .ok (Function.update c (slot s w) (f (c (slot s w)))) := by
    intro c w
    simp only [cacheEntry_slot, Exec.ok_bind, setCacheEntry_slot]
  rw [foreachWay, Loops.foldlM_range_update hpos hstep c W le_rfl]
  refine congrArg Except.ok (funext fun i => if_congr ?_ rfl rfl)
  constructor
  · rintro ⟨w, -, rfl⟩
    exact setOf_slot s w
  · rintro rfl
    exact ⟨i.modNat, i.modNat.isLt, Fin.divNat_mkDivMod_modNat i⟩

theorem lruAgeIncrease_eq (h : 2 ^ a ≤ W) : lruAgeIncrease c W w s = .ok (ageAll c s w) := by
  have hage : ∀ e : CacheEntry a t, e.age.toNat ≤ W - 1 := fun e => by
    have := e.age.isLt
    omega
  simp only [lruAgeIncrease, hage, if_true, foreachWay_eq, cacheEntry_slot, setCacheEntry_slot,
    Exec.ok_bind]
  congr 1
  funext i
  by_cases hi : i = slot s w
  · subst hi
    simp [ageAll]
  · simp [ageAll, hi]

theorem lruAgeUpdate_eq : lruAgeUpdate c W w s = .ok (touch c s w) := by
  simp only [lruAgeUpdate, foreachWay_eq, cacheEntry_slot, setCacheEntry_slot, Exec.ok_bind]
  congr 1
  funext i
  by_cases hi : i = slot s w
  · subst hi
    simp [touch]
  · simp [touch, hi, BitVec.lt_def]

theorem lruWayLoop_fold (b : Fin W) : ∀ ws : List (Fin W),
    (ws.map Fin.val).foldlM (fun (x : ℕ × ℕ) i => do
      let e ← cacheEntry c W s i
      return if e.age.toNat ≥ x.2 then (i, e.age.toNat) else x)
        (b.val, (c (slot s b)).age.toNat)
    = .ok ((ws.foldl (fun b w =>
          if (c (slot s b)).age.toNat ≤ (c (slot s w)).age.toNat then w else b) b).val,
        (c (slot s (ws.foldl (fun b w =>
          if (c (slot s b)).age.toNat ≤ (c (slot s w)).age.toNat then w else b) b))).age.toNat)
  | [] => rfl
  | w :: ws => by
    simp only [List.map_cons, List.foldlM_cons, cacheEntry_slot, Exec.ok_bind, Exec.pure_eq,
      List.foldl_cons, ge_iff_le]
    split_ifs with hle
    · exact lruWayLoop_fold w ws
    · exact lruWayLoop_fold b ws

theorem lruWayLoop_eq [NeZero W] :
    lruWayLoop c W s = .ok ((oldestWay c s).val, (c (slot s (oldestWay c s))).age.toNat) := by
  obtain ⟨k, rfl⟩ := Nat.exists_eq_succ_of_ne_zero (NeZero.ne W)
  have hfold := lruWayLoop_fold c s 0 ((List.finRange k).map Fin.succ)
  have hrange : List.range (k + 1) = (0 : Fin (k + 1)).val :: ((List.finRange k).map Fin.succ).map
      Fin.val := by
    rw [← List.map_coe_finRange_eq_range, List.finRange_succ, List.map_cons]
  -- the first step takes way 0 whatever its age, as the fold of `oldestWay` does
  have hfirst : oldestWay c s = ((List.finRange k).map Fin.succ).foldl (fun b w =>
      if (c (slot s b)).age.toNat ≤ (c (slot s w)).age.toNat then w else b) 0 := by
    rw [oldestWay, List.finRange_succ, List.foldl_cons, if_pos (le_refl _)]
  rw [hfirst, lruWayLoop, hrange, List.foldlM_cons, cacheEntry_slot]
  simpa using hfold

theorem invalidWayLoop_eq : ∀ ws : List (Fin W), invalidWayLoop c W s (ws.map Fin.val)
    = .ok ((ws.find? fun w => !(c (slot s w)).v).map Fin.val)
  | [] => rfl
  | w :: ws => by
    rw [List.map_cons, invalidWayLoop, cacheEntry_slot, List.find?_cons]
    rcases hv : (c (slot s w)).v
    · simp [hv]
    · simp [hv, invalidWayLoop_eq ws]

theorem hitLoop_eq (ht : t ≤ 32) (tag : Word) : ∀ ws : List (Fin W),
    hitLoop c W s tag (ws.map Fin.val)
    = .ok (match (ws.find? fun w =>
          !(c (slot s w)).v || (c (slot s w)).tag.toNat == tag.toNat).filter
            fun w => (c (slot s w)).v with
        | some w => (some ⟨w, s, (c (slot s w)).line⟩, touch c s w)
        | none => (none, c))
  | [] => rfl
  | w :: ws => by
    have htag : tag = (c (slot s w)).tag.setWidth 32 ↔ (c (slot s w)).tag.toNat = tag.toNat := by
      have hlt : (c (slot s w)).tag.toNat < 2 ^ 32 :=
        (c (slot s w)).tag.isLt.trans_le (Nat.pow_le_pow_right (by norm_num) ht)
      rw [← BitVec.toNat_inj, BitVec.toNat_setWidth, Nat.mod_eq_of_lt hlt, eq_comm]
    rw [List.map_cons, hitLoop, cacheEntry_slot, List.find?_cons, Exec.ok_bind]
    rcases hv : (c (slot s w)).v
    · simp [hv, Option.filter_some]
    · by_cases heq : (c (slot s w)).tag.toNat = tag.toNat
      · simp [hv, htag, heq, lruAgeUpdate_eq, Option.filter_some]
      · have hbeq := beq_eq_false_iff_ne.2 heq
        simpa [hv, htag, heq, hbeq] using hitLoop_eq ht tag ws

theorem invalidWayLoop_range :
    invalidWayLoop c W s (List.range W) = .ok ((firstInvalid c s).map Fin.val) := by
  have h := invalidWayLoop_eq c s (List.finRange W)
  rwa [List.map_coe_finRange_eq_range, ← Fin.find?_eq_find?_finRange] at h

theorem insertCache_slot (e : CacheEntry a t) :
    insertCache S W s w e c = .ok (.errNone, Function.update c (slot s w) e) := by
  simp only [insertCache, s.isLt, w.isLt, if_true, setCacheEntry_slot, Exec.ok_bind, Exec.pure_eq]

theorem hitCache_eq (ht : t ≤ 32) {phy : Word} {k tag : ℕ} (hs : phy.toNat / 16 % S = s)
    (htag : phy.toNat / 2 ^ k = tag) : hitCache S W k c phy
      = .ok (match lookup c s tag with
        | some w => (some ⟨w, s, (c (slot s w)).line⟩, touch c s w)
        | none => (none, c)) := by
  have h := hitLoop_eq c s ht (phy >>> k) (List.finRange W)
  rw [List.map_coe_finRange_eq_range, ← Fin.find?_eq_find?_finRange, BitVec.toNat_ushiftRight,
    Nat.shiftRight_eq_div_pow, htag] at h
  rw [hitCache, hs]
  exact h

end Geometry

/-- The block of 16 bytes an address lies in, its set in each level and its word. -/
def PhyAddr.block (paddr : PhyAddr) : ℕ := paddr.addr / 16

def PhyAddr.set1 (paddr : PhyAddr) : Fin 64 := Fin.ofNat 64 paddr.block

def PhyAddr.set2 (paddr : PhyAddr) : Fin 512 := Fin.ofNat 512 paddr.block

def PhyAddr.word (paddr : PhyAddr) : Fin 4 := Fin.ofNat 4 (paddr.addr / 4)

/-- The lookups of an address. -/
def PhyAddr.lookup1 (paddr : PhyAddr) (c : L1Cache) : Option (Fin 4) :=
  lookup c paddr.set1 (paddr.block / 64)

def PhyAddr.lookup2 (paddr : PhyAddr) (c : L2Cache) : Option (Fin 8) :=
  lookup c paddr.set2 (paddr.block / 512)

section Address

variable (paddr : PhyAddr)

theorem toNat_shift (k : ℕ) : (phyToUint32 paddr >>> k).toNat = paddr.addr / 2 ^ k := by
  rw [BitVec.toNat_ushiftRight, phyToUint32_toNat, Nat.shiftRight_eq_div_pow]

theorem index1_eq : ((phyToUint32 paddr >>> 4) &&& 0b111111).toNat = paddr.set1.val := by
  rw [Bits.toNat_and_mask (k := 6) rfl, toNat_shift]
  rfl

theorem index2_eq : ((phyToUint32 paddr >>> 4) &&& 0b111111111).toNat = paddr.set2.val := by
  rw [Bits.toNat_and_mask (k := 9) rfl, toNat_shift]
  rfl

theorem index12_eq : paddr.set2.val &&& 0b111111 = paddr.set1.val := by
  rw [Nat.and_two_pow_sub_one_eq_mod _ 6]
  show paddr.block % 512 % 2 ^ 6 = paddr.block % 64
  omega

theorem tag1_eq : (phyToUint32 paddr >>> 10).setWidth 22 = BitVec.ofNat 22 (paddr.block / 64) := by
  apply BitVec.eq_of_toNat_eq
  rw [BitVec.toNat_setWidth, toNat_shift, BitVec.toNat_ofNat, PhyAddr.block, Nat.div_div_eq_div_mul]
  norm_num

end Address

section FirstLevel

variable (c : L1Cache) (s : Fin 64) (w : Fin 4) {type : CacheT} (ht : type ≠ .l2Cache)

theorem lruAgeIncrease_l1 : lruAgeIncrease c 4 w s = .ok (ageAll c s w) :=
  lruAgeIncrease_eq c s w (by norm_num)

include ht

theorem cacheInsert_l1 (e : L1Entry) :
    cacheInsert s w e c type = .ok (.errNone, Function.update c (slot s w) e) := by
  rcases type
  case l2Cache => exact absurd rfl ht
  all_goals exact insertCache_slot c s w e

theorem lruWay_l1 : lruWay c type s = .ok (oldestWay c s).val := by
  rcases type
  case l2Cache => exact absurd rfl ht
  all_goals simp only [lruWay, lruWayLoop_eq, Exec.ok_bind, Exec.pure_eq]

theorem invalidWay_l1 : invalidWay c type s = .ok ((firstInvalid c s).map Fin.val) := by
  rcases type
  case l2Cache => exact absurd rfl ht
  all_goals exact invalidWayLoop_range c s

theorem cacheHit_l1 (paddr : PhyAddr) : cacheHit c paddr type = .ok (.errNone,
    match paddr.lookup1 c with
    | some w => (some ⟨w, paddr.set1, (c (slot paddr.set1 w)).line⟩, touch c paddr.set1 w)
    | none => (none, c)) := by
  have hline : (phyToUint32 paddr).toNat / 16 % 64 = paddr.set1.val := by
    rw [phyToUint32_toNat]
    rfl
  have htag : (phyToUint32 paddr).toNat / 2 ^ 10 = paddr.block / 64 := by
    rw [phyToUint32_toNat]
    exact (Nat.div_div_eq_div_mul _ 16 64).symm
  have h := hitCache_eq c paddr.set1 (by norm_num) hline htag
  rcases type
  case l2Cache => exact absurd rfl ht
  all_goals
    simp only [cacheHit, h, Exec.ok_bind, Exec.pure_eq, PhyAddr.lookup1]
    cases lookup c paddr.set1 (paddr.block / 64) <;> rfl

end FirstLevel

section SecondLevel

variable (c : L2Cache) (s : Fin 512) (w : Fin 8)

theorem lruAgeIncrease_l2 : lruAgeIncrease c 8 w s = .ok (ageAll c s w) :=
  lruAgeIncrease_eq c s w (by norm_num)

theorem cacheInsert_l2 (e : L2Entry) :
    cacheInsert s w e c .l2Cache = .ok (.errNone, Function.update c (slot s w) e) :=
  insertCache_slot c s w e

theorem lruWay_l2 : lruWay c .l2Cache s = .ok (oldestWay c s).val := by
  simp only [lruWay, lruWayLoop_eq, Exec.ok_bind, Exec.pure_eq]

theorem invalidWay_l2 : invalidWay c .l2Cache s = .ok ((firstInvalid c s).map Fin.val) :=
  invalidWayLoop_range c s

theorem cacheHit_l2 (paddr : PhyAddr) : cacheHit c paddr .l2Cache = .ok (.errNone,
    match paddr.lookup2 c with
    | some w => (some ⟨w, paddr.set2, (c (slot paddr.set2 w)).line⟩, touch c paddr.set2 w)
    | none => (none, c)) := by
  have hline : (phyToUint32 paddr).toNat / 16 % 512 = paddr.set2.val := by
    rw [phyToUint32_toNat]
    rfl
  have htag : (phyToUint32 paddr).toNat / 2 ^ 13 = paddr.block / 512 := by
    rw [phyToUint32_toNat]
    exact (Nat.div_div_eq_div_mul _ 16 512).symm
  simp only [cacheHit, hitCache_eq c paddr.set2 (by norm_num) hline htag, Exec.ok_bind,
    Exec.pure_eq, PhyAddr.lookup2]
  cases lookup c paddr.set2 (paddr.block / 512) <;> rfl

end SecondLevel

section Flush

variable {S W a t : ℕ}

/-- The cache `cache_flush` leaves: each slot invalid, of age and tag 0, and the first line zero. -/
def flushed (c : CacheArray S W a t) : CacheArray S W a t := fun i =>
  ⟨false, 0, 0, if i.val = 0 then fun _ => 0 else (c i).line⟩

theorem flushCache_range (c : CacheArray S W a t) : ∀ k ≤ S * W,
    (List.range k).foldlM (fun cache i => do
      let e ← cacheEntry cache 1 i 0
      let cache ← setCacheEntry cache 1 i 0 { e with age := 0, v := false, tag := 0 }
      let first ← cacheEntry cache 1 0 0
      setCacheEntry cache 1 0 0 { first with line := fun _ => 0 }) c
    = .ok fun i => if i.val < k then flushed c i else c i
  | 0, _ => by simp
  | k + 1, hk => by
    have hk' : k < S * W := hk
    have hpos : 0 < S * W := by omega
    rw [List.range_succ, List.foldlM_append, flushCache_range c k (by omega)]
    simp only [Exec.ok_bind, List.foldlM_cons, List.foldlM_nil, cacheEntry, setCacheEntry, mul_one,
      add_zero, dif_pos hk', dif_pos hpos, Exec.pure_eq]
    congr 1
    funext i
    obtain ⟨i, hlt⟩ := i
    simp only [Function.update_apply, Fin.mk.injEq, flushed]
    split_ifs <;> first | rfl | omega | (subst i; rfl)

theorem flushCache_eq (c : CacheArray S W a t) : flushCache S W c = .ok (flushed c) := by
  rw [flushCache, flushCache_range c _ le_rfl]
  simp only [Fin.is_lt, if_true]

theorem cacheFlush_l1 (c : L1Cache) {type : CacheT} (ht : type ≠ .l2Cache) :
    cacheFlush c type = .ok (.errNone, flushed c) := by
  rcases type
  case l2Cache => exact absurd rfl ht
  all_goals
    simp only [cacheFlush, flushCache_eq, Exec.ok_bind, Exec.pure_eq]

theorem cacheFlush_l2 (c : L2Cache) : cacheFlush c .l2Cache = .ok (.errNone, flushed c) := by
  simp only [cacheFlush, flushCache_eq, Exec.ok_bind, Exec.pure_eq]

end Flush

end KabyLake
