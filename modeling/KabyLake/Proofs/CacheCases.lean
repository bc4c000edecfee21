import KabyLake.CacheAccess
import KabyLake.Proofs.CacheOps
import KabyLake.Proofs.MemoryLines

/-!
# What a read and a write do, case by case

A call hits in the first level, hits in the second, or misses in both, and each case either faults
or ends in a state given here as operations on sets. A hit in the second level at set `s` and way
`k` is reached again at slot `512 * s + k` of either array.
-/

namespace KabyLake

open SetAssoc

variable {size : ℕ} {junk : Malloc} {memSpace : Memory size} {paddr : PhyAddr} {access : MemAccess}
  {l1 : L1Cache} {l2 : L2Cache} {word : Word}

theorem wSelect_eq (paddr : PhyAddr) : wSelect (phyToUint32 paddr) = paddr.word := by
  have h : ((phyToUint32 paddr >>> 2) &&& 0b11).toNat = paddr.addr / 4 % 4 := by
    rw [Bits.toNat_and_mask (k := 2) rfl, toNat_shift]
    rfl
  apply Fin.ext
  rw [wSelect, PhyAddr.word, h]
  simp only [Fin.val_ofNat, Nat.mod_mod]

/-- The entry of an address with a given age and line. -/
def PhyAddr.entry (paddr : PhyAddr) (age : BitVec 2) (line : CacheLine) : L1Entry :=
  ⟨true, age, BitVec.ofNat 22 (paddr.block / 64), line⟩

@[simp] theorem PhyAddr.entry_age (age : BitVec 2) (line : CacheLine) :
    (paddr.entry age line).age = age := rfl

@[simp] theorem PhyAddr.entry_line (age : BitVec 2) (line : CacheLine) :
    (paddr.entry age line).line = line := rfl

/-- The slot of the first level a read invalidates when it hits way `k` of set 0 of the second. -/
def clearedSlot (k : Fin 8) : Fin (64 * 4) := ⟨k, k.isLt.trans (by norm_num)⟩

/-- The first level once that slot is invalid. -/
def clearHit (l1 : L1Cache) (k : Fin 8) : L1Cache := clear l1 (clearedSlot k)

theorem cacheEntryInit_l1 {type : CacheT} (ht : type ≠ .l2Cache) :
    (cacheEntryInit memSpace paddr type : Exec (ErrorCode × L1Entry))
      = if paddr.addr + 16 ≤ size then
          .ok (.errNone, paddr.entry 0 (memSpace.lineAt paddr.addr)) else .error .memory := by
  rcases type
  case l2Cache => exact absurd rfl ht
  all_goals
    simp only [cacheEntryInit, initCache, Memory.loadLine, phyToUint32_toNat, tag1_eq]
    split_ifs <;> rfl

section Read

theorem accessType_ne (access : MemAccess) :
    (if access = .instruction then CacheT.l1ICache else .l1DCache) ≠ .l2Cache := by
  split_ifs <;> simp

theorem cacheRead_hit {w : Fin 4} (h : paddr.lookup1 l1 = some w) :
    cacheRead junk memSpace paddr access l1 l2 word
      = .ok ⟨.errNone, (l1 (slot paddr.set1 w)).line paddr.word, touch l1 paddr.set1 w, l2⟩ := by
  simp only [cacheRead, cacheHit_l1 l1 (accessType_ne access) paddr, h, Exec.ok_bind, ne_eq,
    not_true_eq_false, if_false, cacheEntry_slot, line_touch, wSelect_eq, Exec.pure_eq]

theorem cacheReadMemory_eq {type : CacheT} (ht : type ≠ .l2Cache) :
    cacheReadMemory memSpace paddr type l1 l2 word
      = if paddr.addr + 16 ≤ size then
          .ok ⟨.errNone, memSpace.lineAt paddr.addr paddr.word,
            Function.update l1 (replaceSlot l1 paddr.set1)
              (paddr.entry 0 (memSpace.lineAt paddr.addr)), l2⟩
        else .error .memory := by
  simp only [cacheReadMemory, cacheEntryInit_l1 ht, index1_eq, invalidWay_l1 l1 _ ht]
  split_ifs with hsize
  · have htouch : ∀ w, touch (Function.update l1 (slot paddr.set1 w)
        (paddr.entry 0 (memSpace.lineAt paddr.addr))) paddr.set1 w
        = Function.update l1 (slot paddr.set1 w) (paddr.entry 0 (memSpace.lineAt paddr.addr)) :=
      fun w => touch_of_age_zero (by simp)
    rcases hw : firstInvalid l1 paddr.set1 with _ | w
    all_goals
      simp only [hw, Exec.ok_bind, Option.map_none, Option.map_some, Exec.pure_eq,
        lruWay_l1 l1 _ ht, cacheInsert_l1 l1 _ _ ht, lruAgeUpdate_eq, htouch, replaceSlot,
        replaceWay, wSelect_eq, Option.getD_none, Option.getD_some, ne_eq, not_true_eq_false,
        if_false, cacheEntry_slot, Function.update_self, PhyAddr.entry_line]
  · rfl

theorem cacheRead_miss (h1 : paddr.lookup1 l1 = none) (h2 : paddr.lookup2 l2 = none) :
    cacheRead junk memSpace paddr access l1 l2 word
      = if paddr.addr + 16 ≤ size then
          .ok ⟨.errNone, memSpace.lineAt paddr.addr paddr.word,
            Function.update l1 (replaceSlot l1 paddr.set1)
              (paddr.entry 0 (memSpace.lineAt paddr.addr)), l2⟩
        else .error .memory := by
  simp only [cacheRead, cacheHit_l1 l1 (accessType_ne access) paddr, cacheHit_l2 l2 paddr, h1, h2,
    Exec.ok_bind, ne_eq, not_true_eq_false, if_false, cacheReadMemory_eq (accessType_ne access)]

/-- The caches a read leaves that hits way `k` of the second level, at set 0. -/
def readL2Result (junk : Malloc) (paddr : PhyAddr) (l1 : L1Cache) (l2 : L2Cache) (word : Word)
    (k : Fin 8) : ReadResult :=
  let l1c := clearHit l1 k
  let e := paddr.entry junk.l1Entry.age (l2 (slot paddr.set2 k)).line
  match firstInvalid l1c paddr.set1 with
  | some _ => ⟨.errNone, word, insert l1c paddr.set1 e, touch l2 paddr.set2 k⟩
  | none => ⟨.errNone, e.line paddr.word, insert l1c paddr.set1 e,
      insert (touch l2 paddr.set2 k) paddr.set2
        (asL2Entry (l1c (slot paddr.set1 (oldestWay l1c paddr.set1))))⟩

theorem readL2Result_l1 (k : Fin 8) : (readL2Result junk paddr l1 l2 word k).l1
    = insert (clearHit l1 k) paddr.set1
        (paddr.entry junk.l1Entry.age (l2 (slot paddr.set2 k)).line) := by
  simp only [readL2Result]
  split <;> rfl

theorem readL2Result_err (k : Fin 8) :
    (readL2Result junk paddr l1 l2 word k).err = .errNone := by
  simp only [readL2Result]
  split <;> rfl

theorem transferToL1_l2 (l2 : L2Cache) (k : Fin 8) {type : CacheT} (ht : type ≠ .l2Cache)
    (hset : paddr.set2 = 0) (e : L1Entry) : transferToL1 l2 e type k paddr.set2
      = .ok (.errNone, ⟨true, e.age, e.tag, (l2 (slot paddr.set2 k)).line⟩) := by
  have h := cacheEntry_slot l2 paddr.set2 k
  rcases type
  case l2Cache => exact absurd rfl ht
  all_goals
    rw [hset] at h ⊢
    simp only [transferToL1]
    simp only [Fin.val_zero, zero_mul, zero_add, cacheEntry] at h ⊢
    rw [h]
    rfl

theorem cacheEntry_cleared (l1 : L1Cache) (k : Fin 8) (hset : paddr.set2 = 0) :
    cacheEntry l1 512 paddr.set2 k = .ok (l1 (clearedSlot k)) ∧
      ∀ e, setCacheEntry l1 512 paddr.set2 k e = .ok (Function.update l1 (clearedSlot k) e) := by
  have hlt : k.val < 64 * 4 := (clearedSlot k).isLt
  simp only [hset, cacheEntry, setCacheEntry, Fin.val_zero, zero_mul, zero_add, dif_pos hlt]
  exact ⟨rfl, fun _ => rfl⟩

theorem set1_eq_zero (hset : paddr.set2 = 0) : paddr.set1 = 0 := by
  have h : paddr.block % 512 = 0 := congrArg Fin.val hset
  apply Fin.ext
  show paddr.block % 64 = 0
  omega

/-- Ways 4 to 7 clear a slot of another set than that of the address. -/
theorem clearHit_of_four_le {k : Fin 8} (hset : paddr.set2 = 0) (hk : 4 ≤ k) (w : Fin 4) :
    clearHit l1 k (slot paddr.set1 w) = l1 (slot paddr.set1 w) := by
  rw [set1_eq_zero hset]
  have hne : slot 0 w ≠ clearedSlot k := by
    revert k w
    decide
  exact Function.update_of_ne hne ..

theorem cacheEntry_victim (c : L1Cache) (hset : paddr.set2 = 0) :
    cacheEntry c 64 paddr.set1 (oldestWay c paddr.set1)
      = .ok (c (slot paddr.set1 (oldestWay c paddr.set1))) := by
  have h := cacheEntry_slot c paddr.set1 (oldestWay c paddr.set1)
  rw [set1_eq_zero hset] at h ⊢
  simpa only [Fin.val_zero, zero_mul, zero_add, cacheEntry] using h

theorem cacheRead_l2 {k : Fin 8} (h1 : paddr.lookup1 l1 = none) (h2 : paddr.lookup2 l2 = some k)
    (hset : paddr.set2 = 0) : cacheRead junk memSpace paddr access l1 l2 word
      = .ok (readL2Result junk paddr l1 l2 word k) := by
  have hread := transferToL1_l2 (touch l2 paddr.set2 k) k (accessType_ne access) hset
    { junk.l1Entry with tag := BitVec.ofNat 22 (paddr.block / 64) }
  have hentry := (cacheEntry_cleared l1 k hset).1
  have hclear := (cacheEntry_cleared l1 k hset).2
  simp only [cacheRead, cacheHit_l1 l1 (accessType_ne access) paddr, cacheHit_l2 l2 paddr, h1, h2,
    Exec.ok_bind, ne_eq, not_true_eq_false, if_false, cacheReadL2, index1_eq, tag1_eq, hread,
    hentry, hclear]
  have hc : Function.update l1 (clearedSlot k) { l1 (clearedSlot k) with v := false }
      = clearHit l1 k := rfl
  have he : (⟨true, junk.l1Entry.age, BitVec.ofNat 22 (paddr.block / 64),
      (l2 (slot paddr.set2 k)).line⟩ : L1Entry)
      = paddr.entry junk.l1Entry.age (l2 (slot paddr.set2 k)).line := rfl
  simp only [hc, line_touch, he, invalidWay_l1 _ _ (accessType_ne access), Exec.ok_bind]
  rcases hw : firstInvalid (clearHit l1 k) paddr.set1 with _ | w
  · have hvictim := cacheEntry_victim (clearHit l1 k) hset
    rcases hw2 : firstInvalid (touch l2 paddr.set2 k) paddr.set2 with _ | w2
    all_goals
      simp only [Option.map_none, Option.map_some, lruWay_l1 _ _ (accessType_ne access),
        Exec.ok_bind, hvictim, cacheInsert_l1 _ _ _ (accessType_ne access), lruAgeUpdate_eq,
        invalidWay_l2, hw2, cacheEntry_slot, cacheInsert_l2, lruWay_l2, lruAgeIncrease_l2,
        not_true_eq_false, if_false, Exec.pure_eq, readL2Result, hw, SetAssoc.insert, line_touch,
        Function.update_self, wSelect_eq]
  · simp only [Option.map_some, cacheInsert_l1 _ _ _ (accessType_ne access), Exec.ok_bind,
      lruAgeIncrease_l1, not_true_eq_false, if_false, Exec.pure_eq,
      readL2Result, hw, SetAssoc.insert]

/-- The slot is looked for outside the first level. -/
theorem cacheRead_l2_fault {k : Fin 8} (h1 : paddr.lookup1 l1 = none)
    (h2 : paddr.lookup2 l2 = some k) (hset : paddr.set2 ≠ 0) :
    cacheRead junk memSpace paddr access l1 l2 word = .error .slot := by
  have hpos : 0 < paddr.set2.val := Nat.pos_of_ne_zero fun h => hset (Fin.ext h)
  have hentry : cacheEntry l1 512 paddr.set2 k = .error .slot := dif_neg (by omega)
  have htransfer : ∀ e : L1Entry, ∃ r, transferToL1 (touch l2 paddr.set2 k) e
      (if access = .instruction then CacheT.l1ICache else .l1DCache) k paddr.set2 = r
        ∧ (r = .error .slot ∨ ∃ e', r = .ok (.errNone, e')) := by
    intro e
    refine ⟨_, rfl, ?_⟩
    by_cases hlt : paddr.set2.val * 512 + k.val < 512 * 8
    · right
      split_ifs <;> exact ⟨_, by simp only [transferToL1, cacheEntry, dif_pos hlt]; rfl⟩
    · left
      split_ifs <;> simp only [transferToL1, cacheEntry, dif_neg hlt, Exec.error_bind]
  obtain ⟨_, htr, rfl | ⟨e', rfl⟩⟩ := htransfer
    { junk.l1Entry with tag := BitVec.ofNat 22 (paddr.block / 64) }
  all_goals
    simp only [cacheRead, cacheHit_l1 l1 (accessType_ne access) paddr, cacheHit_l2 l2 paddr, h1, h2,
      Exec.ok_bind, ne_eq, not_true_eq_false, if_false, cacheReadL2, tag1_eq, htr, hentry,
      Exec.error_bind]

end Read

section Write

theorem l1DCache_ne : CacheT.l1DCache ≠ .l2Cache := nofun

theorem cacheWrite_hit {w : Fin 4} (h : paddr.lookup1 l1 = some w) :
    cacheWrite junk memSpace paddr l1 l2 word
      = if paddr.addr + 16 ≤ size then
          let line := Function.update (l1 (slot paddr.set1 w)).line paddr.word word
          .ok ⟨.errNone, memSpace.setLine paddr.addr line,
            Function.update (touch l1 paddr.set1 w) (slot paddr.set1 w)
              ⟨true, 0, (l1 (slot paddr.set1 w)).tag, line⟩, l2⟩
        else .error .memory := by
  have htouch : ∀ (c : L1Cache) tag line,
      touch (Function.update c (slot paddr.set1 w) ⟨true, 0, tag, line⟩) paddr.set1 w
        = Function.update c (slot paddr.set1 w) ⟨true, 0, tag, line⟩ :=
    fun c tag line => touch_of_age_zero (by simp)
  simp only [cacheWrite, cacheHit_l1 l1 l1DCache_ne paddr, h, cacheWriteHit,
    Exec.ok_bind, ne_eq, not_true_eq_false, if_false, cacheEntry_slot,
    cacheInsert_l1 _ _ _ l1DCache_ne, tag_touch, lruAgeUpdate_eq, htouch, wSelect_eq,
    Memory.storeLine, phyToUint32_toNat]
  split_ifs <;> rfl

/-- The second level once the victim of an insertion into set `s₁` of the first goes to set `s₂`. -/
def evictInto (evicted : L1Entry → L2Entry) (l1 : L1Cache) (s₁ : Fin 64) (l2 : L2Cache)
    (s₂ : Fin 512) : L2Cache :=
  match firstInvalid l1 s₁ with
  | some _ => l2
  | none => insert l2 s₂ (evicted (l1 (slot s₁ (oldestWay l1 s₁))))

theorem evictInto_room {evicted : L1Entry → L2Entry} {s₁ : Fin 64} {s₂ : Fin 512}
    (hroom : firstInvalid l1 s₁ ≠ none) : evictInto evicted l1 s₁ l2 s₂ = l2 := by
  obtain ⟨w, hw⟩ := Option.ne_none_iff_exists'.1 hroom
  simp only [evictInto, hw]

theorem evictInto_full {evicted : L1Entry → L2Entry} {s₁ : Fin 64} {s₂ : Fin 512}
    (hfull : firstInvalid l1 s₁ = none) :
    evictInto evicted l1 s₁ l2 s₂ = insert l2 s₂ (evicted (l1 (replaceSlot l1 s₁))) := by
  simp only [evictInto, hfull, replaceSlot_of_full hfull]

theorem cacheWriteEvict_eq (entry : L1Entry) (evicted : L1Entry → L2Entry) (s₁ : Fin 64)
    (s₂ : Fin 512) : cacheWriteEvict memSpace entry s₁ evicted s₂ l1 l2
      = .ok ⟨.errNone, memSpace, insert l1 s₁ entry, evictInto evicted l1 s₁ l2 s₂⟩ := by
  have hins := fun (w : Fin 4) => cacheInsert_l1 l1 s₁ w l1DCache_ne entry
  simp only [cacheWriteEvict, invalidWay_l1 l1 s₁ l1DCache_ne, Exec.ok_bind]
  rcases hw : firstInvalid l1 s₁ with _ | w
  · rcases hw2 : firstInvalid l2 s₂ with _ | w2
    all_goals
      simp only [Option.map_none, Option.map_some, lruWay_l1 l1 s₁ l1DCache_ne,
        cacheEntry_slot, hins, lruAgeUpdate_eq, invalidWay_l2, hw2, cacheInsert_l2, lruWay_l2,
        lruAgeIncrease_l2, Exec.ok_bind, ne_eq, not_true_eq_false, if_false, Exec.pure_eq,
        SetAssoc.insert, evictInto, hw]
  · simp only [Option.map_some, hins, lruAgeIncrease_l1, Exec.ok_bind, ne_eq, not_true_eq_false,
      if_false, Exec.pure_eq, SetAssoc.insert, evictInto, hw]

/-- The second level once way `k` of the set of an address is written. -/
def writeWay2 (paddr : PhyAddr) (l2 : L2Cache) (word : Word) (k : Fin 8) : L2Cache :=
  Function.update (touch l2 paddr.set2 k) (slot paddr.set2 k)
    ⟨true, 0, (l2 (slot paddr.set2 k)).tag,
      Function.update (l2 (slot paddr.set2 k)).line paddr.word word⟩

/-- The slot of the second level a write copies when it hits way `k` of set `s`. -/
def copiedSlot (s : Fin 512) (k : Fin 8) (h : s.val < 8) : Fin (512 * 8) :=
  ⟨s * 512 + k, by omega⟩

/-- The entry a write makes when it hits way `k` of the second level. -/
def copiedEntry (junk : Malloc) (paddr : PhyAddr) (l2 : L2Cache) (word : Word) (k : Fin 8)
    (h : paddr.set2.val < 8) : L1Entry :=
  paddr.entry junk.l1Entry.age (writeWay2 paddr l2 word k (copiedSlot paddr.set2 k h)).line

theorem cacheWrite_l2 {k : Fin 8} (h1 : paddr.lookup1 l1 = none) (h2 : paddr.lookup2 l2 = some k) :
    cacheWrite junk memSpace paddr l1 l2 word
      = if paddr.addr + 16 ≤ size then
          if h : paddr.set2.val < 8 then
            let entry := copiedEntry junk paddr l2 word k h
            .ok ⟨.errNone, memSpace.setLine paddr.addr
                (Function.update (l2 (slot paddr.set2 k)).line paddr.word word),
              insert l1 paddr.set1 entry,
              evictInto (fun _ => ⟨junk.l2Entry.v, 0, (entry.tag >>> 3).setWidth 19, entry.line⟩) l1
                paddr.set1 (writeWay2 paddr l2 word k) paddr.set2⟩
          else .error .slot
        else .error .memory := by
  have htouch : ∀ (c : L2Cache) tag line,
      touch (Function.update c (slot paddr.set2 k) ⟨true, 0, tag, line⟩) paddr.set2 k
        = Function.update c (slot paddr.set2 k) ⟨true, 0, tag, line⟩ :=
    fun c tag line => touch_of_age_zero (by simp)
  simp only [cacheWrite, cacheHit_l1 l1 l1DCache_ne paddr, cacheHit_l2 l2 paddr, h1, h2,
    cacheWriteL2, Exec.ok_bind, ne_eq, not_true_eq_false, if_false, cacheEntry_slot, cacheInsert_l2,
    tag_touch, lruAgeUpdate_eq, htouch, wSelect_eq, Memory.storeLine, phyToUint32_toNat]
  have hw : Function.update (touch l2 paddr.set2 k) (slot paddr.set2 k)
      ⟨true, 0, (l2 (slot paddr.set2 k)).tag,
        Function.update (l2 (slot paddr.set2 k)).line paddr.word word⟩
      = writeWay2 paddr l2 word k := rfl
  rw [hw]
  split_ifs with hsize hset
  · have hcopy : cacheEntry (writeWay2 paddr l2 word k) 512 paddr.set2 k
        = .ok (writeWay2 paddr l2 word k (copiedSlot paddr.set2 k hset)) := dif_pos (by omega)
    simp only [Exec.ok_bind, transferToL1, hcopy, Exec.pure_eq, index12_eq, cacheWriteEvict_eq,
      tag1_eq]
    rfl
  · have hcopy : cacheEntry (writeWay2 paddr l2 word k) 512 paddr.set2 k = .error .slot :=
      dif_neg (by omega)
    simp only [Exec.ok_bind, transferToL1, hcopy, Exec.error_bind]
  · rfl

theorem cacheWrite_miss (h1 : paddr.lookup1 l1 = none) (h2 : paddr.lookup2 l2 = none) :
    cacheWrite junk memSpace paddr l1 l2 word
      = if paddr.addr + 16 ≤ size then
          let line := Function.update (memSpace.lineAt paddr.addr) paddr.word word
          .ok ⟨.errNone, memSpace.setLine paddr.addr line,
            insert l1 paddr.set1 (paddr.entry 0 line),
            evictInto (fun v => ⟨junk.l2Entry.v, 0, (v.tag >>> 6).setWidth 19, v.line⟩) l1
              paddr.set1 l2 paddr.set2⟩
        else .error .memory := by
  simp only [cacheWrite, cacheHit_l1 l1 l1DCache_ne paddr, cacheHit_l2 l2 paddr, h1, h2,
    cacheWriteMiss, Exec.ok_bind, ne_eq, not_true_eq_false, if_false, wSelect_eq, Memory.loadLine,
    Memory.storeLine, phyToUint32_toNat, cacheEntryInit_l1 l1DCache_ne, index1_eq, index2_eq]
  split_ifs with hsize
  · simp only [Exec.ok_bind, not_true_eq_false, if_false, Memory.lineAt_setLine_self hsize,
      cacheWriteEvict_eq]
  · rfl

end Write

section Outcome

theorem cacheRead_err {r : ReadResult}
    (h : cacheRead junk memSpace paddr access l1 l2 word = .ok r) : r.err = .errNone := by
  rcases h1 : paddr.lookup1 l1 with _ | w
  · rcases h2 : paddr.lookup2 l2 with _ | k
    · rw [cacheRead_miss h1 h2] at h
      split_ifs at h
      cases h
      rfl
    · by_cases hset : paddr.set2 = 0
      · rw [cacheRead_l2 h1 h2 hset] at h
        cases h
        exact readL2Result_err k
      · rw [cacheRead_l2_fault h1 h2 hset] at h
        cases h
  · rw [cacheRead_hit h1] at h
    cases h
    rfl

/-- A write whose 16 bytes run past the memory has no outcome. -/
theorem cacheWrite_short (hsize : size < paddr.addr + 16) :
    cacheWrite junk memSpace paddr l1 l2 word = .error .memory := by
  have hle : ¬ paddr.addr + 16 ≤ size := by omega
  rcases hw : paddr.lookup1 l1 with _ | w
  · rcases hk : paddr.lookup2 l2 with _ | k
    · rw [cacheWrite_miss hw hk, if_neg hle]
    · rw [cacheWrite_l2 hw hk, if_neg hle]
  · rw [cacheWrite_hit hw, if_neg hle]

/-- A write runs past the memory, or leaves the arrays, or returns `ERR_NONE` and its word can be
read off the memory. -/
theorem cacheWrite_cases (junk : Malloc) (memSpace : Memory size) (paddr : PhyAddr) (l1 : L1Cache)
    (l2 : L2Cache) (word : Word) :
    cacheWrite junk memSpace paddr l1 l2 word = .error .memory ∧ size < paddr.addr + 16
      ∨ cacheWrite junk memSpace paddr l1 l2 word = .error .slot
      ∨ ∃ out, cacheWrite junk memSpace paddr l1 l2 word = .ok out ∧ out.err = .errNone
        ∧ out.mem.wordAt (paddr.addr + 4 * paddr.word) = word := by
  by_cases hsize : paddr.addr + 16 ≤ size
  swap
  · exact .inl ⟨cacheWrite_short (by omega), by omega⟩
  right
  have hword : ∀ line : CacheLine, (memSpace.setLine paddr.addr (Function.update line paddr.word
      word)).wordAt (paddr.addr + 4 * paddr.word) = word := fun line => by
    rw [Memory.wordAt_setLine_self hsize, Function.update_self]
  rcases h1 : paddr.lookup1 l1 with _ | w
  · rcases h2 : paddr.lookup2 l2 with _ | k
    · rw [cacheWrite_miss h1 h2, if_pos hsize]
      exact .inr ⟨_, rfl, rfl, hword _⟩
    · rw [cacheWrite_l2 h1 h2, if_pos hsize]
      split_ifs with hset
      · exact .inr ⟨_, rfl, rfl, hword _⟩
      · exact .inl rfl
  · rw [cacheWrite_hit h1, if_pos hsize]
    exact .inr ⟨_, rfl, rfl, hword _⟩

theorem cacheWrite_err {out : WriteResult size}
    (h : cacheWrite junk memSpace paddr l1 l2 word = .ok out) : out.err = .errNone := by
  rcases cacheWrite_cases junk memSpace paddr l1 l2 word with
    ⟨hcall, -⟩ | hcall | ⟨out', hcall, herr, -⟩
  · cases hcall.symm.trans h
  · cases hcall.symm.trans h
  · cases hcall.symm.trans h
    exact herr

/-- A write of a byte is the write of the word read with the bits of the byte added. -/
theorem cacheWriteByte_or (junk' : Malloc) {byte : Byte} {r : ReadResult} (hbyte : byte ≠ 0)
    (hread : cacheRead junk memSpace paddr .data l1 l2 junk.word = .ok r) :
    cacheWriteByte junk junk' memSpace paddr l1 l2 byte
      = cacheWrite junk' memSpace paddr r.l1 r.l2
        (r.word ||| byte.setWidth 32 <<< (8 * (paddr.addr % 4))) := by
  unfold cacheWriteByte
  rw [if_neg hbyte, hread]
  simp only [Exec.ok_bind, cacheRead_err hread, ne_eq, not_true_eq_false, if_false,
    phyToUint32_toNat]
  rcases cacheWrite_cases junk' memSpace paddr r.l1 r.l2
    (r.word ||| byte.setWidth 32 <<< (8 * (paddr.addr % 4))) with
    ⟨he, -⟩ | he | ⟨out, hout, herr, -⟩
  · rw [he, Exec.error_bind]
  · rw [he, Exec.error_bind]
  · simp only [hout, Exec.ok_bind, herr, not_true_eq_false, if_false, Exec.pure_eq]

end Outcome

end KabyLake
