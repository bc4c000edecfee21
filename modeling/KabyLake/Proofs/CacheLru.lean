import KabyLake.Library.Ages
import KabyLake.Proofs.CachePlaces

/-!
# When a first-level cache gives up its least recently used block

A read that misses both levels fills its way without ageing the others, so ways may have the same
age, and the last of them is replaced. The ages still follow the uses, and a set whose oldest way is
alone of its age gives up the right block.
-/

namespace KabyLake

open SetAssoc

variable {size : ℕ} {m : Memory size} {paddr : PhyAddr} {access : MemAccess} {l1 l1' : L1Cache}
  {l2 : L2Cache} {used : List ℕ}

def Call.block : Call → ℕ
  | .read _ paddr => paddr.block
  | .readByte _ paddr => paddr.block
  | .write paddr _ => paddr.block
  | .writeByte paddr _ => paddr.block

def Call.IsFetch : Call → Prop
  | .read access _ => access = .instruction
  | .readByte access _ => access = .instruction
  | .write _ _ => False
  | .writeByte _ _ => False

instance (call : Call) : Decidable call.IsFetch := by
  unfold Call.IsFetch
  split <;> infer_instance

/-- A core and the blocks used by the calls on each first-level cache, the last first. -/
structure Traced (size : ℕ) where
  core : Core size
  usedI : List ℕ
  usedD : List ℕ

def tracedCommand (t : Traced size) (i : Invocation) : Exec (Output × Traced size) := do
  let (out, core) ← executeCommand t.core i
  if i.call.IsFetch then return (out, ⟨core, i.call.block :: t.usedI, t.usedD⟩)
  return (out, ⟨core, t.usedI, i.call.block :: t.usedD⟩)

/-- An entry that is replaced is in a full set, and its block is the one of the set used longest
ago. -/
def ReplacesLru (used : List ℕ) (c c' : L1Cache) : Prop :=
  ∀ i x y, held c i = some x → held c' i = some y → x ≠ y →
    (∀ w, (c (slot (SetAssoc.setOf i) w)).v = true) ∧ x ∈ used ∧
      ∀ j z, SetAssoc.setOf j = SetAssoc.setOf i → held c j = some z → used.idxOf z ≤ used.idxOf x

/-- A call has an outcome, and replaces the right entries. -/
def LruStep (t : Traced size) (i : Invocation) : Prop :=
  ∃ out t', tracedCommand t i = .ok (out, t') ∧ ReplacesLru t.usedI t.core.l1i t'.core.l1i
    ∧ ReplacesLru t.usedD t.core.l1d t'.core.l1d

/-- The condition for a read: it does not leave the arrays, the slot it clears is invalid, and a
full set has one oldest way. -/
def ReadLru (size : ℕ) (paddr : PhyAddr) (l1 : L1Cache) (l2 : L2Cache) : Prop :=
  match paddr.lookup1 l1, paddr.lookup2 l2 with
  | some _, _ => True
  | none, some k => paddr.set2 = 0 ∧ (l1 (clearedSlot k)).v = false
      ∧ (firstInvalid l1 paddr.set1 = none → OldestAlone l1 paddr.set1)
  | none, none => paddr.addr + 16 ≤ size
      ∧ (firstInvalid l1 paddr.set1 = none → OldestAlone l1 paddr.set1)

def WriteLru (size : ℕ) (paddr : PhyAddr) (l1 : L1Cache) (l2 : L2Cache) : Prop :=
  paddr.addr + 16 ≤ size ∧ (paddr.lookup1 l1 = none → (paddr.lookup2 l2 ≠ none → paddr.set2.val < 8)
    ∧ (firstInvalid l1 paddr.set1 = none → OldestAlone l1 paddr.set1))

/-- The condition for a call that reads or writes a word. -/
def LruCall (t : Traced size) (i : Invocation) : Prop :=
  match i.call with
  | .read access paddr => ReadLru size paddr (t.core.l1 access) t.core.l2
  | .write paddr _ => WriteLru size paddr t.core.l1d t.core.l2
  | _ => False

instance : Decidable (ReadLru size paddr l1 l2) := by
  unfold ReadLru
  rcases paddr.lookup1 l1 with _ | w <;> rcases paddr.lookup2 l2 with _ | k <;> infer_instance

instance : Decidable (WriteLru size paddr l1 l2) := inferInstanceAs (Decidable (_ ∧ _))

instance (t : Traced size) : DecidablePred (LruCall t)
  | ⟨.read _ _, _, _, _⟩ => inferInstanceAs (Decidable (ReadLru _ _ _ _))
  | ⟨.readByte _ _, _, _, _⟩ => isFalse id
  | ⟨.write _ _, _, _, _⟩ => inferInstanceAs (Decidable (WriteLru _ _ _ _))
  | ⟨.writeByte _ _, _, _, _⟩ => isFalse id

section Outcomes

/-- What a call on a block does to its cache. -/
def Tracks (used : List ℕ) (b : ℕ) (c c' : L1Cache) : Prop :=
  Follows c' (b :: used) ∧ Packed c' ∧ ReplacesLru used c c'

theorem replacesLru_of_held (h : held l1' = held l1) : ReplacesLru used l1 l1' := by
  intro i x y hi hi' hne
  rw [h, hi, Option.some.injEq] at hi'
  exact absurd hi' hne

theorem replacesLru_of_replaceSlot {s : Fin 64} {b : ℕ} (h : Follows l1 used)
    (hheld : held l1' = Function.update (held l1) (replaceSlot l1 s) (some b))
    (halone : firstInvalid l1 s = none → OldestAlone l1 s) : ReplacesLru used l1 l1' := by
  intro i x y hi hi' hne
  rcases eq_or_ne i (replaceSlot l1 s) with rfl | hslot
  swap
  · rw [hheld, Function.update_of_ne hslot, hi, Option.some.injEq] at hi'
    exact absurd hi' hne
  have hset : SetAssoc.setOf (replaceSlot l1 s) = s := setOf_slot _ _
  have hfull : firstInvalid l1 s = none := by
    rcases held_replaceSlot (c := l1) (s := s) with hnone | hfull
    · rw [hnone] at hi
      cases hi
    · exact hfull
  rw [hset]
  refine ⟨firstInvalid_eq_none_iff.1 hfull, h.mem _ _ hi, fun j z hj hz => ?_⟩
  rw [replaceSlot_of_full hfull] at hi
  exact h.oldest (halone hfull) hi hz hj

theorem tracks_touch (h : Follows l1 used) (hp : Packed l1) {w : Fin 4}
    (hw : paddr.lookup1 l1 = some w) :
    Tracks used paddr.block l1 (touch l1 paddr.set1 w) :=
  ⟨h.touch (held_of_lookup1 hw), hp.touch (lookup_eq_some_iff.1 hw).1,
    replacesLru_of_held held_touch⟩

theorem tracks_insert (h : Follows l1 used) (hp : Packed l1) (h1 : paddr.lookup1 l1 = none)
    (halone : firstInvalid l1 paddr.set1 = none → OldestAlone l1 paddr.set1) (age : BitVec 2)
    (line : CacheLine) :
    Tracks used paddr.block l1 (insert l1 paddr.set1 (paddr.entry age line)) := by
  have he : (paddr.entry age line).held paddr.set1 = some paddr.block := PhyAddr.held_entry age line
  refine ⟨h.insert hp (by norm_num) h1 paddr.set1_val he, hp.insert (by norm_num) rfl, ?_⟩
  exact replacesLru_of_replaceSlot h (by rw [held_insert, he]) halone

theorem tracks_fill (h : Follows l1 used) (hp : Packed l1) (h1 : paddr.lookup1 l1 = none)
    (halone : firstInvalid l1 paddr.set1 = none → OldestAlone l1 paddr.set1) (line : CacheLine) :
    Tracks used paddr.block l1
      (Function.update l1 (replaceSlot l1 paddr.set1) (paddr.entry 0 line)) := by
  have he : (paddr.entry 0 line).held paddr.set1 = some paddr.block := PhyAddr.held_entry 0 line
  refine ⟨h.fill hp h1 paddr.set1_val he rfl, hp.fill rfl rfl, ?_⟩
  refine replacesLru_of_replaceSlot (b := paddr.block) h ?_ halone
  rw [held_update, replaceSlot, setOf_slot, he]

end Outcomes

section Calls

theorem cacheRead_tracks (m : Memory size) (access : MemAccess) (junk : Malloc) (word : Word)
    (h : Follows l1 used) (hp : Packed l1) (hok : ReadLru size paddr l1 l2) :
    ∃ r, cacheRead junk m paddr access l1 l2 word = .ok r ∧ Tracks used paddr.block l1 r.l1 := by
  unfold ReadLru at hok
  rcases h1 : paddr.lookup1 l1 with _ | w
  · rcases h2 : paddr.lookup2 l2 with _ | k
    · simp only [h1, h2] at hok
      exact ⟨_, (cacheRead_miss h1 h2).trans (if_pos hok.1), tracks_fill h hp h1 hok.2 _⟩
    · simp only [h1, h2] at hok
      obtain ⟨hset, hv, halone⟩ := hok
      have hclear : clearHit l1 k = l1 := clear_of_invalid hv
      refine ⟨_, cacheRead_l2 h1 h2 hset, ?_⟩
      rw [readL2Result_l1, hclear]
      exact tracks_insert h hp h1 halone _ _
  · exact ⟨_, cacheRead_hit h1, tracks_touch h hp h1⟩

theorem tracks_writeHit (h : Follows l1 used) (hp : Packed l1) {w : Fin 4}
    (h1 : paddr.lookup1 l1 = some w) (line : CacheLine) : Tracks used paddr.block l1
      (Function.update (touch l1 paddr.set1 w) (slot paddr.set1 w)
        ⟨true, 0, (l1 (slot paddr.set1 w)).tag, line⟩) := by
  obtain ⟨hf, hpk, -⟩ := tracks_touch h hp h1
  have hheld := held_writeWay1 h1 line
  set c := Function.update (touch l1 paddr.set1 w) (slot paddr.set1 w)
    ⟨true, 0, (l1 (slot paddr.set1 w)).tag, line⟩ with hc
  have hage : ∀ i, (c i).age.toNat = (touch l1 paddr.set1 w i).age.toNat := by
    intro i
    rcases eq_or_ne i (slot paddr.set1 w) with rfl | hne
    · rw [hc, Function.update_self, age_touch_self]
      rfl
    · rw [hc, Function.update_of_ne hne]
  have hheld' : held c = held (touch l1 paddr.set1 w) := by rw [hheld, held_touch]
  exact ⟨hf.congr hheld' hage, hpk.congr hheld' hage, replacesLru_of_held hheld⟩

theorem cacheWrite_tracks (m : Memory size) (junk : Malloc) (word : Word) (h : Follows l1 used)
    (hp : Packed l1) (hok : WriteLru size paddr l1 l2) :
    ∃ r, cacheWrite junk m paddr l1 l2 word = .ok r ∧ Tracks used paddr.block l1 r.l1 := by
  obtain ⟨hsize, hok⟩ := hok
  rcases h1 : paddr.lookup1 l1 with _ | w
  · obtain ⟨hset, halone⟩ := hok h1
    rcases h2 : paddr.lookup2 l2 with _ | k
    · exact ⟨_, (cacheWrite_miss h1 h2).trans (if_pos hsize), tracks_insert h hp h1 halone _ _⟩
    · have hlt : paddr.set2.val < 8 := hset (by rw [h2]; exact nofun)
      exact ⟨_, (cacheWrite_l2 h1 h2).trans ((if_pos hsize).trans (dif_pos hlt)),
        tracks_insert h hp h1 halone _ _⟩
  · exact ⟨_, (cacheWrite_hit h1).trans (if_pos hsize), tracks_writeHit h hp h1 _⟩

end Calls

section Runs

/-- The ages of both caches follow their uses. -/
structure Traced.Follow (t : Traced size) : Prop where
  followsI : Follows t.core.l1i t.usedI
  packedI : Packed t.core.l1i
  followsD : Follows t.core.l1d t.usedD
  packedD : Packed t.core.l1d

theorem lruStep_of_ok {t t₀ : Traced size} {i : Invocation} {out : Output}
    (hok : tracedCommand t i = .ok (out, t₀)) (hI : ReplacesLru t.usedI t.core.l1i t₀.core.l1i)
    (hD : ReplacesLru t.usedD t.core.l1d t₀.core.l1d) (hfollow : t₀.Follow) :
    LruStep t i ∧ ∀ out t', tracedCommand t i = .ok (out, t') → t'.Follow := by
  refine ⟨⟨out, t₀, hok, hI, hD⟩, fun out' t' h => ?_⟩
  rw [hok, Except.ok.injEq, Prod.mk.injEq] at h
  exact h.2 ▸ hfollow

theorem tracedCommand_lru (t : Traced size) (i : Invocation) (h : t.Follow) (hok : LruCall t i) :
    LruStep t i ∧ ∀ out t', tracedCommand t i = .ok (out, t') → t'.Follow := by
  obtain ⟨call, junk, junk', word⟩ := i
  unfold LruCall at hok
  split at hok
  case h_1 access paddr hcall =>
    obtain rfl : call = _ := hcall
    by_cases hfetch : access = .instruction
    · subst hfetch
      obtain ⟨r, hr, hf, hp, hlru⟩ :=
        cacheRead_tracks t.core.mem .instruction junk word h.followsI h.packedI hok
      have hr : cacheRead junk t.core.mem paddr .instruction t.core.l1i t.core.l2 word = .ok r := hr
      have hstep : tracedCommand t ⟨.read .instruction paddr, junk, junk', word⟩
          = .ok (.word r.err r.word, ⟨⟨t.core.mem, r.l1, t.core.l1d, r.l2⟩,
            paddr.block :: t.usedI, t.usedD⟩) := by
        simp only [tracedCommand, executeCommand, Core.l1, Core.setL1, if_true, hr, Exec.ok_bind,
          Exec.pure_eq, Call.block]
        exact if_pos rfl
      exact lruStep_of_ok hstep hlru (replacesLru_of_held rfl) ⟨hf, hp, h.followsD, h.packedD⟩
    · have hl1 : t.core.l1 access = t.core.l1d := if_neg hfetch
      rw [hl1] at hok
      obtain ⟨r, hr, hf, hp, hlru⟩ :=
        cacheRead_tracks t.core.mem access junk word h.followsD h.packedD hok
      have hstep : tracedCommand t ⟨.read access paddr, junk, junk', word⟩
          = .ok (.word r.err r.word, ⟨⟨t.core.mem, t.core.l1i, r.l1, r.l2⟩, t.usedI,
            paddr.block :: t.usedD⟩) := by
        simp only [tracedCommand, executeCommand, hl1, Core.setL1, if_neg hfetch, hr, Exec.ok_bind,
          Exec.pure_eq, Call.block]
        exact if_neg hfetch
      exact lruStep_of_ok hstep (replacesLru_of_held rfl) hlru ⟨h.followsI, h.packedI, hf, hp⟩
  case h_2 paddr word' hcall =>
    obtain rfl : call = _ := hcall
    obtain ⟨r, hr, hf, hp, hlru⟩ := cacheWrite_tracks t.core.mem junk word' h.followsD h.packedD hok
    have hstep : tracedCommand t ⟨.write paddr word', junk, junk', word⟩
        = .ok (.code r.err,
            ⟨⟨r.mem, t.core.l1i, r.l1, r.l2⟩, t.usedI, paddr.block :: t.usedD⟩) := by
      simp only [tracedCommand, executeCommand, hr, Exec.ok_bind, Exec.pure_eq, Call.block]
      exact if_neg id
    exact lruStep_of_ok hstep (replacesLru_of_held rfl) hlru ⟨h.followsI, h.packedI, hf, hp⟩
  case h_3 => exact hok.elim

/-- In a run from flushed caches whose calls meet their conditions, every call replaces the least
recently used block of a full set, if it replaces any. -/
theorem cache_replaces_lru (mem : Memory size) (l1i l1d : L1Cache) (l2 : L2Cache) :
    ∃ core, flushAll mem l1i l1d l2 = .ok core ∧
      ∀ is, Run.Along tracedCommand LruCall ⟨core, [], []⟩ is →
        Run.Along tracedCommand LruStep ⟨core, [], []⟩ is :=
  ⟨_, flushAll_eq mem l1i l1d l2, fun is h => Run.along_of_inv tracedCommand_lru is
    ⟨follows_of_held_none (held_flushed l1i), packed_of_held_none (held_flushed l1i),
      follows_of_held_none (held_flushed l1d), packed_of_held_none (held_flushed l1d)⟩ h⟩

/-- Four writes fill set 0, and after a read of the first of them a fifth replaces the second. -/
theorem cache_replaces_lru_second : ∃ core,
    flushAll (fun _ => 0 : Memory 8192) noBlocks noBlocks noBlocks = .ok core
      ∧ Run.Along tracedCommand LruStep ⟨core, [], []⟩
        [writeBlock 0 1, writeBlock 64 2, writeBlock 128 3, writeBlock 192 4, readBlock 0,
          writeBlock 256 5]
      ∧ (Run.run tracedCommand ⟨core, [], []⟩
          [writeBlock 0 1, writeBlock 64 2, writeBlock 128 3, writeBlock 192 4, readBlock 0]).map
            (fun x => (x.2.usedD, held x.2.core.l1d 1)) = .ok ([0, 192, 128, 64, 0], some 64)
      ∧ (Run.run tracedCommand ⟨core, [], []⟩
          [writeBlock 0 1, writeBlock 64 2, writeBlock 128 3, writeBlock 192 4, readBlock 0,
            writeBlock 256 5]).map (fun x => held x.2.core.l1d 1) = .ok (some 256) := by
  obtain ⟨core, hcore, hrun⟩ :=
    cache_replaces_lru (fun _ => 0 : Memory 8192) noBlocks noBlocks noBlocks
  obtain rfl := Except.ok.inj ((flushAll_eq _ _ _ _).symm.trans hcore)
  refine ⟨_, hcore, hrun _ ?_, ?_, ?_⟩
  all_goals decide +kernel

end Runs

section LastWay

/-- The address of tag `n` in set 0. -/
def tagAddr (n : ℕ) : PhyAddr := blockAddr (64 * n)

/-- The first `n` ways of set 0 hold the tags 0 to `n - 1`, all at age 0. -/
def sameAge (n : ℕ) : L1Cache := fun i =>
  if i.val < n then ⟨true, 0, BitVec.ofNat 22 i, fun _ => 0⟩ else ⟨false, 0, 0, fun _ => 0⟩

theorem flushed_noBlocks : flushed (noBlocks : L1Cache) = sameAge 0 := by
  funext i
  unfold flushed sameAge noBlocks
  simp

/-- A fill leaves the ways before it at age 0. -/
theorem update_sameAge {n : ℕ} (hn : n < 4) :
    Function.update (sameAge n) (replaceSlot (sameAge n) (tagAddr n).set1)
      ((tagAddr n).entry 0 fun _ => 0) = sameAge (n + 1) := by
  have hslot : replaceSlot (sameAge n) (tagAddr n).set1 = ⟨n, by omega⟩ := by
    refine Fin.ext ?_
    show (replaceSlot (sameAge n) (tagAddr n).set1).val = n
    interval_cases n <;> decide
  have htag : (tagAddr n).block / 64 = n := by
    interval_cases n <;> decide
  funext i
  rw [hslot]
  rcases eq_or_ne i ⟨n, by omega⟩ with rfl | hne
  · simp [sameAge, PhyAddr.entry, htag]
  · have hi : i.val ≠ n := fun h => hne (Fin.ext h)
    have hlt : i.val < n + 1 ↔ i.val < n := by omega
    rw [Function.update_of_ne hne]
    simp only [sameAge, hlt]

theorem tracedCommand_miss {n : ℕ} {c : L1Cache} (h1 : (tagAddr n).lookup1 c = none)
    (hsize : (tagAddr n).addr + 16 ≤ 8192) (l1i : L1Cache) (l2 : L2Cache) (usedI usedD : List ℕ) :
    tracedCommand ⟨⟨(fun _ => 0 : Memory 8192), l1i, c, flushed l2⟩, usedI, usedD⟩
        (readBlock (64 * n))
      = .ok (.word .errNone 0, ⟨⟨fun _ => 0, l1i, Function.update c
          (replaceSlot c (tagAddr n).set1) ((tagAddr n).entry 0 fun _ => 0), flushed l2⟩, usedI,
          (tagAddr n).block :: usedD⟩) := by
  have hcall : readBlock (64 * n) = ⟨.read .data (tagAddr n), default, default, 0⟩ := rfl
  simp only [tracedCommand, executeCommand, hcall, Core.l1, Core.setL1, reduceCtorEq, if_false,
    cacheRead_miss h1 (lookup2_flushed (tagAddr n) l2), if_pos hsize, Exec.ok_bind, Exec.pure_eq,
    Memory.lineAt_zero, Call.block]
  have hdata : MemAccess.data ≠ .instruction := by decide
  exact if_neg hdata

theorem tracedCommand_readBlock {n : ℕ} (hn : n < 4) (l1i : L1Cache) (l2 : L2Cache)
    (usedI usedD : List ℕ) :
    tracedCommand ⟨⟨(fun _ => 0 : Memory 8192), l1i, sameAge n, flushed l2⟩, usedI, usedD⟩
        (readBlock (64 * n))
      = .ok (.word .errNone 0, ⟨⟨fun _ => 0, l1i, sameAge (n + 1), flushed l2⟩, usedI,
          n * 64 :: usedD⟩) := by
  have h1 : (tagAddr n).lookup1 (sameAge n) = none := by
    interval_cases n <;> decide
  have hsize : (tagAddr n).addr + 16 ≤ 8192 := by
    interval_cases n <;> decide
  have hblock : (tagAddr n).block = n * 64 := by
    interval_cases n <;> decide
  rw [tracedCommand_miss h1 hsize, update_sameAge hn, hblock]

/-- Of five blocks read one after the other the fifth replaces the fourth. -/
theorem cacheRead_replaces_last_way : ∃ core,
    flushAll (fun _ => 0 : Memory 8192) noBlocks noBlocks noBlocks = .ok core
      ∧ ¬ Run.Along tracedCommand LruStep ⟨core, [], []⟩
        [readBlock 0, readBlock 64, readBlock 128, readBlock 192, readBlock 256] := by
  refine ⟨_, flushAll_eq _ _ _ _, fun h => ?_⟩
  rw [flushed_noBlocks] at h
  have h1 := h.2 _ _ (tracedCommand_readBlock (by norm_num) _ _ _ _)
  have h2 := h1.2 _ _ (tracedCommand_readBlock (by norm_num) _ _ _ _)
  have h3 := h2.2 _ _ (tracedCommand_readBlock (by norm_num) _ _ _ _)
  have h4 := h3.2 _ _ (tracedCommand_readBlock (by norm_num) _ _ _ _)
  obtain ⟨out, t', hok, -, hlru⟩ := h4.1
  have hmiss : (tagAddr 4).lookup1 (sameAge 4) = none := by decide
  rw [tracedCommand_miss hmiss (by decide), Except.ok.injEq, Prod.mk.injEq] at hok
  obtain ⟨-, rfl⟩ := hok
  have hslot : replaceSlot (sameAge 4) (tagAddr 4).set1 = 3 := by decide
  have hold : held (sameAge 4) 3 = some 192 := by decide
  have hfirst : held (sameAge 4) 0 = some 0 := by decide
  have hnew : held (Function.update (sameAge 4) (replaceSlot (sameAge 4) (tagAddr 4).set1)
      ((tagAddr 4).entry 0 fun _ => 0)) 3 = some 256 := by
    rw [hslot, held_update, Function.update_self]
    decide
  have hle := (hlru 3 192 256 hold hnew (by norm_num)).2.2 0 0 (by decide) hfirst
  revert hle
  decide

end LastWay

end KabyLake
