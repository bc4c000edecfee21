import KabyLake.Library.Resident
import KabyLake.Proofs.CacheCoherence
import KabyLake.Proofs.CacheLookup
import KabyLake.Proofs.CacheLru

/-!
# Runs whose blocks fit in the first level

As long as each first-level cache is asked for no more blocks of a set than it has ways, nothing is
evicted and the second level stays empty. What a lookup finds is then known from the calls alone,
without the state of the caches: a block is found exactly if it was used before
(`workingSet_hits`). So is whether a call answers like the memory (`Core.Holds.coherentCall`).
-/

namespace KabyLake

open SetAssoc

def Call.paddr : Call → PhyAddr
  | .read _ paddr => paddr
  | .readByte _ paddr => paddr
  | .write paddr _ => paddr
  | .writeByte paddr _ => paddr

def Call.IsWrite : Call → Prop
  | .read _ _ => False
  | .readByte _ _ => False
  | .write _ _ => True
  | .writeByte _ _ => True

instance : DecidablePred Call.IsWrite
  | .read _ _ => isFalse id
  | .readByte _ _ => isFalse id
  | .write _ _ => isTrue trivial
  | .writeByte _ _ => isTrue trivial

/-- The call is a write of a byte 0, which is refused before a cache is used. -/
def Call.Refused : Call → Prop
  | .writeByte _ byte => byte = 0
  | _ => False

instance : DecidablePred Call.Refused
  | .read _ _ => isFalse id
  | .readByte _ _ => isFalse id
  | .write _ _ => isFalse id
  | .writeByte _ byte => decEq byte 0

/-- The blocks used in the instruction cache and in the data cache, the last first. -/
structure Used where
  fetched : List ℕ
  data : List ℕ

/-- Those of the cache of a call. -/
def Used.of (u : Used) (call : Call) : List ℕ := if call.IsFetch then u.fetched else u.data

def Used.use (u : Used) (i : Invocation) : Used :=
  if i.call.Refused then u
  else if i.call.IsFetch then ⟨i.call.block :: u.fetched, u.data⟩
  else ⟨u.fetched, i.call.block :: u.data⟩

/-- There is room for the block of a call, and 16 bytes of memory for a line that is loaded or
stored. -/
def Fits (size : ℕ) (u : Used) (i : Invocation) : Prop :=
  Room 64 4 (u.of i.call) i.call.block
    ∧ (i.call.block ∉ u.of i.call ∨ i.call.IsWrite → i.call.paddr.addr + 16 ≤ size)

instance (size : ℕ) (u : Used) (i : Invocation) : Decidable (Fits size u i) :=
  inferInstanceAs (Decidable (_ ∧ (_ → _)))

/-- The code that a call returns. -/
def Output.err : Output → ErrorCode
  | .word err _ => err
  | .byte err _ => err
  | .code err => err

/-- A call that is not refused succeeds. -/
def Invocation.Succeeds (i : Invocation) (out : Output) : Prop :=
  out.err = if i.call.Refused then .errBadParameter else .errNone

variable {size : ℕ}

/-- The caches hold what was used and the second level is empty. -/
structure Core.Holds (core : Core size) (u : Used) : Prop where
  fetched : Resident core.l1i u.fetched
  data : Resident core.l1d u.data
  l2 : held core.l2 = fun _ => none

section Calls

variable {paddr : PhyAddr} {l1 : L1Cache} {l2 : L2Cache} {used : List ℕ}

theorem lookup1_eq_none_iff (h : Resident l1 used) :
    paddr.lookup1 l1 = none ↔ paddr.block ∉ used :=
  h.lookup_eq_none_iff paddr.set1_val

theorem lookup2_of_empty (h2 : held l2 = fun _ => none) : paddr.lookup2 l2 = none :=
  lookup_of_held_none h2 _

theorem cacheRead_resident (junk : Malloc) (access : MemAccess) (word : Word)
    (h : Resident l1 used) (h2 : held l2 = fun _ => none) (hroom : Room 64 4 used paddr.block)
    (hsize : paddr.block ∉ used → paddr.addr + 16 ≤ size) (m : Memory size) :
    ∃ r, cacheRead junk m paddr access l1 l2 word = .ok r ∧ Resident r.l1 (paddr.block :: used)
      ∧ r.l2 = l2 := by
  rcases h1 : paddr.lookup1 l1 with _ | w
  · have hb := (lookup1_eq_none_iff h).1 h1
    refine ⟨_, (cacheRead_miss h1 (lookup2_of_empty h2)).trans (if_pos (hsize hb)), ?_, rfl⟩
    exact h.fill paddr.set1_val hb hroom (PhyAddr.held_entry 0 _) rfl rfl
  · exact ⟨_, cacheRead_hit h1, h.touch (held_of_lookup1 h1), rfl⟩

theorem resident_writeHit (h : Resident l1 used) {w : Fin 4} (h1 : paddr.lookup1 l1 = some w)
    (line : CacheLine) : Resident (Function.update (touch l1 paddr.set1 w) (slot paddr.set1 w)
      ⟨true, 0, (l1 (slot paddr.set1 w)).tag, line⟩) (paddr.block :: used) := by
  refine (h.touch (held_of_lookup1 h1)).congr ?_ fun i => ?_
  · rw [held_writeWay1 h1, held_touch]
  · rcases eq_or_ne i (slot paddr.set1 w) with rfl | hne
    · rw [Function.update_self, age_touch_self]
      rfl
    · rw [Function.update_of_ne hne]

theorem cacheWrite_resident (junk : Malloc) (word : Word) (h : Resident l1 used)
    (h2 : held l2 = fun _ => none) (hroom : Room 64 4 used paddr.block)
    (hsize : paddr.addr + 16 ≤ size) (m : Memory size) :
    ∃ r, cacheWrite junk m paddr l1 l2 word = .ok r ∧ Resident r.l1 (paddr.block :: used)
      ∧ r.l2 = l2 := by
  rcases h1 : paddr.lookup1 l1 with _ | w
  · have hb := (lookup1_eq_none_iff h).1 h1
    have hfree := h.firstInvalid_ne_none paddr.set1_val (hroom hb)
    refine ⟨_, (cacheWrite_miss h1 (lookup2_of_empty h2)).trans (if_pos hsize), ?_, ?_⟩
    · exact h.insert (by norm_num) paddr.set1_val hb hroom (PhyAddr.held_entry 0 _) rfl
    · rw [evictInto_room hfree]
  · exact ⟨_, (cacheWrite_hit h1).trans (if_pos hsize), resident_writeHit h h1 _, rfl⟩

theorem cacheReadByte_resident (junk : Malloc) (access : MemAccess) (h : Resident l1 used)
    (h2 : held l2 = fun _ => none) (hroom : Room 64 4 used paddr.block)
    (hsize : paddr.block ∉ used → paddr.addr + 16 ≤ size) (m : Memory size) :
    ∃ byte l1', cacheReadByte junk m paddr access l1 l2 = .ok (.errNone, byte, l1', l2)
      ∧ Resident l1' (paddr.block :: used) := by
  obtain ⟨r, hr, hres, rfl⟩ := cacheRead_resident junk access junk.word h h2 hroom hsize m
  simp only [cacheReadByte, hr, Exec.ok_bind, cacheRead_err hr, ne_eq, not_true_eq_false, if_false,
    Exec.pure_eq]
  exact ⟨_, r.l1, rfl, hres⟩

theorem cacheWriteByte_resident (junk junk' : Malloc) {byte : Byte} (hbyte : byte ≠ 0)
    (h : Resident l1 used) (h2 : held l2 = fun _ => none) (hroom : Room 64 4 used paddr.block)
    (hsize : paddr.addr + 16 ≤ size) (m : Memory size) :
    ∃ r, cacheWriteByte junk junk' m paddr l1 l2 byte = .ok r ∧ r.err = .errNone
      ∧ Resident r.l1 (paddr.block :: used) ∧ r.l2 = l2 := by
  obtain ⟨r, hr, hres, hr2⟩ :=
    cacheRead_resident junk .data junk.word h h2 hroom (fun _ => hsize) m
  have hroom' : Room 64 4 (paddr.block :: used) paddr.block :=
    fun hb => absurd List.mem_cons_self hb
  obtain ⟨out, hout, hres', hout2⟩ := cacheWrite_resident junk'
    (r.word ||| byte.setWidth 32 <<< (8 * (paddr.addr % 4))) hres (hr2 ▸ h2) hroom' hsize m
  refine ⟨out, (cacheWriteByte_or junk' hbyte hr).trans hout, cacheWrite_err hout,
    hres'.congr_used fun b => ?_, hout2.trans hr2⟩
  simp only [List.mem_cons, or_self_left]

end Calls

section Runs

variable {l1 : L1Cache}

theorem Core.Holds.of_l1 {core : Core size} {u : Used} (h : core.Holds u) (access : MemAccess) :
    Resident (core.l1 access) (if access = .instruction then u.fetched else u.data) := by
  unfold Core.l1
  split_ifs
  · exact h.fetched
  · exact h.data

/-- A read leaves what its cache holds, under the blocks used by then. -/
theorem Core.Holds.read {core : Core size} {u : Used} (h : core.Holds u) {access : MemAccess}
    {b : ℕ} (h1 : Resident l1 (b :: if access = .instruction then u.fetched else u.data)) :
    Core.Holds { core.setL1 access l1 with l2 := core.l2 }
      (if access = .instruction then ⟨b :: u.fetched, u.data⟩ else ⟨u.fetched, b :: u.data⟩) := by
  unfold Core.setL1
  split_ifs with haccess
  · rw [if_pos haccess] at h1
    exact ⟨h1, h.data, h.l2⟩
  · rw [if_neg haccess] at h1
    exact ⟨h.fetched, h1, h.l2⟩

theorem executeCommand_fits (core : Core size) (u : Used) (i : Invocation) (h : core.Holds u)
    (hok : Fits size u i) : ∃ out core', executeCommand core i = .ok (out, core')
      ∧ i.Succeeds out ∧ core'.Holds (u.use i) := by
  obtain ⟨call, junk, junk', word⟩ := i
  obtain ⟨hroom, hsize⟩ := hok
  rcases call with ⟨access, paddr⟩ | ⟨access, paddr⟩ | ⟨paddr, word'⟩ | ⟨paddr, byte⟩
  · obtain ⟨r, hr, hres, hr2⟩ := cacheRead_resident junk access word (h.of_l1 access) h.l2 hroom
      (fun hb => hsize (.inl hb)) core.mem
    refine ⟨.word r.err r.word, _, ?_, cacheRead_err hr, h.read hres⟩
    simp only [executeCommand, hr, hr2, Exec.ok_bind, Exec.pure_eq]
  · obtain ⟨byte, l1', hr, hres⟩ := cacheReadByte_resident junk access (h.of_l1 access) h.l2 hroom
      (fun hb => hsize (.inl hb)) core.mem
    refine ⟨.byte .errNone byte, _, ?_, rfl, h.read hres⟩
    simp only [executeCommand, hr, Exec.ok_bind, Exec.pure_eq]
  · obtain ⟨r, hr, hres, hr2⟩ := cacheWrite_resident junk word' h.data h.l2 hroom
      (hsize (.inr trivial)) core.mem
    refine ⟨.code r.err, ⟨r.mem, core.l1i, r.l1, r.l2⟩, ?_, cacheWrite_err hr, h.fetched, hres,
      hr2 ▸ h.l2⟩
    simp only [executeCommand, hr, Exec.ok_bind, Exec.pure_eq]
  · by_cases hbyte : byte = 0
    · subst hbyte
      exact ⟨.code .errBadParameter, core, rfl, rfl, h⟩
    · obtain ⟨r, hr, herr, hres, hr2⟩ := cacheWriteByte_resident junk junk' hbyte h.data h.l2 hroom
        (hsize (.inr trivial)) core.mem
      have hrefused : ¬ (Call.writeByte paddr byte).Refused := hbyte
      have huse : u.use ⟨.writeByte paddr byte, junk, junk', word⟩
          = ⟨u.fetched, paddr.block :: u.data⟩ := by
        simp only [Used.use, if_neg hrefused, Call.IsFetch]
        rfl
      rw [huse]
      refine ⟨.code r.err, ⟨r.mem, core.l1i, r.l1, r.l2⟩, ?_, ?_, h.fetched, hres, hr2 ▸ h.l2⟩
      · simp only [executeCommand, hr, Exec.ok_bind, Exec.pure_eq]
      · rw [Invocation.Succeeds, if_neg hrefused]
        exact herr

theorem holds_flushed_used (mem : Memory size) (l1i l1d : L1Cache) (l2 : L2Cache) :
    Core.Holds ⟨mem, flushed l1i, flushed l1d, flushed l2⟩ ⟨[], []⟩ :=
  ⟨resident_of_held_none (held_flushed l1i), resident_of_held_none (held_flushed l1d),
    held_flushed l2⟩

/-- A run from flushed caches that uses no more blocks of a set than there are ways, and whose lines
lie in memory, comes to its end, and each call succeeds that is not the write of a byte 0. After it
a lookup misses exactly the blocks not used on its side, and the second level holds nothing. -/
theorem workingSet_hits (mem : Memory size) (l1i l1d : L1Cache) (l2 : L2Cache) :
    ∃ core, flushAll mem l1i l1d l2 = .ok core ∧
      ∀ is, Run.AlongFold Used.use (Fits size) ⟨[], []⟩ is →
        ∃ outs core', Run.run executeCommand core is = .ok (outs, core') ∧
          List.Forall₂ Invocation.Succeeds is outs ∧
          ∀ paddr : PhyAddr,
            (Misses core'.l1i paddr .l1ICache
              ↔ paddr.block ∉ (is.foldl Used.use ⟨[], []⟩).fetched) ∧
            (Misses core'.l1d paddr .l1DCache ↔ paddr.block ∉ (is.foldl Used.use ⟨[], []⟩).data) ∧
            Misses core'.l2 paddr .l2Cache := by
  refine ⟨_, flushAll_eq mem l1i l1d l2, fun is hok => ?_⟩
  obtain ⟨outs, core', hrun, houts, hholds⟩ :=
    Run.run_outputs_of_fold executeCommand_fits is (holds_flushed_used mem l1i l1d l2) hok
  refine ⟨outs, core', hrun, houts, fun paddr => ⟨?_, ?_, ?_⟩⟩
  · rw [misses_l1_iff (by decide), lookup1_eq_none_iff hholds.fetched]
  · rw [misses_l1_iff (by decide), lookup1_eq_none_iff hholds.data]
  · rw [misses_l2_iff]
    exact lookup2_of_empty hholds.l2

/-- A second call finds the block of the first, and a byte 0 is refused. -/
theorem workingSet_hits_twice : ∃ core outs core',
    flushAll (fun _ => 0 : Memory 32) noBlocks noBlocks noBlocks = .ok core
      ∧ Run.run executeCommand core [⟨.write ⟨0, 16⟩ 7, default, default, 0⟩,
        ⟨.read .data ⟨0, 20⟩, default, default, 0⟩,
        ⟨.writeByte ⟨0, 16⟩ 0, default, default, 0⟩] = .ok (outs, core')
      ∧ outs.map Output.err = [.errNone, .errNone, .errBadParameter]
      ∧ ¬ Misses core'.l1d ⟨0, 24⟩ .l1DCache := by
  obtain ⟨core, hcore, hruns⟩ :=
    workingSet_hits (fun _ => 0 : Memory 32) noBlocks noBlocks noBlocks
  obtain ⟨outs, core', hrun, houts, hmiss⟩ := hruns [⟨.write ⟨0, 16⟩ 7, default, default, 0⟩,
    ⟨.read .data ⟨0, 20⟩, default, default, 0⟩, ⟨.writeByte ⟨0, 16⟩ 0, default, default, 0⟩]
    (by decide)
  refine ⟨core, outs, core', hcore, hrun, ?_, fun h => (hmiss _).2.1.1 h (by decide)⟩
  rcases houts with _ | ⟨h1, _ | ⟨h2, _ | ⟨h3, hrest⟩⟩⟩
  cases hrest
  rw [List.map_cons, List.map_cons, List.map_cons, h1, h2, h3]
  rfl

end Runs

section Coherence

variable {m : Memory size} {paddr : PhyAddr} {l1 : L1Cache} {l2 : L2Cache} {used : List ℕ}

/-- There is room for the block of a call, and the call is aligned so that it answers like the
memory. A byte that is written only adds bits to the one in memory, and is not 0. -/
def FitsCoherent (m : Memory size) (u : Used) (i : Invocation) : Prop :=
  Fits size u i ∧
    match i.call with
    | .read access paddr => 4 ∣ paddr.addr
      ∧ (paddr.block ∉ (if access = .instruction then u.fetched else u.data) → 16 ∣ paddr.addr)
    | .readByte access paddr =>
      paddr.block ∉ (if access = .instruction then u.fetched else u.data) → 16 ∣ paddr.addr
    | .write paddr _ => 16 ∣ paddr.addr ∧ paddr.block ∉ u.fetched
    | .writeByte paddr byte => 16 ∣ paddr.addr ∧ paddr.block ∉ u.fetched
      ∧ byte ≠ 0 ∧ m.byteAt paddr.addr ||| byte = byte

instance (m : Memory size) (u : Used) : DecidablePred (FitsCoherent m u)
  | ⟨.read _ _, _, _, _⟩ => inferInstanceAs (Decidable (_ ∧ _ ∧ (_ → _)))
  | ⟨.readByte _ _, _, _, _⟩ => inferInstanceAs (Decidable (_ ∧ (_ → _)))
  | ⟨.write _ _, _, _, _⟩ => inferInstanceAs (Decidable (_ ∧ _))
  | ⟨.writeByte _ _, _, _, _⟩ => inferInstanceAs (Decidable (_ ∧ _))

theorem readTransparent_of_resident (h : Resident l1 used) (h2 : held l2 = fun _ => none)
    (hok : paddr.block ∉ used → 16 ∣ paddr.addr ∧ paddr.addr + 16 ≤ size) :
    ReadTransparent m paddr l1 l2 := by
  rcases h1 : paddr.lookup1 l1 with _ | w
  · simp only [ReadTransparent, h1, lookup2_of_empty h2]
    exact hok ((lookup1_eq_none_iff h).1 h1)
  · simp only [ReadTransparent, h1]

theorem alone_of_resident (h : Resident l1 used) : Alone paddr l1 := by
  intro i hi
  have hne : paddr.lookup1 l1 ≠ none := fun hnone =>
    (lookup1_eq_none_iff h).1 hnone ((h.held_iff _).1 ⟨i, hi⟩)
  obtain ⟨w, hw⟩ := Option.ne_none_iff_exists'.1 hne
  exact ⟨w, hw, h.alone _ _ _ hi (held_of_lookup1 hw)⟩

theorem Core.Holds.coherentCall {core : Core size} {u : Used} {i : Invocation}
    (h : core.Holds u) (hmem : core.mem = m) (hok : FitsCoherent m u i) : CoherentCall core i := by
  obtain ⟨call, junk, junk', word⟩ := i
  obtain ⟨⟨-, hsize⟩, hok⟩ := hok
  subst hmem
  rcases call with ⟨access, paddr⟩ | ⟨access, paddr⟩ | ⟨paddr, word'⟩ | ⟨paddr, byte⟩
  · exact ⟨hok.1, readTransparent_of_resident (h.of_l1 access) h.l2 fun hb =>
      ⟨hok.2 hb, hsize (.inl hb)⟩⟩
  · exact readTransparent_of_resident (h.of_l1 access) h.l2 fun hb => ⟨hok hb, hsize (.inl hb)⟩
  · refine ⟨⟨hok.1, hsize (.inr trivial), alone_of_resident h.data, fun _ k hk => ?_⟩,
      fun i hi => ?_⟩
    · rw [lookup2_of_empty h.l2] at hk
      cases hk
    · exact hok.2 ((h.fetched.held_iff _).1 ⟨i, hi⟩)
  · obtain ⟨halign, hfetched, hbyte, hor⟩ := hok
    have hsize' := hsize (.inr trivial)
    refine ⟨halign, hsize', alone_of_resident h.data, ?_, hbyte, hor, fun i hi => ?_⟩
    · exact readTransparent_of_resident h.data h.l2 fun _ => ⟨halign, hsize'⟩
    · exact hfetched ((h.fetched.held_iff _).1 ⟨i, hi⟩)

/-- A call whose block fits and that is aligned returns what the memory returns, and keeps the
caches those of the blocks used. -/
theorem executeCommand_fitsCoherent (core : Core size) (m : Memory size) (u : Used)
    (i : Invocation) (hholds : core.Holds u) (h : core.Coherent m) (hok : FitsCoherent m u i) :
    ∃ core', executeCommand core i = .ok ((flat m i).1, core')
      ∧ core'.Holds (u.use i) ∧ core'.Coherent (flat m i).2 := by
  obtain ⟨core', hrun, hcoherent⟩ :=
    executeCommand_coherent core m i h (hholds.coherentCall h.mem hok)
  obtain ⟨out, core'', hrun', -, hholds'⟩ := executeCommand_fits core u i hholds hok.1
  obtain ⟨-, rfl⟩ := Prod.ext_iff.1 (Except.ok.inj (hrun.symm.trans hrun'))
  exact ⟨core', hrun, hholds', hcoherent⟩

end Coherence

end KabyLake
