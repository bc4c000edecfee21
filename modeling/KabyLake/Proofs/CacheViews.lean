import KabyLake.Proofs.CacheWorkingSet

/-!
# The memory as instructions and as data

While nothing is evicted, a write does not reach a block that was fetched before: what is fetched
stays as it was then. So the caches answer like two memories, where a write changes that of the
instructions only at blocks not fetched yet (`executeCommand_views`). A byte is written by an or
with the one there, and a byte 0 is refused.
-/

namespace KabyLake

open SetAssoc

variable {size : ℕ}

/-- The memory as it is read as data and as it is fetched, and the blocks used. -/
structure Views (size : ℕ) where
  data : Memory size
  instructions : Memory size
  used : Used

namespace Views

/-- The memory that an access reads. -/
def of (v : Views size) (access : MemAccess) : Memory size :=
  if access = .instruction then v.instructions else v.data

/-- A write to a block reaches what is fetched only if the block was not fetched before. -/
def store (v : Views size) (block : ℕ) (f : Memory size → Memory size) : Views size :=
  ⟨f v.data, if block ∈ v.used.fetched then v.instructions else f v.instructions, v.used⟩

/-- A call without caches. -/
def call (v : Views size) : Call → Output × Views size
  | .read access paddr => (.word .errNone ((v.of access).wordAt paddr.addr), v)
  | .readByte access paddr => (.byte .errNone (some ((v.of access).byteAt paddr.addr)), v)
  | .write paddr word => (.code .errNone, v.store paddr.block fun m => m.setWord paddr.addr word)
  | .writeByte paddr byte =>
    if byte = 0 then (.code .errBadParameter, v)
    else (.code .errNone, v.store paddr.block fun m =>
      m.setByte paddr.addr (m.byteAt paddr.addr ||| byte))

def step (v : Views size) (i : Invocation) : Output × Views size :=
  ((v.call i.call).1, { (v.call i.call).2 with used := v.used.use i })

/-- What is not fetched is the same in both. -/
def Agree (v : Views size) : Prop :=
  ∀ j : Fin size, j.val / 16 ∉ v.used.fetched → v.instructions j = v.data j

end Views

/-- There is room for the block of a call. A read is at its word, and at its line if the block is
new; a write is at its line. -/
def FitsAligned (size : ℕ) (u : Used) (i : Invocation) : Prop :=
  Fits size u i ∧
    match i.call with
    | .read _ paddr => 4 ∣ paddr.addr ∧ (paddr.block ∉ u.of i.call → 16 ∣ paddr.addr)
    | .readByte _ paddr => paddr.block ∉ u.of i.call → 16 ∣ paddr.addr
    | .write paddr _ => 16 ∣ paddr.addr
    | .writeByte paddr _ => 16 ∣ paddr.addr

section Memory

variable {m m' : Memory size} {paddr : PhyAddr}

/-- The first byte of a word is in it. -/
theorem Memory.wordAt_or_byteAt (a : ℕ) :
    m.wordAt a ||| (m.byteAt a).setWidth 32 = m.wordAt a := by
  ext i hi
  rw [BitVec.getElem_or, BitVec.getElem_setWidth]
  by_cases hlow : i < 8
  · have hfirst : (m.wordAt a)[i] = (m.byteAt a).getLsbD i := by
      rw [Memory.wordAt, BitVec.getElem_append, dif_pos hlow, BitVec.getLsbD_eq_getElem]
    rw [hfirst, Bool.or_self]
  · rw [BitVec.getLsbD_of_ge _ _ (not_lt.1 hlow), Bool.or_false]

/-- A block is the same in memories that have the same bytes in it. -/
theorem HasBlock.congr {b : ℕ} {line : CacheLine} (h : HasBlock m b line)
    (hbytes : ∀ j : Fin size, j.val / 16 = b → m' j = m j) : HasBlock m' b line := by
  refine ⟨h.1, h.2.trans (funext fun k => (Memory.wordAt_congr fun i hi => ?_).symm)⟩
  have hk := k.isLt
  have hlt : 16 * b + 4 * k.val + i < size := by
    have := h.1
    omega
  rw [Memory.byteAt, Memory.byteAt, dif_pos hlt, dif_pos hlt]
  exact hbytes _ (by show (16 * b + 4 * k.val + i) / 16 = b; omega)

/-- The memory is changed in one block, by what it has there. -/
structure AtBlock (b : ℕ) (f : Memory size → Memory size) : Prop where
  elsewhere : ∀ m j, j.val / 16 ≠ b → f m j = m j
  there : ∀ m m', (∀ j : Fin size, j.val / 16 = b → m' j = m j) →
    ∀ j, j.val / 16 = b → f m' j = f m j

theorem atBlock_setWord (h : 16 ∣ paddr.addr) (word : Word) :
    AtBlock paddr.block fun m : Memory size => m.setWord paddr.addr word := by
  have haddr := PhyAddr.addr_eq h
  refine ⟨fun m j hj => if_neg fun hin => hj (by omega), fun m m' hm j hj => ?_⟩
  simp only [Memory.setWord, hm j hj]

theorem atBlock_setByte (h : 16 ∣ paddr.addr) (byte : Byte) : AtBlock paddr.block
    fun m : Memory size => m.setByte paddr.addr (m.byteAt paddr.addr ||| byte) := by
  have haddr := PhyAddr.addr_eq h
  refine ⟨fun m j hj => if_neg fun hin => hj (by omega), fun m m' hm j hj => ?_⟩
  have hbyte : m'.byteAt paddr.addr = m.byteAt paddr.addr := by
    unfold Memory.byteAt
    split_ifs with hlt
    · exact hm _ (by show paddr.addr / 16 = paddr.block; omega)
    · rfl
  simp only [Memory.setByte, hm j hj, hbyte]

theorem Matches.atBlock {S W a t b : ℕ} {c : CacheArray S W a t} {f : Memory size → Memory size}
    (h : Matches m c) (hf : AtBlock b f) (hne : ∀ i, held c i ≠ some b) : Matches (f m) c :=
  fun i b' hi => (h i b' hi).congr fun j hj => hf.elsewhere m j fun hb =>
    hne i (by rw [hi, ← hj, hb])

end Memory

section Reads

variable {m m' : Memory size} {paddr : PhyAddr} {l1 : L1Cache}

/-- A read looks at the memory only for a line that the first level does not have. -/
theorem cacheRead_memory (junk : Malloc) (access : MemAccess) (l2 : L2Cache) (word : Word)
    (h : paddr.lookup1 l1 = none → m'.lineAt paddr.addr = m.lineAt paddr.addr) :
    cacheRead junk m' paddr access l1 l2 word = cacheRead junk m paddr access l1 l2 word := by
  rcases h1 : paddr.lookup1 l1 with _ | w
  · rcases h2 : paddr.lookup2 l2 with _ | k
    · rw [cacheRead_miss h1 h2, cacheRead_miss h1 h2, h h1]
    · by_cases hset : paddr.set2 = 0
      · rw [cacheRead_l2 h1 h2 hset, cacheRead_l2 h1 h2 hset]
      · rw [cacheRead_l2_fault h1 h2 hset, cacheRead_l2_fault h1 h2 hset]
  · rw [cacheRead_hit h1, cacheRead_hit h1]

theorem cacheReadByte_memory (junk : Malloc) (access : MemAccess) (l2 : L2Cache)
    (h : paddr.lookup1 l1 = none → m'.lineAt paddr.addr = m.lineAt paddr.addr) :
    cacheReadByte junk m' paddr access l1 l2 = cacheReadByte junk m paddr access l1 l2 := by
  simp only [cacheReadByte, cacheRead_memory junk access l2 _ h]

end Reads

section Views

variable {v : Views size} {paddr : PhyAddr}

theorem Views.Agree.lineAt (h : v.Agree) (halign : 16 ∣ paddr.addr)
    (hb : paddr.block ∉ v.used.fetched) :
    v.data.lineAt paddr.addr = v.instructions.lineAt paddr.addr := by
  have haddr := PhyAddr.addr_eq halign
  refine funext fun k => Memory.wordAt_congr fun i hi => ?_
  have hk := k.isLt
  unfold Memory.byteAt
  split_ifs with hlt
  · have hblock : (paddr.addr + 4 * k.val + i) / 16 = paddr.block := by omega
    exact (h _ (hblock ▸ hb)).symm
  · rfl

theorem Views.Agree.store {f : Memory size → Memory size} {b : ℕ} (h : v.Agree)
    (hf : AtBlock b f) : (v.store b f).Agree := by
  intro j hj
  replace hj : j.val / 16 ∉ v.used.fetched := hj
  show (if b ∈ v.used.fetched then v.instructions else f v.instructions) j = f v.data j
  by_cases hb : b ∈ v.used.fetched
  · have hne : j.val / 16 ≠ b := fun hjb => hj (hjb ▸ hb)
    rw [if_pos hb, hf.elsewhere _ _ hne]
    exact h j hj
  · rw [if_neg hb]
    by_cases hjb : j.val / 16 = b
    · exact hf.there _ _ (fun j' hj' => h j' (hj' ▸ hb)) j hjb
    · rw [hf.elsewhere _ _ hjb, hf.elsewhere _ _ hjb]
      exact h j hj

theorem Used.mem_fetched_use {u : Used} {b : ℕ} (h : b ∈ u.fetched) (i : Invocation) :
    b ∈ (u.use i).fetched := by
  unfold Used.use
  split_ifs
  · exact h
  · exact List.mem_cons_of_mem _ h
  · exact h

/-- What is fetched later is only more. -/
theorem Views.Agree.use (h : v.Agree) (i : Invocation) :
    Views.Agree { v with used := v.used.use i } :=
  fun j hj => h j fun hmem => hj (Used.mem_fetched_use hmem i)

/-- The first levels match their memory, and what is not fetched is the same in both. -/
structure Core.Shows (core : Core size) (v : Views size) : Prop where
  mem : core.mem = v.data
  instructions : Matches v.instructions core.l1i
  data : Matches v.data core.l1d
  agree : v.Agree

/-- A line that is loaded is the same in the memory that the access reads. -/
theorem Core.Shows.lineAt {core : Core size} (h : core.Shows v) (hholds : core.Holds v.used)
    (access : MemAccess)
    (halign : paddr.block ∉ (if access = .instruction then v.used.fetched else v.used.data) →
      16 ∣ paddr.addr) (h1 : paddr.lookup1 (core.l1 access) = none) :
    core.mem.lineAt paddr.addr = (v.of access).lineAt paddr.addr := by
  have hb := (lookup1_eq_none_iff (hholds.of_l1 access)).1 h1
  rw [h.mem]
  unfold Views.of
  split_ifs with haccess
  · rw [if_pos haccess] at hb halign
    exact h.agree.lineAt (halign hb) hb
  · rfl

theorem Core.Shows.matches_l1 {core : Core size} (h : core.Shows v) (access : MemAccess) :
    Matches (v.of access) (core.l1 access) := by
  unfold Core.l1 Views.of
  split_ifs
  · exact h.instructions
  · exact h.data

/-- Reading leaves what is shown if the cache that is read still matches its memory. -/
theorem Core.Shows.read {core : Core size} {l1 : L1Cache} (h : core.Shows v) (access : MemAccess)
    (h1 : Matches (v.of access) l1) (l2 : L2Cache) :
    Core.Shows { core.setL1 access l1 with l2 := l2 } v := by
  unfold Core.setL1
  unfold Views.of at h1
  split_ifs at h1 ⊢
  · exact ⟨h.mem, h1, h.data, h.agree⟩
  · exact ⟨h.mem, h.instructions, h1, h.agree⟩

/-- A write leaves what is fetched at a block that was fetched before, and the instruction cache
holds no other block. -/
theorem Core.Shows.store {core : Core size} (h : core.Shows v) (hholds : core.Holds v.used)
    {b : ℕ} {f : Memory size → Memory size} (hf : AtBlock b f) {l1 : L1Cache}
    (h1 : Matches (f v.data) l1) (l2 : L2Cache) :
    Core.Shows ⟨f v.data, core.l1i, l1, l2⟩ (v.store b f) := by
  refine ⟨rfl, ?_, h1, h.agree.store hf⟩
  show Matches (if b ∈ v.used.fetched then v.instructions else f v.instructions) core.l1i
  split_ifs with hb
  · exact h.instructions
  · exact h.instructions.atBlock hf fun i hi => hb ((hholds.fetched.held_iff b).1 ⟨i, hi⟩)

end Views

section Calls

variable {junk junk' : Malloc} {m : Memory size} {paddr : PhyAddr} {l1 : L1Cache} {l2 : L2Cache}

/-- A write of a byte adds its bits to those of the byte in memory. -/
theorem cacheWriteByte_adds (junk junk' : Malloc) {byte : Byte} (h : Matches m l1)
    (halign : 16 ∣ paddr.addr) (hsize : paddr.addr + 16 ≤ size) (halone : Alone paddr l1)
    (hok : ReadTransparent m paddr l1 l2) (hbyte : byte ≠ 0) :
    ∃ r, cacheWriteByte junk junk' m paddr l1 l2 byte = .ok r ∧ r.err = .errNone
      ∧ r.mem = m.setByte paddr.addr (m.byteAt paddr.addr ||| byte) ∧ Matches r.mem r.l1 := by
  obtain ⟨r, hr, -, hword, -, -⟩ := cacheRead_transparent junk junk.word h hok
  have h4 : 4 ∣ paddr.addr := dvd_trans (by norm_num) halign
  have hbyte' : m.byteAt paddr.addr ||| byte ≠ 0 := fun h0 => hbyte (BitVec.or_eq_zero_iff.1 h0).2
  -- the bits of the old byte are in the word already
  have hsame : cacheWriteByte junk junk' m paddr l1 l2 byte
      = cacheWriteByte junk junk' m paddr l1 l2 (m.byteAt paddr.addr ||| byte) := by
    rw [cacheWriteByte_or junk' hbyte hr, cacheWriteByte_or junk' hbyte' hr, hword,
      PhyAddr.word_offset h4, Nat.mod_eq_zero_of_dvd h4, mul_zero, BitVec.shiftLeft_zero,
      BitVec.shiftLeft_zero, BitVec.setWidth_or, ← BitVec.or_assoc, Memory.wordAt_or_byteAt]
  rw [hsame]
  refine cacheWriteByte_transparent junk junk' h halign hsize halone hok hbyte' ?_
  rw [← BitVec.or_assoc, BitVec.or_self]

end Calls

/-- A call that fits answers like the two memories. -/
theorem executeCommand_shows (core : Core size) (v : Views size) (i : Invocation)
    (hholds : core.Holds v.used) (h : core.Shows v) (hok : FitsAligned size v.used i) :
    ∃ core', executeCommand core i = .ok ((v.call i.call).1, core')
      ∧ core'.Shows (v.call i.call).2 := by
  obtain ⟨call, junk, junk', word⟩ := i
  obtain ⟨⟨-, hsize⟩, hok⟩ := hok
  have hread : ∀ {access paddr}, (paddr.block ∉
      (if access = .instruction then v.used.fetched else v.used.data) →
        16 ∣ paddr.addr ∧ paddr.addr + 16 ≤ size) →
      ReadTransparent (v.of access) paddr (core.l1 access) core.l2 := fun {access} _ hmiss =>
    readTransparent_of_resident (hholds.of_l1 access) hholds.l2 hmiss
  rcases call with ⟨access, paddr⟩ | ⟨access, paddr⟩ | ⟨paddr, word'⟩ | ⟨paddr, byte⟩
  · obtain ⟨r, hr, herr, hword, hr1, -⟩ := cacheRead_transparent junk word (h.matches_l1 access)
      (hread fun hb => ⟨hok.2 hb, hsize (.inl hb)⟩)
    rw [PhyAddr.word_offset hok.1] at hword
    refine ⟨_, ?_, h.read access hr1 r.l2⟩
    have hmem := cacheRead_memory junk .data core.l2 word (h.lineAt hholds access hok.2)
    simp only [executeCommand, cacheRead_access junk core.mem paddr access, hmem, hr,
      Exec.ok_bind, Exec.pure_eq, herr, hword, Views.call]
  · obtain ⟨l1', l2', hr, hr1⟩ := cacheReadByte_transparent junk (h.matches_l1 access)
      (hread fun hb => ⟨hok hb, hsize (.inl hb)⟩)
    refine ⟨_, ?_, h.read access hr1 l2'⟩
    have hmem := cacheReadByte_memory junk .data core.l2 (h.lineAt hholds access hok)
    simp only [executeCommand, cacheReadByte_access junk core.mem paddr access, hmem, hr,
      Exec.ok_bind, Exec.pure_eq, Views.call]
  · have hsize' := hsize (.inr trivial)
    obtain ⟨r, hr, herr, hmem, hr1⟩ := cacheWrite_transparent junk core.l2 word' h.data
      ⟨hok, hsize', alone_of_resident hholds.data, fun _ k hk => by
        rw [lookup2_of_empty hholds.l2] at hk
        cases hk⟩
    rw [hmem] at hr1
    refine ⟨⟨r.mem, core.l1i, r.l1, r.l2⟩, ?_, ?_⟩
    · simp only [executeCommand, h.mem, hr, Exec.ok_bind, Exec.pure_eq, herr, Views.call]
    · rw [hmem]
      exact h.store hholds (atBlock_setWord hok word') hr1 r.l2
  · by_cases hbyte : byte = 0
    · subst hbyte
      exact ⟨core, rfl, h⟩
    · have hsize' := hsize (.inr trivial)
      obtain ⟨r, hr, herr, hmem, hr1⟩ := cacheWriteByte_adds junk junk' h.data hok hsize'
        (alone_of_resident hholds.data)
        (readTransparent_of_resident hholds.data hholds.l2 fun _ => ⟨hok, hsize'⟩) hbyte
      rw [hmem] at hr1
      refine ⟨⟨r.mem, core.l1i, r.l1, r.l2⟩, ?_, ?_⟩
      · simp only [executeCommand, h.mem, hr, Exec.ok_bind, Exec.pure_eq, herr, Views.call,
          if_neg hbyte]
      · rw [hmem]
        simp only [Views.call, if_neg hbyte]
        exact h.store hholds (atBlock_setByte hok byte) hr1 r.l2

theorem Views.used_call (v : Views size) (call : Call) : (v.call call).2.used = v.used := by
  rcases call with ⟨access, paddr⟩ | ⟨access, paddr⟩ | ⟨paddr, word⟩ | ⟨paddr, byte⟩
  · rfl
  · rfl
  · rfl
  · by_cases hbyte : byte = 0
    · simp only [Views.call, if_pos hbyte]
    · simp only [Views.call, if_neg hbyte, Views.store]

/-- It keeps the caches those of the blocks used. -/
theorem executeCommand_views (core : Core size) (v : Views size) (i : Invocation)
    (hholds : core.Holds v.used) (h : core.Shows v) (hok : FitsAligned size v.used i) :
    ∃ core', executeCommand core i = .ok ((v.step i).1, core')
      ∧ core'.Holds (v.step i).2.used ∧ core'.Shows (v.step i).2 := by
  obtain ⟨core', hrun, hshows⟩ := executeCommand_shows core v i hholds h hok
  obtain ⟨out, core'', hrun', -, hholds'⟩ := executeCommand_fits core v.used i hholds hok.1
  obtain ⟨-, rfl⟩ := Prod.ext_iff.1 (Except.ok.inj (hrun.symm.trans hrun'))
  refine ⟨core', hrun, hholds', hshows.mem, hshows.instructions, hshows.data, ?_⟩
  have huse := hshows.agree.use i
  rw [Views.used_call] at huse
  exact huse

theorem shows_flushed (mem : Memory size) (l1i l1d : L1Cache) (l2 : L2Cache) :
    Core.Shows ⟨mem, flushed l1i, flushed l1d, flushed l2⟩ ⟨mem, mem, ⟨[], []⟩⟩ :=
  ⟨rfl, matches_of_held_none (held_flushed l1i), matches_of_held_none (held_flushed l1d),
    fun _ _ => rfl⟩

end KabyLake
