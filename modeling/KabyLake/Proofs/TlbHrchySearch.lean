import KabyLake.TlbHrchy
import KabyLake.Proofs.Walk

/-!
# What a search of the two-level TLB does

`tlbSearch_eq` gives the outcome of `tlb_search` in its three cases: the first level answers, the
second level's line `p % 16` answers, or the page is walked and stored in line `p % 64` of the
second level and line `p % 16` of a first-level table. The two lines of the second level differ
exactly when bits 4 and 5 of the page number are not both zero.
-/

namespace KabyLake.TlbHrchy

variable {n t size : ℕ}

/-- A valid entry whose tag is the page number without its low bits. -/
def Answers (bits : ℕ) (e : Entry t) (p : ℕ) : Prop := e.v = true ∧ e.tag.toNat = p / 2 ^ bits

instance (bits : ℕ) (e : Entry t) (p : ℕ) : Decidable (Answers bits e p) :=
  inferInstanceAs (Decidable (_ ∧ _))

def entryFor (t bits p : ℕ) (frame : BitVec 20) : Entry t :=
  ⟨BitVec.ofNat t (p / 2 ^ bits), frame, true⟩

theorem answers_entryFor {bits p : ℕ} (h : p / 2 ^ bits < 2 ^ t) (q : ℕ) (frame : BitVec 20) :
    Answers bits (entryFor t bits p frame) q ↔ p / 2 ^ bits = q / 2 ^ bits := by
  simp only [Answers, entryFor, BitVec.toNat_ofNat, Nat.mod_eq_of_lt h, true_and]

def line16 (p : ℕ) : Fin 16 := ⟨p % 16, Nat.mod_lt _ (by omega)⟩

/-- The second-level line a search probes. -/
def probed (p : ℕ) : Fin 64 := ⟨p % 16, by omega⟩

/-- The second-level line a page is stored at. -/
def stored (p : ℕ) : Fin 64 := ⟨p % 64, Nat.mod_lt _ (by omega)⟩

theorem stored_inj {p q : ℕ} : stored p = stored q ↔ p % 64 = q % 64 := by
  simp [stored, Fin.ext_iff]

namespace Tlbs

/-- The first-level table an access goes to. -/
def l1 (s : Tlbs) : MemAccess → Table 16 32
  | .instruction => s.l1ITlb
  | _ => s.l1DTlb

def L1Hit (s : Tlbs) (access : MemAccess) (p : ℕ) : Prop := Answers 4 (s.l1 access (line16 p)) p

def L2Hit (s : Tlbs) (p : ℕ) : Prop := Answers 6 (s.l2Tlb (probed p)) p

instance (s : Tlbs) (access : MemAccess) (p : ℕ) : Decidable (s.L1Hit access p) :=
  inferInstanceAs (Decidable (Answers _ _ _))

instance (s : Tlbs) (p : ℕ) : Decidable (s.L2Hit p) :=
  inferInstanceAs (Decidable (Answers _ _ _))

def promote (s : Tlbs) (access : MemAccess) (p : ℕ) (frame : BitVec 20) : Tlbs :=
  match access with
  | .instruction =>
    { s with l1ITlb := Function.update s.l1ITlb (line16 p) (entryFor 32 4 p frame) }
  | _ => { s with l1DTlb := Function.update s.l1DTlb (line16 p) (entryFor 32 4 p frame) }

/-- The low 32 bits of the page in line `p % 16` of a first-level table are those of the page the
second level's line of `p` holds. -/
def Stale (s : Tlbs) (l1Tlb : Table 16 32) (p : ℕ) : Prop :=
  (l1Tlb (line16 p)).v = true
    ∧ ((l1Tlb (line16 p)).tag.toNat * 16 + p % 16) % 2 ^ 32
      = ((s.l2Tlb (stored p)).tag.toNat * 64 + p % 64) % 2 ^ 32

instance (s : Tlbs) (l1Tlb : Table 16 32) (p : ℕ) : Decidable (s.Stale l1Tlb p) :=
  inferInstanceAs (Decidable (_ ∧ _))

def drop (s : Tlbs) (l1Tlb : Table 16 32) (p : ℕ) : Table 16 32 :=
  if s.Stale l1Tlb p then
    Function.update l1Tlb (line16 p) { l1Tlb (line16 p) with v := false }
  else l1Tlb

/-- The other first-level table's line of `p` dropped if stale. -/
def dropOther (s : Tlbs) (access : MemAccess) (p : ℕ) : Tlbs :=
  match access with
  | .instruction => { s with l1DTlb := s.drop s.l1DTlb p }
  | _ => { s with l1ITlb := s.drop s.l1ITlb p }

def store (s : Tlbs) (p : ℕ) (frame : BitVec 20) : Tlbs :=
  { s with l2Tlb := Function.update s.l2Tlb (stored p) (entryFor 30 6 p frame) }

/-- The tables after a walk found the frame of a page. -/
def fill (s : Tlbs) (access : MemAccess) (p : ℕ) (frame : BitVec 20) : Tlbs :=
  ((s.dropOther access p).store p frame).promote access p frame

end Tlbs

theorem toNat_low4 (page : BitVec 64) : ((page &&& 15).setWidth 32).toNat = page.toNat % 16 := by
  rw [BitVec.toNat_setWidth, Bits.toNat_and_mask (k := 4) rfl]
  omega

theorem toNat_low6 (page : BitVec 64) : ((page &&& 63).setWidth 32).toNat = page.toNat % 64 := by
  rw [BitVec.toNat_setWidth, Bits.toNat_and_mask (k := 6) rfl]
  omega

theorem toNat_index16 (vaddr : VirtAddr) :
    ((virtAddrToVirtualPageNumber vaddr &&& 15).setWidth 32).toNat = vaddr.vpn % 16 := by
  rw [toNat_low4, virtAddrToVirtualPageNumber_toNat]

theorem toNat_index64 (vaddr : VirtAddr) :
    ((virtAddrToVirtualPageNumber vaddr &&& 63).setWidth 32).toNat = vaddr.vpn % 64 := by
  rw [toNat_low6, virtAddrToVirtualPageNumber_toNat]

/-- The tag of a page with at least four low bits dropped is not truncated. -/
theorem toNat_tag (vaddr : VirtAddr) {bits : ℕ} (h : 4 ≤ bits) :
    ((virtAddrToVirtualPageNumber vaddr >>> bits).setWidth 32).toNat = vaddr.vpn / 2 ^ bits := by
  have hlt := vaddr.vpn_lt
  have hle : vaddr.vpn / 2 ^ bits ≤ vaddr.vpn / 2 ^ 4 :=
    Nat.div_le_div_left (Nat.pow_le_pow_right (by omega) h) (by norm_num)
  rw [BitVec.toNat_setWidth, BitVec.toNat_ushiftRight, Nat.shiftRight_eq_div_pow,
    virtAddrToVirtualPageNumber_toNat]
  exact Nat.mod_eq_of_lt (by omega)

theorem hit_eq (vaddr : VirtAddr) (paddr : PhyAddr) (tlb : Table n t) {bits : ℕ} (hb : 4 ≤ bits)
    (hn : 16 ≤ n) (ht : t ≤ 32) :
    hit bits tlb (virtAddrToVirtualPageNumber vaddr) (vaddr.pageOffset.setWidth 32) paddr
      = .ok (if Answers bits (tlb ⟨vaddr.vpn % 16, by omega⟩) vaddr.vpn
          then (true, ⟨(tlb ⟨vaddr.vpn % 16, by omega⟩).phyPageNum, vaddr.pageOffset⟩)
          else (false, paddr)) := by
  set e := tlb ⟨vaddr.vpn % 16, by omega⟩ with he
  have hline : line tlb (vaddr.vpn % 16) = .ok e := by
    rw [line, dif_pos (by omega)]
  have htag : (virtAddrToVirtualPageNumber vaddr >>> bits).setWidth 32 = e.tag.setWidth 32
      ↔ e.tag.toNat = vaddr.vpn / 2 ^ bits := by
    have hlt : e.tag.toNat < 2 ^ 32 :=
      lt_of_lt_of_le e.tag.isLt (Nat.pow_le_pow_right (by omega) ht)
    rw [← BitVec.toNat_inj, toNat_tag vaddr hb, BitVec.toNat_setWidth, Nat.mod_eq_of_lt hlt]
    exact eq_comm
  have hoff : (vaddr.pageOffset.setWidth 32).setWidth 12 = vaddr.pageOffset := by
    rw [BitVec.setWidth_setWidth_of_le _ (by omega), BitVec.setWidth_eq]
  have hcond : ((virtAddrToVirtualPageNumber vaddr >>> bits).setWidth 32 = e.tag.setWidth 32
      ∧ e.v = true) ↔ Answers bits e vaddr.vpn := by
    rw [htag]
    exact and_comm
  simp only [hit, toNat_index16, hline, Exec.ok_bind, hcond, hoff]
  by_cases h : Answers bits e vaddr.vpn
  · rw [if_pos h, if_pos h]
    rfl
  · rw [if_neg h, if_neg h]
    rfl

theorem tlbInsert_eq (tlbType : TlbT) {tlb : Table n t} {i : BitVec 32} {j : Fin n} {e : Entry t}
    (hj : i.toNat = j.val) (hn : n = tlbType.lines) :
    tlbInsert i e tlb tlbType = .ok (.errNone, Function.update tlb j e) := by
  have hlt : i.toNat < tlbType.lines := by
    rw [hj, ← hn]
    exact j.isLt
  have hset : setLine tlb i.toNat e = .ok (Function.update tlb j e) := by
    simp [setLine, hj]
  rw [tlbInsert, if_pos hlt, hset]
  rfl

theorem insertL1_eq (s : Tlbs) (vaddr : VirtAddr) (paddr : PhyAddr) {access : MemAccess}
    (ha : access ≠ .invalid) :
    insertL1 s (virtAddrToVirtualPageNumber vaddr) paddr access
      = .ok (.errNone, s.promote access vaddr.vpn paddr.phyPageNum) := by
  have hidx : ((virtAddrToVirtualPageNumber vaddr &&& 15).setWidth 32).toNat
      = (line16 vaddr.vpn).val := toNat_index16 vaddr
  have htag : (virtAddrToVirtualPageNumber vaddr >>> 4).setWidth 32
      = BitVec.ofNat 32 (vaddr.vpn / 2 ^ 4) := by
    apply BitVec.eq_of_toNat_eq
    rw [toNat_tag vaddr le_rfl, BitVec.toNat_ofNat, Nat.mod_eq_of_lt]
    have := vaddr.vpn_lt
    omega
  cases access with
  | instruction => simp only [insertL1, tlbInsert_eq .l1ITlb hidx rfl, htag]; rfl
  | data => simp only [insertL1, tlbInsert_eq .l1DTlb hidx rfl, htag]; rfl
  | invalid => exact absurd rfl ha

theorem invalidateIn_eq (s : Tlbs) (l1Tlb : Table 16 32) (page : BitVec 64) :
    invalidateIn l1Tlb page
        (((s.l2Tlb (stored page.toNat)).tag.setWidth 32 <<< 6) ||| (page &&& 63).setWidth 32)
      = .ok (s.drop l1Tlb page.toNat) := by
  have hidx := toNat_low4 page
  have hidx2 := toNat_low6 page
  set i := (page &&& 15).setWidth 32 with hi
  set j := (page &&& 63).setWidth 32 with hj
  set e := l1Tlb (line16 page.toNat) with he
  set u := (s.l2Tlb (stored page.toNat)).tag with hu
  have hline : line l1Tlb i.toNat = .ok e := by
    rw [line, dif_pos (by omega)]
    simp only [hidx]
    rfl
  have hset : ∀ x, setLine l1Tlb i.toNat x
      = .ok (Function.update l1Tlb (line16 page.toNat) x) := by
    intro x
    rw [setLine, dif_pos (by omega)]
    simp only [hidx]
    rfl
  have hcmp : (e.tag <<< 4) ||| i = ((u.setWidth 32 <<< 6) ||| j)
      ↔ (e.tag.toNat * 16 + page.toNat % 16) % 2 ^ 32
        = (u.toNat * 64 + page.toNat % 64) % 2 ^ 32 := by
    have hut : (u.setWidth 32).toNat = u.toNat := by
      have := u.isLt
      rw [BitVec.toNat_setWidth]
      omega
    rw [← BitVec.toNat_inj, Bits.toNat_shiftLeft_or (by omega) (by omega),
      Bits.toNat_shiftLeft_or (by omega) (by omega), hut, hidx, hidx2]
    norm_num
  simp only [invalidateIn, ← hi, hline, hset, Exec.ok_bind, hcmp, Tlbs.drop, Tlbs.Stale, ← he, ← hu]
  split_ifs <;> rfl

theorem invalidation_eq (s : Tlbs) (page : BitVec 64) {access : MemAccess}
    (ha : access ≠ .invalid) :
    invalidation s page access = .ok (.errNone, s.dropOther access page.toNat) := by
  have hline : line s.l2Tlb ((page &&& 63).setWidth 32).toNat
      = .ok (s.l2Tlb (stored page.toNat)) := by
    rw [toNat_low6, line, dif_pos (by omega)]
    rfl
  simp only [invalidation, hline, Exec.ok_bind, invalidateIn_eq]
  cases access with
  | instruction => rfl
  | data => rfl
  | invalid => exact absurd rfl ha

theorem searchL1_eq (vaddr : VirtAddr) (paddr : PhyAddr) {access : MemAccess}
    (ha : access ≠ .invalid) (s : Tlbs) :
    searchL1 vaddr paddr access s = .ok (some (if s.L1Hit access vaddr.vpn
      then (true, ⟨(s.l1 access (line16 vaddr.vpn)).phyPageNum, vaddr.pageOffset⟩)
      else (false, paddr))) := by
  cases access with
  | instruction =>
    simp only [searchL1, tlbHit, hit_eq vaddr paddr s.l1ITlb le_rfl le_rfl le_rfl]
    rfl
  | data =>
    simp only [searchL1, tlbHit, hit_eq vaddr paddr s.l1DTlb le_rfl le_rfl le_rfl]
    rfl
  | invalid => exact absurd rfl ha

/-- What `tlb_search` does. -/
theorem tlbSearch_eq (memSpace : Memory size) (vaddr : VirtAddr) (paddr : PhyAddr)
    {access : MemAccess} (ha : access ≠ .invalid) (s : Tlbs) :
    tlbSearch memSpace vaddr paddr access s =
      if s.L1Hit access vaddr.vpn then
        .ok (⟨.errNone, ⟨(s.l1 access (line16 vaddr.vpn)).phyPageNum, vaddr.pageOffset⟩,
          some true⟩, s)
      else if s.L2Hit vaddr.vpn then
        .ok (⟨.errNone, ⟨(s.l2Tlb (probed vaddr.vpn)).phyPageNum, vaddr.pageOffset⟩, some true⟩,
          s.promote access vaddr.vpn (s.l2Tlb (probed vaddr.vpn)).phyPageNum)
      else (walkFrame memSpace vaddr).map fun
        | none => (⟨.errBadParameter, paddr, some false⟩, s)
        | some frame => (⟨.errNone, ⟨frame, vaddr.pageOffset⟩, some false⟩,
          s.fill access vaddr.vpn frame) := by
  have hfirst := searchL1_eq vaddr paddr ha s
  have hsecond : tlbHit vaddr paddr s.l2Tlb .l2Tlb
      = .ok (if s.L2Hit vaddr.vpn
          then (true, ⟨(s.l2Tlb (probed vaddr.vpn)).phyPageNum, vaddr.pageOffset⟩)
          else (false, paddr)) := by
    simp only [tlbHit, hit_eq vaddr paddr s.l2Tlb (by norm_num : 4 ≤ 6) (by norm_num)
      (by norm_num)]
    rfl
  have htag : ((virtAddrToVirtualPageNumber vaddr >>> 6).setWidth 32).setWidth 30
      = BitVec.ofNat 30 (vaddr.vpn / 2 ^ 6) := by
    apply BitVec.eq_of_toNat_eq
    rw [BitVec.toNat_setWidth, toNat_tag vaddr (by norm_num), BitVec.toNat_ofNat]
  have hidx : ((virtAddrToVirtualPageNumber vaddr &&& 63).setWidth 32).toNat
      = (stored vaddr.vpn).val := toNat_index64 vaddr
  unfold tlbSearch
  rw [hfirst]
  by_cases h1 : s.L1Hit access vaddr.vpn
  · simp only [h1, if_true, Exec.ok_bind, Exec.pure_eq]
  simp only [h1, if_false, Exec.ok_bind, hsecond]
  by_cases h2 : s.L2Hit vaddr.vpn
  · simp only [h2, if_true, Exec.ok_bind, insertL1_eq s vaddr _ ha, Exec.pure_eq]
  simp only [h2, if_false, pageWalk_eq]
  rcases walkFrame memSpace vaddr with e | _ | frame
  · rfl
  · rfl
  · simp only [Except.map, Exec.ok_bind, ne_eq, not_true_eq_false, if_false,
      invalidation_eq s _ ha, virtAddrToVirtualPageNumber_toNat, tlbInsert_eq .l2Tlb hidx rfl, htag,
      insertL1_eq _ vaddr _ ha, Bool.false_eq_true, Exec.pure_eq]
    rfl

/-- What a search that returns has found at each level, what it returns and the tables it leaves. -/
inductive Searched (memSpace : Memory size) (vaddr : VirtAddr) (paddr : PhyAddr)
    (access : MemAccess) (s : Tlbs) : Search → Tlbs → Prop
  | first : s.L1Hit access vaddr.vpn → Searched memSpace vaddr paddr access s
    ⟨.errNone, ⟨(s.l1 access (line16 vaddr.vpn)).phyPageNum, vaddr.pageOffset⟩, some true⟩ s
  | second : ¬ s.L1Hit access vaddr.vpn → s.L2Hit vaddr.vpn →
    Searched memSpace vaddr paddr access s
      ⟨.errNone, ⟨(s.l2Tlb (probed vaddr.vpn)).phyPageNum, vaddr.pageOffset⟩, some true⟩
      (s.promote access vaddr.vpn (s.l2Tlb (probed vaddr.vpn)).phyPageNum)
  | failed : ¬ s.L1Hit access vaddr.vpn → ¬ s.L2Hit vaddr.vpn →
    walkFrame memSpace vaddr = .ok none →
    Searched memSpace vaddr paddr access s ⟨.errBadParameter, paddr, some false⟩ s
  | filled {frame} : ¬ s.L1Hit access vaddr.vpn → ¬ s.L2Hit vaddr.vpn →
    walkFrame memSpace vaddr = .ok (some frame) → Searched memSpace vaddr paddr access s
      ⟨.errNone, ⟨frame, vaddr.pageOffset⟩, some false⟩ (s.fill access vaddr.vpn frame)

variable {memSpace : Memory size} {vaddr : VirtAddr} {paddr : PhyAddr} {access : MemAccess}
  {s s' : Tlbs} {r : Search}

theorem searched (ha : access ≠ .invalid)
    (h : tlbSearch memSpace vaddr paddr access s = .ok (r, s')) :
    Searched memSpace vaddr paddr access s r s' := by
  rw [tlbSearch_eq memSpace vaddr paddr ha] at h
  split_ifs at h with h1 h2
  · cases h
    exact .first h1
  · cases h
    exact .second h1 h2
  · rcases hw : walkFrame memSpace vaddr with e | _ | frame <;> rw [hw] at h <;> cases h
    · exact .failed h1 h2 hw
    · exact .filled h1 h2 hw

theorem Searched.eq_ok (ha : access ≠ .invalid) (h : Searched memSpace vaddr paddr access s r s') :
    tlbSearch memSpace vaddr paddr access s = .ok (r, s') := by
  rw [tlbSearch_eq memSpace vaddr paddr ha]
  cases h with
  | first h1 => rw [if_pos h1]
  | second h1 h2 => rw [if_neg h1, if_pos h2]
  | failed h1 h2 hw =>
    rw [if_neg h1, if_neg h2, hw]
    rfl
  | filled h1 h2 hw =>
    rw [if_neg h1, if_neg h2, hw]
    rfl

end KabyLake.TlbHrchy
