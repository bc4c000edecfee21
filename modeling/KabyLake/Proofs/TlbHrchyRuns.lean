import KabyLake.Library.Run
import KabyLake.Proofs.TlbHrchySearch

/-!
# Runs of the two-level TLB

A search probes line `p % 16` of the second level, which was stored for the page `p` with bits 4
and 5 cleared (`VirtAddr.alias`). A run is transparent exactly when a search answered there walks
to the same frame as its alias, and the second level includes the first exactly when such a search
finds its own page with the same frame at line `p % 64`.
-/

namespace KabyLake

/-- The address whose page number has bits 4 and 5 cleared. -/
def VirtAddr.alias (vaddr : VirtAddr) : VirtAddr :=
  { vaddr with pteEntry := vaddr.pteEntry &&& 0b111001111 }

theorem and_clear_bits (x : BitVec 9) :
    (x &&& 0b111001111).toNat = x.toNat / 64 * 64 + x.toNat % 16 := by
  revert x
  decide

theorem VirtAddr.vpn_alias (vaddr : VirtAddr) :
    vaddr.alias.vpn = vaddr.vpn / 64 * 64 + vaddr.vpn % 16 := by
  simp only [VirtAddr.vpn, VirtAddr.alias, and_clear_bits]
  omega

namespace TlbHrchy

variable {size : ℕ} (memSpace : Memory size)

/-- The arguments of a search whose access is one of the two the enumeration names. -/
structure SearchCall where
  vaddr : VirtAddr
  paddr : PhyAddr
  access : MemAccess
  named : access ≠ .invalid

/-- One search of a run over a fixed memory. -/
def searchStep (s : Tlbs) (c : SearchCall) : Exec (Search × Tlbs) :=
  tlbSearch memSpace c.vaddr c.paddr c.access s

/-- Tables whose every field is 0. -/
def Tlbs.zero : Tlbs := ⟨fun _ => ⟨0, 0, false⟩, fun _ => ⟨0, 0, false⟩, fun _ => ⟨0, 0, false⟩⟩

section Transparency

/-- The search returns `ERR_NONE` with an address exactly when the page walk does. -/
def Transparent (s : Tlbs) (c : SearchCall) : Prop :=
  ∀ pa, (∃ h s', searchStep memSpace s c = .ok (⟨.errNone, pa, h⟩, s'))
    ↔ pageWalk memSpace c.vaddr c.paddr = .ok (.errNone, pa)

/-- If the second level answers the search, the page and its alias walk alike. -/
def AliasWalksAlike (s : Tlbs) (c : SearchCall) : Prop :=
  ¬ s.L1Hit c.access c.vaddr.vpn → s.L2Hit c.vaddr.vpn →
    pageWalk memSpace c.vaddr c.paddr = pageWalk memSpace c.vaddr.alias c.paddr

variable {n t : ℕ}

/-- Every valid entry holds the frame of the page its tag and line denote. -/
def Faithful (bits : ℕ) (tlb : Table n t) : Prop :=
  ∀ i, (tlb i).v = true → ∀ v : VirtAddr, v.vpn = (tlb i).tag.toNat * 2 ^ bits + i.val →
    walkFrame memSpace v = .ok (some (tlb i).phyPageNum)

variable {memSpace}

theorem Faithful.update {bits : ℕ} {tlb : Table n t} (h : Faithful memSpace bits tlb)
    {vaddr : VirtAddr} {i : Fin n} {frame : BitVec 20} (hi : vaddr.vpn % 2 ^ bits = i.val)
    (ht : vaddr.vpn / 2 ^ bits < 2 ^ t) (hw : walkFrame memSpace vaddr = .ok (some frame)) :
    Faithful memSpace bits (Function.update tlb i (entryFor t bits vaddr.vpn frame)) := by
  intro j hv v hj
  by_cases hji : j = i
  · subst hji
    simp only [Function.update_self, entryFor, BitVec.toNat_ofNat, Nat.mod_eq_of_lt ht] at hj ⊢
    rw [← hi, Nat.div_add_mod'] at hj
    rw [walkFrame_congr memSpace hj, hw]
  · rw [Function.update_of_ne hji] at hv hj ⊢
    exact h j hv v hj

theorem Faithful.drop {s : Tlbs} {tlb : Table 16 32} (h : Faithful memSpace 4 tlb) (p : ℕ) :
    Faithful memSpace 4 (s.drop tlb p) := by
  unfold Tlbs.drop
  split_ifs
  · intro j hv v hj
    by_cases hjp : j = line16 p
    · subst hjp
      simp at hv
    · rw [Function.update_of_ne hjp] at hv hj ⊢
      exact h j hv v hj
  · exact h

variable (memSpace)

structure Tlbs.Faithful (s : Tlbs) : Prop where
  itlb : TlbHrchy.Faithful memSpace 4 s.l1ITlb
  dtlb : TlbHrchy.Faithful memSpace 4 s.l1DTlb
  l2 : TlbHrchy.Faithful memSpace 6 s.l2Tlb

variable {memSpace}

theorem Tlbs.Faithful.l1 {s : Tlbs} (h : s.Faithful memSpace) (access : MemAccess) :
    TlbHrchy.Faithful memSpace 4 (s.l1 access) := by
  cases access
  exacts [h.itlb, h.dtlb, h.dtlb]

theorem Tlbs.Faithful.promote {s : Tlbs} (h : s.Faithful memSpace) (access : MemAccess)
    {vaddr : VirtAddr} {frame : BitVec 20} (hw : walkFrame memSpace vaddr = .ok (some frame)) :
    (s.promote access vaddr.vpn frame).Faithful memSpace := by
  have hlt := vaddr.vpn_lt
  have hup : ∀ tlb : Table 16 32, TlbHrchy.Faithful memSpace 4 tlb → TlbHrchy.Faithful memSpace 4
      (Function.update tlb (line16 vaddr.vpn) (entryFor 32 4 vaddr.vpn frame)) :=
    fun tlb ht => ht.update rfl (by omega) hw
  cases access
  exacts [⟨hup _ h.itlb, h.dtlb, h.l2⟩, ⟨h.itlb, hup _ h.dtlb, h.l2⟩, ⟨h.itlb, hup _ h.dtlb, h.l2⟩]

theorem Tlbs.Faithful.fill {s : Tlbs} (h : s.Faithful memSpace) (access : MemAccess)
    {vaddr : VirtAddr} {frame : BitVec 20} (hw : walkFrame memSpace vaddr = .ok (some frame)) :
    (s.fill access vaddr.vpn frame).Faithful memSpace := by
  have hlt := vaddr.vpn_lt
  refine Tlbs.Faithful.promote ?_ access hw
  have hl2 := h.l2.update (i := stored vaddr.vpn) rfl (by omega) hw
  cases access
  exacts [⟨h.itlb, h.dtlb.drop _, hl2⟩, ⟨h.itlb.drop _, h.dtlb, hl2⟩, ⟨h.itlb.drop _, h.dtlb, hl2⟩]

/-- What the first level answers is what the walk finds. -/
theorem Tlbs.Faithful.walk_of_l1Hit {s : Tlbs} (h : s.Faithful memSpace) {access : MemAccess}
    {vaddr : VirtAddr} (hhit : s.L1Hit access vaddr.vpn) :
    walkFrame memSpace vaddr
      = .ok (some (s.l1 access (line16 vaddr.vpn)).phyPageNum) := by
  refine h.l1 access _ hhit.1 vaddr ?_
  rw [hhit.2]
  exact (Nat.div_add_mod' vaddr.vpn (2 ^ 4)).symm

/-- What the second level answers is what the walk of the alias finds. -/
theorem Tlbs.Faithful.walk_of_l2Hit {s : Tlbs} (h : s.Faithful memSpace) {vaddr : VirtAddr}
    (hhit : s.L2Hit vaddr.vpn) :
    walkFrame memSpace vaddr.alias = .ok (some (s.l2Tlb (probed vaddr.vpn)).phyPageNum) := by
  refine h.l2 _ hhit.1 vaddr.alias ?_
  rw [hhit.2, VirtAddr.vpn_alias]
  rfl

theorem pageWalk_of_frame {vaddr : VirtAddr} {frame : BitVec 20}
    (h : walkFrame memSpace vaddr = .ok (some frame)) (paddr : PhyAddr) :
    pageWalk memSpace vaddr paddr = .ok (.errNone, ⟨frame, vaddr.pageOffset⟩) := by
  rw [pageWalk_eq, h]
  rfl

/-- A search that is answered without a walk returns what the walk is known to find. -/
theorem answered_iff {pa pa' : PhyAddr} {s : Tlbs} :
    (∃ h s', (.ok (⟨.errNone, pa', some true⟩, s) : Exec (Search × Tlbs))
        = .ok (⟨.errNone, pa, h⟩, s'))
      ↔ (.ok (.errNone, pa') : Exec (ErrorCode × PhyAddr)) = .ok (.errNone, pa) := by
  constructor
  · rintro ⟨_, _, heq⟩
    cases heq
    rfl
  · intro heq
    cases heq
    exact ⟨_, _, rfl⟩

theorem transparent_iff {s : Tlbs} (h : s.Faithful memSpace) (c : SearchCall) :
    Transparent memSpace s c ↔ AliasWalksAlike memSpace s c := by
  unfold Transparent AliasWalksAlike searchStep
  rw [tlbSearch_eq memSpace c.vaddr c.paddr c.named s]
  by_cases h1 : s.L1Hit c.access c.vaddr.vpn
  · rw [if_pos h1, pageWalk_of_frame (h.walk_of_l1Hit h1)]
    exact ⟨fun _ hn => absurd h1 hn, fun _ _ => answered_iff⟩
  · rw [if_neg h1]
    by_cases h2 : s.L2Hit c.vaddr.vpn
    · rw [if_pos h2, pageWalk_of_frame (h.walk_of_l2Hit h2)]
      constructor
      · intro hT _ _
        exact (hT _).1 ⟨_, _, rfl⟩
      · intro hA pa
        rw [hA h1 h2]
        exact answered_iff
    · rw [if_neg h2, pageWalk_eq]
      refine ⟨fun _ _ hn => absurd hn h2, fun _ pa => ?_⟩
      rcases walkFrame memSpace c.vaddr with e | _ | frame
      · simp [Except.map]
      · simp [Except.map]
      · simp only [Except.map, Except.ok.injEq, Prod.mk.injEq, Search.mk.injEq, true_and]
        constructor
        · rintro ⟨_, _, ⟨rfl, -⟩, -⟩
          rfl
        · rintro rfl
          exact ⟨_, _, ⟨rfl, rfl⟩, rfl⟩

theorem faithful_step {s s' : Tlbs} {c : SearchCall} {r : Search} (h : s.Faithful memSpace)
    (hA : AliasWalksAlike memSpace s c) (hs : searchStep memSpace s c = .ok (r, s')) :
    s'.Faithful memSpace := by
  cases searched c.named hs with
  | first => exact h
  | second h1 h2 =>
    have hw := hA h1 h2
    rw [pageWalk_of_frame (h.walk_of_l2Hit h2), pageWalk_errNone_iff] at hw
    exact h.promote c.access hw.1
  | failed => exact h
  | filled _ _ hw => exact h.fill c.access hw

theorem faithful_zero : Tlbs.zero.Faithful memSpace :=
  ⟨fun _ hv => by simp [Tlbs.zero] at hv, fun _ hv => by simp [Tlbs.zero] at hv,
    fun _ hv => by simp [Tlbs.zero] at hv⟩

variable (memSpace)

/-- A run from empty tables is transparent exactly when every page the second level answers walks
like its alias. -/
theorem tlbSearch_transparent_iff (calls : List SearchCall) :
    Run.Along (searchStep memSpace) (Transparent memSpace) Tlbs.zero calls
      ↔ Run.Along (searchStep memSpace) (AliasWalksAlike memSpace) Tlbs.zero calls :=
  Run.along_iff_of_inv (fun _ c h => transparent_iff h c)
    (fun _ _ _ _ h hA hs => faithful_step h hA hs) calls faithful_zero

/-- An image whose tables are all page 0; page 0 lies in frame 0 and page 16 in frame 1. -/
def aliasImage : Memory 4096 := fun i => if i.val = 65 then 0x10 else 0

/-- A data search of a page below 512. -/
def dataSearch (page : BitVec 9) : SearchCall := ⟨⟨0, 0, 0, 0, page, 0⟩, ⟨0, 0⟩, .data, by decide⟩

/-- After a search of page 0, page 16 is answered with frame 0. -/
theorem tlbSearch_not_transparent :
    ¬ Run.Along (searchStep aliasImage) (Transparent aliasImage) Tlbs.zero
      [dataSearch 0, dataSearch 16] := by
  rintro ⟨-, h⟩
  have hwalk := ((h _ _ rfl).1 ⟨0, 0⟩).1 ⟨_, _, rfl⟩
  revert hwalk
  decide

end Transparency

section Inclusion

/-- Each valid entry of a first-level table has its page, with its frame, in the second level. -/
def Covered (tlb : Table 16 32) (l2 : Table 64 30) : Prop :=
  ∀ i, (tlb i).v = true → Answers 6 (l2 (stored ((tlb i).tag.toNat * 16 + i.val)))
      ((tlb i).tag.toNat * 16 + i.val)
    ∧ (l2 (stored ((tlb i).tag.toNat * 16 + i.val))).phyPageNum = (tlb i).phyPageNum

/-- The second level includes both first-level tables. -/
def Inclusive (s : Tlbs) : Prop := Covered s.l1ITlb s.l2Tlb ∧ Covered s.l1DTlb s.l2Tlb

/-- Every outcome of the search is inclusive. -/
def KeepsInclusion (s : Tlbs) (c : SearchCall) : Prop :=
  ∀ r s', searchStep memSpace s c = .ok (r, s') → Inclusive s'

/-- If the second level answers the search, its line for the page holds the page with the frame it
answers. -/
def AnswersOwnPage (s : Tlbs) (c : SearchCall) : Prop :=
  ¬ s.L1Hit c.access c.vaddr.vpn → s.L2Hit c.vaddr.vpn →
    Answers 6 (s.l2Tlb (stored c.vaddr.vpn)) c.vaddr.vpn
      ∧ (s.l2Tlb (stored c.vaddr.vpn)).phyPageNum = (s.l2Tlb (probed c.vaddr.vpn)).phyPageNum

theorem entryFor_page {p : ℕ} (hp : p < 2 ^ 36) (frame : BitVec 20) :
    (entryFor 32 4 p frame).tag.toNat * 16 + (line16 p).val = p := by
  simp only [entryFor, line16, BitVec.toNat_ofNat]
  omega

theorem covered_update_iff {tlb : Table 16 32} {l2 : Table 64 30} (h : Covered tlb l2) {p : ℕ}
    (hp : p < 2 ^ 36) (frame : BitVec 20) :
    Covered (Function.update tlb (line16 p) (entryFor 32 4 p frame)) l2
      ↔ Answers 6 (l2 (stored p)) p ∧ (l2 (stored p)).phyPageNum = frame := by
  constructor
  · intro hc
    have := hc (line16 p) (by rw [Function.update_self]; rfl)
    rwa [Function.update_self, entryFor_page hp] at this
  · intro hp' i hv
    by_cases hi : i = line16 p
    · subst hi
      rw [Function.update_self, entryFor_page hp]
      exact hp'
    · rw [Function.update_of_ne hi] at hv ⊢
      exact h i hv

/-- Storing a page keeps the pages of other lines covered. -/
theorem answers_of_store {l2 : Table 64 30} {p q : ℕ} {e : Entry 30} (hne : stored q ≠ stored p)
    {frame : BitVec 20}
    (h : Answers 6 (l2 (stored q)) q ∧ (l2 (stored q)).phyPageNum = frame) :
    Answers 6 (Function.update l2 (stored p) e (stored q)) q
      ∧ (Function.update l2 (stored p) e (stored q)).phyPageNum = frame := by
  rwa [Function.update_of_ne hne]

theorem stored_ne {i : Fin 16} {p : ℕ} (hi : i ≠ line16 p) (tag : ℕ) :
    stored (tag * 16 + i.val) ≠ stored p := by
  intro hst
  rw [stored_inj] at hst
  have hlt := i.isLt
  refine hi (Fin.ext ?_)
  show i.val = p % 16
  omega

theorem covered_fill {tlb : Table 16 32} {l2 : Table 64 30} (h : Covered tlb l2) {p : ℕ}
    (hp : p < 2 ^ 36) (frame : BitVec 20) :
    Covered (Function.update tlb (line16 p) (entryFor 32 4 p frame))
      (Function.update l2 (stored p) (entryFor 30 6 p frame)) := by
  intro i hv
  by_cases hi : i = line16 p
  · subst hi
    rw [Function.update_self, entryFor_page hp, Function.update_self,
      answers_entryFor (by omega)]
    exact ⟨rfl, rfl⟩
  · rw [Function.update_of_ne hi] at hv ⊢
    exact answers_of_store (stored_ne hi _) (h i hv)

/-- The entry that storing a page would leave uncovered is the stale one, which is dropped. -/
theorem covered_drop {s : Tlbs} {tlb : Table 16 32} (h : Covered tlb s.l2Tlb) {p : ℕ}
    (e : Entry 30) : Covered (s.drop tlb p) (Function.update s.l2Tlb (stored p) e) := by
  have hother : ∀ i, i ≠ line16 p → (tlb i).v = true →
      Answers 6 (Function.update s.l2Tlb (stored p) e (stored ((tlb i).tag.toNat * 16 + i.val)))
        ((tlb i).tag.toNat * 16 + i.val)
      ∧ (Function.update s.l2Tlb (stored p) e
          (stored ((tlb i).tag.toNat * 16 + i.val))).phyPageNum = (tlb i).phyPageNum :=
    fun i hi hv => answers_of_store (stored_ne hi _) (h i hv)
  intro i hv
  unfold Tlbs.drop at hv ⊢
  split_ifs at hv ⊢ with hstale
  · by_cases hi : i = line16 p
    · subst hi
      simp at hv
    · rw [Function.update_of_ne hi] at hv ⊢
      exact hother i hi hv
  · by_cases hi : i = line16 p
    · subst hi
      refine answers_of_store (fun hst => hstale ⟨hv, ?_⟩) (h _ hv)
      have hans := (h _ hv).1.2
      rw [hst] at hans
      rw [stored_inj] at hst
      rw [hans]
      simp only [line16] at hst ⊢
      congr 1
      omega
    · exact hother i hi hv

theorem keepsInclusion_iff {s : Tlbs} (h : Inclusive s) (c : SearchCall) :
    KeepsInclusion memSpace s c ↔ AnswersOwnPage s c := by
  have hp := c.vaddr.vpn_lt
  unfold KeepsInclusion AnswersOwnPage searchStep
  rw [tlbSearch_eq memSpace c.vaddr c.paddr c.named s]
  by_cases h1 : s.L1Hit c.access c.vaddr.vpn
  · rw [if_pos h1]
    refine ⟨fun _ hn => absurd h1 hn, fun _ r s' hs => ?_⟩
    cases hs
    exact h
  rw [if_neg h1]
  by_cases h2 : s.L2Hit c.vaddr.vpn
  · rw [if_pos h2]
    have hpro : Inclusive (s.promote c.access c.vaddr.vpn (s.l2Tlb (probed c.vaddr.vpn)).phyPageNum)
        ↔ Answers 6 (s.l2Tlb (stored c.vaddr.vpn)) c.vaddr.vpn
          ∧ (s.l2Tlb (stored c.vaddr.vpn)).phyPageNum
            = (s.l2Tlb (probed c.vaddr.vpn)).phyPageNum := by
      cases c.access
      · exact (and_iff_left h.2).trans (covered_update_iff h.1 hp _)
      · exact (and_iff_right h.1).trans (covered_update_iff h.2 hp _)
      · exact (and_iff_right h.1).trans (covered_update_iff h.2 hp _)
    rw [← hpro]
    constructor
    · exact fun hk _ _ => hk _ _ rfl
    · intro hinc r s' hs
      cases hs
      exact hinc h1 h2
  · rw [if_neg h2]
    refine ⟨fun _ _ hn => absurd hn h2, fun _ r s' hs => ?_⟩
    rcases hw : walkFrame memSpace c.vaddr with e | _ | frame <;> rw [hw] at hs <;> cases hs
    · exact h
    · unfold Tlbs.fill
      cases c.access
      exacts [⟨covered_fill h.1 hp _, covered_drop h.2 _⟩,
        ⟨covered_drop h.1 _, covered_fill h.2 hp _⟩, ⟨covered_drop h.1 _, covered_fill h.2 hp _⟩]

theorem inclusive_step {s s' : Tlbs} {c : SearchCall} {r : Search} (h : Inclusive s)
    (hA : AnswersOwnPage s c) (hs : searchStep memSpace s c = .ok (r, s')) : Inclusive s' :=
  (keepsInclusion_iff memSpace h c).2 hA r s' hs

theorem inclusive_zero : Inclusive Tlbs.zero :=
  ⟨fun _ hv => by simp [Tlbs.zero] at hv, fun _ hv => by simp [Tlbs.zero] at hv⟩

/-- Every state of a run from empty tables is inclusive exactly when each page the second level
answers is the one its own line holds. -/
theorem tlbSearch_inclusive_iff (calls : List SearchCall) :
    (Inclusive Tlbs.zero
        ∧ Run.Along (searchStep memSpace) (KeepsInclusion memSpace) Tlbs.zero calls)
      ↔ Run.Along (searchStep memSpace) AnswersOwnPage Tlbs.zero calls :=
  (and_iff_right inclusive_zero).trans
    (Run.along_iff_of_inv (fun _ c h => keepsInclusion_iff memSpace h c)
      (fun _ _ _ _ h hA hs => inclusive_step memSpace h hA hs) calls inclusive_zero)

/-- After searches of pages 0 and 16, page 16 is in the first level and not in the second. -/
theorem tlbSearch_not_inclusive :
    ¬ (Inclusive Tlbs.zero ∧ Run.Along (searchStep aliasImage) (KeepsInclusion aliasImage) Tlbs.zero
      [dataSearch 0, dataSearch 16]) := by
  rintro ⟨-, -, h⟩
  have hinc := (h _ _ rfl).1 _ _ rfl
  have hans := (hinc.2 0 rfl).1.1
  revert hans
  decide

end Inclusion

end TlbHrchy

end KabyLake
