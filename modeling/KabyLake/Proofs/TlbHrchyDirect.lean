import KabyLake.Library.Recency
import KabyLake.Library.Trace
import KabyLake.Proofs.TlbHrchyPairs

/-!
# The two levels as one direct-mapped table

As long as bits 4 and 5 of every page are zero, a search probes the second-level line its page is
stored at, and then the first level never shows: a search hits exactly if the last page found whose
four low bits are the same is its own, whichever access it was found by. `lastStep` knows no table,
only the pages found before. It returns what a search returns (`tlbSearch_last`) from any tables
whose lines below `k` are empty, as long as the pages lie in these lines.
-/

namespace KabyLake.TlbHrchy

open Recency Run

variable {size k : ℕ}

/-- A search, given the pages found before it, the last first. -/
def lastStep (memSpace : Memory size) (used : List ℕ) (c : SearchCall) :
    Exec (Search × List ℕ) := do
  match ← walkFrame memSpace c.vaddr with
  | none => return (⟨.errBadParameter, c.paddr, some false⟩, used)
  | some frame =>
    return (⟨.errNone, ⟨frame, c.vaddr.pageOffset⟩,
      some (decide (LastOfLine (· % 16) used c.vaddr.vpn))⟩, c.vaddr.vpn :: used)

variable {memSpace : Memory size} {s : Tlbs} {used : List ℕ}

/-- No entry of the three tables is valid below line `k`. -/
structure Tlbs.EmptyBelow (s : Tlbs) (k : ℕ) : Prop where
  first : ∀ access (i : Fin 16), i.val < k → (s.l1 access i).v = false
  second : ∀ i : Fin 64, i.val < k → (s.l2Tlb i).v = false

/-- Of the pages in the lines below `k`, the second level answers those last found, and whatever
answers does so with the frame of the page. -/
structure Tlbs.Recalls (memSpace : Memory size) (k : ℕ) (s : Tlbs) (used : List ℕ) : Prop where
  last : ∀ p, p % 64 < k → (s.L2Hit p ↔ LastOfLine (· % 16) used p)
  included : ∀ access p, p % 64 < k → s.L1Hit access p → s.L2Hit p
  frame₂ : ∀ v : VirtAddr, v.vpn % 64 < k → s.L2Hit v.vpn →
    walkFrame memSpace v = .ok (some (s.l2Tlb (probed v.vpn)).phyPageNum)
  frame₁ : ∀ access (v : VirtAddr), v.vpn % 64 < k → s.L1Hit access v.vpn →
    walkFrame memSpace v = .ok (some (s.l1 access (line16 v.vpn)).phyPageNum)

theorem Tlbs.EmptyBelow.recalls (h : s.EmptyBelow k) : s.Recalls memSpace k [] := by
  have h1 : ∀ access p, p % 64 < k → ¬ s.L1Hit access p := by
    intro access p hp hhit
    have hv := h.first access (line16 p) (show p % 16 < k by omega)
    rw [hhit.1] at hv
    cases hv
  have h2 : ∀ p, p % 64 < k → ¬ s.L2Hit p := by
    intro p hp hhit
    have hv := h.second (probed p) (show p % 16 < k by omega)
    rw [hhit.1] at hv
    cases hv
  exact ⟨fun p hp => iff_of_false (h2 p hp) (not_lastOfLine_nil _ p),
    fun access p hp hhit => absurd hhit (h1 access p hp),
    fun v hv hhit => absurd hhit (h2 _ hv),
    fun access v hv hhit => absurd hhit (h1 access _ hv)⟩

section Step

variable {s' : Tlbs} {vaddr : VirtAddr} {frame : BitVec 20} {p q : ℕ}

/-- A table line of a page is written with its entry or keeps what it held. -/
theorem l1_promote_or (s : Tlbs) (access access' : MemAccess) (p : ℕ) (frame : BitVec 20) :
    (s.promote access p frame).l1 access' (line16 p) = entryFor 32 4 p frame
      ∨ (s.promote access p frame).l1 access' (line16 p) = s.l1 access' (line16 p) := by
  cases access <;> cases access' <;> simp [Tlbs.promote, Tlbs.l1]

theorem l1_fill_or (s : Tlbs) (access access' : MemAccess) (p : ℕ) (frame : BitVec 20) :
    (s.fill access p frame).l1 access' (line16 p) = entryFor 32 4 p frame
      ∨ (s.fill access p frame).l1 access' (line16 p) = s.drop (s.l1 access') p (line16 p) := by
  cases access <;> cases access' <;>
    simp [Tlbs.fill, Tlbs.promote, Tlbs.store, Tlbs.dropOther, Tlbs.l1]

/-- Of the pages of a line only one is answered by an entry stored for it. -/
theorem eq_of_answers_entryFor {t bits : ℕ} (h : p / 2 ^ bits < 2 ^ t)
    (hline : q % 2 ^ bits = p % 2 ^ bits) (hans : Answers bits (entryFor t bits p frame) q) :
    q = p := by
  rw [answers_entryFor h] at hans
  rw [← Nat.div_add_mod q (2 ^ bits), ← Nat.div_add_mod p (2 ^ bits), hline, hans]

/-- A step that leaves the other lines alone, and after which the lines of a page answer only this
page, with its frame. -/
theorem Tlbs.Recalls.step (h : s.Recalls memSpace k used)
    (hwalk : walkFrame memSpace vaddr = .ok (some frame))
    (hcol : ∀ c, c ≠ line16 vaddr.vpn → s'.column c = s.column c)
    (h2 : ∀ q, q % 64 < k → q % 16 = vaddr.vpn % 16 → (s'.L2Hit q ↔ q = vaddr.vpn))
    (h1 : ∀ access q, q % 64 < k → q % 16 = vaddr.vpn % 16 → s'.L1Hit access q → q = vaddr.vpn)
    (hframe₂ : (s'.l2Tlb (probed vaddr.vpn)).phyPageNum = frame)
    (hframe₁ : ∀ access, s'.L1Hit access vaddr.vpn →
      (s'.l1 access (line16 vaddr.vpn)).phyPageNum = frame) :
    s'.Recalls memSpace k (vaddr.vpn :: used) := by
  have hlines : ∀ q, q % 16 ≠ vaddr.vpn % 16 →
      (∀ access, s'.l1 access (line16 q) = s.l1 access (line16 q))
        ∧ s'.l2Tlb (probed q) = s.l2Tlb (probed q) := by
    intro q hq
    have hne : line16 q ≠ line16 vaddr.vpn := fun heq => hq (congrArg Fin.val heq)
    obtain ⟨hl1, hl2, -⟩ := lines_of_column (hcol _ hne)
    exact ⟨hl1, hl2⟩
  refine ⟨fun q hq => ?_, fun access q hq hhit => ?_, fun v hv hhit => ?_,
    fun access v hv hhit => ?_⟩
  · by_cases hqp : q % 16 = vaddr.vpn % 16
    · rw [h2 q hq hqp, lastOfLine_cons_of_eq hqp.symm]
      exact eq_comm
    · rw [lastOfLine_cons_of_ne (Ne.symm hqp), ← h.last q hq, Tlbs.L2Hit, (hlines q hqp).2,
        Tlbs.L2Hit]
  · by_cases hqp : q % 16 = vaddr.vpn % 16
    · exact (h2 q hq hqp).2 (h1 access q hq hqp hhit)
    · rw [Tlbs.L1Hit, (hlines q hqp).1] at hhit
      rw [Tlbs.L2Hit, (hlines q hqp).2]
      exact h.included access q hq hhit
  · by_cases hqp : v.vpn % 16 = vaddr.vpn % 16
    · have heq := (h2 v.vpn hv hqp).1 hhit
      rw [walkFrame_congr memSpace heq, hwalk, heq, hframe₂]
    · rw [Tlbs.L2Hit, (hlines _ hqp).2] at hhit
      rw [(hlines _ hqp).2]
      exact h.frame₂ v hv hhit
  · by_cases hqp : v.vpn % 16 = vaddr.vpn % 16
    · have heq := h1 access v.vpn hv hqp hhit
      rw [heq] at hhit
      rw [walkFrame_congr memSpace heq, hwalk, heq, hframe₁ access hhit]
    · rw [Tlbs.L1Hit, (hlines _ hqp).1] at hhit
      rw [(hlines _ hqp).1]
      exact h.frame₁ access v hv hhit

/-- If the second level answers a page, its lines answer no other. -/
theorem Tlbs.Recalls.l2Hit_iff (h : s.Recalls memSpace k used) (hp : p % 64 < k)
    (hhit : s.L2Hit p) (hq : q % 64 < k) (hqp : q % 16 = p % 16) : s.L2Hit q ↔ q = p := by
  rw [h.last p hp] at hhit
  rw [h.last q hq]
  exact ⟨fun hlast => hlast.unique hhit hqp, fun heq => heq ▸ hhit⟩

/-- The first level answers a page with the frame that the second holds. -/
theorem Tlbs.Recalls.frame_eq (h : s.Recalls memSpace k used) {access : MemAccess}
    (hvaddr : vaddr.vpn % 64 < k) (h1 : s.L1Hit access vaddr.vpn) :
    (s.l1 access (line16 vaddr.vpn)).phyPageNum = (s.l2Tlb (probed vaddr.vpn)).phyPageNum := by
  have hwalk := h.frame₂ vaddr hvaddr (h.included access _ hvaddr h1)
  rw [h.frame₁ access vaddr hvaddr h1] at hwalk
  exact Option.some.inj (Except.ok.inj hwalk)

theorem Tlbs.Recalls.hit (h : s.Recalls memSpace k used) (hvaddr : vaddr.vpn % 64 < k)
    (hhit : s.L2Hit vaddr.vpn) : s.Recalls memSpace k (vaddr.vpn :: used) :=
  h.step (h.frame₂ vaddr hvaddr hhit) (fun _ _ => rfl)
    (fun _ hq hqp => h.l2Hit_iff hvaddr hhit hq hqp)
    (fun access q hq hqp h1 => (h.l2Hit_iff hvaddr hhit hq hqp).1 (h.included access q hq h1))
    rfl fun _ h1 => h.frame_eq hvaddr h1

theorem Tlbs.Recalls.promote (h : s.Recalls memSpace k used) (hvaddr : vaddr.vpn % 64 < k)
    (hhit : s.L2Hit vaddr.vpn) (access : MemAccess) :
    (s.promote access vaddr.vpn (s.l2Tlb (probed vaddr.vpn)).phyPageNum).Recalls memSpace k
      (vaddr.vpn :: used) := by
  have hp := vaddr.vpn_lt
  have hwalk := h.frame₂ vaddr hvaddr hhit
  set frame := (s.l2Tlb (probed vaddr.vpn)).phyPageNum with hframe
  have hl2 : (s.promote access vaddr.vpn frame).l2Tlb = s.l2Tlb := by cases access <;> rfl
  refine h.step hwalk (fun c hc => column_promote_of_ne hc) (fun q hq hqp => ?_)
    (fun access' q hq hqp h1 => ?_) (by rw [hl2]) fun access' h1 => ?_
  · rw [Tlbs.L2Hit, hl2]
    exact h.l2Hit_iff hvaddr hhit hq hqp
  · have hline : line16 q = line16 vaddr.vpn := Fin.ext hqp
    unfold Tlbs.L1Hit at h1
    rw [hline] at h1
    rcases l1_promote_or s access access' vaddr.vpn frame with heq | heq <;> rw [heq] at h1
    · exact eq_of_answers_entryFor (by omega) hqp h1
    · rw [← hline] at h1
      exact (h.l2Hit_iff hvaddr hhit hq hqp).1 (h.included access' q hq h1)
  · unfold Tlbs.L1Hit at h1
    rcases l1_promote_or s access access' vaddr.vpn frame with heq | heq
    · rw [heq]
      rfl
    · rw [heq] at h1 ⊢
      exact h.frame_eq hvaddr h1

/-- The other table's entry of the page that is displaced is the stale one. -/
theorem Tlbs.Recalls.not_answers_drop (h : s.Recalls memSpace k used) (hk : k ≤ 16)
    (hvaddr : vaddr.vpn % 64 < k) (access : MemAccess) (hq : q % 64 < k)
    (hqp : q % 16 = vaddr.vpn % 16) :
    ¬ Answers 4 (s.drop (s.l1 access) vaddr.vpn (line16 vaddr.vpn)) q := by
  intro hans
  obtain ⟨h1, hstale⟩ := (answers_drop_iff _ q).1 hans
  have hline : line16 q = line16 vaddr.vpn := Fin.ext hqp
  have hstored : probed q = stored vaddr.vpn := Fin.ext (show q % 16 = vaddr.vpn % 64 by omega)
  have h2 : s.L2Hit q := h.included access q hq (by rw [Tlbs.L1Hit, hline]; exact h1)
  unfold Tlbs.L2Hit at h2
  rw [hstored] at h2
  refine hstale ⟨h1.1, ?_⟩
  rw [h1.2, h2.2]
  congr 1
  omega

theorem Tlbs.Recalls.fill (h : s.Recalls memSpace k used) (hk : k ≤ 16)
    (hvaddr : vaddr.vpn % 64 < k) (hwalk : walkFrame memSpace vaddr = .ok (some frame))
    (access : MemAccess) :
    (s.fill access vaddr.vpn frame).Recalls memSpace k (vaddr.vpn :: used) := by
  have hp := vaddr.vpn_lt
  have hl2 : ∀ q, q % 16 = vaddr.vpn % 16 →
      (s.fill access vaddr.vpn frame).l2Tlb (probed q) = entryFor 30 6 vaddr.vpn frame := by
    intro q hqp
    have hstored : probed q = stored vaddr.vpn := Fin.ext (show q % 16 = vaddr.vpn % 64 by omega)
    rw [l2Tlb_fill, hstored, Function.update_self]
  refine h.step hwalk (fun c hc => column_fill_of_ne hc) (fun q hq hqp => ?_)
    (fun access' q hq hqp h1 => ?_) (by rw [hl2 _ rfl]; rfl) fun access' h1 => ?_
  · rw [Tlbs.L2Hit, hl2 q hqp]
    refine ⟨fun hans => eq_of_answers_entryFor (by omega) (by omega) hans, fun heq => ?_⟩
    rw [answers_entryFor (by omega), heq]
  · have hline : line16 q = line16 vaddr.vpn := Fin.ext hqp
    unfold Tlbs.L1Hit at h1
    rw [hline] at h1
    rcases l1_fill_or s access access' vaddr.vpn frame with heq | heq <;> rw [heq] at h1
    · exact eq_of_answers_entryFor (by omega) hqp h1
    · exact absurd h1 (h.not_answers_drop hk hvaddr access' hq hqp)
  · unfold Tlbs.L1Hit at h1
    rcases l1_fill_or s access access' vaddr.vpn frame with heq | heq
    · rw [heq]
      rfl
    · rw [heq] at h1
      exact absurd h1 (h.not_answers_drop hk hvaddr access' hvaddr rfl)

end Step

theorem lastStep_of_frame (c : SearchCall) {frame : BitVec 20}
    (hw : walkFrame memSpace c.vaddr = .ok (some frame)) : lastStep memSpace used c
      = .ok (⟨.errNone, ⟨frame, c.vaddr.pageOffset⟩,
        some (decide (LastOfLine (· % 16) used c.vaddr.vpn))⟩, c.vaddr.vpn :: used) := by
  simp only [lastStep, hw, Exec.ok_bind, Exec.pure_eq]

theorem searchStep_lockstep (hk : k ≤ 16) (s : Tlbs) (used : List ℕ) (c : SearchCall)
    (h : s.Recalls memSpace k used) (hpage : c.vaddr.vpn % 64 < k) :
    Lockstep (Tlbs.Recalls memSpace k) (searchStep memSpace s c) (lastStep memSpace used c) := by
  rw [searchStep, tlbSearch_eq memSpace c.vaddr c.paddr c.named s]
  by_cases h1 : s.L1Hit c.access c.vaddr.vpn
  · have h2 := h.included c.access _ hpage h1
    rw [if_pos h1, lastStep_of_frame c (h.frame₁ c.access c.vaddr hpage h1),
      decide_eq_true ((h.last _ hpage).1 h2)]
    exact .next _ (h.hit hpage h2)
  rw [if_neg h1]
  by_cases h2 : s.L2Hit c.vaddr.vpn
  · rw [if_pos h2, lastStep_of_frame c (h.frame₂ c.vaddr hpage h2),
      decide_eq_true ((h.last _ hpage).1 h2)]
    exact .next _ (h.promote hpage h2 c.access)
  rw [if_neg h2]
  rcases hw : walkFrame memSpace c.vaddr with fault | _ | frame
  · rw [lastStep, hw]
    exact .stop fault
  · rw [lastStep, hw]
    exact .next _ h
  · rw [lastStep_of_frame c hw, decide_eq_false (mt (h.last _ hpage).2 h2)]
    exact .next _ (h.fill hk hpage hw c.access)

/-- From tables that are empty below line `k`, searches of pages in these lines return what the
pages found before each tell, and stop where a walk leaves the memory. -/
theorem tlbSearch_last (hk : k ≤ 16) (memSpace : Memory size) (hs : s.EmptyBelow k)
    {calls : List SearchCall} (hpages : ∀ c ∈ calls, c.vaddr.vpn % 64 < k) :
    trace (searchStep memSpace) s calls = trace (lastStep memSpace) [] calls :=
  trace_eq_of_lockstep (searchStep_lockstep hk) calls hs.recalls
    (along_of_forall_mem fun c hc _ => hpages c hc)

/-- Page 5 is found by a data search, and then by an instruction search, but not after page 69. -/
theorem tlbSearch_last_zero : trace (searchStep (fun _ => 0 : Memory 4096)) Tlbs.zero
    [⟨⟨0, 0, 0, 0, 5, 7⟩, ⟨0, 0⟩, .data, by decide⟩,
      ⟨⟨0, 0, 0, 0, 5, 8⟩, ⟨0, 0⟩, .instruction, by decide⟩,
      ⟨⟨0, 0, 0, 0, 69, 0⟩, ⟨0, 0⟩, .instruction, by decide⟩,
      ⟨⟨0, 0, 0, 0, 5, 9⟩, ⟨0, 0⟩, .data, by decide⟩]
    = ([⟨.errNone, ⟨0, 7⟩, some false⟩, ⟨.errNone, ⟨0, 8⟩, some true⟩,
      ⟨.errNone, ⟨0, 0⟩, some false⟩, ⟨.errNone, ⟨0, 9⟩, some false⟩], none) := by
  have hempty : Tlbs.zero.EmptyBelow 16 := by
    refine ⟨fun access i _ => ?_, fun i _ => rfl⟩
    cases access <;> rfl
  refine (tlbSearch_last le_rfl _ hempty ?_).trans (by decide +kernel)
  decide

end KabyLake.TlbHrchy
