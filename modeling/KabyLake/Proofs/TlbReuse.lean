import KabyLake.Library.Trace
import KabyLake.Proofs.TlbRuns

/-!
# A search by the pages before it

`reuseStep` knows no array and no list, only which pages were found before: a search hits if its
page was, and fewer than 128 others were since. From the set-up on, the searches of the TLB return
what it returns, whatever the memory they walk (`tlbSearch_reuse`).
-/

namespace KabyLake.Tlb

open Linked Recency Run

variable {size : ℕ}

/-- The page was used, and fewer than 128 pages have been since its last use. -/
def Reused (used : List ℕ) (page : ℕ) : Prop :=
  page ∈ used ∧ (used.takeWhile (· != page)).toFinset.card < tlbLines

instance (used : List ℕ) (page : ℕ) : Decidable (Reused used page) :=
  inferInstanceAs (Decidable (_ ∧ _))

/-- A search, given the pages found before it, the last first. -/
def reuseStep (memSpace : Memory size) (used : List ℕ) (c : SearchCall) :
    Exec (Search × List ℕ) := do
  match ← walkFrame memSpace c.vaddr with
  | none => return (⟨.errBadParameter, c.paddr, false⟩, used)
  | some frame =>
    return (⟨.errNone, ⟨frame, c.vaddr.pageOffset⟩, decide (Reused used c.vaddr.vpn)⟩,
      c.vaddr.vpn :: used)

variable {fuel : ℕ} {memSpace : Memory size} {A : Allocator Word} {s : State} {used : List ℕ}

theorem reuseStep_of_frame (c : SearchCall) {frame : BitVec 20}
    (hw : walkFrame memSpace c.vaddr = .ok (some frame)) : reuseStep memSpace used c
      = .ok (⟨.errNone, ⟨frame, c.vaddr.pageOffset⟩, decide (Reused used c.vaddr.vpn)⟩,
        c.vaddr.vpn :: used) := by
  simp only [reuseStep, hw, Exec.ok_bind, Exec.pure_eq]

theorem reused_iff {page : ℕ} : Reused used page ↔ page ∈ (recency used).take tlbLines :=
  mem_take_recency.symm

/-- The TLB holds these pages, each with its frame. -/
def Recalls (memSpace : Memory size) (A : Allocator Word) (s : State) (used : List ℕ) : Prop :=
  Ordered A s used ∧ Faithful memSpace s.tlb

theorem searchStep_lockstep (hfuel : tlbLines ≤ fuel) (s : State) (used : List ℕ) (c : SearchCall)
    (h : Recalls memSpace A s used) :
    Lockstep (Recalls memSpace A) (searchStep fuel memSpace s c) (reuseStep memSpace used c) := by
  obtain ⟨ho, hf⟩ := h
  by_cases hmem : c.vaddr.vpn ∈ (recency used).take tlbLines
  · obtain ⟨i, s', hpage, hrun, htlb, ho'⟩ := tlbSearch_hit memSpace c.paddr ho hfuel hmem
    obtain ⟨hv, ht⟩ := TlbEntry.page_eq_some_iff.1 hpage
    rw [searchStep, hrun, reuseStep_of_frame c (hf i hv c.vaddr ht.symm),
      decide_eq_true (reused_iff.2 hmem)]
    exact .next _ ⟨ho', htlb ▸ hf⟩
  rcases hw : walkFrame memSpace c.vaddr with f | _ | frame
  · rw [searchStep, tlbSearch_miss_of_no_frame c.paddr ho hfuel hmem (by simp [hw]), reuseStep, hw]
    exact .stop f
  · rw [searchStep, tlbSearch_miss_of_no_frame c.paddr ho hfuel hmem (by simp [hw]), reuseStep, hw]
    exact .next _ ⟨ho, hf⟩
  · obtain ⟨i, s', -, hrun, htlb, ho'⟩ := tlbSearch_miss_of_frame c.paddr ho hfuel hmem hw
    rw [searchStep, hrun, reuseStep_of_frame c hw, decide_eq_false (mt reused_iff.1 hmem)]
    exact .next _ ⟨ho', htlb ▸ hf.update hw i c.vaddr.pageOffset⟩

/-- From the set-up on, a sequence of searches returns what the pages before each tell, and stops
where a walk leaves the memory. -/
theorem tlbSearch_reuse (hfuel : tlbLines ≤ fuel) (memSpace : Memory size) (A : Allocator Word)
    (tlb : Table) (h : Heap Word) : ∃ s, setUp A tlb h = .ok s ∧
      ∀ calls, trace (searchStep fuel memSpace) s calls = trace (reuseStep memSpace) [] calls := by
  obtain ⟨s, hset, hs⟩ := setUp_started A tlb h
  have hrecalls : Recalls memSpace A s [] := by
    refine ⟨hs.ordered, fun i hv => ?_⟩
    have hpage := hs.page i
    simp [TlbEntry.page, hv] at hpage
  exact ⟨s, hset, fun calls =>
    trace_eq_of_always_lockstep (searchStep_lockstep hfuel) calls hrecalls⟩

/-- With 128 other pages searched since, the first page is not found again, and the last is. -/
theorem tlbSearch_reuse_zeroImage : ∃ s : State,
    setUp firstFit (fun _ => ⟨0, 0, false⟩) Heap.empty = .ok s
      ∧ (trace (searchStep 128 zeroImage) s overflowing).1.drop 129
        = [⟨.errNone, ⟨0, 0⟩, false⟩, ⟨.errNone, ⟨0, 0⟩, true⟩]
      ∧ (trace (searchStep 128 zeroImage) s overflowing).2 = none := by
  have hfuel : tlbLines ≤ 128 := le_rfl
  obtain ⟨s, hset, hruns⟩ :=
    tlbSearch_reuse hfuel zeroImage firstFit (fun _ => ⟨0, 0, false⟩) Heap.empty
  refine ⟨s, hset, ?_, ?_⟩
  all_goals
    rw [hruns]
    decide +kernel

end KabyLake.Tlb
