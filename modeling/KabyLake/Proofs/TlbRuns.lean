import KabyLake.Library.Loops
import KabyLake.Library.Run
import KabyLake.Proofs.TlbLru

/-!
# Runs of the fully-associative TLB

From the flushed array and the list of its lines in order, a run hits exactly on the 128 most
recently used pages and replaces the least recently used of them (`tlbSearch_refines_lru`), and
every search returns what the page walk returns (`tlbSearch_transparent`).
-/

namespace KabyLake.Tlb

open Linked Recency ListT Run

variable {size : ℕ} (fuel : ℕ) (memSpace : Memory size)

/-- The arguments of a search. -/
structure SearchCall where
  vaddr : VirtAddr
  paddr : PhyAddr

/-- One search of a run over a fixed memory. -/
def searchStep (s : State) (c : SearchCall) : Exec (Search × State) :=
  tlbSearch fuel memSpace c.vaddr c.paddr s

/-- The array flushed and the list holding its lines in order. -/
structure Started (A : Allocator Word) (s : State) : Prop where
  flushed : ∃ tlb, tlbFlush tlb = .ok (.errNone, s.tlb)
  moveBack_eq : s.policy.moveBack = moveBack A
  list : ∃ ns, Spells s.heap s.policy.ll ns ∧ ns.map Prod.snd = lineIndices

section Start

variable {A : Allocator Word} {s : State}

theorem tlbFlush_eq (tlb : Table) : tlbFlush tlb = .ok (.errNone, fun _ => ⟨0, 0, false⟩) := by
  have hstep : ∀ (m : Table) (i : Fin tlbLines),
      setLine m i ⟨0, 0, false⟩ = .ok (Function.update m i ⟨0, 0, false⟩) :=
    fun m i => dif_pos i.isLt
  rw [tlbFlush, Loops.foldlM_range_update_id (g := fun _ => ⟨0, 0, false⟩) hstep tlb le_rfl]
  simp only [Fin.is_lt, if_true, Exec.ok_bind, Exec.pure_eq]

theorem Started.page (hs : Started A s) (j : Fin tlbLines) : (s.tlb j).page = none := by
  obtain ⟨tlb, htlb⟩ := hs.flushed
  simp only [tlbFlush_eq, Except.ok.injEq, Prod.mk.injEq, true_and] at htlb
  rw [← htlb]
  rfl

theorem Started.ordered (hs : Started A s) : Ordered A s [] := by
  obtain ⟨ns, hspells, hvals⟩ := hs.list
  have hl : Lists A s ns := ⟨hs.moveBack_eq, hspells, hvals ▸ List.Perm.refl _⟩
  refine ⟨ns, hl, ?_⟩
  have hnone : ∀ n ∈ ns.reverse, pageAt s.tlb n.2 = none := by
    intro n hn
    have hlt := hl.lt (n := n.1) (i := n.2) (List.mem_reverse.1 hn)
    rw [pageAt, dif_pos hlt, hs.page]
  rw [List.map_congr_left hnone]
  simp [padded, hl.length]

theorem pushBack_range (A : Allocator Word) (h : Heap Word) : ∀ n, ∃ h' l' ns,
    (List.range n).foldlM (pushLine A) (h, initList) = .ok (h', l')
      ∧ Spells h' l' ns ∧ ns.map Prod.snd = (List.range n).map (BitVec.ofNat 32)
  | 0 => ⟨h, initList, [], rfl, chain_empty h, rfl⟩
  | n + 1 => by
    obtain ⟨h1, l1, ns, hrun, hspells, hvals⟩ := pushBack_range A h n
    obtain ⟨h2, l2, p, hpush, hspells2, -, -⟩ := pushBack_spec A hspells (BitVec.ofNat 32 n)
    refine ⟨h2, l2, ns ++ [(p, BitVec.ofNat 32 n)], ?_, hspells2, ?_⟩
    · rw [List.range_succ, List.foldlM_append, hrun]
      simp only [Exec.ok_bind, List.foldlM_cons, List.foldlM_nil, pushLine, hpush, Exec.pure_eq]
    · rw [List.range_succ, List.map_append, List.map_append, hvals]
      rfl

/-- The set-up starts the TLB. -/
theorem setUp_started (A : Allocator Word) (tlb : Table) (h : Heap Word) :
    ∃ s, setUp A tlb h = .ok s ∧ Started A s := by
  obtain ⟨h', l', ns, hrun, hspells, hvals⟩ := pushBack_range A h tlbLines
  refine ⟨⟨fun _ => ⟨0, 0, false⟩, h', ⟨l', moveBack A⟩⟩, ?_,
    ⟨⟨tlb, tlbFlush_eq tlb⟩, rfl, ns, hspells, hvals⟩⟩
  simp only [setUp, tlbFlush_eq, Exec.ok_bind, hrun, Exec.pure_eq]

end Start

section Lru

/-- A state with the pages of the searches that succeeded, the newest first. -/
structure Traced where
  state : State
  used : List ℕ

/-- A search that notes its page if it succeeds. -/
def tracedStep (t : Traced) (c : SearchCall) : Exec (Search × Traced) := do
  let (r, s) ← searchStep fuel memSpace t.state c
  return (r, ⟨s, if r.err = .errNone then c.vaddr.vpn :: t.used else t.used⟩)

/-- One line is replaced: one never used while there is one, else the one whose page is the least
recently used of the 128. -/
def ReplacesLru (used : List ℕ) (tlb tlb' : Table) (e : TlbEntry) : Prop :=
  ∃ i, tlb' = Function.update tlb i e
    ∧ ((∃ j, (tlb j).v = false) → (tlb i).v = false)
    ∧ ((∀ j, (tlb j).v = true) → (recency used)[tlbLines - 1]? = some (tlb i).tag.toNat)

/-- No two valid entries carry the same tag. -/
def DistinctTags (tlb : Table) : Prop :=
  ∀ i j, (tlb i).v = true → (tlb j).v = true → (tlb i).tag = (tlb j).tag → i = j

/-- What an LRU map of 128 pages does on a search, and the order kept before and after it. -/
structure RefinesLru (A : Allocator Word) (t : Traced) (c : SearchCall) : Prop where
  ordered : Ordered A t.state t.used ∧ DistinctTags t.state.tlb
  outcome : (∃ r, tracedStep fuel memSpace t c = .ok r)
    ↔ c.vaddr.vpn ∈ (recency t.used).take tlbLines ∨ ∃ r, pageWalk memSpace c.vaddr c.paddr = .ok r
  hit : ∀ r t', tracedStep fuel memSpace t c = .ok (r, t') →
    (r.hitOrMiss = true ↔ c.vaddr.vpn ∈ (recency t.used).take tlbLines)
  table : ∀ r t', tracedStep fuel memSpace t c = .ok (r, t') →
    if r.err = .errNone ∧ r.hitOrMiss = false then
      ReplacesLru t.used t.state.tlb t'.state.tlb
        ⟨BitVec.ofNat 36 c.vaddr.vpn, r.paddr.phyPageNum, true⟩
    else t'.state.tlb = t.state.tlb
  ordered' : ∀ r t', tracedStep fuel memSpace t c = .ok (r, t') →
    Ordered A t'.state t'.used ∧ DistinctTags t'.state.tlb

variable {fuel} {memSpace} {A : Allocator Word} {s : State} {used : List ℕ}

theorem exists_unused_iff (ho : Ordered A s used) :
    (∃ j, (s.tlb j).v = false) ↔ (recency used).length < tlbLines := by
  obtain ⟨ns, hl, hpages⟩ := ho
  rw [← none_mem_padded, ← hpages]
  constructor
  · rintro ⟨j, hj⟩
    obtain ⟨n, hn⟩ := hl.exists_node j
    refine List.mem_map.2 ⟨_, List.mem_reverse.2 hn, ?_⟩
    simp only [pageAt_ofNat, TlbEntry.page, hj, Bool.false_eq_true, if_false]
  · intro hm
    obtain ⟨n, hn, he⟩ := List.mem_map.1 hm
    have hlt := hl.lt (n := n.1) (i := n.2) (List.mem_reverse.1 hn)
    refine ⟨⟨n.2.toNat, hlt⟩, ?_⟩
    simp only [pageAt, dif_pos hlt, TlbEntry.page] at he
    simpa using he

theorem Ordered.distinctTags (ho : Ordered A s used) : DistinctTags s.tlb := by
  obtain ⟨ns, hl, hpages⟩ := ho
  intro i j hi hj ht
  have hnodup : ((ns.reverse.filter fun n => (pageAt s.tlb n.2).isSome).map
      fun n => pageAt s.tlb n.2).Nodup := by
    have hmap := List.filter_map (f := fun n : ℕ × Word => pageAt s.tlb n.2) (p := Option.isSome)
      (l := ns.reverse)
    rw [hpages, padded_filter] at hmap
    simp only [Function.comp_def] at hmap
    rw [← hmap]
    exact ((nodup_recency used).sublist (List.take_sublist _ _)).map (Option.some_injective _)
  have hmem : ∀ k : Fin tlbLines, (s.tlb k).v = true → ∃ n, (n, BitVec.ofNat 32 k.val)
      ∈ ns.reverse.filter fun n => (pageAt s.tlb n.2).isSome := by
    intro k hk
    obtain ⟨n, hn⟩ := hl.exists_node k
    refine ⟨n, List.mem_filter.2 ⟨List.mem_reverse.2 hn, ?_⟩⟩
    simp only [pageAt_ofNat, TlbEntry.page, hk, if_true, Option.isSome_some]
  obtain ⟨n, hn⟩ := hmem i hi
  obtain ⟨m, hm⟩ := hmem j hj
  have hsame := List.inj_on_of_nodup_map hnodup hn hm (by
    simp only [pageAt_ofNat, TlbEntry.page, hi, hj, ht])
  have hval := congrArg BitVec.toNat (congrArg Prod.snd hsame)
  have hi := i.isLt
  have hj := j.isLt
  simp only [tlbLines] at hi hj
  simp only [BitVec.toNat_ofNat] at hval
  exact Fin.ext (by omega)

/-- The line at the front is the one an LRU map replaces. -/
theorem replacesLru_of_page (ho : Ordered A s used) {i : Fin tlbLines} {e : TlbEntry}
    (hi : (s.tlb i).page = (recency used)[tlbLines - 1]?) :
    ReplacesLru used s.tlb (Function.update s.tlb i e) e := by
  refine ⟨i, rfl, fun hex => ?_, fun hall => ?_⟩
  · have hlen := (exists_unused_iff ho).1 hex
    rw [List.getElem?_eq_none (by omega)] at hi
    simpa [TlbEntry.page] using hi
  · rw [← hi]
    exact TlbEntry.page_eq_some_iff.2 ⟨hall i, rfl⟩

theorem tracedStep_of_ok {t : Traced} {c : SearchCall} {r : Search}
    (h : searchStep fuel memSpace t.state c = .ok (r, s)) :
    tracedStep fuel memSpace t c
      = .ok (r, ⟨s, if r.err = .errNone then c.vaddr.vpn :: t.used else t.used⟩) := by
  simp only [tracedStep, h, Exec.ok_bind, Exec.pure_eq]

/-- A search with an outcome, from the order before and after it. -/
theorem refinesLru_of_ok {t t' : Traced} {c : SearchCall} {r : Search}
    (ho : Ordered A t.state t.used) (hrun : tracedStep fuel memSpace t c = .ok (r, t'))
    (hout : c.vaddr.vpn ∈ (recency t.used).take tlbLines
      ∨ ∃ r, pageWalk memSpace c.vaddr c.paddr = .ok r)
    (hhit : r.hitOrMiss = true ↔ c.vaddr.vpn ∈ (recency t.used).take tlbLines)
    (htable : if r.err = .errNone ∧ r.hitOrMiss = false then
        ReplacesLru t.used t.state.tlb t'.state.tlb
          ⟨BitVec.ofNat 36 c.vaddr.vpn, r.paddr.phyPageNum, true⟩
      else t'.state.tlb = t.state.tlb)
    (ho' : Ordered A t'.state t'.used) : RefinesLru fuel memSpace A t c := by
  have hdet : ∀ r₂ t₂, tracedStep fuel memSpace t c = .ok (r₂, t₂) → r₂ = r ∧ t₂ = t' := by
    intro r₂ t₂ h
    rw [hrun] at h
    cases h
    exact ⟨rfl, rfl⟩
  refine ⟨⟨ho, ho.distinctTags⟩, ⟨fun _ => hout, fun _ => ⟨_, hrun⟩⟩, ?_, ?_, ?_⟩
  all_goals
    intro r₂ t₂ h
    obtain ⟨rfl, rfl⟩ := hdet r₂ t₂ h
  · exact hhit
  · exact htable
  · exact ⟨ho', ho'.distinctTags⟩

theorem refinesLru (hfuel : tlbLines ≤ fuel) {t : Traced} (c : SearchCall)
    (ho : Ordered A t.state t.used) : RefinesLru fuel memSpace A t c := by
  by_cases hmem : c.vaddr.vpn ∈ (recency t.used).take tlbLines
  · obtain ⟨i, s', -, hrun, htlb, ho'⟩ := tlbSearch_hit memSpace c.paddr ho hfuel hmem
    exact refinesLru_of_ok ho (tracedStep_of_ok hrun) (.inl hmem) (by simpa using hmem)
      (by simpa using htlb) ho'
  by_cases hw : ∃ frame, walkFrame memSpace c.vaddr = .ok (some frame)
  · obtain ⟨frame, hw⟩ := hw
    obtain ⟨i, s', hpage, hrun, htlb, ho'⟩ := tlbSearch_miss_of_frame c.paddr ho hfuel hmem hw
    refine refinesLru_of_ok ho (tracedStep_of_ok hrun) (.inr ?_) (by simpa using hmem) ?_ ho'
    · rw [pageWalk_eq, hw]
      exact ⟨_, rfl⟩
    · have hentry : (tlbEntryInit c.vaddr ⟨frame, c.vaddr.pageOffset⟩).2
          = ⟨BitVec.ofNat 36 c.vaddr.vpn, frame, true⟩ := by
        rw [tlbEntryInit, ← virtAddrToVirtualPageNumber_toNat]
        rfl
      simp only [htlb, hentry, and_self, if_true]
      exact replacesLru_of_page ho hpage
  · have hrun := tlbSearch_miss_of_no_frame c.paddr ho hfuel hmem
      (fun frame h => hw ⟨frame, h⟩)
    have hwalk := pageWalk_eq memSpace c.vaddr c.paddr
    rcases hframe : walkFrame memSpace c.vaddr with f | _ | frame
    · rw [hframe] at hrun hwalk
      have herr : tracedStep fuel memSpace t c = .error f := by
        simp only [tracedStep, searchStep, hrun, Except.map, Exec.error_bind]
      have hno : ∀ r t', tracedStep fuel memSpace t c ≠ .ok (r, t') := fun r t' h => by
        rw [herr] at h
        cases h
      refine ⟨⟨ho, ho.distinctTags⟩, ?_, fun r t' h => absurd h (hno r t'),
        fun r t' h => absurd h (hno r t'), fun r t' h => absurd h (hno r t')⟩
      rw [herr, hwalk]
      simp [Except.map, hmem]
    · rw [hframe] at hrun hwalk
      exact refinesLru_of_ok ho (tracedStep_of_ok hrun) (.inr ⟨_, hwalk⟩) (by simpa using hmem)
        (by simp) (by simpa using ho)
    · exact absurd ⟨frame, hframe⟩ hw

/-- The TLB refines an LRU map of 128 pages: the order holds before and after every search, which
hits on the 128 most recently used pages and replaces the least recently used of them. -/
theorem tlbSearch_refines_lru (hfuel : tlbLines ≤ fuel) (hs : Started A s)
    (calls : List SearchCall) :
    Ordered A s [] ∧ DistinctTags s.tlb
      ∧ Along (tracedStep fuel memSpace) (RefinesLru fuel memSpace A) ⟨s, []⟩ calls := by
  refine ⟨hs.ordered, hs.ordered.distinctTags, ?_⟩
  have hstep : ∀ t c, Ordered A t.state t.used → RefinesLru fuel memSpace A t c
      ∧ ∀ r t', tracedStep fuel memSpace t c = .ok (r, t') → Ordered A t'.state t'.used := by
    intro t c ho
    have h : RefinesLru fuel memSpace A t c := refinesLru hfuel c ho
    exact ⟨h, fun r t' hr => (h.ordered' r t' hr).1⟩
  exact along_of_step hstep calls hs.ordered

/-- An image of one page whose entries are all 0, so that every page walks to frame 0. -/
def zeroImage : Memory 4096 := fun _ => 0

/-- One page more than there are lines, and then the first and the last of them. -/
def overflowing : List SearchCall :=
  (List.range 129 ++ [0, 128]).map fun page =>
    ⟨initVirtAddr64 (BitVec.ofNat 64 (4096 * page)), ⟨0, 0⟩⟩

theorem tlbSearch_refines_lru_zeroImage : ∃ s : State,
    setUp firstFit (fun _ => ⟨0, 0, false⟩) Heap.empty = .ok s
      ∧ Ordered firstFit s [] ∧ DistinctTags s.tlb
      ∧ Along (tracedStep 128 zeroImage) (RefinesLru 128 zeroImage firstFit) ⟨s, []⟩
          overflowing := by
  obtain ⟨s, hrun, hs⟩ := setUp_started firstFit (fun _ => ⟨0, 0, false⟩) Heap.empty
  exact ⟨s, hrun, tlbSearch_refines_lru (le_refl tlbLines) hs _⟩

end Lru

section Transparency

/-- Every valid entry holds the frame of its page. -/
def Faithful (tlb : Table) : Prop :=
  ∀ i, (tlb i).v = true → ∀ v : VirtAddr, v.vpn = (tlb i).tag.toNat →
    walkFrame memSpace v = .ok (some (tlb i).phyPageNum)

/-- The search returns the error code of the page walk, and the same physical address. -/
def Transparent (s : State) (c : SearchCall) : Prop :=
  (searchStep fuel memSpace s c).map (fun r => (r.1.err, r.1.paddr))
    = pageWalk memSpace c.vaddr c.paddr

variable {fuel} {memSpace} {A : Allocator Word} {s : State} {used : List ℕ}

theorem Faithful.update {tlb : Table} (hf : Faithful memSpace tlb) {vaddr : VirtAddr}
    {frame : BitVec 20} (hw : walkFrame memSpace vaddr = .ok (some frame)) (i : Fin tlbLines)
    (offset : BitVec 12) :
    Faithful memSpace (Function.update tlb i (tlbEntryInit vaddr ⟨frame, offset⟩).2) := by
  intro j hv v hj
  by_cases hji : j = i
  · subst hji
    rw [Function.update_self] at hj ⊢
    have htag := (TlbEntry.page_eq_some_iff.1 (page_tlbEntryInit vaddr ⟨frame, offset⟩)).2
    rw [walkFrame_congr memSpace (hj.trans htag), hw]
    rfl
  · rw [Function.update_of_ne hji] at hv hj ⊢
    exact hf j hv v hj

theorem transparent (hfuel : tlbLines ≤ fuel) (c : SearchCall) (ho : Ordered A s used)
    (hf : Faithful memSpace s.tlb) :
    Transparent fuel memSpace s c ∧ ∀ r s', searchStep fuel memSpace s c = .ok (r, s') →
      (∃ used', Ordered A s' used') ∧ Faithful memSpace s'.tlb := by
  unfold Transparent searchStep
  rw [pageWalk_eq]
  by_cases hmem : c.vaddr.vpn ∈ (recency used).take tlbLines
  · obtain ⟨i, s', hpage, hrun, htlb, ho'⟩ := tlbSearch_hit memSpace c.paddr ho hfuel hmem
    obtain ⟨hv, ht⟩ := TlbEntry.page_eq_some_iff.1 hpage
    rw [hrun, hf i hv c.vaddr ht.symm]
    refine ⟨rfl, fun r s₂ h => ?_⟩
    cases h
    exact ⟨⟨_, ho'⟩, htlb ▸ hf⟩
  rcases hw : walkFrame memSpace c.vaddr with f | _ | frame
  · rw [tlbSearch_miss_of_no_frame c.paddr ho hfuel hmem (by simp [hw]), hw]
    refine ⟨rfl, fun r s₂ h => ?_⟩
    cases h
  · rw [tlbSearch_miss_of_no_frame c.paddr ho hfuel hmem (by simp [hw]), hw]
    refine ⟨rfl, fun r s₂ h => ?_⟩
    cases h
    exact ⟨⟨used, ho⟩, hf⟩
  · obtain ⟨i, s', -, hrun, htlb, ho'⟩ := tlbSearch_miss_of_frame c.paddr ho hfuel hmem hw
    rw [hrun]
    refine ⟨rfl, fun r s₂ h => ?_⟩
    cases h
    exact ⟨⟨_, ho'⟩, htlb ▸ hf.update hw i c.vaddr.pageOffset⟩

/-- Every search of a run returns what the page walk returns on its address. -/
theorem tlbSearch_transparent (hfuel : tlbLines ≤ fuel) (hs : Started A s)
    (calls : List SearchCall) :
    Along (searchStep fuel memSpace) (Transparent fuel memSpace) s calls := by
  have hstep : ∀ s c, (∃ used, Ordered A s used) ∧ Faithful memSpace s.tlb →
      Transparent fuel memSpace s c ∧ ∀ r s', searchStep fuel memSpace s c = .ok (r, s') →
        (∃ used, Ordered A s' used) ∧ Faithful memSpace s'.tlb := by
    rintro s c ⟨⟨used, ho⟩, hf⟩
    exact transparent hfuel c ho hf
  refine along_of_step hstep calls ⟨⟨[], hs.ordered⟩, fun i hv => ?_⟩
  have := hs.page i
  simp [TlbEntry.page, hv] at this

theorem tlbSearch_transparent_zeroImage : ∃ s : State,
    setUp firstFit (fun _ => ⟨0, 0, false⟩) Heap.empty = .ok s
      ∧ Along (searchStep 128 zeroImage) (Transparent 128 zeroImage) s overflowing := by
  obtain ⟨s, hrun, hs⟩ := setUp_started firstFit (fun _ => ⟨0, 0, false⟩) Heap.empty
  exact ⟨s, hrun, tlbSearch_transparent (le_refl tlbLines) hs _⟩

end Transparency

end KabyLake.Tlb
