import KabyLake.Library.Trace
import KabyLake.Proofs.LinkedListRuns
import KabyLake.Proofs.TlbRuns

/-!
# The TLB without its heap

`Listed` keeps the order of the lines as a plain list, where the TLB links nodes on the heap. A
search of it needs no allocation and has no fault but that of the walk, and the search of the TLB
does the same, with one node on the heap for each line and nothing else changed there
(`tlbSearch_lockstep`).
-/

namespace KabyLake.Tlb

open Linked ListT Run

/-- The array, and its lines in the order in which they are replaced. -/
structure Listed where
  tlb : Table
  order : List (Fin tlbLines)

variable {size : ℕ}

/-- `tlb_search` on it. -/
def listedSearch (memSpace : Memory size) (vaddr : VirtAddr) (paddr : PhyAddr) (t : Listed) :
    Exec (Search × Listed) :=
  match t.order.reverse.find? fun i => decide ((t.tlb i).page = some vaddr.vpn) with
  | some i => .ok (⟨.errNone, ⟨(t.tlb i).phyPageNum, vaddr.pageOffset⟩, true⟩,
      ⟨t.tlb, t.order.erase i ++ [i]⟩)
  | none => do
    match ← walkFrame memSpace vaddr, t.order with
    | none, _ => return (⟨.errBadParameter, paddr, false⟩, t)
    | some frame, [] => return (⟨.errNone, ⟨frame, vaddr.pageOffset⟩, false⟩, t)
    | some frame, i :: order =>
      let entry := (tlbEntryInit vaddr ⟨frame, vaddr.pageOffset⟩).2
      return (⟨.errNone, ⟨frame, vaddr.pageOffset⟩, false⟩,
        ⟨Function.update t.tlb i entry, order ++ [i]⟩)

/-- The array flushed and the lines in order. -/
def Listed.start : Listed := ⟨fun _ => ⟨0, 0, false⟩, List.finRange tlbLines⟩

/-- The value of a node. -/
def lineIndex (i : Fin tlbLines) : Word := BitVec.ofNat 32 i

/-- The state has the array, and a node for each line in the order; beside the nodes the heap is
`h₀`. -/
structure Realizes (h₀ : Heap Word) (A : Allocator Word) (s : State) (t : Listed) : Prop where
  tlb : s.tlb = t.tlb
  moveBack_eq : s.policy.moveBack = moveBack A
  built : ∃ ns, Built h₀ ⟨s.heap, s.policy.ll⟩ ns ∧ ns.map Prod.snd = t.order.map lineIndex
  perm : t.order.Perm (List.finRange tlbLines)

theorem lineIndex_toNat (i : Fin tlbLines) : (lineIndex i).toNat = i := by
  have hi := i.isLt
  unfold tlbLines at hi
  simp only [lineIndex, BitVec.toNat_ofNat]
  omega

section Search

variable {h₀ : Heap Word} {A : Allocator Word} {s : State} {t : Listed} {fuel : ℕ}
  {memSpace : Memory size} {vaddr : VirtAddr} {paddr : PhyAddr}

theorem pageAt_lineIndex (tlb : Table) (i : Fin tlbLines) :
    pageAt tlb (lineIndex i) = (tlb i).page := pageAt_ofNat tlb i

/-- The node of a line, and the nodes before and after it. -/
structure NodeAt (h₀ : Heap Word) (s : State) (us : List (ℕ × Word)) (n : ℕ) (i : Fin tlbLines)
    (vs : List (ℕ × Word)) (xs ys : List (Fin tlbLines)) : Prop where
  built : Built h₀ ⟨s.heap, s.policy.ll⟩ (us ++ (n, lineIndex i) :: vs)
  before : us.map Prod.snd = xs.map lineIndex
  after : vs.map Prod.snd = ys.map lineIndex

theorem Realizes.exists_node (h : Realizes h₀ A s t) {i : Fin tlbLines}
    {xs ys : List (Fin tlbLines)} (horder : t.order = xs ++ i :: ys) :
    ∃ us n vs, NodeAt h₀ s us n i vs xs ys
      ∧ (us ++ (n, lineIndex i) :: vs).length = tlbLines := by
  obtain ⟨ns, hb, hvals⟩ := h.built
  have hlen : ns.length = tlbLines := by
    have hmap := congrArg List.length hvals
    rwa [List.length_map, List.length_map, h.perm.length_eq, List.length_finRange] at hmap
  rw [horder, List.map_append, List.map_cons] at hvals
  obtain ⟨us, ns', rfl, hus, hns⟩ := List.map_eq_append_iff.1 hvals
  obtain ⟨⟨n, v⟩, vs, rfl, rfl, hvs⟩ := List.map_eq_cons_iff.1 hns
  exact ⟨us, n, vs, ⟨hb, hus, hvs⟩, hlen⟩

/-- Moving the node of a line to the back moves the line to the end of the order. -/
theorem Realizes.move (h : Realizes h₀ A s t) {us vs : List (ℕ × Word)} {n : ℕ} {i : Fin tlbLines}
    {xs ys : List (Fin tlbLines)} (horder : t.order = xs ++ i :: ys)
    (hnode : NodeAt h₀ s us n i vs xs ys) (tlb : Table) :
    ∃ h' l', s.policy.moveBack s.heap s.policy.ll (some n) = .ok (h', l')
      ∧ Realizes h₀ A ⟨tlb, h', { s.policy with ll := l' }⟩ ⟨tlb, xs ++ ys ++ [i]⟩ := by
  obtain ⟨h', l', n', hmove, hb⟩ := moveBack_built A hnode.built
  refine ⟨h', l', h.moveBack_eq ▸ hmove, rfl, h.moveBack_eq, ⟨_, hb, ?_⟩, ?_⟩
  · simp [hnode.before, hnode.after]
  · refine List.Perm.trans ?_ (horder ▸ h.perm)
    rw [List.append_assoc]
    exact (List.perm_append_singleton i ys).append_left xs

/-- The lines of the nodes that do not hold the page. -/
theorem pageAt_ne {ns : List (ℕ × Word)} {order : List (Fin tlbLines)} {tlb : Table} {p : ℕ}
    (hvals : ns.map Prod.snd = order.map lineIndex) (h : ∀ i ∈ order, (tlb i).page ≠ some p) :
    ∀ n ∈ ns, n.2.toNat < tlbLines ∧ pageAt tlb n.2 ≠ some p := by
  intro n hn
  have hmem : n.2 ∈ order.map lineIndex := hvals ▸ List.mem_map_of_mem hn
  obtain ⟨i, hi, heq⟩ := List.mem_map.1 hmem
  rw [← heq, lineIndex_toNat, pageAt_lineIndex]
  exact ⟨i.isLt, h i hi⟩

/-- A search that hits. -/
theorem tlbSearch_listed_hit (paddr : PhyAddr) (h : Realizes h₀ A s t) (hfuel : tlbLines ≤ fuel)
    {i : Fin tlbLines}
    (hi : t.order.reverse.find? (fun i => decide ((t.tlb i).page = some vaddr.vpn)) = some i) :
    ∃ s', tlbSearch fuel memSpace vaddr paddr s
        = .ok (⟨.errNone, ⟨(t.tlb i).phyPageNum, vaddr.pageOffset⟩, true⟩, s')
      ∧ Realizes h₀ A s' ⟨t.tlb, t.order.erase i ++ [i]⟩ := by
  obtain ⟨tlb, order⟩ := t
  obtain rfl : s.tlb = tlb := h.tlb
  obtain ⟨hpage, as, bs, hsplit, hout⟩ := List.find?_eq_some_iff_append.1 hi
  have horder : order = bs.reverse ++ i :: as.reverse := by
    rw [← List.reverse_reverse order, hsplit]
    simp
  have hrest : ∀ j ∈ as.reverse, (s.tlb j).page ≠ some vaddr.vpn := by
    intro j hj
    simpa using hout j (List.mem_reverse.1 hj)
  obtain ⟨us, n, vs, hnode, hlen⟩ := h.exists_node horder
  have hlt : (lineIndex i).toNat < tlbLines := lineIndex_toNat i ▸ i.isLt
  have hfound := hitNode_some hnode.built.spells hlt
    ((pageAt_lineIndex s.tlb i).trans (of_decide_eq_true hpage)) (pageAt_ne hnode.after hrest)
    (hlen.trans_le hfuel)
  have hline : (⟨(lineIndex i).toNat, hlt⟩ : Fin tlbLines) = i := Fin.ext (lineIndex_toNat i)
  rw [hline] at hfound
  obtain ⟨h', l', hmove, hnext⟩ := h.move horder hnode s.tlb
  have herase : order.erase i = bs.reverse ++ as.reverse := by
    have hnodup : order.Nodup := h.perm.nodup_iff.2 (List.nodup_finRange tlbLines)
    rw [horder, List.nodup_middle, List.nodup_cons] at hnodup
    rw [horder, List.erase_append_right _ fun hm => hnodup.1 (List.mem_append_left _ hm),
      List.erase_cons_head]
  refine ⟨⟨s.tlb, h', { s.policy with ll := l' }⟩, ?_, herase ▸ hnext⟩
  simp only [tlbSearch, tlbHit, hfound, hmove, Exec.ok_bind, if_true, Exec.pure_eq]

theorem tlbHit_listed_miss (paddr : PhyAddr) (h : Realizes h₀ A s t) (hfuel : tlbLines ≤ fuel)
    (hi : t.order.reverse.find? (fun i => decide ((t.tlb i).page = some vaddr.vpn)) = none) :
    tlbHit fuel vaddr paddr s.tlb s.heap s.policy = .ok (false, paddr, s.heap, s.policy) := by
  obtain ⟨ns, hb, hvals⟩ := h.built
  have hlen : ns.length = tlbLines := by
    have hmap := congrArg List.length hvals
    rwa [List.length_map, List.length_map, h.perm.length_eq, List.length_finRange] at hmap
  have hmiss : ∀ i ∈ t.order, (s.tlb i).page ≠ some vaddr.vpn := by
    intro i hm
    rw [List.find?_eq_none] at hi
    simpa [h.tlb] using hi i (List.mem_reverse.2 hm)
  rw [tlbHit, hitNode_none hb.spells (pageAt_ne hvals hmiss) (hlen.trans_le hfuel)]
  rfl

/-- A search that misses, of a page that walks to a frame. -/
theorem tlbSearch_listed_frame (paddr : PhyAddr) (h : Realizes h₀ A s t) (hfuel : tlbLines ≤ fuel)
    (hi : t.order.reverse.find? (fun i => decide ((t.tlb i).page = some vaddr.vpn)) = none)
    {frame : BitVec 20} (hw : walkFrame memSpace vaddr = .ok (some frame)) {i : Fin tlbLines}
    {order : List (Fin tlbLines)} (horder : t.order = i :: order) :
    ∃ s', tlbSearch fuel memSpace vaddr paddr s
        = .ok (⟨.errNone, ⟨frame, vaddr.pageOffset⟩, false⟩, s')
      ∧ Realizes h₀ A s' ⟨Function.update t.tlb i
        (tlbEntryInit vaddr ⟨frame, vaddr.pageOffset⟩).2, order ++ [i]⟩ := by
  obtain ⟨tlb, _⟩ := t
  obtain rfl : s.tlb = tlb := h.tlb
  obtain rfl := horder
  obtain ⟨us, n, vs, hnode, -⟩ := h.exists_node (List.nil_append _).symm
  obtain rfl : us = [] := List.map_eq_nil_iff.1 hnode.before
  obtain ⟨h', l', hmove, hnext⟩ := h.move (List.nil_append _).symm hnode
    (Function.update s.tlb i (tlbEntryInit vaddr ⟨frame, vaddr.pageOffset⟩).2)
  have hspells : Spells s.heap s.policy.ll ((n, lineIndex i) :: vs) := hnode.built.spells
  have hfront : s.policy.ll.front = some n := hspells.front_eq
  have hload := load_front hspells
  rw [hfront] at hload
  refine ⟨_, ?_, hnext⟩
  simp only [tlbSearch, tlbHit_listed_miss paddr h hfuel hi, pageWalk_eq, hw, Except.map,
    Exec.ok_bind, hfront, hload, tlbInsert_eq (lineIndex_toNat i), hmove, tlbEntryInit,
    Bool.false_eq_true, if_false, ne_eq, not_true_eq_false, Exec.pure_eq]

/-- A search does to the array and the order what it does without the heap. -/
theorem tlbSearch_lockstep (memSpace : Memory size) (vaddr : VirtAddr) (paddr : PhyAddr)
    (hfuel : tlbLines ≤ fuel) (h : Realizes h₀ A s t) :
    Lockstep (Realizes h₀ A) (tlbSearch fuel memSpace vaddr paddr s)
      (listedSearch memSpace vaddr paddr t) := by
  rcases hi : t.order.reverse.find? fun i => decide ((t.tlb i).page = some vaddr.vpn) with _ | i
  · have hmiss := tlbHit_listed_miss paddr h hfuel hi
    rcases hw : walkFrame memSpace vaddr with f | _ | frame
    · simp only [tlbSearch, hmiss, pageWalk_eq, listedSearch, hi, hw]
      exact .stop f
    · simp only [tlbSearch, hmiss, pageWalk_eq, listedSearch, hi, hw]
      exact .next _ h
    · rcases horder : t.order with _ | ⟨i, order⟩
      · have hlen := h.perm.length_eq
        rw [horder, List.length_finRange] at hlen
        cases hlen
      · obtain ⟨s', hrun, hnext⟩ := tlbSearch_listed_frame paddr h hfuel hi hw horder
        rw [horder] at hi
        rw [hrun]
        simp only [listedSearch, horder, hi, hw]
        exact .next _ hnext
  · obtain ⟨s', hrun, hnext⟩ := tlbSearch_listed_hit paddr h hfuel hi
    rw [hrun]
    simp only [listedSearch, hi]
    exact .next _ hnext

end Search

section Start

theorem pushLine_built {h₀ : Heap Word} (A : Allocator Word) {x : Heap Word × ListT}
    {ns : List (ℕ × Word)} (hb : Built h₀ ⟨x.1, x.2⟩ ns) (i : ℕ) : ∃ x' n,
      pushLine A x i = .ok x' ∧ Built h₀ ⟨x'.1, x'.2⟩ (ns ++ [(n, BitVec.ofNat 32 i)]) := by
  obtain ⟨h, l⟩ := x
  obtain ⟨h', l', n, hpush, hs', hfree, hframe⟩ := pushBack_spec A hb.spells (BitVec.ofNat 32 i)
  refine ⟨(h', l'), n, ?_, hb.add hs' (by simp) hfree hframe⟩
  simp only [pushLine, hpush, Exec.ok_bind, Exec.pure_eq]

theorem pushLines_built (A : Allocator Word) (h₀ : Heap Word) : ∀ n, ∃ x ns,
    (List.range n).foldlM (pushLine A) (h₀, initList) = .ok x ∧ Built h₀ ⟨x.1, x.2⟩ ns
      ∧ ns.map Prod.snd = (List.range n).map (BitVec.ofNat 32)
  | 0 => ⟨(h₀, initList), [], rfl, ⟨chain_empty h₀, by simp, fun _ _ => rfl⟩, rfl⟩
  | n + 1 => by
    obtain ⟨x, ns, hrun, hb, hvals⟩ := pushLines_built A h₀ n
    obtain ⟨x', p, hpush, hb'⟩ := pushLine_built A hb n
    refine ⟨x', _, ?_, hb', ?_⟩
    · rw [List.range_succ, List.foldlM_append, hrun]
      simp only [Exec.ok_bind, List.foldlM_cons, List.foldlM_nil, hpush, Exec.pure_eq]
    · rw [List.range_succ, List.map_append, List.map_append, hvals]
      rfl

/-- The set-up allocates a node for each line. -/
theorem setUp_realizes (A : Allocator Word) (tlb : Table) (h₀ : Heap Word) :
    ∃ s, setUp A tlb h₀ = .ok s ∧ Realizes h₀ A s Listed.start := by
  obtain ⟨⟨h, l⟩, ns, hrun, hb, hvals⟩ := pushLines_built A h₀ tlbLines
  refine ⟨⟨fun _ => ⟨0, 0, false⟩, h, ⟨l, moveBack A⟩⟩, ?_, rfl, rfl, ⟨ns, hb, ?_⟩,
    List.Perm.refl _⟩
  · simp only [setUp, tlbFlush_eq, Exec.ok_bind, hrun, Exec.pure_eq]
  · rw [hvals, ← List.map_coe_finRange_eq_range, List.map_map]
    rfl

/-- Clearing the list leaves the heap as it was before the set-up. -/
theorem Realizes.clearList {h₀ : Heap Word} {A : Allocator Word} {s : State} {t : Listed}
    (h : Realizes h₀ A s t) {fuel : ℕ} (hfuel : tlbLines < fuel) :
    s.policy.ll.clearList fuel s.heap = .ok (h₀, initList) := by
  obtain ⟨ns, hb, hvals⟩ := h.built
  have hlen := congrArg List.length hvals
  rw [List.length_map, List.length_map, h.perm.length_eq, List.length_finRange] at hlen
  obtain ⟨h', hclear, hgone, hframe⟩ := clearList_spec hb.spells (hlen.trans_lt hfuel)
  have hsame : h' = h₀ := by
    ext1
    funext p
    by_cases hp : p ∈ ns.map Prod.fst
    · rw [hgone p hp, hb.free p hp]
    · rw [hframe p hp]
      exact hb.frame p hp
  rw [← hsame]
  exact hclear

end Start

end KabyLake.Tlb
