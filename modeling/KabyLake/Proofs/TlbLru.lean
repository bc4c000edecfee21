import KabyLake.Library.Recency
import KabyLake.Proofs.LinkedListSpec
import KabyLake.Proofs.Walk
import KabyLake.Tlb

/-!
# One search of the fully-associative TLB

`Ordered s used`: the list holds every line once, and read from its back the lines hold the pages of
`used` in order of recency, followed by the lines not used yet. A search of a page among the first
128 hits and moves its line to the back; any other walks, and puts the page in the line at the
front.
-/

namespace KabyLake.Tlb

open Linked Recency ListT

def TlbEntry.page (e : TlbEntry) : Option ℕ := if e.v then some e.tag.toNat else none

/-- The page of a line given by its index. -/
def pageAt (tlb : Table) (i : Word) : Option ℕ :=
  if h : i.toNat < tlbLines then (tlb ⟨i.toNat, h⟩).page else none

def lineIndices : List Word := (List.range tlbLines).map (BitVec.ofNat 32)

/-- The list holds every line once. -/
structure Lists (A : Allocator Word) (s : State) (ns : List (ℕ × Word)) : Prop where
  moveBack_eq : s.policy.moveBack = moveBack A
  spells : Spells s.heap s.policy.ll ns
  perm : (ns.map Prod.snd).Perm lineIndices

/-- And from its back the lines are in order of recency. -/
def Ordered (A : Allocator Word) (s : State) (used : List ℕ) : Prop :=
  ∃ ns, Lists A s ns
    ∧ ns.reverse.map (fun n => pageAt s.tlb n.2) = padded tlbLines (recency used)

theorem TlbEntry.page_eq_some_iff {e : TlbEntry} {p : ℕ} :
    e.page = some p ↔ e.v = true ∧ e.tag.toNat = p := by
  unfold TlbEntry.page
  split_ifs with hv <;> simp [hv]

theorem page_tlbEntryInit (vaddr : VirtAddr) (paddr : PhyAddr) :
    (tlbEntryInit vaddr paddr).2.page = some vaddr.vpn := by
  have h := vaddr.vpn_lt
  rw [TlbEntry.page_eq_some_iff]
  refine ⟨rfl, ?_⟩
  simp only [tlbEntryInit, BitVec.toNat_setWidth, virtAddrToVirtualPageNumber_toNat]
  exact Nat.mod_eq_of_lt h

theorem mem_lineIndices {i : Word} : i ∈ lineIndices ↔ i.toNat < tlbLines := by
  simp only [lineIndices, List.mem_map, List.mem_range]
  constructor
  · rintro ⟨n, hn, rfl⟩
    simp only [tlbLines, BitVec.toNat_ofNat] at hn ⊢
    omega
  · intro hi
    exact ⟨i.toNat, hi, by simp⟩

theorem nodup_lineIndices : lineIndices.Nodup := by
  refine List.Nodup.map_on ?_ List.nodup_range
  intro m hm n hn h
  simp only [tlbLines, List.mem_range] at hm hn
  have := congrArg BitVec.toNat h
  simp only [BitVec.toNat_ofNat] at this
  omega

section Lists

variable {A : Allocator Word} {s : State} {ns us vs : List (ℕ × Word)} {n : ℕ} {i : Word}

theorem Lists.lt (hl : Lists A s ns) (hm : (n, i) ∈ ns) : i.toNat < tlbLines :=
  mem_lineIndices.1 (hl.perm.mem_iff.1 (List.mem_map_of_mem hm))

theorem Lists.nodup (hl : Lists A s ns) : (ns.map Prod.snd).Nodup :=
  hl.perm.nodup_iff.2 nodup_lineIndices

theorem Lists.length (hl : Lists A s ns) : ns.length = tlbLines := by
  have := hl.perm.length_eq
  simpa [lineIndices] using this

theorem Lists.exists_node (hl : Lists A s ns) (j : Fin tlbLines) :
    ∃ n, (n, BitVec.ofNat 32 j) ∈ ns := by
  have hm : BitVec.ofNat 32 j ∈ ns.map Prod.snd :=
    hl.perm.mem_iff.2 (List.mem_map_of_mem (List.mem_range.2 j.isLt))
  obtain ⟨⟨n, w⟩, hn, rfl⟩ := List.mem_map.1 hm
  exact ⟨n, hn⟩

end Lists

theorem pageAt_ofNat (tlb : Table) (j : Fin tlbLines) :
    pageAt tlb (BitVec.ofNat 32 j) = (tlb j).page := by
  have hj : (BitVec.ofNat 32 j.val).toNat = j.val := by
    have := j.isLt
    simp only [tlbLines] at this
    simp only [BitVec.toNat_ofNat]
    omega
  simp only [pageAt, hj, j.isLt, dif_pos]

theorem pageAt_update {tlb : Table} {i : Word} (hi : i.toNat < tlbLines) (e : TlbEntry) (j : Word) :
    pageAt (Function.update tlb ⟨i.toNat, hi⟩ e) j = if j = i then e.page else pageAt tlb j := by
  unfold pageAt
  by_cases hji : j = i
  · subst hji
    rw [dif_pos hi, if_pos rfl, Function.update_self]
  · have hne : j.toNat ≠ i.toNat := fun h => hji (BitVec.eq_of_toNat_eq h)
    rw [if_neg hji]
    split_ifs with hj
    · rw [Function.update_of_ne (by simpa using hne)]
    · rfl

section Search

variable {size : ℕ} {A : Allocator Word} {s : State} {used : List ℕ} {fuel : ℕ}
  {memSpace : Memory size} {vaddr : VirtAddr} {paddr : PhyAddr} {ns us vs : List (ℕ × Word)}

theorem hitCond_iff {e : TlbEntry} :
    (virtAddrToVirtualPageNumber vaddr = e.tag.setWidth 64 ∧ e.v = true)
      ↔ e.page = some vaddr.vpn := by
  have h := e.tag.isLt
  rw [TlbEntry.page_eq_some_iff, ← BitVec.toNat_inj, virtAddrToVirtualPageNumber_toNat,
    BitVec.toNat_setWidth, Nat.mod_eq_of_lt (by omega)]
  constructor
  · rintro ⟨ht, hv⟩
    exact ⟨hv, ht.symm⟩
  · rintro ⟨hv, ht⟩
    exact ⟨ht.symm, hv⟩

/-- The loop passes the nodes at the back that do not hold the page. -/
theorem hitNode_skip {h : Heap Word} {tlb : Table} (vs : List (ℕ × Word))
    (hvs : ∀ n ∈ vs, n.2.toNat < tlbLines ∧ pageAt tlb n.2 ≠ some vaddr.vpn) :
    ∀ {fuel : ℕ} {b : Option ℕ}, Seg h none (us ++ vs) b →
      hitNode h tlb (virtAddrToVirtualPageNumber vaddr) (vs.length + fuel) (lastOr none (us ++ vs))
        = hitNode h tlb (virtAddrToVirtualPageNumber vaddr) fuel (lastOr none us) := by
  induction vs using List.reverseRecOn with
  | nil => simp
  | append_singleton vs n ih =>
    intro fuel b hseg
    obtain ⟨q, i⟩ := n
    obtain ⟨hlt, hpage⟩ := hvs (q, i) (by simp)
    rw [← List.append_assoc] at hseg ⊢
    obtain ⟨hseg, hcell, -⟩ := seg_append.1 hseg
    have hmiss : ¬ (virtAddrToVirtualPageNumber vaddr = (tlb ⟨i.toNat, hlt⟩).tag.setWidth 64
        ∧ (tlb ⟨i.toNat, hlt⟩).v = true) := by
      rw [hitCond_iff]
      simpa [pageAt, hlt] using hpage
    have hlen : (vs ++ [(q, i)]).length + fuel = vs.length + fuel + 1 := by
      simp
      omega
    rw [lastOr_concat, hlen, hitNode, load_eq hcell]
    simp only [Exec.ok_bind, line, dif_pos hlt, hmiss, if_false]
    exact ih (fun n hn => hvs n (by simp [hn])) hseg

theorem hitNode_none {h : Heap Word} {l : ListT} {tlb : Table} (hs : Spells h l ns)
    (hns : ∀ n ∈ ns, n.2.toNat < tlbLines ∧ pageAt tlb n.2 ≠ some vaddr.vpn)
    (hfuel : ns.length ≤ fuel) :
    hitNode h tlb (virtAddrToVirtualPageNumber vaddr) fuel l.back = .ok none := by
  obtain ⟨k, rfl⟩ := Nat.exists_eq_add_of_le hfuel
  have hback : l.back = lastOr none ([] ++ ns) := hs.back_eq
  rw [hback, hitNode_skip ns hns hs.seg]
  rcases k with _ | k <;> rfl

theorem hitNode_some {h : Heap Word} {l : ListT} {tlb : Table} {q : ℕ} {i : Word}
    (hs : Spells h l (us ++ (q, i) :: vs)) (hlt : i.toNat < tlbLines)
    (hpage : pageAt tlb i = some vaddr.vpn)
    (hvs : ∀ n ∈ vs, n.2.toNat < tlbLines ∧ pageAt tlb n.2 ≠ some vaddr.vpn)
    (hfuel : (us ++ (q, i) :: vs).length ≤ fuel) :
    hitNode h tlb (virtAddrToVirtualPageNumber vaddr) fuel l.back
      = .ok (some (q, tlb ⟨i.toNat, hlt⟩)) := by
  obtain ⟨k, rfl⟩ : ∃ k, fuel = vs.length + (k + 1) :=
    ⟨fuel - vs.length - 1, by simp at hfuel; omega⟩
  have hsplit : us ++ (q, i) :: vs = (us ++ [(q, i)]) ++ vs := by simp
  have hseg := hs.seg
  have hback : l.back = lastOr none (us ++ (q, i) :: vs) := hs.back_eq
  rw [hsplit] at hseg hback
  have hhit : virtAddrToVirtualPageNumber vaddr = (tlb ⟨i.toNat, hlt⟩).tag.setWidth 64
      ∧ (tlb ⟨i.toNat, hlt⟩).v = true := by
    rw [hitCond_iff]
    simpa [pageAt, hlt] using hpage
  rw [hback, hitNode_skip vs hvs hseg, lastOr_concat, hitNode, load_eq hs.cell]
  simp only [Exec.ok_bind, line, dif_pos hlt, hhit, and_self, if_true, Exec.pure_eq]

theorem exists_last_node {tlb : Table} {p : ℕ}
    (h : some p ∈ ns.reverse.map fun n => pageAt tlb n.2) :
    ∃ us q i vs, ns = us ++ (q, i) :: vs ∧ pageAt tlb i = some p
      ∧ ∀ n ∈ vs, pageAt tlb n.2 ≠ some p := by
  obtain ⟨ps, qs, hsplit, hout⟩ := List.eq_append_cons_of_mem h
  obtain ⟨vs, rest, hns, rfl, hrest⟩ := List.map_eq_append_iff.1 hsplit
  obtain ⟨⟨q, i⟩, us, rfl, hpage, -⟩ := List.map_eq_cons_iff.1 hrest
  refine ⟨us.reverse, q, i, vs.reverse, ?_, hpage, fun n hn he => hout ?_⟩
  · rw [← List.reverse_reverse ns, hns]
    simp
  · exact List.mem_map.2 ⟨n, List.mem_reverse.1 hn, he⟩

/-- A search of one of the 128 most recently used pages. -/
theorem tlbSearch_hit (memSpace : Memory size) (paddr : PhyAddr) (ho : Ordered A s used)
    (hfuel : tlbLines ≤ fuel) (hmem : vaddr.vpn ∈ (recency used).take tlbLines) :
    ∃ i s', (s.tlb i).page = some vaddr.vpn
      ∧ tlbSearch fuel memSpace vaddr paddr s
          = .ok (⟨.errNone, ⟨(s.tlb i).phyPageNum, vaddr.pageOffset⟩, true⟩, s')
      ∧ s'.tlb = s.tlb ∧ Ordered A s' (vaddr.vpn :: used) := by
  obtain ⟨ns, hl, hpages⟩ := ho
  have hin : some vaddr.vpn ∈ ns.reverse.map fun n => pageAt s.tlb n.2 := by
    rw [hpages]
    exact some_mem_padded.2 hmem
  obtain ⟨us, q, i, vs, rfl, hpage, hvs⟩ := exists_last_node hin
  have hlt : i.toNat < tlbLines := hl.lt (n := q) (by simp)
  have hnode := hitNode_some hl.spells hlt hpage
    (fun n hn => ⟨hl.lt (n := n.1) (by simp [hn]), hvs n hn⟩) (hl.length.trans_le hfuel)
  obtain ⟨h', l', q', hmove, hspells, -, -⟩ := moveBack_spec A hl.spells
  have hrun : tlbHit fuel vaddr paddr s.tlb s.heap s.policy
      = .ok (true, ⟨(s.tlb ⟨i.toNat, hlt⟩).phyPageNum, vaddr.pageOffset⟩, h',
          { s.policy with ll := l' }) := by
    simp only [tlbHit, hnode, hl.moveBack_eq, hmove, Exec.ok_bind, Exec.pure_eq]
  refine ⟨⟨i.toNat, hlt⟩, ⟨s.tlb, h', { s.policy with ll := l' }⟩, ?_, ?_, rfl, ?_⟩
  · simpa [pageAt, hlt] using hpage
  · simp only [tlbSearch, hrun, Exec.ok_bind, if_true, Exec.pure_eq]
  · refine ⟨us ++ vs ++ [(q', i)], ⟨hl.moveBack_eq, hspells, ?_⟩, ?_⟩
    · refine List.Perm.trans ?_ hl.perm
      simp only [List.map_append, List.map_cons, List.map_nil, List.append_assoc]
      exact (List.perm_append_left_iff _).2 List.perm_append_comm
    · have hvs' : some vaddr.vpn ∉ vs.reverse.map fun n => pageAt s.tlb n.2 := by
        intro hm
        obtain ⟨n, hn, he⟩ := List.mem_map.1 hm
        exact hvs n (List.mem_reverse.1 hn) he
      rw [recency_cons, padded_touch_of_mem hmem, ← hpages]
      simp only [List.reverse_append, List.reverse_cons, List.reverse_nil, List.nil_append,
        List.cons_append, List.map_append, List.map_cons, hpage, List.append_assoc,
        touch_append hvs']

/-- The replacement of a miss: the line at the front takes the page and moves to the back. -/
theorem insert_front (ho : Ordered A s used) {p : ℕ} {e : TlbEntry} (he : e.page = some p)
    (hmem : p ∉ (recency used).take tlbLines) :
    ∃ q c i h' l', load s.heap s.policy.ll.front = .ok (q, c) ∧ c.value.toNat = i.val
      ∧ (s.tlb i).page = (recency used)[tlbLines - 1]?
      ∧ s.policy.moveBack s.heap s.policy.ll s.policy.ll.front = .ok (h', l')
      ∧ Ordered A ⟨Function.update s.tlb i e, h', { s.policy with ll := l' }⟩ (p :: used) := by
  obtain ⟨ns, hl, hpages⟩ := ho
  rcases ns with _ | ⟨⟨q, i⟩, ns⟩
  · have := hl.length
    simp [tlbLines] at this
  have hlt : i.toNat < tlbLines := hl.lt (n := q) (by simp)
  have hfront : s.policy.ll.front = some q := hl.spells.front_eq
  have hload := load_front hl.spells
  have hspells : Spells s.heap s.policy.ll ([] ++ (q, i) :: ns) := hl.spells
  obtain ⟨h', l', q', hmove, hspells, -, -⟩ := moveBack_spec A hspells
  have hout : i ∉ ns.map Prod.snd := (List.nodup_cons.1 hl.nodup).1
  refine ⟨q, ⟨i, none, headOr ns none⟩, ⟨i.toNat, hlt⟩, h', l', hload, rfl, ?_, ?_, ns ++ [(q', i)],
    ⟨hl.moveBack_eq, hspells, ?_⟩, ?_⟩
  · have hlast := getLast?_padded (tlbLines - 1) (recency used)
    rw [Nat.sub_add_cancel (by simp [tlbLines]), ← hpages] at hlast
    simpa [pageAt, hlt] using hlast
  · rw [hfront, hl.moveBack_eq, hmove]
  · refine List.Perm.trans ?_ hl.perm
    rw [List.map_append]
    exact List.perm_append_comm
  · have hrest : ∀ n ∈ ns.reverse,
        pageAt (Function.update s.tlb ⟨i.toNat, hlt⟩ e) n.2 = pageAt s.tlb n.2 := by
      intro n hn
      have hni : n.2 ≠ i := fun h => hout (h ▸ List.mem_map_of_mem (List.mem_reverse.1 hn))
      rw [pageAt_update, if_neg hni]
    have hnew : pageAt (Function.update s.tlb ⟨i.toNat, hlt⟩ e) i = some p := by
      rw [pageAt_update, if_pos rfl, he]
    have hpad : padded tlbLines (touch p (recency used))
        = some p :: (padded tlbLines (recency used)).dropLast :=
      padded_touch_of_notMem (n := tlbLines - 1) hmem
    rw [recency_cons, hpad, ← hpages]
    simp only [List.reverse_append, List.reverse_cons, List.reverse_nil, List.nil_append,
      List.cons_append, List.map_cons, List.map_append, List.map_nil, List.dropLast_concat, hnew]
    rw [List.map_congr_left hrest]

theorem tlbInsert_eq {i : Word} {j : Fin tlbLines} (h : i.toNat = j) (e : TlbEntry) (tlb : Table) :
    tlbInsert i e tlb = .ok (.errNone, Function.update tlb j e) := by
  simp only [tlbInsert, setLine, h, j.isLt, if_true, dif_pos, Exec.ok_bind, Exec.pure_eq]

theorem tlbHit_miss (ho : Ordered A s used) (hfuel : tlbLines ≤ fuel)
    (hmem : vaddr.vpn ∉ (recency used).take tlbLines) :
    tlbHit fuel vaddr paddr s.tlb s.heap s.policy = .ok (false, paddr, s.heap, s.policy) := by
  obtain ⟨ns, hl, hpages⟩ := ho
  have hns : ∀ n ∈ ns, n.2.toNat < tlbLines ∧ pageAt s.tlb n.2 ≠ some vaddr.vpn := by
    refine fun n hn => ⟨hl.lt (n := n.1) hn, fun he => hmem (some_mem_padded.1 ?_)⟩
    rw [← hpages, ← he]
    exact List.mem_map_of_mem (List.mem_reverse.2 hn)
  rw [tlbHit, hitNode_none hl.spells hns (hl.length.trans_le hfuel)]
  rfl

/-- A search of any other page that walks to no frame changes nothing. -/
theorem tlbSearch_miss_of_no_frame (paddr : PhyAddr) (ho : Ordered A s used)
    (hfuel : tlbLines ≤ fuel) (hmem : vaddr.vpn ∉ (recency used).take tlbLines)
    (hw : ∀ frame, walkFrame memSpace vaddr ≠ .ok (some frame)) :
    tlbSearch fuel memSpace vaddr paddr s
      = (walkFrame memSpace vaddr).map fun _ => (⟨.errBadParameter, paddr, false⟩, s) := by
  simp only [tlbSearch, tlbHit_miss ho hfuel hmem, Exec.ok_bind, pageWalk_eq]
  rcases hwalk : walkFrame memSpace vaddr with f | _ | frame
  · rfl
  · rfl
  · exact absurd hwalk (hw frame)

/-- A search of any other page that walks to a frame replaces the line at the front. -/
theorem tlbSearch_miss_of_frame (paddr : PhyAddr) (ho : Ordered A s used)
    (hfuel : tlbLines ≤ fuel) (hmem : vaddr.vpn ∉ (recency used).take tlbLines) {frame : BitVec 20}
    (hw : walkFrame memSpace vaddr = .ok (some frame)) :
    ∃ i s', (s.tlb i).page = (recency used)[tlbLines - 1]?
      ∧ tlbSearch fuel memSpace vaddr paddr s
          = .ok (⟨.errNone, ⟨frame, vaddr.pageOffset⟩, false⟩, s')
      ∧ s'.tlb
          = Function.update s.tlb i (tlbEntryInit vaddr ⟨frame, vaddr.pageOffset⟩).2
      ∧ Ordered A s' (vaddr.vpn :: used) := by
  obtain ⟨q, c, i, h', l', hload, hval, hpage, hmove, ho'⟩ :=
    insert_front ho (page_tlbEntryInit vaddr ⟨frame, vaddr.pageOffset⟩) hmem
  refine ⟨i, _, hpage, ?_, rfl, ho'⟩
  simp only [tlbSearch, tlbHit_miss ho hfuel hmem, pageWalk_eq, hw, Except.map, Exec.ok_bind, hload,
    tlbInsert_eq hval, hmove, tlbEntryInit, Bool.false_eq_true, if_false, ne_eq, not_true_eq_false,
    Exec.pure_eq]

end Search

end KabyLake.Tlb
