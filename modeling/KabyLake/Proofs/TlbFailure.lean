import KabyLake.Proofs.TlbHrchyPairs
import KabyLake.Proofs.TlbLru

/-!
# Failed translations

A search fails for its access or in the page walk, and in both designs nothing is written before
that: the tables, the list and `paddr` are as they were (`tlbSearch_error_unchanged`). The
fully-associative search could fail after the walk too, but not with the index of a line at the
front of its list.
-/

namespace KabyLake

open Linked

variable {size fuel : ℕ} {memSpace : Memory size} {vaddr : VirtAddr} {paddr : PhyAddr}

theorem TlbHrchy.unchanged_of_error {access : MemAccess} {s s' : Tlbs} {r : Search}
    (h : tlbSearch memSpace vaddr paddr access s = .ok (r, s')) (herr : r.err ≠ .errNone) :
    s' = s ∧ r.paddr = paddr := by
  by_cases ha : access = .invalid
  · rw [ha, tlbSearch_invalid] at h
    cases h
    exact ⟨rfl, rfl⟩
  cases searched ha h with
  | failed => exact ⟨rfl, rfl⟩
  | first | second | filled => exact absurd rfl herr

namespace Tlb

open ListT

variable {s s' : State} {r : Search} {ns : List (ℕ × Word)}

/-- `tlb_hit` hits, or leaves everything. -/
theorem tlbHit_cases {tlb : Table} {heap heap' : Heap Word} {policy policy' : ReplacementPolicy}
    {hit : Bool} {pa : PhyAddr}
    (h : tlbHit fuel vaddr paddr tlb heap policy = .ok (hit, pa, heap', policy')) :
    hit = true ∨ hit = false ∧ pa = paddr ∧ heap' = heap ∧ policy' = policy := by
  simp only [tlbHit] at h
  rcases hnode : hitNode heap tlb (virtAddrToVirtualPageNumber vaddr) fuel policy.ll.back
    with e | _ | ⟨node, e⟩ <;> rw [hnode] at h
  · cases h
  · cases h
    exact .inr ⟨rfl, rfl, rfl, rfl⟩
  · simp only [Exec.ok_bind] at h
    rcases hmove : policy.moveBack heap policy.ll (some node) with e | ⟨heap'', ll⟩ <;>
      rw [hmove] at h <;> cases h
    exact .inl rfl

/-- The value at the front of a list of line indices is one. -/
theorem front_lt (hs : Spells s.heap s.policy.ll ns) (hlines : ∀ n ∈ ns, n.2.toNat < tlbLines)
    {q : ℕ} {c : Cell Word} (h : load s.heap s.policy.ll.front = .ok (q, c)) :
    c.value.toNat < tlbLines := by
  rcases ns with _ | ⟨⟨p, i⟩, ns⟩
  · rw [hs.front_eq_none_iff.2 rfl] at h
    cases h
  · rw [load_front hs] at h
    cases h
    exact hlines _ List.mem_cons_self

theorem unchanged_of_error (hs : Spells s.heap s.policy.ll ns)
    (hlines : ∀ n ∈ ns, n.2.toNat < tlbLines)
    (h : tlbSearch fuel memSpace vaddr paddr s = .ok (r, s')) (herr : r.err ≠ .errNone) :
    s' = s ∧ r.paddr = paddr := by
  unfold tlbSearch at h
  rcases hhit : tlbHit fuel vaddr paddr s.tlb s.heap s.policy with e | ⟨hit, pa, heap, policy⟩ <;>
    rw [hhit] at h
  · cases h
  rw [Exec.ok_bind] at h
  rcases tlbHit_cases hhit with rfl | ⟨rfl, rfl, rfl, rfl⟩
  · cases h
    exact absurd rfl herr
  simp only [Bool.false_eq_true, if_false, pageWalk_eq] at h
  rcases hw : walkFrame memSpace vaddr with e | _ | frame <;> rw [hw] at h
  · cases h
  · cases h
    exact ⟨rfl, rfl⟩
  -- the walk has found a frame: from here on no step fails
  simp only [Except.map, Exec.ok_bind, tlbEntryInit, ne_eq, not_true_eq_false, if_false] at h
  rcases hload : load s.heap s.policy.ll.front with e | ⟨q, c⟩ <;> rw [hload] at h
  · cases h
  have hvalue : c.value.toNat = (⟨c.value.toNat, front_lt hs hlines hload⟩ : Fin tlbLines) := rfl
  rw [Exec.ok_bind, tlbInsert_eq hvalue, Exec.ok_bind] at h
  simp only [not_true_eq_false, if_false] at h
  rcases hmove : s.policy.moveBack s.heap s.policy.ll s.policy.ll.front with e | ⟨heap, ll⟩ <;>
    rw [hmove] at h <;> cases h
  exact absurd rfl herr

end Tlb

/-- A search of either TLB that returns an error leaves the tables, the list and `paddr` as they
were. -/
theorem tlbSearch_error_unchanged (memSpace : Memory size) (vaddr : VirtAddr) (paddr : PhyAddr) :
    (∀ access (s s' : TlbHrchy.Tlbs) (r : TlbHrchy.Search),
        TlbHrchy.tlbSearch memSpace vaddr paddr access s = .ok (r, s') → r.err ≠ .errNone →
          s' = s ∧ r.paddr = paddr)
      ∧ ∀ fuel (s s' : Tlb.State) (r : Tlb.Search) (ns : List (ℕ × Word)),
        ListT.Spells s.heap s.policy.ll ns → (∀ n ∈ ns, n.2.toNat < Tlb.tlbLines) →
          Tlb.tlbSearch fuel memSpace vaddr paddr s = .ok (r, s') → r.err ≠ .errNone →
            s' = s ∧ r.paddr = paddr :=
  ⟨fun _ _ _ _ => TlbHrchy.unchanged_of_error, fun _ _ _ _ _ => Tlb.unchanged_of_error⟩

/-- An array of which every entry is valid, and a list of the lines 5 and 6. -/
def twoEntries : Tlb.State :=
  ⟨fun _ => ⟨9, 7, true⟩,
    (Heap.empty.set 0 (some ⟨5, none, some 1⟩)).set 1 (some ⟨6, some 0, none⟩),
    ⟨⟨some 0, some 1⟩, ListT.moveBack firstFit⟩⟩

/-- A page that is its own tables, with a last entry for page 3 that is not page-aligned. -/
def unalignedEntry : Memory 4096 := fun j => if j.val = 12 then 1 else 0

theorem tlbSearch_error_unchanged_entry :
    (∃ r s', TlbHrchy.tlbSearch unalignedEntry ⟨0, 0, 0, 0, 3, 7⟩ ⟨6, 6⟩ .data TlbHrchy.fullTlbs
        = .ok (r, s') ∧ s' = TlbHrchy.fullTlbs ∧ r.paddr = ⟨6, 6⟩)
      ∧ ∃ r s', Tlb.tlbSearch 3 unalignedEntry ⟨0, 0, 0, 0, 3, 7⟩ ⟨6, 6⟩ twoEntries = .ok (r, s')
        ∧ s' = twoEntries ∧ r.paddr = ⟨6, 6⟩ := by
  obtain ⟨hhrchy, hfull⟩ := tlbSearch_error_unchanged unalignedEntry ⟨0, 0, 0, 0, 3, 7⟩ ⟨6, 6⟩
  have hspells : ListT.Spells twoEntries.heap twoEntries.policy.ll [(0, 5), (1, 6)] :=
    ⟨by decide, ⟨rfl, rfl, trivial⟩, rfl, rfl⟩
  refine ⟨⟨_, _, rfl, hhrchy .data _ _ _ rfl (by decide)⟩, _, _, rfl, ?_⟩
  exact hfull 3 twoEntries _ _ [(0, 5), (1, 6)] hspells (by decide) rfl (by decide)

end KabyLake
