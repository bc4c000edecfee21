import KabyLake.Library.Run
import KabyLake.Proofs.LinkedListSpec

/-!
# Runs of list operations

Any sequence of calls on a list is the same sequence of operations on the values it spells: from
`init_list` on no call fails, both directions of the chain spell the values, and the nodes of the
chain are the only ones allocated since (`listRun_refines`).
-/

namespace KabyLake

open Linked Run

/-- The calls on a list; `move_back` is on the node at a position. -/
inductive ListOp
  | pushBack (value : Word)
  | pushFront (value : Word)
  | popFront
  | popBack
  | moveBack (position : ℕ)
  | clear
  deriving DecidableEq, Repr

namespace ListOp

/-- The operation on a sequence of values. -/
def onValues (vs : List Word) : ListOp → List Word
  | pushBack value => vs ++ [value]
  | pushFront value => value :: vs
  | popFront => vs.tail
  | popBack => vs.dropLast
  | moveBack position => vs.eraseIdx position ++ vs[position]?.toList
  | clear => []

/-- The node is in the list. -/
def InRange (vs : List Word) : ListOp → Prop
  | moveBack position => position < vs.length
  | _ => True

theorem length_onValues_le (vs : List Word) (op : ListOp) :
    (op.onValues vs).length ≤ vs.length + 1 := by
  cases op with
  | moveBack position =>
    simp only [onValues, List.length_append, List.length_eraseIdx]
    rcases lt_or_ge position vs.length with h | h
    · simp [h]
    · simp [not_lt.2 h]
  | pushBack value => simp [onValues]
  | pushFront value => simp [onValues]
  | popFront => simp [onValues]; omega
  | popBack => simp [onValues]; omega
  | clear => simp [onValues]

end ListOp

/-- A call, with what `malloc` gives it. -/
structure ListCall where
  op : ListOp
  alloc : Allocator Word

structure ListState where
  heap : Heap Word
  list : ListT

namespace ListT

/-- The node at a position from an address on along `next`. -/
def nodeAt (h : Heap Word) : ℕ → Option ℕ → Exec (Option ℕ)
  | 0, p => .ok p
  | n + 1, p => do
    let (_, c) ← load h p
    nodeAt h n c.next

end ListT

/-- A call, with the node it returns. -/
def listStep (fuel : ℕ) (s : ListState) (call : ListCall) : Exec (Option ℕ × ListState) :=
  match call.op with
  | .pushBack value => do
    let (h, l, added) ← s.list.pushBack call.alloc s.heap value
    return (some added, ⟨h, l⟩)
  | .pushFront value => do
    let (h, l, added) ← s.list.pushFront call.alloc s.heap value
    return (some added, ⟨h, l⟩)
  | .popFront => do
    let (h, l) ← s.list.popFront s.heap
    return (none, ⟨h, l⟩)
  | .popBack => do
    let (h, l) ← s.list.popBack s.heap
    return (none, ⟨h, l⟩)
  | .moveBack position => do
    let node ← ListT.nodeAt s.heap position s.list.front
    let (h, l) ← s.list.moveBack call.alloc s.heap node
    return (none, ⟨h, l⟩)
  | .clear => do
    let (h, l) ← s.list.clearList fuel s.heap
    return (none, ⟨h, l⟩)

variable {h₀ h h' : Heap Word} {l l' : ListT} {ns ns' : List (ℕ × Word)} {vs : List Word}

/-- The list is the chain of these nodes, and beside them the heap is `h₀`. -/
structure Built (h₀ : Heap Word) (s : ListState) (ns : List (ℕ × Word)) : Prop where
  spells : s.list.Spells s.heap ns
  free : ∀ p ∈ ns.map Prod.fst, h₀.cell p = none
  frame : ∀ p, p ∉ ns.map Prod.fst → s.heap.cell p = h₀.cell p

def Represents (h₀ : Heap Word) (s : ListState) (vs : List Word) : Prop :=
  ∃ ns, Built h₀ s ns ∧ ns.map Prod.snd = vs

/-- A call keeps the heap beside its list if it allocates only the nodes it adds, frees those it
takes out and leaves the cells of no node. -/
theorem Built.step (hb : Built h₀ ⟨h, l⟩ ns) (hs : l'.Spells h' ns')
    (hadd : ∀ p ∈ ns'.map Prod.fst, p ∉ ns.map Prod.fst → h.cell p = none)
    (hgone : ∀ p ∈ ns.map Prod.fst, p ∉ ns'.map Prod.fst → h'.cell p = none)
    (hout : ∀ p, p ∉ ns.map Prod.fst → p ∉ ns'.map Prod.fst → h'.cell p = h.cell p) :
    Built h₀ ⟨h', l'⟩ ns' where
  spells := hs
  free p hp := by
    by_cases hold : p ∈ ns.map Prod.fst
    · exact hb.free p hold
    · rw [← hb.frame p hold]
      exact hadd p hp hold
  frame p hp := by
    by_cases hold : p ∈ ns.map Prod.fst
    · rw [hgone p hold hp, hb.free p hold]
    · exact (hout p hold hp).trans (hb.frame p hold)

theorem Built.add (hb : Built h₀ ⟨h, l⟩ ns) (hs : l'.Spells h' ns') {p : ℕ}
    (hmem : ∀ q, q ∈ ns'.map Prod.fst ↔ q ∈ ns.map Prod.fst ∨ q = p) (hfree : h.cell p = none)
    (hout : ∀ q, q ∉ ns.map Prod.fst → q ≠ p → h'.cell q = h.cell q) : Built h₀ ⟨h', l'⟩ ns' := by
  refine hb.step hs (fun q hq hold => ?_) (fun q hold hq => ?_) (fun q hold hq => ?_)
  · rw [((hmem q).1 hq).resolve_left hold, hfree]
  · exact absurd ((hmem q).2 (.inl hold)) hq
  · exact hout q hold fun he => hq ((hmem q).2 (.inr he))

theorem Built.remove (hb : Built h₀ ⟨h, l⟩ ns) (hs : l'.Spells h' ns') {p : ℕ}
    (hmem : ∀ q, q ∈ ns.map Prod.fst ↔ q ∈ ns'.map Prod.fst ∨ q = p) (hgone : h'.cell p = none)
    (hout : ∀ q, q ∉ ns.map Prod.fst → h'.cell q = h.cell q) : Built h₀ ⟨h', l'⟩ ns' := by
  refine hb.step hs (fun q hq hold => ?_) (fun q hold hq => ?_) (fun q hold _ => hout q hold)
  · exact absurd ((hmem q).2 (.inl hq)) hold
  · rw [((hmem q).1 hold).resolve_left hq, hgone]

theorem nodeAt_path {n : ℕ} {v : Word} {ys : List (ℕ × Word)} :
    ∀ {xs : List (ℕ × Word)} {p : Option ℕ}, Path h Cell.next p (xs ++ (n, v) :: ys) →
      ListT.nodeAt h xs.length p = .ok (some n)
  | [], _, hp => congrArg Except.ok hp.1
  | (q, w) :: xs, p, ⟨hq, c, hc, _, hp⟩ => by
    rw [List.length_cons, ListT.nodeAt, hq, ListT.load_eq hc]
    exact nodeAt_path hp

theorem exists_split {position : ℕ} (hlt : position < ns.length) :
    ∃ xs n v ys, ns = xs ++ (n, v) :: ys ∧ xs.length = position := by
  refine ⟨ns.take position, ns[position].1, ns[position].2, ns.drop (position + 1), ?_, ?_⟩
  · rw [Prod.mk.eta, List.getElem_cons_drop, List.take_append_drop]
  · rw [List.length_take]
    omega

/-- `move_back` on the node at a position. -/
theorem moveBack_built (A : Allocator Word) {xs ys : List (ℕ × Word)} {n : ℕ} {v : Word}
    (hb : Built h₀ ⟨h, l⟩ (xs ++ (n, v) :: ys)) :
    ∃ h' l' n', l.moveBack A h (some n) = .ok (h', l')
      ∧ Built h₀ ⟨h', l'⟩ (xs ++ ys ++ [(n', v)]) := by
  obtain ⟨h', l', n', hmove, hs', hn', hframe⟩ := ListT.moveBack_spec A hb.spells
  have hold : ∀ q, q ∈ (xs ++ (n, v) :: ys).map Prod.fst
      ↔ q ∈ (xs ++ ys).map Prod.fst ∨ q = n := fun q => by
    simp only [List.map_append, List.map_cons, List.mem_append, List.mem_cons]
    tauto
  have hnew : ∀ q, q ∈ (xs ++ ys ++ [(n', v)]).map Prod.fst
      ↔ q ∈ (xs ++ ys).map Prod.fst ∨ q = n' := fun q => by simp [or_assoc]
  refine ⟨h', l', n', hmove, hb.step hs' ?_ ?_ ?_⟩
  · intro q hq hqold
    rw [hold, not_or] at hqold
    obtain rfl := ((hnew q).1 hq).resolve_left hqold.1
    rcases hn' with rfl | ⟨-, -, hfree, -⟩
    · exact absurd rfl hqold.2
    · exact hfree
  · intro q hq hqnew
    rw [hnew, not_or] at hqnew
    obtain rfl := ((hold q).1 hq).resolve_left hqnew.1
    rcases hn' with rfl | ⟨-, -, -, hgone⟩
    · exact absurd rfl hqnew.2
    · exact hgone
  · exact fun q hq hqnew => hframe q hq fun he => hqnew ((hnew q).2 (.inr he))

/-- One call does to the chain what its operation does to the values. -/
theorem listStep_represents (call : ListCall) {fuel : ℕ} (hfuel : vs.length < fuel)
    (hin : call.op.InRange vs) {s : ListState} (hr : Represents h₀ s vs) :
    ∃ r s', listStep fuel s call = .ok (r, s') ∧ Represents h₀ s' (call.op.onValues vs) := by
  obtain ⟨ns, hb, rfl⟩ := hr
  obtain ⟨h, l⟩ := s
  have hs := hb.spells
  obtain ⟨op, A⟩ := call
  cases op with
  | pushBack value =>
    obtain ⟨h', l', p, hpush, hs', hfree, hframe⟩ := ListT.pushBack_spec A hs value
    refine ⟨some p, ⟨h', l'⟩, by simp only [listStep, hpush, Exec.ok_bind, Exec.pure_eq],
      ns ++ [(p, value)], hb.add hs' (p := p) (by simp) hfree hframe, by simp [ListOp.onValues]⟩
  | pushFront value =>
    obtain ⟨h', l', p, hpush, hs', hfree, hframe⟩ := ListT.pushFront_spec A hs value
    refine ⟨some p, ⟨h', l'⟩, by simp only [listStep, hpush, Exec.ok_bind, Exec.pure_eq],
      (p, value) :: ns, hb.add hs' (p := p) (by simp [or_comm]) hfree hframe, rfl⟩
  | popFront =>
    rcases ns with _ | ⟨⟨p, v⟩, ns⟩
    · refine ⟨none, ⟨h, l⟩, ?_, [], hb, rfl⟩
      simp [listStep, ListT.popFront, ListT.isEmptyList_nil hs]
    · obtain ⟨h', l', hpop, hs', hgone, hframe⟩ := ListT.popFront_spec hs
      refine ⟨none, ⟨h', l'⟩, by simp only [listStep, hpop, Exec.ok_bind, Exec.pure_eq], ns,
        hb.remove hs' (p := p) (by simp [or_comm]) hgone hframe, rfl⟩
  | popBack =>
    rcases List.eq_nil_or_concat' ns with rfl | ⟨ns, ⟨p, v⟩, rfl⟩
    · refine ⟨none, ⟨h, l⟩, ?_, [], hb, rfl⟩
      simp [listStep, ListT.popBack, ListT.isEmptyList_nil hs]
    · obtain ⟨h', l', hpop, hs', hgone, hframe⟩ := ListT.popBack_spec hs
      refine ⟨none, ⟨h', l'⟩, by simp only [listStep, hpop, Exec.ok_bind, Exec.pure_eq], ns,
        hb.remove hs' (p := p) (by simp) hgone hframe, by simp [ListOp.onValues]⟩
  | moveBack position =>
    have hlt : position < ns.length := by simpa [ListOp.InRange] using hin
    obtain ⟨xs, n, v, ys, rfl, rfl⟩ := exists_split hlt
    obtain ⟨h', l', n', hmove, hb'⟩ := moveBack_built A hb
    have hnode := nodeAt_path (Chain.path_next hs)
    refine ⟨none, ⟨h', l'⟩, ?_, _, hb', ?_⟩
    · simp only [listStep, hnode, hmove, Exec.ok_bind, Exec.pure_eq]
    · simp [ListOp.onValues, List.eraseIdx_append_of_length_le]
  | clear =>
    have hlen : ns.length < fuel := by simpa using hfuel
    obtain ⟨h', hclear, hgone, hframe⟩ := ListT.clearList_spec hs hlen
    refine ⟨none, ⟨h', ListT.initList⟩, by simp only [listStep, hclear, Exec.ok_bind, Exec.pure_eq],
      [], hb.step (chain_empty h') ?_ ?_ ?_, rfl⟩
    · exact fun q hq => absurd hq (by simp)
    · exact fun q hold _ => hgone q hold
    · exact fun q hold _ => hframe q hold

/-- The values a sequence of calls on an empty list leaves, and that each `move_back` is on a node
of its list. -/
def listValues (calls : List ListCall) : List Word :=
  calls.foldl (fun vs call => call.op.onValues vs) []

def InList (calls : List ListCall) : Prop :=
  AlongFold (fun vs call => call.op.onValues vs) (fun vs call => call.op.InRange vs) [] calls

/-- A list is never longer than the calls on it. -/
theorem along_length {fuel : ℕ} : ∀ {calls : List ListCall} {vs : List Word},
    vs.length + calls.length < fuel →
    AlongFold (fun vs call => call.op.onValues vs) (fun vs call => call.op.InRange vs) vs calls →
    AlongFold (fun vs call => call.op.onValues vs)
      (fun vs call => vs.length < fuel ∧ call.op.InRange vs) vs calls
  | [], _, _, _ => trivial
  | call :: calls, vs, hlen, ⟨hin, hrest⟩ => by
    have hle := call.op.length_onValues_le vs
    rw [List.length_cons] at hlen
    exact ⟨⟨by omega, hin⟩, along_length (show (call.op.onValues vs).length + calls.length < fuel by
      omega) hrest⟩

/-- From `init_list` on, a sequence of calls never fails; both directions of the chain spell the
values the operations leave, and of what was free at the start only the nodes of the chain are
allocated. -/
theorem listRun_refines (h₀ : Heap Word) {calls : List ListCall} (hin : InList calls) {fuel : ℕ}
    (hfuel : calls.length < fuel) :
    ∃ rs s ns, run (listStep fuel) ⟨h₀, ListT.initList⟩ calls = .ok (rs, s)
      ∧ ns.map Prod.snd = listValues calls
      ∧ Path s.heap Cell.next s.list.front ns ∧ Path s.heap Cell.previous s.list.back ns.reverse
      ∧ (s.list.front = none ↔ listValues calls = [])
      ∧ (s.list.back = none ↔ listValues calls = [])
      ∧ (ns.map Prod.fst).Nodup
      ∧ (∀ p, h₀.cell p = none → (s.heap.cell p ≠ none ↔ p ∈ ns.map Prod.fst))
      ∧ ∀ p, h₀.cell p ≠ none → s.heap.cell p = h₀.cell p := by
  have hstart : Represents h₀ ⟨h₀, ListT.initList⟩ [] :=
    ⟨[], ⟨chain_empty h₀, by simp, fun _ _ => rfl⟩, rfl⟩
  obtain ⟨rs, s, hrun, ns, hb, hvs⟩ := run_of_fold
    (fun s vs call hr hP => listStep_represents call hP.1 hP.2 hr) calls hstart
    (along_length (by simpa using hfuel) hin)
  have hs := hb.spells
  have hnil : ns = [] ↔ listValues calls = [] := by
    rw [listValues, ← hvs, List.map_eq_nil_iff]
  refine ⟨rs, s, ns, hrun, hvs, hs.path_next, hs.path_previous, ?_, ?_, hs.nodup, fun p hp => ?_,
    fun p hp => hb.frame p fun hm => hp (hb.free p hm)⟩
  · rw [hs.front_eq_none_iff, hnil]
  · rw [hs.back_eq_none_iff, hnil]
  · constructor
    · intro hcell
      by_contra hm
      exact hcell (by rw [hb.frame p hm, hp])
    · intro hm hcell
      exact hs.notMem_of_free hcell hm

/-- Each operation, `move_back` on the first of three nodes and on the inner one. -/
def eachOp : List ListOp :=
  [.pushBack 7, .clear, .pushBack 1, .pushBack 2, .pushFront 3, .moveBack 0, .moveBack 1, .popFront,
    .pushBack 4, .popBack]

theorem listRun_refines_eachOp : ∃ rs s ns,
    run (listStep 11) ⟨Heap.empty, ListT.initList⟩ (eachOp.map fun op => ⟨op, firstFit⟩)
      = .ok (rs, s)
    ∧ ns.map Prod.snd = [3, 2]
    ∧ Path s.heap Cell.next s.list.front ns ∧ Path s.heap Cell.previous s.list.back ns.reverse
    ∧ ∀ p, s.heap.cell p ≠ none ↔ p ∈ ns.map Prod.fst := by
  have hin : InList (eachOp.map fun op => ⟨op, firstFit⟩) := by
    simp [InList, AlongFold, eachOp, ListOp.InRange, ListOp.onValues]
  obtain ⟨rs, s, ns, hrun, hvs, hnext, hprevious, -, -, -, hnodes, -⟩ :=
    listRun_refines Heap.empty hin (show _ < 11 by decide)
  exact ⟨rs, s, ns, hrun, hvs, hnext, hprevious, fun p => hnodes p rfl⟩

end KabyLake
