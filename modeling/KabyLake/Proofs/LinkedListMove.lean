import KabyLake.Proofs.LinkedListSpec

/-!
# The node that is moved

`move_back` is given a node and moves that node, but for the first of several: there a new node
takes its value to the end and the one given is freed (`moveBack_moves_iff`).
-/

namespace KabyLake.ListT

open Linked

variable {h h' : Heap Word} {l l' : ListT} {xs ys ns ns' : List (ℕ × Word)} {n : ℕ} {v : Word}

/-- The node is the back, the others are as they were, and no node has been allocated or freed. -/
def MovesNode (A : Allocator Word) (h : Heap Word) (l : ListT) (xs : List (ℕ × Word)) (n : ℕ)
    (v : Word) (ys : List (ℕ × Word)) : Prop :=
  ∃ h' l', moveBack A h l (some n) = .ok (h', l') ∧ l'.back = some n
    ∧ Spells h' l' (xs ++ ys ++ [(n, v)])
    ∧ ∀ k, h'.cell k = none ↔ h.cell k = none

/-- If the nodes of a list are the same and nothing changes outside them, no cell comes or goes. -/
theorem cell_eq_none_iff (hs : Spells h l ns) (hs' : Spells h' l' ns') (hperm : ns'.Perm ns)
    (hframe : ∀ k, k ∉ ns.map Prod.fst → h'.cell k = h.cell k) (k : ℕ) :
    h'.cell k = none ↔ h.cell k = none := by
  by_cases hk : k ∈ ns.map Prod.fst
  · obtain ⟨⟨k, w⟩, hmem, rfl⟩ := List.mem_map.1 hk
    obtain ⟨a, b, hcell⟩ := hs.cell_of_mem hmem
    obtain ⟨a', b', hcell'⟩ := hs'.cell_of_mem (hperm.mem_iff.2 hmem)
    rw [hcell, hcell']
    exact iff_of_false nofun nofun
  · rw [hframe k hk]

theorem not_movesNode_first (A : Allocator Word) (hs : Spells h l ((n, v) :: ys)) (hys : ys ≠ []) :
    ¬ MovesNode A h l [] n v ys := by
  rintro ⟨h', l', hmove, -, -, hcells⟩
  obtain ⟨h'', l'', n', hmove', -, -, hgone, -⟩ := moveBack_first A hs hys
  have hspells : Spells h l ([] ++ (n, v) :: ys) := hs
  rw [hmove, Except.ok.injEq, Prod.mk.injEq] at hmove'
  rw [← hmove'.1, hcells n, hspells.cell] at hgone
  cases hgone

/-- A node of a list is itself moved to the end exactly if it is not the first of several. -/
theorem moveBack_moves_iff (A : Allocator Word) (hs : Spells h l (xs ++ (n, v) :: ys)) :
    MovesNode A h l xs n v ys ↔ ¬ (xs = [] ∧ ys ≠ []) := by
  constructor
  · rintro hmoves ⟨rfl, hys⟩
    exact not_movesNode_first A hs hys hmoves
  intro hnot
  rcases ys with _ | ⟨⟨q, x⟩, ys⟩
  · refine ⟨h, l, moveBack_last A hs, ?_, by simpa using hs, fun _ => Iff.rfl⟩
    rw [hs.back_eq, lastOr_concat]
  rcases List.eq_nil_or_concat' xs with rfl | ⟨xs, ⟨r, u⟩, rfl⟩
  · exact absurd ⟨rfl, List.cons_ne_nil _ _⟩ hnot
  · rw [List.append_assoc] at hs
    obtain ⟨h', l', hmove, hs', hframe⟩ := moveBack_inner A hs
    have hperm : (xs ++ (r, u) :: (q, x) :: ys ++ [(n, v)]).Perm
        (xs ++ (r, u) :: (n, v) :: (q, x) :: ys) := by
      rw [List.append_assoc]
      refine List.Perm.append_left xs (List.Perm.cons _ ?_)
      exact List.perm_append_singleton (n, v) ((q, x) :: ys)
    refine ⟨h', l', hmove, ?_, by simpa using hs', cell_eq_none_iff hs hs' hperm hframe⟩
    rw [hs'.back_eq, lastOr_concat]

/-- Three nodes, at 0, 1 and 2. -/
def threeNodes : Heap Word :=
  ((Heap.empty.set 0 (some ⟨5, none, some 1⟩)).set 1 (some ⟨6, some 0, some 2⟩)).set 2
    (some ⟨7, some 1, none⟩)

theorem threeNodes_spells : Spells threeNodes ⟨some 0, some 2⟩ [(0, 5), (1, 6), (2, 7)] :=
  ⟨by decide, ⟨rfl, rfl, rfl, trivial⟩, rfl, rfl⟩

/-- The inner node and the last. -/
theorem moveBack_moves_inner :
    MovesNode firstFit threeNodes ⟨some 0, some 2⟩ [(0, 5)] 1 6 [(2, 7)]
      ∧ MovesNode firstFit threeNodes ⟨some 0, some 2⟩ [(0, 5), (1, 6)] 2 7 [] :=
  ⟨(moveBack_moves_iff firstFit threeNodes_spells).2 nofun,
    (moveBack_moves_iff firstFit threeNodes_spells).2 nofun⟩

/-- Two nodes, at 0 and at 1. -/
def twoNodes : Heap Word :=
  (Heap.empty.set 0 (some ⟨5, none, some 1⟩)).set 1 (some ⟨6, some 0, none⟩)

theorem twoNodes_spells : Spells twoNodes ⟨some 0, some 1⟩ [(0, 5), (1, 6)] :=
  ⟨by decide, ⟨rfl, rfl, trivial⟩, rfl, rfl⟩

/-- The first of two nodes is not the one moved. -/
theorem moveBack_loses_first :
    Spells twoNodes ⟨some 0, some 1⟩ [(0, 5), (1, 6)]
      ∧ ¬ MovesNode firstFit twoNodes ⟨some 0, some 1⟩ [] 0 5 [(1, 6)] :=
  ⟨twoNodes_spells, not_movesNode_first firstFit twoNodes_spells (List.cons_ne_nil _ _)⟩

end KabyLake.ListT
