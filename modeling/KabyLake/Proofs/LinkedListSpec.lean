import KabyLake.LinkedList

/-!
# What the list operations do to a chain

`Spells h l ns`: the list `l` is the chain of the nodes `ns` in `h`. `pushBack` adds a node at the
end, `popFront` frees the first and `moveBack` takes a node to the end: the same node, or a fresh
one with its value if it was the first of several. `pushFront` and `popBack` do what `pushBack` and
`popFront` do on the mirror image.
-/

namespace KabyLake.ListT

open Linked

def Spells (h : Heap Word) (l : ListT) (ns : List (ℕ × Word)) : Prop := Chain h l.front l.back ns

variable {h : Heap Word} {l : ListT} {ns xs ys : List (ℕ × Word)} {p q : ℕ} {v w : Word}

theorem load_eq {c : Cell Word} (hc : h.cell p = some c) : load h (some p) = .ok (p, c) := by
  simp only [load, hc]

/-- The node a list starts with. -/
theorem load_front (hs : Spells h l ((p, v) :: ns)) :
    load h l.front = .ok (p, ⟨v, none, headOr ns none⟩) := by
  have hspells : Spells h l ([] ++ (p, v) :: ns) := hs
  have hfront : l.front = some p := hs.front_eq
  rw [hfront]
  exact load_eq hspells.cell

theorem setNext_eq {c : Cell Word} (hc : h.cell p = some c) (next : Option ℕ) :
    setNext h (some p) next = .ok (h.withNext p next) := by
  simp only [setNext, load_eq hc, Exec.ok_bind, Exec.pure_eq]

theorem setPrevious_eq {c : Cell Word} (hc : h.cell p = some c) (previous : Option ℕ) :
    setPrevious h (some p) previous = .ok (h.withPrevious p previous) := by
  simp only [setPrevious, load_eq hc, Exec.ok_bind, Exec.pure_eq]

theorem setValue_eq {c : Cell Word} (hc : h.cell p = some c) (value : Word) :
    setValue h (some p) value = .ok (h.withValue p value) := by
  simp only [setValue, load_eq hc, Exec.ok_bind, Exec.pure_eq]

theorem free_eq {c : Cell Word} (hc : h.cell p = some c) :
    free h (some p) = .ok (h.set p none) := by
  simp only [free, load_eq hc, Exec.ok_bind, Exec.pure_eq]

theorem isEmptyList_nil (hs : Spells h l []) : isEmptyList l = 1 := by
  have hf : l.front = none := hs.front_eq
  have hb : l.back = none := hs.back_eq
  simp [isEmptyList, hf, hb]

theorem isEmptyList_of_ne_nil (hs : Spells h l ns) (hne : ns ≠ []) : isEmptyList l = 0 := by
  have hf : l.front ≠ none := fun hc => hne (hs.front_eq_none_iff.1 hc)
  have hb : l.back ≠ none := fun hc => hne (hs.back_eq_none_iff.1 hc)
  simp [isEmptyList, hf, hb]

theorem pushBack_nil (A : Allocator Word) (hs : Spells h l []) (v : Word) :
    ∃ h' l', pushBack A h l v = .ok (h', l', A.pick h) ∧ Spells h' l' [(A.pick h, v)]
      ∧ ∀ r, r ≠ A.pick h → h'.cell r = h.cell r := by
  set p := A.pick h with hp
  set g := h.set p (some (A.junk h)) with hg
  have h1 : g.cell p = some (A.junk h) := Heap.set_cell_self ..
  have h2 := Heap.cell_withNext g p p none
  rw [if_pos rfl, h1] at h2
  have h3 := Heap.cell_withPrevious (g.withNext p none) p p none
  rw [if_pos rfl, h2] at h3
  refine ⟨((g.withNext p none).withPrevious p none).withValue p v, ⟨some p, some p⟩, ?_,
    ⟨by simp, ⟨?_, trivial⟩, rfl, rfl⟩, ?_⟩
  · simp only [pushBack, malloc, ← hp, ← hg, isEmptyList_nil hs, setNext_eq h1, setPrevious_eq h2,
      setValue_eq h3, Exec.ok_bind, ne_eq, one_ne_zero, not_false_eq_true, if_true, Exec.pure_eq]
  · rw [Heap.cell_withValue, if_pos rfl, h3]
    rfl
  · intro r hr
    simp only [Heap.cell_withValue, Heap.cell_withPrevious, Heap.cell_withNext, hg, Heap.cell_set,
      hr, if_false]

theorem pushBack_concat (A : Allocator Word) (hs : Spells h l (xs ++ [(q, w)])) (v : Word) :
    ∃ h' l', pushBack A h l v = .ok (h', l', A.pick h)
      ∧ Spells h' l' (xs ++ [(q, w)] ++ [(A.pick h, v)])
      ∧ ∀ r, r ≠ q → r ≠ A.pick h → h'.cell r = h.cell r := by
  have hpn := hs.notMem_of_free (A.fresh h)
  set p := A.pick h with hp
  have hback : l.back = some q := by rw [hs.back_eq, lastOr_concat]
  have hpq : p ≠ q := fun he => hpn (by simp [he])
  have hcell := hs.cell
  have hne := isEmptyList_of_ne_nil hs (by simp)
  set g := h.set p (some (A.junk h)) with hg
  have h1 : g.cell q = some ⟨w, lastOr none xs, none⟩ := by
    rw [hg, Heap.cell_set, if_neg hpq.symm]
    exact hcell
  have h2 : (g.withNext q (some p)).cell p = some (A.junk h) := by
    rw [Heap.cell_withNext, if_neg hpq, hg, Heap.cell_set, if_pos rfl]
  have h3 := Heap.cell_withValue (g.withNext q (some p)) p p v
  rw [if_pos rfl, h2] at h3
  have h4 := Heap.cell_withPrevious ((g.withNext q (some p)).withValue p v) p p (some q)
  rw [if_pos rfl, h3] at h4
  have hframe : ∀ r, r ≠ q → r ≠ p →
      ((((g.withNext q (some p)).withValue p v).withPrevious p (some q)).withNext p none).cell r
        = h.cell r := by
    intro r hrq hrp
    simp only [Heap.cell_withNext, Heap.cell_withPrevious, Heap.cell_withValue, hg, Heap.cell_set,
      hrp, hrq, if_false]
  refine ⟨_, ⟨l.front, some p⟩, ?_, ?_, hframe⟩
  · simp only [pushBack, malloc, ← hp, ← hg, hne, hback, setNext_eq h1, setValue_eq h2,
      setPrevious_eq h3, setNext_eq h4, Exec.ok_bind, ne_eq, not_true_eq_false, if_false,
      Exec.pure_eq]
  · refine Chain.append hs hpn ?_ ?_ ?_
    · rw [Heap.cell_withNext, if_pos rfl, h4]
      rfl
    · simp only [Heap.cell_withNext, Heap.cell_withPrevious, Heap.cell_withValue, if_true,
        if_neg hpq.symm, h1, hcell]
      rfl
    · intro r hr
      have hrp : r ≠ p := fun he => hpn (by rw [← he]; simp [hr])
      exact hframe r (ne_of_mem_of_not_mem hr (notMem_of_nodup_concat hs.nodup)) hrp

theorem pushBack_spec (A : Allocator Word) (hs : Spells h l ns) (v : Word) :
    ∃ h' l' p, pushBack A h l v = .ok (h', l', p) ∧ Spells h' l' (ns ++ [(p, v)])
      ∧ h.cell p = none
      ∧ ∀ r, r ∉ ns.map Prod.fst → r ≠ p → h'.cell r = h.cell r := by
  rcases List.eq_nil_or_concat' ns with rfl | ⟨xs, ⟨q, w⟩, rfl⟩
  · obtain ⟨h', l', hpush, hs', hframe⟩ := pushBack_nil A hs v
    exact ⟨h', l', _, hpush, hs', A.fresh h, fun r _ hr => hframe r hr⟩
  · obtain ⟨h', l', hpush, hs', hframe⟩ := pushBack_concat A hs v
    refine ⟨h', l', _, hpush, hs', A.fresh h, fun r hr hrp => hframe r (fun he => hr ?_) hrp⟩
    simp [he]

theorem popFront_single (hs : Spells h l [(p, v)]) :
    ∃ h', popFront h l = .ok (h', initList) ∧ h'.cell p = none
      ∧ ∀ r, r ≠ p → h'.cell r = h.cell r := by
  have hfront : l.front = some p := hs.front_eq
  have hback : l.back = some p := hs.back_eq
  have hne := isEmptyList_of_ne_nil hs (by simp)
  have hcell : h.cell p = some ⟨v, none, none⟩ := hs.seg.1
  have h1 := Heap.cell_withValue h p p 0
  rw [if_pos rfl, hcell] at h1
  refine ⟨(h.withValue p 0).set p none, ?_, Heap.set_cell_self _ p none, ?_⟩
  · simp only [popFront, hne, hfront, hback, setValue_eq hcell, free_eq h1, Exec.ok_bind, ne_eq,
      not_true_eq_false, if_false, if_true, Exec.pure_eq]
  · intro r hrp
    simp only [Heap.cell_set, Heap.cell_withValue, hrp, if_false]

theorem popFront_cons (hs : Spells h l ((p, v) :: (q, w) :: ns)) :
    ∃ h' l', popFront h l = .ok (h', l') ∧ Spells h' l' ((q, w) :: ns) ∧ h'.cell p = none
      ∧ ∀ r, r ≠ p → r ≠ q → h'.cell r = h.cell r := by
  have hfront : l.front = some p := hs.front_eq
  have hne := isEmptyList_of_ne_nil hs (by simp)
  have hcell : h.cell p = some ⟨v, none, some q⟩ := hs.seg.1
  have hfb : l.front ≠ l.back := fun he => by
    have := hs.front_eq_back_iff.1 he
    simp at this
  have hpq : p ≠ q := by
    have := hs.nodup
    simp only [List.map_cons, List.nodup_cons, List.mem_cons, not_or] at this
    exact this.1.1
  have hq : h.cell q = some ⟨w, some p, headOr ns none⟩ := hs.seg.2.1
  have h1 : (h.withPrevious q none).cell p = some ⟨v, none, some q⟩ := by
    rw [Heap.cell_withPrevious, if_neg hpq]
    exact hcell
  have h2 := Heap.cell_withNext (h.withPrevious q none) p p none
  rw [if_pos rfl, h1] at h2
  have h3 := Heap.cell_withValue ((h.withPrevious q none).withNext p none) p p 0
  rw [if_pos rfl, h2] at h3
  have hpop := hs.pop_front
  refine ⟨(((h.withPrevious q none).withNext p none).withValue p 0).set p none, ⟨some q, l.back⟩,
    ?_, ⟨hpop.nodup, ?_, rfl, hpop.back_eq⟩, Heap.set_cell_self _ p none, ?_⟩
  · simp only [popFront, hne, hfront, load_eq hcell, setPrevious_eq hq, setNext_eq h1,
      setValue_eq h2, free_eq h3, Exec.ok_bind, ne_eq, not_true_eq_false, if_false, Exec.pure_eq]
    rw [hfront] at hfb
    rw [if_neg hfb]
  · refine seg_congr (fun r hr => ?_) hpop.seg
    have hrp : r ≠ p := fun he => (List.nodup_cons.1 hs.nodup).1 (he ▸ hr)
    simp only [Heap.cell_set, Heap.cell_withValue, Heap.cell_withNext, hrp, if_false]
  · intro r hrp hrq
    simp only [Heap.cell_set, Heap.cell_withValue, Heap.cell_withNext, Heap.cell_withPrevious,
      hrp, hrq, if_false]

theorem popFront_spec (hs : Spells h l ((p, v) :: ns)) :
    ∃ h' l', popFront h l = .ok (h', l') ∧ Spells h' l' ns ∧ h'.cell p = none
      ∧ ∀ r, r ∉ ((p, v) :: ns).map Prod.fst → h'.cell r = h.cell r := by
  rcases ns with _ | ⟨⟨q, w⟩, ns⟩
  · obtain ⟨h', hpop, hgone, hframe⟩ := popFront_single hs
    refine ⟨h', initList, hpop, chain_empty h', hgone, fun r hr => hframe r fun he => hr ?_⟩
    simp [he]
  · obtain ⟨h', l', hpop, hs', hgone, hframe⟩ := popFront_cons hs
    refine ⟨h', l', hpop, hs', hgone, fun r hr => ?_⟩
    exact hframe r (fun he => hr (by simp [he])) (fun he => hr (by simp [he]))

/-- The last three writes of `moveBack` put a node after the last one. -/
theorem link_last {g : Heap Word} {front : Option ℕ} {zs : List (ℕ × Word)} {c n : ℕ} {y : Word}
    {cell : Cell Word} (hs : Chain g front (some c) (zs ++ [(c, y)])) (hn : g.cell n = some cell)
    (hout : n ∉ (zs ++ [(c, y)]).map Prod.fst) :
    ∃ h₁ h₂ h', setNext g (some n) none = .ok h₁ ∧ setPrevious h₁ (some n) (some c) = .ok h₂
      ∧ setNext h₂ (some c) (some n) = .ok h'
      ∧ Chain h' front (some n) (zs ++ [(c, y)] ++ [(n, cell.value)])
      ∧ ∀ k, k ≠ n → k ≠ c → h'.cell k = g.cell k := by
  obtain ⟨c₁, c₂, hc⟩ := hs.cell_of_mem (p := c) (v := y) (by simp)
  have hcn : c ≠ n := fun he => hout (by simp [he])
  have h1 := Heap.cell_withNext g n n none
  rw [if_pos rfl, hn] at h1
  have h2 : ((g.withNext n none).withPrevious n (some c)).cell c = some ⟨y, c₁, c₂⟩ := by
    rw [Heap.cell_withPrevious, if_neg hcn, Heap.cell_withNext, if_neg hcn, hc]
  refine ⟨_, _, _, setNext_eq hn none, setPrevious_eq h1 (some c), setNext_eq h2 (some n), ?_, ?_⟩
  · refine hs.append hout ?_ ?_ ?_
    · rw [Heap.cell_withNext, if_neg hcn.symm, Heap.cell_withPrevious, if_pos rfl, h1]
      rfl
    · rw [Heap.cell_withNext, if_pos rfl, h2, Heap.cell_withNext, if_pos rfl, hc]
    · intro k hk
      have hkn : k ≠ n := fun he => hout (by rw [← he]; simp [hk])
      have hkc : k ≠ c := ne_of_mem_of_not_mem hk (notMem_of_nodup_concat hs.nodup)
      simp only [Heap.cell_withNext, Heap.cell_withPrevious, hkn, hkc, if_false]
  · intro k hkn hkc
    simp only [Heap.cell_withNext, Heap.cell_withPrevious, hkn, hkc, if_false]

/-- An inner node keeps its cell while its neighbours are linked and it is put after the last. -/
theorem moveBack_inner (A : Allocator Word) {r n : ℕ} {u x : Word}
    (hs : Spells h l (xs ++ (r, u) :: (n, v) :: (q, x) :: ys)) :
    ∃ h' l', moveBack A h l (some n) = .ok (h', l')
      ∧ Spells h' l' (xs ++ (r, u) :: (q, x) :: ys ++ [(n, v)])
      ∧ ∀ k, k ∉ (xs ++ (r, u) :: (n, v) :: (q, x) :: ys).map Prod.fst → h'.cell k = h.cell k := by
  have hunlink := hs.unlink
  have hsplit : xs ++ (r, u) :: (n, v) :: (q, x) :: ys
      = (xs ++ [(r, u)]) ++ (n, v) :: (q, x) :: ys := by simp
  have hn : h.cell n = some ⟨v, some r, some q⟩ := by
    have := Chain.cell (hsplit ▸ hs)
    rwa [lastOr_concat] at this
  have hr : h.cell r = some ⟨u, lastOr none xs, some n⟩ := hs.cell
  obtain ⟨q1, q2, hq⟩ := hs.cell_of_mem (p := q) (v := x) (by simp)
  have hfn : l.front ≠ some n := by
    rw [hsplit] at hs
    exact fun he => by simpa using hs.front_eq_iff.1 he
  have hbf : l.back ≠ l.front := fun he => by
    have := hs.front_eq_back_iff.1 he.symm
    simp at this
    omega
  have hne := isEmptyList_of_ne_nil hs (by simp)
  obtain ⟨zs, ⟨c, y⟩, hzs⟩ : ∃ zs z, xs ++ (r, u) :: (q, x) :: ys = zs ++ [z] := by
    rcases List.eq_nil_or_concat' (xs ++ (r, u) :: (q, x) :: ys) with h | ⟨zs, z, h⟩
    · simp at h
    · exact ⟨zs, z, h⟩
  have hout : n ∉ (zs ++ [(c, y)]).map Prod.fst := by
    have hrest := Chain.notMem_rest (hsplit ▸ hs)
    rwa [List.append_assoc, List.singleton_append, hzs] at hrest
  have hrn : r ≠ n := fun he => hout (by rw [← hzs]; simp [he])
  have hqn : q ≠ n := fun he => hout (by rw [← hzs]; simp [he])
  rw [hzs] at hunlink
  have hback : l.back = some c := by rw [hunlink.back_eq, lastOr_concat]
  rw [hback] at hunlink
  set g := (h.withNext r (some q)).withPrevious q (some r) with hg
  have hqr : q ≠ r := fun he => hs.notMem_rest (by simp [he])
  have h1 : (h.withNext r (some q)).cell q = some ⟨x, q1, q2⟩ := by
    rw [Heap.cell_withNext, if_neg hqr, hq]
  have h2 : g.cell n = some ⟨v, some r, some q⟩ := by
    rw [hg, Heap.cell_withPrevious, if_neg hqn.symm, Heap.cell_withNext, if_neg hrn.symm, hn]
  obtain ⟨h₁, h₂, h', hnext, hprevious, hlast, hchain, hframe⟩ := link_last hunlink h2 hout
  refine ⟨h', ⟨l.front, some n⟩, ?_, hzs ▸ hchain, ?_⟩
  · simp only [moveBack, hne, hfn, load_eq hn, hback, reduceCtorEq, setNext_eq hr,
      setPrevious_eq h1, ← hg, hnext, hprevious, hlast, Exec.ok_bind, ne_eq, not_true_eq_false,
      if_false, Exec.pure_eq]
    rw [if_neg (hback ▸ hbf)]
  · intro k hk
    have hout : k ∉ (zs ++ [(c, y)]).map Prod.fst ∧ k ≠ n ∧ k ≠ r ∧ k ≠ q := by
      rw [← hzs]
      simp only [List.map_append, List.map_cons, List.mem_append, List.mem_cons, not_or] at hk ⊢
      exact ⟨⟨hk.1, hk.2.1, hk.2.2.2⟩, hk.2.2.1, hk.2.1, hk.2.2.2.1⟩
    have hkc : k ≠ c := fun he => hout.1 (by simp [he])
    rw [hframe k hout.2.1 hkc, hg, Heap.cell_withPrevious, if_neg hout.2.2.2, Heap.cell_withNext,
      if_neg hout.2.2.1]

/-- The last node stays where it is. -/
theorem moveBack_last (A : Allocator Word) {n : ℕ} (hs : Spells h l (xs ++ [(n, v)])) :
    moveBack A h l (some n) = .ok (h, l) := by
  have hne := isEmptyList_of_ne_nil hs (by simp)
  have hfn := hs.front_eq_iff
  have hfb := hs.front_eq_back_iff
  have hcell := hs.cell
  by_cases hxs : xs = []
  · have hb : l.back = l.front := (hfb.2 (by simp [hxs])).symm
    simp only [moveBack, hne, hb, ne_eq, not_true_eq_false, if_false, if_true, Exec.pure_eq]
  · have hb : l.back ≠ l.front := fun he => by
      have := hfb.1 he.symm
      simp only [List.length_append, List.length_cons, List.length_nil] at this
      exact hxs (List.length_eq_zero_iff.1 (by omega))
    simp only [moveBack, hne, hb, mt hfn.1 hxs, load_eq hcell, headOr, Exec.ok_bind, ne_eq,
      not_true_eq_false, if_false, if_true, Exec.pure_eq]

/-- The first of several nodes is freed and a fresh one has its value. -/
theorem moveBack_first (A : Allocator Word) {n : ℕ} (hs : Spells h l ((n, v) :: ys))
    (hys : ys ≠ []) :
    ∃ h' l' n', moveBack A h l (some n) = .ok (h', l') ∧ Spells h' l' (ys ++ [(n', v)])
      ∧ h.cell n' = none ∧ h'.cell n = none
      ∧ ∀ k, k ∉ ((n, v) :: ys).map Prod.fst → k ≠ n' → h'.cell k = h.cell k := by
  have hne := isEmptyList_of_ne_nil hs (by simp)
  have hspells : Spells h l ([] ++ (n, v) :: ys) := hs
  have hfront : l.front = some n := hspells.front_eq_iff.2 rfl
  have hb : l.back ≠ l.front := fun he => by
    have := hs.front_eq_back_iff.1 he.symm
    rw [List.length_cons] at this
    exact hys (List.length_eq_zero_iff.1 (by omega))
  obtain ⟨h1, l1, n', hpush, hs1, hfree, hframe1⟩ := pushBack_spec A hs v
  obtain ⟨h2, l2, hpop, hs2, hgone, hframe2⟩ := popFront_spec hs1
  refine ⟨h2, l2, n', ?_, hs2, hfree, hgone, fun k hk hkn => ?_⟩
  · rw [hfront] at hb
    simp only [moveBack, hne, hfront, hb, load_eq hspells.cell, hpush, hpop, Exec.ok_bind, ne_eq,
      not_true_eq_false, if_false, if_true]
  · have hout : k ∉ ((n, v) :: ys ++ [(n', v)]).map Prod.fst := by
      rw [List.map_append, List.mem_append, not_or]
      exact ⟨hk, by simpa using hkn⟩
    exact (hframe2 k hout).trans (hframe1 k hk hkn)

theorem moveBack_spec (A : Allocator Word) {n : ℕ} (hs : Spells h l (xs ++ (n, v) :: ys)) :
    ∃ h' l' n', moveBack A h l (some n) = .ok (h', l') ∧ Spells h' l' (xs ++ ys ++ [(n', v)])
      ∧ (n' = n ∨ xs = [] ∧ ys ≠ [] ∧ h.cell n' = none ∧ h'.cell n = none)
      ∧ ∀ k, k ∉ (xs ++ (n, v) :: ys).map Prod.fst → k ≠ n' → h'.cell k = h.cell k := by
  rcases ys with _ | ⟨⟨q, x⟩, ys⟩
  · exact ⟨h, l, n, moveBack_last A hs, by simpa using hs, .inl rfl, fun _ _ _ => rfl⟩
  rcases List.eq_nil_or_concat' xs with rfl | ⟨xs, ⟨r, u⟩, rfl⟩
  · have hys : (q, x) :: ys ≠ [] := List.cons_ne_nil _ _
    obtain ⟨h', l', n', hmove, hs', hfree, hgone, hframe⟩ := moveBack_first A hs hys
    exact ⟨h', l', n', hmove, hs', .inr ⟨rfl, hys, hfree, hgone⟩, hframe⟩
  · rw [List.append_assoc] at hs
    obtain ⟨h', l', hmove, hs', hframe⟩ := moveBack_inner A hs
    refine ⟨h', l', n, hmove, by simpa using hs', .inl rfl, fun k hk _ => hframe k ?_⟩
    rwa [List.append_assoc] at hk

section Mirror

def mirror (l : ListT) : ListT := ⟨l.back, l.front⟩

theorem load_mirror (h : Heap Word) (p : Option ℕ) :
    load h.mirror p = Prod.map id Cell.mirror <$> load h p := by
  rcases p with _ | p
  · rfl
  · simp only [load, Heap.mirror_cell]
    cases h.cell p <;> rfl

theorem setNext_mirror (h : Heap Word) (p next : Option ℕ) :
    setNext h.mirror p next = Heap.mirror <$> setPrevious h p next := by
  simp only [setNext, setPrevious, load_mirror, bind_map_left, map_bind, map_pure,
    Heap.mirror_withPrevious, Prod.map_fst, id_eq]

theorem setPrevious_mirror (h : Heap Word) (p previous : Option ℕ) :
    setPrevious h.mirror p previous = Heap.mirror <$> setNext h p previous := by
  simp only [setNext, setPrevious, load_mirror, bind_map_left, map_bind, map_pure,
    Heap.mirror_withNext, Prod.map_fst, id_eq]

theorem setValue_mirror (h : Heap Word) (p : Option ℕ) (value : Word) :
    setValue h.mirror p value = Heap.mirror <$> setValue h p value := by
  simp only [setValue, load_mirror, bind_map_left, map_bind, map_pure,
    Heap.mirror_withValue, Prod.map_fst, id_eq]

theorem free_mirror (h : Heap Word) (p : Option ℕ) :
    free h.mirror p = Heap.mirror <$> free h p := by
  simp only [free, load_mirror, bind_map_left, map_bind, map_pure,
    Heap.mirror_set, Prod.map_fst, id_eq, Option.map_none]

theorem isEmptyList_mirror (l : ListT) : isEmptyList l.mirror = isEmptyList l := by
  unfold isEmptyList
  exact if_congr and_comm rfl (if_congr or_comm rfl rfl)

theorem popBack_mirror (h : Heap Word) (l : ListT) :
    popBack h.mirror l.mirror = Prod.map Heap.mirror mirror <$> popFront h l := by
  obtain ⟨front, back⟩ := l
  simp only [popBack, popFront, isEmptyList_mirror]
  split_ifs with he hbf hfb hfb
  · rfl
  · subst hfb
    simp only [mirror, setValue_mirror, free_mirror, bind_map_left, map_bind, map_pure]
    rfl
  · exact absurd hbf.symm hfb
  · exact absurd hfb.symm hbf
  · simp only [mirror, load_mirror, setValue_mirror, setNext_mirror, setPrevious_mirror,
      free_mirror, bind_map_left, map_bind, map_pure]
    rfl

/-- In a list that is not empty. -/
theorem pushFront_mirror (A : Allocator Word) (h : Heap Word) (hne : isEmptyList l = 0)
    (value : Word) : pushFront A h.mirror l.mirror value
      = Prod.map Heap.mirror (Prod.map mirror id) <$> pushBack A.mirror h l value := by
  have hmalloc : malloc A h.mirror = Prod.map id Heap.mirror (malloc A.mirror h) := by
    simp only [malloc, Prod.map_apply, Heap.mirror_set]
    rfl
  simp only [pushBack, pushFront, isEmptyList_mirror, hne, hmalloc, ne_eq, not_true_eq_false,
    if_false, setValue_mirror, setNext_mirror, setPrevious_mirror, bind_map_left, map_bind,
    map_pure, Prod.map_fst, Prod.map_snd]
  rfl

theorem pushFront_spec (A : Allocator Word) (hs : Spells h l ns) (v : Word) :
    ∃ h' l' p, pushFront A h l v = .ok (h', l', p) ∧ Spells h' l' ((p, v) :: ns)
      ∧ h.cell p = none
      ∧ ∀ r, r ∉ ns.map Prod.fst → r ≠ p → h'.cell r = h.cell r := by
  by_cases hne : ns = []
  · subst hne
    obtain ⟨h', l', hpush, hs', hframe⟩ := pushBack_nil A hs v
    refine ⟨h', l', _, ?_, hs', A.fresh h, fun r _ hr => hframe r hr⟩
    rw [← hpush]
    simp only [pushFront, pushBack, isEmptyList_nil hs, ne_eq, one_ne_zero, not_false_eq_true,
      if_true]
  · have hempty : isEmptyList l.mirror = 0 := by
      rw [isEmptyList_mirror, isEmptyList_of_ne_nil hs hne]
    obtain ⟨h', l', p, hpush, hs', hfree, hframe⟩ := pushBack_spec A.mirror
      (l := l.mirror) (Chain.mirror hs) v
    refine ⟨h'.mirror, l'.mirror, p, ?_, ?_, Heap.mirror_cell_eq_none.1 hfree, fun r hr hrp => ?_⟩
    · have hfront := pushFront_mirror A h.mirror hempty v
      rw [Heap.mirror_mirror, hpush] at hfront
      exact hfront
    · have hm := Chain.mirror hs'
      rwa [List.reverse_append, List.reverse_reverse] at hm
    · rw [Heap.mirror_cell, hframe r (by simpa using hr) hrp, ← Heap.mirror_cell,
        Heap.mirror_mirror]

theorem popBack_spec (hs : Spells h l (ns ++ [(p, v)])) :
    ∃ h' l', popBack h l = .ok (h', l') ∧ Spells h' l' ns ∧ h'.cell p = none
      ∧ ∀ r, r ∉ (ns ++ [(p, v)]).map Prod.fst → h'.cell r = h.cell r := by
  have hm : Spells h.mirror l.mirror ((p, v) :: ns.reverse) := by
    have hm := Chain.mirror hs
    rwa [List.reverse_append] at hm
  obtain ⟨h', l', hpop, hs', hgone, hframe⟩ := popFront_spec hm
  refine ⟨h'.mirror, l'.mirror, ?_, ?_, Heap.mirror_cell_eq_none.2 hgone, fun r hr => ?_⟩
  · have hback := popBack_mirror h.mirror l.mirror
    rw [Heap.mirror_mirror, hpop] at hback
    exact hback
  · have hm' := Chain.mirror hs'
    rwa [List.reverse_reverse] at hm'
  · have hout : r ∉ ((p, v) :: ns.reverse).map Prod.fst := by
      simpa [or_comm] using hr
    rw [Heap.mirror_cell, hframe r hout, ← Heap.mirror_cell, Heap.mirror_mirror]

end Mirror

section Clear

/-- The loop of `clear_list` frees the nodes ahead of it. -/
theorem clearNodes_path : ∀ {ns : List (ℕ × Word)} {h : Heap Word} {current : Option ℕ} {fuel : ℕ},
    Path h Cell.next current ns → (ns.map Prod.fst).Nodup → ns.length < fuel →
    ∃ h', clearNodes fuel h current = .ok h' ∧ (∀ p ∈ ns.map Prod.fst, h'.cell p = none)
      ∧ ∀ r, r ∉ ns.map Prod.fst → h'.cell r = h.cell r
  | [], h, current, fuel, hp, _, hfuel => by
    obtain ⟨fuel, rfl⟩ := Nat.exists_eq_succ_of_ne_zero (Nat.ne_zero_of_lt hfuel)
    obtain rfl : current = none := hp
    exact ⟨h, rfl, by simp, fun _ _ => rfl⟩
  | (p, v) :: ns, h, current, fuel, ⟨hcur, c, hc, _, hp⟩, hnd, hfuel => by
    obtain ⟨fuel, rfl⟩ := Nat.exists_eq_succ_of_ne_zero (Nat.ne_zero_of_lt hfuel)
    obtain ⟨hpn, hnd⟩ := List.nodup_cons.1 hnd
    subst hcur
    have h1 := Heap.cell_withNext h p p none
    rw [if_pos rfl, hc] at h1
    have h2 := Heap.cell_withPrevious (h.withNext p none) p p none
    rw [if_pos rfl, h1] at h2
    have h3 := Heap.cell_withValue ((h.withNext p none).withPrevious p none) p p 0
    rw [if_pos rfl, h2] at h3
    set g := (((h.withNext p none).withPrevious p none).withValue p 0).set p none with hg
    have hframe : ∀ r, r ≠ p → g.cell r = h.cell r := fun r hr => by
      simp only [hg, Heap.cell_set, Heap.cell_withValue, Heap.cell_withPrevious,
        Heap.cell_withNext, hr, if_false]
    have hrest : Path g Cell.next c.next ns :=
      path_congr (fun r hr => hframe r (ne_of_mem_of_not_mem hr hpn)) hp
    obtain ⟨h', hclear, hgone, hout⟩ := clearNodes_path hrest hnd (Nat.lt_of_succ_lt_succ hfuel)
    refine ⟨h', ?_, ?_, fun r hr => ?_⟩
    · simp only [clearNodes, reduceCtorEq, if_false, load_eq hc, setNext_eq hc, setPrevious_eq h1,
        setValue_eq h2, free_eq h3, Exec.ok_bind]
      exact hclear
    · intro q hq
      rcases List.mem_cons.1 hq with rfl | hq
      · rw [hout q hpn, hg, Heap.set_cell_self]
      · exact hgone q hq
    · rw [List.map_cons, List.mem_cons, not_or] at hr
      rw [hout r hr.2, hframe r hr.1]

theorem clearList_spec {fuel : ℕ} (hs : Spells h l ns) (hfuel : ns.length < fuel) :
    ∃ h', clearList fuel h l = .ok (h', initList) ∧ (∀ p ∈ ns.map Prod.fst, h'.cell p = none)
      ∧ ∀ r, r ∉ ns.map Prod.fst → h'.cell r = h.cell r := by
  obtain ⟨h', hclear, hgone, hframe⟩ := clearNodes_path (Chain.path_next hs) hs.nodup hfuel
  refine ⟨h', ?_, hgone, hframe⟩
  simp only [clearList, hclear, Exec.ok_bind, Exec.pure_eq]
  rfl

end Clear

end KabyLake.ListT
