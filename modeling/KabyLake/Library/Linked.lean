import Mathlib.Tactic

/-!
# Doubly linked chains on a heap

A heap maps finitely many addresses to cells with a value and two links. `Seg h a ns b` says the
nodes `ns` (address and value) lie in `h` in a row, each linked to its neighbours, the first back to
`a` and the last on to `b`; `Chain` is a whole list between two nulls. The rewiring steps of a
linked list each change one link of the first or the last node of a segment. An operation at one
end is the operation at the other end on the mirror image, where the two links are exchanged.
-/

namespace Linked

variable {α : Type*}

@[ext]
structure Cell (α : Type*) where
  value : α
  previous : Option ℕ
  next : Option ℕ

@[ext]
structure Heap (α : Type*) where
  cell : ℕ → Option (Cell α)
  finite : ∃ n, ∀ p, n ≤ p → cell p = none

/-- Picks an address with no cell, and what the new cell holds. -/
structure Allocator (α : Type*) where
  pick : Heap α → ℕ
  fresh : ∀ h : Heap α, h.cell (pick h) = none
  junk : Heap α → Cell α

namespace Heap

def empty : Heap α := ⟨fun _ => none, 0, fun _ _ => rfl⟩

/-- The heap with the cell at `p` replaced, or freed. -/
def set (h : Heap α) (p : ℕ) (c : Option (Cell α)) : Heap α where
  cell := Function.update h.cell p c
  finite := by
    obtain ⟨n, hn⟩ := h.finite
    refine ⟨max n (p + 1), fun q hq => ?_⟩
    rw [Function.update_of_ne (by omega)]
    exact hn q (by omega)

def withNext (h : Heap α) (p : ℕ) (next : Option ℕ) : Heap α :=
  h.set p ((h.cell p).map fun c => { c with next })

def withPrevious (h : Heap α) (p : ℕ) (previous : Option ℕ) : Heap α :=
  h.set p ((h.cell p).map fun c => { c with previous })

def withValue (h : Heap α) (p : ℕ) (value : α) : Heap α :=
  h.set p ((h.cell p).map fun c => { c with value })

@[simp] theorem set_cell_self (h : Heap α) (p : ℕ) (c : Option (Cell α)) :
    (h.set p c).cell p = c := Function.update_self ..

theorem set_cell_of_ne (h : Heap α) {p q : ℕ} (hqp : q ≠ p) (c : Option (Cell α)) :
    (h.set p c).cell q = h.cell q := Function.update_of_ne hqp ..

theorem cell_set (h : Heap α) (p q : ℕ) (c : Option (Cell α)) :
    (h.set p c).cell q = if q = p then c else h.cell q := Function.update_apply ..

theorem cell_withNext (h : Heap α) (p q : ℕ) (next : Option ℕ) :
    (h.withNext p next).cell q
      = if q = p then (h.cell p).map fun c => { c with next } else h.cell q := cell_set ..

theorem cell_withPrevious (h : Heap α) (p q : ℕ) (previous : Option ℕ) :
    (h.withPrevious p previous).cell q
      = if q = p then (h.cell p).map fun c => { c with previous } else h.cell q := cell_set ..

theorem cell_withValue (h : Heap α) (p q : ℕ) (value : α) :
    (h.withValue p value).cell q
      = if q = p then (h.cell p).map fun c => { c with value } else h.cell q := cell_set ..

theorem exists_free (h : Heap α) : ∃ p, h.cell p = none :=
  h.finite.imp fun n hn => hn n le_rfl

end Heap

/-- The allocator that picks the least free address. -/
def firstFit [Inhabited α] : Allocator α where
  pick h := Nat.find (p := fun p => (h.cell p).isNone = true)
    (h.exists_free.imp fun _ hp => by rw [hp]; rfl)
  fresh h := Option.isNone_iff_eq_none.1 (Nat.find_spec (p := fun p => (h.cell p).isNone = true) _)
  junk _ := ⟨default, none, none⟩

/-- The address of the first node, or `b`. -/
def headOr : List (ℕ × α) → Option ℕ → Option ℕ
  | [], b => b
  | (p, _) :: _, _ => some p

/-- The address of the last node, or `a`. -/
def lastOr : Option ℕ → List (ℕ × α) → Option ℕ
  | a, [] => a
  | _, (p, _) :: ns => lastOr (some p) ns

def Seg (h : Heap α) : Option ℕ → List (ℕ × α) → Option ℕ → Prop
  | _, [], _ => True
  | a, (p, v) :: ns, b => h.cell p = some ⟨v, a, headOr ns b⟩ ∧ Seg h (some p) ns b

theorem headOr_append (xs ys : List (ℕ × α)) (b : Option ℕ) :
    headOr (xs ++ ys) b = headOr xs (headOr ys b) := by
  rcases xs with _ | ⟨⟨p, v⟩, xs⟩ <;> rfl

theorem lastOr_append : ∀ (a : Option ℕ) (xs ys : List (ℕ × α)),
    lastOr a (xs ++ ys) = lastOr (lastOr a xs) ys
  | _, [], _ => rfl
  | _, (p, _) :: xs, ys => lastOr_append (some p) xs ys

theorem lastOr_concat (a : Option ℕ) (xs : List (ℕ × α)) (p : ℕ) (v : α) :
    lastOr a (xs ++ [(p, v)]) = some p := by
  rw [lastOr_append]
  rfl

theorem seg_append {h : Heap α} : ∀ {a b : Option ℕ} {xs ys : List (ℕ × α)},
    Seg h a (xs ++ ys) b ↔ Seg h a xs (headOr ys b) ∧ Seg h (lastOr a xs) ys b
  | a, b, [], ys => by simp [Seg, lastOr]
  | a, b, (p, v) :: xs, ys => by
    simp only [List.cons_append, Seg, headOr_append, lastOr, seg_append, and_assoc]

/-- A segment depends only on its own cells. -/
theorem seg_congr {h h' : Heap α} : ∀ {a b : Option ℕ} {ns : List (ℕ × α)},
    (∀ p ∈ ns.map Prod.fst, h'.cell p = h.cell p) → Seg h a ns b → Seg h' a ns b
  | _, _, [], _, _ => trivial
  | a, b, (p, v) :: ns, hc, hs => by
    refine ⟨?_, seg_congr (fun q hq => hc q (List.mem_cons_of_mem _ hq)) hs.2⟩
    rw [hc p List.mem_cons_self]
    exact hs.1

theorem seg_set_of_notMem {h : Heap α} {a b : Option ℕ} {ns : List (ℕ × α)} {p : ℕ}
    (hp : p ∉ ns.map Prod.fst) (c : Option (Cell α)) (hs : Seg h a ns b) :
    Seg (h.set p c) a ns b :=
  seg_congr (fun _ hq => h.set_cell_of_ne (ne_of_mem_of_not_mem hq hp) c) hs

theorem seg_withNext_last {h : Heap α} {a b : Option ℕ} {xs : List (ℕ × α)} {p : ℕ} {v : α}
    (hp : p ∉ xs.map Prod.fst) (hs : Seg h a (xs ++ [(p, v)]) b) (b' : Option ℕ) :
    Seg (h.withNext p b') a (xs ++ [(p, v)]) b' := by
  rw [seg_append] at hs ⊢
  refine ⟨seg_set_of_notMem hp _ hs.1, ?_, trivial⟩
  rw [Heap.withNext, Heap.set_cell_self, hs.2.1]
  rfl

theorem seg_withPrevious_head {h : Heap α} {a b : Option ℕ} {xs : List (ℕ × α)} {p : ℕ} {v : α}
    (hp : p ∉ xs.map Prod.fst) (hs : Seg h a ((p, v) :: xs) b) (a' : Option ℕ) :
    Seg (h.withPrevious p a') a' ((p, v) :: xs) b := by
  refine ⟨?_, seg_set_of_notMem hp _ hs.2⟩
  rw [Heap.withPrevious, Heap.set_cell_self, hs.1]
  rfl

/-- A whole list: its nodes are distinct and lie in a row between `front` and `back`. -/
structure Chain (h : Heap α) (front back : Option ℕ) (ns : List (ℕ × α)) : Prop where
  nodup : (ns.map Prod.fst).Nodup
  seg : Seg h none ns none
  front_eq : front = headOr ns none
  back_eq : back = lastOr none ns

theorem chain_empty (h : Heap α) : Chain h none none [] := ⟨List.nodup_nil, trivial, rfl, rfl⟩

section Chain

variable {h : Heap α} {front back : Option ℕ} {xs ys ns : List (ℕ × α)} {p q : ℕ} {v w : α}

theorem Chain.cell_of_mem (hc : Chain h front back ns) (hm : (p, v) ∈ ns) :
    ∃ a b, h.cell p = some ⟨v, a, b⟩ := by
  obtain ⟨xs, ys, rfl⟩ := List.append_of_mem hm
  exact ⟨_, _, (seg_append.1 hc.seg).2.1⟩

theorem Chain.cell (hc : Chain h front back (xs ++ (p, v) :: ys)) :
    h.cell p = some ⟨v, lastOr none xs, headOr ys none⟩ := (seg_append.1 hc.seg).2.1

theorem lastOr_eq_none_iff : lastOr none ns = none ↔ ns = [] := by
  rcases List.eq_nil_or_concat' ns with rfl | ⟨xs, ⟨p, v⟩, rfl⟩
  · simp [lastOr]
  · simp [lastOr_concat]

theorem Chain.back_eq_none_iff (hc : Chain h front back ns) : back = none ↔ ns = [] := by
  rw [hc.back_eq, lastOr_eq_none_iff]

theorem Chain.front_eq_none_iff (hc : Chain h front back ns) : front = none ↔ ns = [] := by
  rw [hc.front_eq]
  rcases ns with _ | ⟨⟨p, v⟩, ns⟩ <;> simp [headOr]

theorem Chain.front_eq_iff (hc : Chain h front back (xs ++ (p, v) :: ys)) :
    front = some p ↔ xs = [] := by
  rw [hc.front_eq]
  rcases xs with _ | ⟨⟨q, w⟩, xs⟩
  · simp [headOr]
  · have := hc.nodup
    simp only [List.cons_append, List.map_cons, List.nodup_cons, List.map_append, List.mem_append,
      List.mem_cons, not_or] at this
    simp only [List.cons_append, headOr, Option.some.injEq, reduceCtorEq, iff_false]
    exact this.1.2.1

theorem Chain.front_eq_back_iff (hc : Chain h front back ns) :
    front = back ↔ ns.length ≤ 1 := by
  rcases ns with _ | ⟨⟨p, v⟩, ns⟩
  · simp [hc.front_eq, hc.back_eq, headOr, lastOr]
  rcases List.eq_nil_or_concat' ns with rfl | ⟨xs, ⟨q, w⟩, rfl⟩
  · simp [hc.front_eq, hc.back_eq, headOr, lastOr]
  · have := hc.nodup
    simp only [List.map_cons, List.map_append, List.map_nil, List.nodup_cons, List.mem_append,
      List.mem_singleton, not_or] at this
    rw [hc.front_eq, hc.back_eq, ← List.cons_append, lastOr_concat]
    simp only [List.cons_append, headOr, Option.some.injEq, List.length_cons, List.length_append,
      List.length_nil]
    constructor
    · intro he
      exact absurd he this.1.2
    · omega

theorem Chain.notMem_of_free (hc : Chain h front back ns) (hp : h.cell p = none) :
    p ∉ ns.map Prod.fst := by
  intro hm
  obtain ⟨⟨p', v'⟩, hmem, rfl⟩ := List.mem_map.1 hm
  obtain ⟨a, b, hcell⟩ := hc.cell_of_mem hmem
  rw [hp] at hcell
  cases hcell

/-- A node is not one of the others. -/
theorem Chain.notMem_rest (hc : Chain h front back (xs ++ (p, v) :: ys)) :
    p ∉ (xs ++ ys).map Prod.fst := by
  have hnd := hc.nodup
  rw [List.map_append, List.map_cons, List.nodup_middle, List.nodup_cons, ← List.map_append] at hnd
  exact hnd.1

theorem notMem_of_nodup_concat (hn : ((xs ++ [(q, w)]).map Prod.fst).Nodup) :
    q ∉ xs.map Prod.fst := by
  simp only [List.map_append, List.map_cons, List.map_nil, List.nodup_append,
    List.mem_singleton] at hn
  exact fun hm => hn.2.2 q hm q rfl rfl

/-- A node linked after the last one: only the last node's link and the new node's cell matter. -/
theorem Chain.append {h' : Heap α} (hc : Chain h front back (xs ++ [(q, w)]))
    (hp : p ∉ (xs ++ [(q, w)]).map Prod.fst) (hnew : h'.cell p = some ⟨v, some q, none⟩)
    (hlast : h'.cell q = (h.withNext q (some p)).cell q)
    (hrest : ∀ r ∈ xs.map Prod.fst, h'.cell r = h.cell r) :
    Chain h' front (some p) (xs ++ [(q, w)] ++ [(p, v)]) := by
  have hq := notMem_of_nodup_concat hc.nodup
  refine ⟨?_, ?_, ?_, (lastOr_concat _ _ _ _).symm⟩
  · rw [List.map_append, List.nodup_append]
    refine ⟨hc.nodup, by simp, ?_⟩
    rintro r hr s hs rfl
    simp only [List.map_cons, List.map_nil, List.mem_singleton] at hs
    exact hp (hs ▸ hr)
  · rw [seg_append]
    refine ⟨seg_congr (fun r hr => ?_) (seg_withNext_last hq hc.seg (some p)), ?_, trivial⟩
    · rw [List.map_append, List.mem_append] at hr
      rcases hr with hr | hr
      · rw [hrest r hr, Heap.withNext, Heap.set_cell_of_ne _ (ne_of_mem_of_not_mem hr hq)]
      · simp only [List.map_cons, List.map_nil, List.mem_singleton] at hr
        rw [hr, hlast]
    · rw [lastOr_concat]
      exact hnew
  · rw [hc.front_eq]
    rcases xs with _ | ⟨⟨r, u⟩, xs⟩ <;> rfl

/-- An inner node taken out by linking its neighbours to each other. -/
theorem Chain.unlink {u x : α} {r n : ℕ}
    (hc : Chain h front back (xs ++ (r, u) :: (n, v) :: (q, x) :: ys)) :
    Chain ((h.withNext r (some q)).withPrevious q (some r)) front back
      (xs ++ (r, u) :: (q, x) :: ys) := by
  have hnd : ((xs ++ (r, u) :: (q, x) :: ys).map Prod.fst).Nodup := by
    refine hc.nodup.sublist (List.Sublist.map _ ?_)
    exact (List.Sublist.refl xs).append ((List.sublist_cons_self _ _).cons_cons _)
  have hsplit : ∀ zs : List (ℕ × α), xs ++ (r, u) :: zs = (xs ++ [(r, u)]) ++ zs := by simp
  rw [hsplit] at hnd
  rw [List.map_append, List.nodup_append] at hnd
  obtain ⟨hleft, hright, hdisj⟩ := hnd
  have hseg := hc.seg
  rw [hsplit, seg_append] at hseg
  obtain ⟨hs1, -, hs2⟩ := hseg
  have hq : q ∉ (xs ++ [(r, u)]).map Prod.fst := fun hm => hdisj q hm q (by simp) rfl
  have hr : r ∉ ((q, x) :: ys).map Prod.fst := fun hm => hdisj r (by simp) r hm rfl
  refine ⟨?_, ?_, ?_, ?_⟩
  · rw [hsplit, List.map_append, List.nodup_append]
    exact ⟨hleft, hright, hdisj⟩
  · rw [hsplit, seg_append, lastOr_concat]
    refine ⟨seg_set_of_notMem hq _ ?_, ?_⟩
    · exact seg_withNext_last (notMem_of_nodup_concat hleft) hs1 (some q)
    · exact seg_withPrevious_head (List.nodup_cons.1 hright).1 (seg_set_of_notMem hr _ hs2) (some r)
  · rw [hc.front_eq]
    rcases xs with _ | ⟨⟨r, u⟩, xs⟩ <;> rfl
  · rw [hc.back_eq, lastOr_append, lastOr_append]
    rfl

/-- The first node freed and the second made first. -/
theorem Chain.pop_front (hc : Chain h front back ((p, v) :: (q, w) :: ns)) :
    Chain ((h.withPrevious q none).set p none) (some q) back ((q, w) :: ns) := by
  obtain ⟨hp, hnd⟩ := List.nodup_cons.1 hc.nodup
  obtain ⟨hq, -⟩ := List.nodup_cons.1 hnd
  refine ⟨hnd, ?_, rfl, hc.back_eq⟩
  exact seg_set_of_notMem hp _ (seg_withPrevious_head hq hc.seg.2 none)

end Chain

section Mirror

variable {h : Heap α} {front back : Option ℕ} {ns : List (ℕ × α)} {p : ℕ}

def Cell.mirror (c : Cell α) : Cell α := ⟨c.value, c.next, c.previous⟩

/-- The heap with the links of every node exchanged. -/
def Heap.mirror (h : Heap α) : Heap α where
  cell p := (h.cell p).map Cell.mirror
  finite := by
    obtain ⟨n, hn⟩ := h.finite
    exact ⟨n, fun p hp => by rw [hn p hp, Option.map_none]⟩

def Allocator.mirror (A : Allocator α) : Allocator α where
  pick h := A.pick h.mirror
  fresh h := by simpa [Heap.mirror] using A.fresh h.mirror
  junk h := (A.junk h.mirror).mirror

theorem Heap.mirror_cell (h : Heap α) (p : ℕ) : h.mirror.cell p = (h.cell p).map Cell.mirror := rfl

@[simp] theorem Heap.mirror_cell_eq_none : h.mirror.cell p = none ↔ h.cell p = none :=
  Option.map_eq_none_iff

@[simp] theorem Heap.mirror_mirror (h : Heap α) : h.mirror.mirror = h := by
  ext1
  funext p
  rw [mirror_cell, mirror_cell, Option.map_map]
  exact Option.map_id'

theorem Heap.mirror_set (h : Heap α) (p : ℕ) (c : Option (Cell α)) :
    (h.set p c).mirror = h.mirror.set p (c.map Cell.mirror) := by
  ext1
  funext q
  rw [mirror_cell, cell_set, cell_set]
  split_ifs <;> rfl

theorem Heap.mirror_withNext (h : Heap α) (p : ℕ) (next : Option ℕ) :
    (h.withNext p next).mirror = h.mirror.withPrevious p next := by
  rw [withNext, withPrevious, mirror_set, mirror_cell, Option.map_map, Option.map_map]
  rfl

theorem Heap.mirror_withPrevious (h : Heap α) (p : ℕ) (previous : Option ℕ) :
    (h.withPrevious p previous).mirror = h.mirror.withNext p previous := by
  rw [withNext, withPrevious, mirror_set, mirror_cell, Option.map_map, Option.map_map]
  rfl

theorem Heap.mirror_withValue (h : Heap α) (p : ℕ) (value : α) :
    (h.withValue p value).mirror = h.mirror.withValue p value := by
  rw [withValue, withValue, mirror_set, mirror_cell, Option.map_map, Option.map_map]
  rfl

theorem headOr_reverse : ∀ (ns : List (ℕ × α)) (b : Option ℕ), headOr ns.reverse b = lastOr b ns
  | [], _ => rfl
  | (p, v) :: ns, b => by
    rw [List.reverse_cons, headOr_append, lastOr]
    exact headOr_reverse ns (some p)

theorem lastOr_reverse (b : Option ℕ) (ns : List (ℕ × α)) : lastOr b ns.reverse = headOr ns b := by
  rw [← headOr_reverse, List.reverse_reverse]

theorem Seg.mirror : ∀ {a b : Option ℕ} {ns : List (ℕ × α)}, Seg h a ns b →
    Seg h.mirror b ns.reverse a
  | _, _, [], _ => trivial
  | a, b, (p, v) :: ns, hs => by
    rw [List.reverse_cons, seg_append, lastOr_reverse]
    refine ⟨hs.2.mirror, ?_, trivial⟩
    rw [Heap.mirror_cell, hs.1]
    rfl

/-- The mirror image of a list is the list from its back. -/
theorem Chain.mirror (hc : Chain h front back ns) : Chain h.mirror back front ns.reverse where
  nodup := by
    rw [List.map_reverse, List.nodup_reverse]
    exact hc.nodup
  seg := hc.seg.mirror
  front_eq := by rw [hc.back_eq, headOr_reverse]
  back_eq := by rw [hc.front_eq, lastOr_reverse]

end Mirror

section Path

variable {h h' : Heap α} {link : Cell α → Option ℕ} {front back : Option ℕ} {ns : List (ℕ × α)}

/-- The nodes met from an address along a link up to a null. -/
def Path (h : Heap α) (link : Cell α → Option ℕ) : Option ℕ → List (ℕ × α) → Prop
  | p, [] => p = none
  | p, (q, v) :: ns => p = some q ∧ ∃ c, h.cell q = some c ∧ c.value = v ∧ Path h link (link c) ns

theorem path_congr : ∀ {p : Option ℕ} {ns : List (ℕ × α)},
    (∀ q ∈ ns.map Prod.fst, h'.cell q = h.cell q) → Path h link p ns → Path h' link p ns
  | _, [], _, hp => hp
  | _, (q, v) :: ns, hq, ⟨hp, c, hc, hv, hrest⟩ => by
    refine ⟨hp, c, ?_, hv, path_congr (fun r hr => hq r (List.mem_cons_of_mem _ hr)) hrest⟩
    rw [hq q List.mem_cons_self, hc]

theorem Seg.path : ∀ {a : Option ℕ} {ns : List (ℕ × α)}, Seg h a ns none →
    Path h Cell.next (headOr ns none) ns
  | _, [], _ => rfl
  | _, (_, _) :: _, hs => ⟨rfl, _, hs.1, rfl, hs.2.path⟩

theorem path_mirror : ∀ {p : Option ℕ} {ns : List (ℕ × α)}, Path h.mirror Cell.next p ns →
    Path h Cell.previous p ns
  | _, [], hp => hp
  | _, (q, v) :: ns, ⟨hp, c, hc, hv, hrest⟩ => by
    obtain ⟨d, hd, rfl⟩ := Option.map_eq_some_iff.1 hc
    exact ⟨hp, d, hd, hv, path_mirror hrest⟩

/-- A list is met in order from its front, and in reverse from its back. -/
theorem Chain.path_next (hc : Chain h front back ns) : Path h Cell.next front ns :=
  hc.front_eq ▸ hc.seg.path

theorem Chain.path_previous (hc : Chain h front back ns) : Path h Cell.previous back ns.reverse :=
  path_mirror hc.mirror.path_next

end Path

end Linked
