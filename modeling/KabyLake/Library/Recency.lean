import Mathlib.Data.Finset.Card
import Mathlib.Data.List.Nodup

/-!
# Recency lists

A history lists uses with the newest first; `recency` keeps of it one copy of each element, the
most recently used first. A cache of `n` slots sees its first `n` elements, followed by the slots
not used yet (`padded`): a use of one of them moves it to the head, and any other use takes the
last slot. An element is among the first `n` as long as fewer than `n` others have been used since
(`mem_take_recency`). A direct-mapped table remembers the last use of each line (`LastOfLine`).
-/

namespace Recency

variable {α : Type*} [DecidableEq α]

def touch (x : α) (l : List α) : List α := x :: l.erase x

/-- The elements of a history, the most recently used first. -/
def recency (history : List α) : List α := history.foldr touch []

@[simp] theorem recency_nil : recency ([] : List α) = [] := rfl

@[simp] theorem recency_cons (x : α) (history : List α) :
    recency (x :: history) = touch x (recency history) := rfl

theorem nodup_touch (x : α) {l : List α} (h : l.Nodup) : (touch x l).Nodup :=
  List.nodup_cons.2 ⟨h.not_mem_erase, h.erase x⟩

theorem nodup_recency (history : List α) : (recency history).Nodup := by
  induction history with
  | nil => exact List.nodup_nil
  | cons x history ih => exact nodup_touch x ih

theorem touch_append {x : α} {as : List α} (hx : x ∉ as) (bs : List α) :
    touch x (as ++ x :: bs) = x :: (as ++ bs) := by
  rw [touch, List.erase_append_right _ hx, List.erase_cons_head]

theorem mem_touch {x y : α} {l : List α} : y ∈ touch x l ↔ y = x ∨ y ∈ l := by
  rw [touch, List.mem_cons]
  by_cases h : y = x
  · simp [h]
  · simp [h, List.mem_erase_of_ne h]

/-- A use moves the elements before its own back by one place. -/
theorem idxOf_touch_of_mem {x y : α} {l : List α} (hx : x ∈ l) (hy : y ∈ l) (hne : y ≠ x)
    (hl : l.Nodup) : (touch x l).idxOf y
      = if l.idxOf y < l.idxOf x then l.idxOf y + 1 else l.idxOf y := by
  obtain ⟨as, bs, hxa, rfl, herase⟩ := List.exists_erase_eq hx
  have hxi : (as ++ x :: bs).idxOf x = as.length := by
    rw [List.idxOf_append_of_notMem hxa, List.idxOf_cons_self, Nat.add_zero]
  rw [touch, herase, List.idxOf_cons_ne _ hne.symm, hxi]
  by_cases hya : y ∈ as
  · have hlt : as.idxOf y < as.length := List.idxOf_lt_length_of_mem hya
    rw [List.idxOf_append_of_mem hya, List.idxOf_append_of_mem hya, if_pos hlt]
  · rw [List.idxOf_append_of_notMem hya, List.idxOf_append_of_notMem hya,
      List.idxOf_cons_ne _ hne.symm, if_neg (by omega)]
    omega

theorem idxOf_touch_of_notMem {x y : α} {l : List α} (hx : x ∉ l) (hne : y ≠ x) :
    (touch x l).idxOf y = l.idxOf y + 1 := by
  rw [touch, List.erase_of_not_mem hx, List.idxOf_cons_ne _ hne.symm]

section Distance

theorem mem_recency {x : α} {history : List α} : x ∈ recency history ↔ x ∈ history := by
  induction history with
  | nil => rfl
  | cons y history ih => rw [recency_cons, mem_touch, ih, List.mem_cons]

/-- What was used before a stretch of uses comes after what is used in it. -/
theorem recency_append (as bs : List α) :
    recency (as ++ bs) = recency as ++ (recency bs).filter (· ∉ as) := by
  induction as with
  | nil => simp
  | cons a as ih =>
    have hrest : (recency bs).filter (· ∉ a :: as)
        = ((recency bs).filter (· ∉ as)).filter (· != a) := by
      rw [List.filter_filter]
      refine List.filter_congr fun y _ => ?_
      rw [Bool.eq_iff_iff]
      simp
    rw [List.cons_append, recency_cons, ih, recency_cons, touch, touch, List.cons_append, hrest]
    by_cases ha : a ∈ as
    · rw [List.erase_append_left _ (mem_recency.2 ha)]
      congr 2
      refine (List.filter_eq_self.2 fun y hy => ?_).symm
      rw [List.mem_filter] at hy
      simp only [decide_eq_true_eq, bne_iff_ne] at hy ⊢
      rintro rfl
      exact hy.2 ha
    · rw [List.erase_append_right _ fun h => ha (mem_recency.1 h),
        List.erase_of_not_mem fun h => ha (mem_recency.1 h)]
      congr 2
      exact ((nodup_recency bs).filter _).erase_eq_filter a

theorem length_recency (history : List α) :
    (recency history).length = history.toFinset.card := by
  rw [← List.toFinset_card_of_nodup (nodup_recency history)]
  congr 1
  ext x
  rw [List.mem_toFinset, List.mem_toFinset, mem_recency]

/-- An element is among the first `n` exactly if it was used, and fewer than `n` elements have been
since its last use. -/
theorem mem_take_recency {x : α} {n : ℕ} {history : List α} : x ∈ (recency history).take n
    ↔ x ∈ history ∧ (history.takeWhile (· != x)).toFinset.card < n := by
  by_cases hmem : x ∈ history
  · obtain ⟨as, bs, rfl, hx⟩ := List.eq_append_cons_of_mem hmem
    have hwhile : (as ++ x :: bs).takeWhile (· != x) = as := by
      rw [List.takeWhile_append_of_pos, List.takeWhile_cons_of_neg (by simp), List.append_nil]
      intro y hy
      rw [bne_iff_ne]
      rintro rfl
      exact hx hy
    have hrec : recency (as ++ x :: bs) = recency as
        ++ x :: ((recency bs).erase x).filter (· ∉ as) := by
      rw [recency_append, recency_cons, touch, List.filter_cons_of_pos (by simpa using hx)]
    rw [hwhile, hrec, ← length_recency, and_iff_right hmem]
    constructor
    · intro h
      by_contra hn
      rw [List.take_append_of_le_length (not_lt.1 hn)] at h
      exact hx (mem_recency.1 (List.mem_of_mem_take h))
    · intro h
      obtain ⟨k, rfl⟩ := Nat.exists_eq_add_of_lt h
      rw [Nat.add_assoc, List.take_length_add_append]
      simp
  · refine iff_of_false (fun h => hmem (mem_recency.1 (List.mem_of_mem_take h))) fun h => hmem h.1

end Distance

section Padded

omit [DecidableEq α]

/-- The first `n` elements, then a `none` for each slot left. -/
def padded (n : ℕ) (l : List α) : List (Option α) :=
  (l.take n).map some ++ List.replicate (n - l.length) none

theorem some_mem_padded {n : ℕ} {l : List α} {x : α} : some x ∈ padded n l ↔ x ∈ l.take n := by
  rw [padded, List.mem_append, List.mem_map]
  simp [List.mem_replicate]

theorem none_mem_padded {n : ℕ} {l : List α} : none ∈ padded n l ↔ l.length < n := by
  rw [padded, List.mem_append, List.mem_map, List.mem_replicate]
  simp only [reduceCtorEq, and_false, exists_false, and_true, false_or]
  omega

theorem padded_filter (n : ℕ) (l : List α) :
    (padded n l).filter Option.isSome = (l.take n).map some := by
  have hsome : ((l.take n).map some).filter Option.isSome = (l.take n).map some :=
    List.filter_eq_self.2 fun a ha => by
      obtain ⟨x, -, rfl⟩ := List.mem_map.1 ha
      rfl
  have hnone : (List.replicate (n - l.length) (none : Option α)).filter Option.isSome = [] :=
    List.filter_eq_nil_iff.2 (by simp)
  rw [padded, List.filter_append, hsome, hnone, List.append_nil]

/-- The last slot holds the `n`-th element once there are `n`. -/
theorem getLast?_padded (n : ℕ) (l : List α) : (padded (n + 1) l).getLast? = some (l[n]?) := by
  by_cases hlen : l.length ≤ n
  · obtain ⟨m, hm⟩ : ∃ m, n + 1 - l.length = m + 1 := ⟨n - l.length, by omega⟩
    rw [padded, hm, List.replicate_succ', ← List.append_assoc, List.getLast?_concat,
      List.getElem?_eq_none hlen]
  · have hzero : n + 1 - l.length = 0 := by omega
    have hlt : n < l.length := by omega
    rw [padded, hzero, List.replicate_zero, List.append_nil, List.take_succ_eq_append_getElem hlt,
      List.map_append, List.map_singleton, List.getLast?_concat, List.getElem?_eq_getElem hlt]

end Padded

/-- A use of an element in its slots moves it to the head. -/
theorem padded_touch_of_mem {n : ℕ} {l : List α} {x : α} (h : x ∈ l.take n) :
    padded n (touch x l) = touch (some x) (padded n l) := by
  obtain ⟨as, bs, hx, hl, herase⟩ := List.exists_erase_eq (List.mem_of_mem_take h)
  have hlen : as.length < n := by
    by_contra hn
    rw [hl, List.take_append_of_le_length (by omega)] at h
    exact hx (List.mem_of_mem_take h)
  obtain ⟨m, rfl⟩ : ∃ m, n = as.length + (m + 1) := ⟨n - as.length - 1, by omega⟩
  have hnew : (touch x l).take (as.length + (m + 1)) = x :: (as ++ bs.take m) := by
    rw [touch, herase, ← Nat.add_assoc, List.take_succ_cons, List.take_length_add_append]
  have hold : l.take (as.length + (m + 1)) = as ++ x :: bs.take m := by
    rw [hl, List.take_length_add_append, List.take_succ_cons]
  have hsize : (touch x l).length = l.length := by
    rw [touch, herase, hl]
    simp
    omega
  have hout : some x ∉ as.map some := by simpa using hx
  rw [padded, padded, hnew, hold, hsize, List.map_append, List.append_assoc,
    List.map_cons (a := x) (l := bs.take m), List.cons_append, touch_append hout, List.map_cons,
    List.map_append, List.cons_append, List.append_assoc]

/-- A use of any other element takes the last slot. -/
theorem padded_touch_of_notMem {n : ℕ} {l : List α} {x : α} (h : x ∉ l.take (n + 1)) :
    padded (n + 1) (touch x l) = some x :: (padded (n + 1) l).dropLast := by
  by_cases hlen : l.length ≤ n
  · have hx : x ∉ l := by rwa [List.take_of_length_le (by omega)] at h
    obtain ⟨m, rfl⟩ : ∃ m, n = l.length + m := ⟨n - l.length, by omega⟩
    have hrep : l.length + m + 1 - l.length = m + 1 := by omega
    have hrep' : l.length + m + 1 - (l.length + 1) = m := by omega
    rw [padded, padded, touch, List.erase_of_not_mem hx, List.take_succ_cons, List.length_cons,
      hrep, hrep', List.take_of_length_le (by omega), List.take_of_length_le (by omega),
      List.replicate_succ', ← List.append_assoc, List.dropLast_concat, List.map_cons,
      List.cons_append]
  · have herase : (l.erase x).take n = l.take n := by
      conv_lhs => rw [← List.take_append_drop (n + 1) l, List.erase_append_right _ h]
      rw [List.take_append_of_le_length (by rw [List.length_take]; omega), List.take_take,
        Nat.min_eq_left (by omega)]
    have hzero : n + 1 - l.length = 0 := by omega
    have hzero' : n + 1 - (touch x l).length = 0 := by
      have := List.le_length_erase (a := x) (l := l)
      rw [touch, List.length_cons]
      omega
    rw [padded, padded, hzero, hzero', touch, List.take_succ_cons, herase, List.replicate_zero,
      List.append_nil, List.append_nil, List.map_cons, List.take_succ_eq_append_getElem (by omega),
      List.map_append, List.map_singleton, List.dropLast_concat]

section LastOfLine

variable {β κ : Type*} [DecidableEq κ] {key : β → κ} {history : List β} {x y : β}

/-- The last use that goes to the line of `x` is of `x`. -/
def LastOfLine (key : β → κ) (history : List β) (x : β) : Prop :=
  history.find? (fun y => decide (key y = key x)) = some x

instance (key : α → κ) (history : List α) (x : α) : Decidable (LastOfLine key history x) :=
  inferInstanceAs (Decidable (_ = _))

theorem not_lastOfLine_nil (key : β → κ) (x : β) : ¬ LastOfLine key [] x := by
  rintro ⟨⟩

theorem lastOfLine_cons_of_ne (h : key x ≠ key y) :
    LastOfLine key (x :: history) y ↔ LastOfLine key history y := by
  rw [LastOfLine, List.find?_cons_of_neg (by simpa using h), LastOfLine]

theorem lastOfLine_cons_of_eq (h : key x = key y) :
    LastOfLine key (x :: history) y ↔ x = y := by
  rw [LastOfLine, List.find?_cons_of_pos (by simpa using h), Option.some_inj]

/-- A line has one last use. -/
theorem LastOfLine.unique (hx : LastOfLine key history x) (hy : LastOfLine key history y)
    (h : key x = key y) : x = y := by
  unfold LastOfLine at hx hy
  rw [h, hy] at hx
  exact (Option.some.inj hx).symm

end LastOfLine

end Recency
