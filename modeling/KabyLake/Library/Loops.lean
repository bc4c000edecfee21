import Mathlib.Tactic

/-!
# Loops over the positions of an array

A loop over `0, …, k - 1` whose step `i` changes one position and fails nowhere has changed exactly
the positions of its steps, each once (`foldlM_range_update`). After any sequence of writes a
position holds what the last write to it wrote (`foldlM_update_last`).
-/

namespace Loops

variable {ι β ε : Type*} [DecidableEq ι] {n : ℕ} {pos : Fin n → ι}
  {f : (ι → β) → ℕ → Except ε (ι → β)} {g : β → β}

theorem foldlM_range_update (hpos : Function.Injective pos)
    (hf : ∀ m (i : Fin n), f m i = .ok (Function.update m (pos i) (g (m (pos i))))) (m : ι → β) :
    ∀ k ≤ n, (List.range k).foldlM f m
      = .ok fun j => if ∃ i : Fin n, i.val < k ∧ pos i = j then g (m j) else m j
  | 0, _ => by
    simp only [List.range_zero, List.foldlM_nil, Nat.not_lt_zero, false_and, exists_false, if_false]
    rfl
  | k + 1, hk => by
    have hlast := hf (fun j => if ∃ i : Fin n, i.val < k ∧ pos i = j then g (m j) else m j) ⟨k, hk⟩
    simp only at hlast
    rw [List.range_succ, List.foldlM_append, foldlM_range_update hpos hf m k (by omega)]
    simp only [List.foldlM_cons, List.foldlM_nil, bind, Except.bind, hlast]
    refine congrArg Except.ok (funext fun j => ?_)
    by_cases hj : j = pos ⟨k, hk⟩
    · subst hj
      have hnot : ¬ ∃ i : Fin n, i.val < k ∧ pos i = pos ⟨k, hk⟩ := by
        rintro ⟨i, hi, he⟩
        rw [hpos he] at hi
        exact lt_irrefl k hi
      have hnow : ∃ i : Fin n, i.val < k + 1 ∧ pos i = pos ⟨k, hk⟩ := ⟨⟨k, hk⟩, by simp, rfl⟩
      rw [Function.update_self, if_neg hnot, if_pos hnow]
    · rw [Function.update_of_ne hj]
      refine if_congr (exists_congr fun i => and_congr_left fun hi => ?_) rfl rfl
      have hne : i.val ≠ k := fun h => hj (by rw [← hi]; exact congrArg pos (Fin.ext h))
      omega

/-- A loop over the first positions in order. -/
theorem foldlM_range_update_id {f : (Fin n → β) → ℕ → Except ε (Fin n → β)}
    (hf : ∀ m (i : Fin n), f m i = .ok (Function.update m i (g (m i)))) (m : Fin n → β) {k : ℕ}
    (hk : k ≤ n) : (List.range k).foldlM f m = .ok fun j => if j.val < k then g (m j) else m j := by
  have hid : Function.Injective (id : Fin n → Fin n) := Function.injective_id
  rw [foldlM_range_update hid hf m k hk]
  simp only [id, exists_eq_right]

/-- A position holds the value of the last write to it. -/
theorem foldlM_update_last {κ : Type*} {write : (ι → β) → κ → Except ε (ι → β)} {place : κ → ι}
    {value : κ → β} (hwrite : ∀ m x, write m x = .ok (Function.update m (place x) (value x))) :
    ∀ (xs : List κ) (m : ι → β), ∃ m', xs.foldlM write m = .ok m' ∧ ∀ i, m' i
      = ((xs.reverse.find? fun x => decide (place x = i)).map value).getD (m i)
  | [], m => ⟨m, rfl, fun _ => rfl⟩
  | x :: xs, m => by
    obtain ⟨m', hrun, hm'⟩ :=
      foldlM_update_last hwrite xs (Function.update m (place x) (value x))
    refine ⟨m', ?_, fun i => ?_⟩
    · rw [List.foldlM_cons, hwrite]
      exact hrun
    · rw [hm', List.reverse_cons, List.find?_append]
      rcases xs.reverse.find? fun x => decide (place x = i) with _ | y
      · by_cases hi : place x = i
        · subst hi
          rw [List.find?_singleton, if_pos (decide_eq_true rfl)]
          exact Function.update_self ..
        · rw [List.find?_singleton, if_neg (by simpa using hi)]
          exact Function.update_of_ne (Ne.symm hi) ..
      · rfl

end Loops
