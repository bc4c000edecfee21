import KabyLake.Library.Ages
import KabyLake.Library.Recency

/-!
# Ages as ranks

In a set whose ways are filled and touched one after the other, the age of a valid way is its place
among them by recency: 0 for the one used last. Touching a valid way keeps this (`Ranked.touch`),
and so does filling an invalid one (`Ranked.fill`), however old the invalid ways are. The oldest way
of a full set is then the one used least recently (`Ranked.oldestWay_eq`).
-/

namespace SetAssoc

open Recency (idxOf_touch_of_mem idxOf_touch_of_notMem)

variable {S W a t : ℕ} {δ : Type*} {c : Cache S W a t δ} {s : Fin S} {w : Fin W}
  {order : List (Fin W)} {e : Entry a t δ}

/-- The ways listed are the valid ones, and the age of each is its place in the list. -/
structure Ranked (c : Cache S W a t δ) (s : Fin S) (order : List (Fin W)) : Prop where
  nodup : order.Nodup
  valid_iff : ∀ w, (c (slot s w)).v = true ↔ w ∈ order
  age_eq : ∀ w ∈ order, (c (slot s w)).age.toNat = order.idxOf w

/-- The way filled becomes the youngest of its set, and all others up to an age become older. -/
def ageUpTo (n : ℕ) (c : Cache S W a t δ) (s : Fin S) (w : Fin W) : Cache S W a t δ := fun i =>
  if setOf i = s then
    if i = slot s w then { c i with age := 0 }
    else if (c i).age.toNat ≤ n then { c i with age := (c i).age + 1 }
    else c i
  else c i

theorem ranked_nil (h : ∀ w, (c (slot s w)).v = false) : Ranked c s [] :=
  ⟨List.nodup_nil, fun w => by simp [h w], nofun⟩

theorem Ranked.touch (h : Ranked c s order) (hw : w ∈ order) :
    Ranked (touch c s w) s (Recency.touch w order) := by
  refine ⟨Recency.nodup_touch w h.nodup, fun w' => ?_, fun w' hw' => ?_⟩
  · rw [v_touch, h.valid_iff, Recency.mem_touch]
    exact ⟨.inr, fun h' => h'.elim (fun he => he ▸ hw) id⟩
  · by_cases hne : w' = w
    · rw [hne, age_touch_self, Recency.touch, List.idxOf_cons_self]
    · have hmem : w' ∈ order := (Recency.mem_touch.1 hw').resolve_left hne
      have hslot : slot s w' ≠ slot s w := fun he => hne (slot_inj.1 he).2
      rw [age_touch_of_ne (setOf_slot s w') hslot, h.age_eq w' hmem, h.age_eq w hw,
        idxOf_touch_of_mem hw hmem hne h.nodup]

/-- The ages of the valid ways of a set with room are below its last age. -/
theorem Ranked.age_lt (h : Ranked c s order) (hw : w ∉ order) {w' : Fin W} (hw' : w' ∈ order) :
    (c (slot s w')).age.toNat + 1 < W := by
  have hlen : (w :: order).length ≤ W := by
    simpa using (List.nodup_cons.2 ⟨hw, h.nodup⟩).length_le_card
  have hlt : order.idxOf w' < order.length := List.idxOf_lt_length_of_mem hw'
  rw [h.age_eq w' hw']
  rw [List.length_cons] at hlen
  omega

/-- An invalid way filled with a valid entry. -/
theorem Ranked.fill (h : Ranked c s order) (hW : W ≤ 2 ^ a) (hw : w ∉ order) (he : e.v = true) :
    Ranked (ageUpTo (W - 1) (Function.update c (slot s w) e) s w) s (Recency.touch w order) := by
  have hself : ageUpTo (W - 1) (Function.update c (slot s w) e) s w (slot s w)
      = { e with age := 0 } := by
    unfold ageUpTo
    rw [if_pos (setOf_slot s w), if_pos rfl, Function.update_self]
  have hother : ∀ w' ≠ w, ageUpTo (W - 1) (Function.update c (slot s w) e) s w (slot s w')
      = if (c (slot s w')).age.toNat ≤ W - 1
        then { c (slot s w') with age := (c (slot s w')).age + 1 } else c (slot s w') := by
    intro w' hne
    have hslot : slot s w' ≠ slot s w := fun he => hne (slot_inj.1 he).2
    unfold ageUpTo
    rw [if_pos (setOf_slot s w'), if_neg hslot, Function.update_of_ne hslot]
  refine ⟨Recency.nodup_touch w h.nodup, fun w' => ?_, fun w' hw' => ?_⟩
  · rw [Recency.mem_touch]
    by_cases hne : w' = w
    · rw [hne, hself]
      exact iff_of_true he (.inl rfl)
    · rw [hother w' hne, or_iff_right hne, ← h.valid_iff w']
      split_ifs <;> rfl
  · by_cases hne : w' = w
    · rw [hne, hself, Recency.touch, List.idxOf_cons_self]
      rfl
    · have hmem : w' ∈ order := (Recency.mem_touch.1 hw').resolve_left hne
      have hlt := h.age_lt hw hmem
      -- the age fits in the field, so it does not wrap around
      have hfit : (c (slot s w')).age < BitVec.ofNat a (W - 1) := by
        rw [BitVec.lt_def, BitVec.toNat_ofNat, Nat.mod_eq_of_lt (by omega)]
        omega
      rw [hother w' hne, if_pos (by omega), idxOf_touch_of_notMem hw hne, ← h.age_eq w' hmem]
      exact toNat_age_add_one hfit

/-- The oldest way of a full set is the last one by recency. -/
theorem Ranked.oldestWay_eq [NeZero W] (h : Ranked c s (order ++ [w]))
    (hfull : ∀ w, (c (slot s w)).v = true) : oldestWay c s = w := by
  have hmem : ∀ w', w' ∈ order ++ [w] := fun w' => (h.valid_iff w').1 (hfull w')
  have hw : w ∉ order := by
    have hnodup := h.nodup
    rw [List.nodup_append] at hnodup
    exact fun hm => hnodup.2.2 w hm w (List.mem_singleton_self w) rfl
  have hlast : (order ++ [w]).idxOf w = order.length := by
    rw [List.idxOf_append_of_notMem hw, List.idxOf_cons_self, add_zero]
  have hle := (oldestWay_spec c s w).1
  rw [h.age_eq w (hmem w), h.age_eq _ (hmem _), hlast] at hle
  by_contra hne
  have hin : oldestWay c s ∈ order := by
    have := hmem (oldestWay c s)
    rw [List.mem_append, List.mem_singleton] at this
    exact this.resolve_right hne
  have hlt : order.idxOf (oldestWay c s) < order.length := List.idxOf_lt_length_of_mem hin
  rw [List.idxOf_append_of_mem hin] at hle
  omega

end SetAssoc
