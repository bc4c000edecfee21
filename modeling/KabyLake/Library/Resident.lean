import KabyLake.Library.Ages

/-!
# A set-associative array that has not evicted

`used` lists the blocks used. As long as no more blocks of a set are used than it has ways, an
insertion always finds an invalid way, so the array holds exactly the blocks used, each in one
slot, and a lookup finds a block exactly if it was used (`Resident.lookup_eq_none_iff`).
-/

namespace SetAssoc

variable {S W a t : ℕ} {δ : Type*} {c c' : Cache S W a t δ} {s : Fin S} {w : Fin W}
  {e : Entry a t δ} {b : ℕ} {used : List ℕ}

/-- The blocks held are those used, each in one slot, and the valid ways of a set come first. -/
structure Resident (c : Cache S W a t δ) (used : List ℕ) : Prop where
  held_iff : ∀ b, (∃ i, held c i = some b) ↔ b ∈ used
  alone : Exclusive (held c)
  packed : Packed c

/-- The block is used already, or fewer blocks of its set are used than the set has ways. -/
def Room (S W : ℕ) (used : List ℕ) (b : ℕ) : Prop :=
  b ∉ used → (used.toFinset.filter (· % S = b % S)).card < W

instance (S W : ℕ) (used : List ℕ) (b : ℕ) : Decidable (Room S W used b) :=
  inferInstanceAs (Decidable (_ → _))

theorem resident_of_held_none (h : held c = fun _ => none) : Resident c [] := by
  refine ⟨fun b => ?_, (follows_of_held_none h).alone, packed_of_held_none h⟩
  simp [h]

theorem Resident.congr (h : Resident c used) (hheld : held c' = held c)
    (hage : ∀ i, (c' i).age.toNat = (c i).age.toNat) : Resident c' used :=
  ⟨fun b => hheld ▸ h.held_iff b, hheld ▸ h.alone, h.packed.congr hheld hage⟩

theorem Resident.congr_used {used' : List ℕ} (h : Resident c used)
    (hused : ∀ b, b ∈ used' ↔ b ∈ used) : Resident c used' :=
  ⟨fun b => (h.held_iff b).trans (hused b).symm, h.alone, h.packed⟩

/-- A block is found exactly if it was used. -/
theorem Resident.lookup_eq_none_iff (h : Resident c used) (hs : s.val = b % S) :
    lookup c s (b / S) = none ↔ b ∉ used := by
  rw [← h.held_iff]
  constructor
  · rintro hl ⟨i, hi⟩
    exact h.packed.held_ne hl hs i hi
  · intro hb
    exact lookup_of_held_ne hs fun i hi => hb ⟨i, hi⟩

/-- A full set holds as many used blocks as it has ways. -/
theorem Resident.firstInvalid_ne_none (h : Resident c used) (hs : s.val = b % S)
    (hroom : (used.toFinset.filter (· % S = b % S)).card < W) : firstInvalid c s ≠ none := by
  intro hfull
  have hheld : ∀ w, ∃ x, held c (slot s w) = some x := fun w =>
    Option.ne_none_iff_exists'.1 fun hnone => by
      rw [held_eq_none_iff, firstInvalid_eq_none_iff.1 hfull w] at hnone
      cases hnone
  choose x hx using hheld
  have hcard := Finset.card_le_card_of_injOn (s := Finset.univ)
    (t := used.toFinset.filter (· % S = b % S)) x ?_ ?_
  · rw [Finset.card_univ, Fintype.card_fin] at hcard
    omega
  · intro w _
    have hset := ((held_eq_some_iff _).1 (hx w)).2.2
    rw [setOf_slot] at hset
    rw [Finset.mem_coe, Finset.mem_filter, List.mem_toFinset]
    exact ⟨(h.held_iff _).1 ⟨_, hx w⟩, hset.symm.trans hs⟩
  · intro w _ w' _ hww
    have hsame := h.alone _ _ _ (hx w) (hww ▸ hx w')
    exact (slot_inj.1 hsame).2

theorem Resident.touch (h : Resident c used) (hw : held c (slot s w) = some b) :
    Resident (touch c s w) (b :: used) := by
  have hv := ((held_eq_some_iff _).1 hw).1
  refine ⟨fun b' => ?_, by rw [held_touch]; exact h.alone, h.packed.touch hv⟩
  rw [held_touch, h.held_iff, List.mem_cons, or_iff_right_of_imp]
  rintro rfl
  exact (h.held_iff _).1 ⟨_, hw⟩

variable [NeZero W]

/-- A block that was not used takes an invalid way. -/
theorem Resident.use (h : Resident c used) (hs : s.val = b % S) (hb : b ∉ used)
    (hroom : Room S W used b)
    (hheld : held c' = Function.update (held c) (replaceSlot c s) (some b)) (hpacked : Packed c') :
    Resident c' (b :: used) := by
  have hfree := h.firstInvalid_ne_none hs (hroom hb)
  have hnone : held c (replaceSlot c s) = none := held_replaceSlot.resolve_right hfree
  have hne : ∀ i, held c i ≠ some b := fun i hi => hb ((h.held_iff b).1 ⟨i, hi⟩)
  refine ⟨fun b' => ?_, ?_, hpacked⟩
  · rw [hheld, List.mem_cons, ← h.held_iff]
    constructor
    · rintro ⟨i, hi⟩
      rcases eq_or_ne i (replaceSlot c s) with rfl | hne
      · rw [Function.update_self, Option.some.injEq] at hi
        exact .inl hi.symm
      · rw [Function.update_of_ne hne] at hi
        exact .inr ⟨i, hi⟩
    · rintro (rfl | ⟨i, hi⟩)
      · exact ⟨_, Function.update_self ..⟩
      · refine ⟨i, ?_⟩
        rw [Function.update_of_ne, hi]
        rintro rfl
        rw [hnone] at hi
        cases hi
  · rw [hheld, exclusive_fill_iff h.alone (hne _)]
    exact hne

theorem Resident.fill (h : Resident c used) (hs : s.val = b % S) (hb : b ∉ used)
    (hroom : Room S W used b) (he : e.held s = some b) (hv : e.v = true) (hage : e.age.toNat = 0) :
    Resident (Function.update c (replaceSlot c s) e) (b :: used) := by
  refine h.use hs hb hroom ?_ (h.packed.fill hv hage)
  rw [held_update, replaceSlot, setOf_slot, he]

theorem Resident.insert (h : Resident c used) (hW : W ≤ 2 ^ a) (hs : s.val = b % S) (hb : b ∉ used)
    (hroom : Room S W used b) (he : e.held s = some b) (hv : e.v = true) :
    Resident (SetAssoc.insert c s e) (b :: used) :=
  h.use hs hb hroom (by rw [held_insert, he]) (h.packed.insert hW hv)

end SetAssoc
