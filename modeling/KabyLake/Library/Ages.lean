import KabyLake.Library.SetAssoc

/-!
# Ages that follow the uses of a set-associative array

`used` lists the blocks used, the last first. Ages follow it if of two blocks of a set the one
used earlier is at least as old. Touching, filling and inserting keep this, also a fill that ages
nothing. A full set then gives up its least recently used block whenever its oldest way is the only
one of its age.
-/

namespace SetAssoc

variable {S W a t : ℕ} {δ : Type*} {c c' : Cache S W a t δ} {s : Fin S} {w : Fin W}
  {i v : Fin (S * W)} {e : Entry a t δ} {b : ℕ} {used : List ℕ}

/-- In each set, the blocks held are used ones, each in one slot, and older if used earlier. -/
structure Follows (c : Cache S W a t δ) (used : List ℕ) : Prop where
  mem : ∀ i b, held c i = some b → b ∈ used
  alone : Exclusive (held c)
  older : ∀ i j b b', setOf i = setOf j → held c i = some b → held c j = some b' →
    used.idxOf b < used.idxOf b' → (c i).age.toNat ≤ (c j).age.toNat

/-- The valid ways of a set that is not full come first, and their ages are below their number. -/
def Packed (c : Cache S W a t δ) : Prop :=
  ∀ s f, firstInvalid c s = some f → ∀ w, (c (slot s w)).v = true →
    w < f ∧ (c (slot s w)).age.toNat < f

/-- The age of the oldest way is that of no other way. -/
def OldestAlone [NeZero W] (c : Cache S W a t δ) (s : Fin S) : Prop :=
  ∀ w, w ≠ oldestWay c s → (c (slot s w)).age.toNat < (c (slot s (oldestWay c s))).age.toNat

instance [NeZero W] (c : Cache S W a t δ) (s : Fin S) : Decidable (OldestAlone c s) :=
  inferInstanceAs (Decidable (∀ _, _))

theorem follows_of_held_none (h : held c = fun _ => none) : Follows c [] := by
  refine ⟨fun i b hi => ?_, fun i j b hi _ => ?_, fun i j b b' _ hi _ _ => ?_⟩
  all_goals
    rw [h] at hi
    cases hi

theorem packed_of_held_none (h : held c = fun _ => none) : Packed c := by
  intro s f _ w hw
  rw [(held_eq_none_iff _).1 (congrFun h (slot s w))] at hw
  cases hw

theorem Follows.congr (h : Follows c used) (hheld : held c' = held c)
    (hage : ∀ i, (c' i).age.toNat = (c i).age.toNat) : Follows c' used :=
  ⟨hheld ▸ h.mem, hheld ▸ h.alone, fun i j b b' hset hi hj hlt => by
    rw [hage, hage]
    exact h.older i j b b' hset (hheld ▸ hi) (hheld ▸ hj) hlt⟩

theorem Packed.congr (h : Packed c) (hheld : held c' = held c)
    (hage : ∀ i, (c' i).age.toNat = (c i).age.toNat) : Packed c' := by
  have hv : ∀ i, (c' i).v = (c i).v := fun i => by
    have hi : held c' i = none ↔ held c i = none := by rw [hheld]
    rw [held_eq_none_iff, held_eq_none_iff] at hi
    exact Bool.eq_iff_iff.2 (by simpa using not_congr hi)
  intro s f hf w hw
  rw [firstInvalid_eq_some_iff] at hf
  simp only [hv] at hf hw
  rw [hage]
  exact h s f (firstInvalid_eq_some_iff.2 hf) w hw

/-- A slot that takes a block becomes the youngest of its set, and the others stay in order. -/
theorem Follows.use (h : Follows c used)
    (hheld : held c' = Function.update (held c) v (some b)) (hother : ∀ j ≠ v, held c j ≠ some b)
    (hzero : (c' v).age.toNat = 0)
    (horder : ∀ i j, i ≠ v → j ≠ v → setOf i = setOf j → held c i ≠ none → held c j ≠ none →
      (c i).age.toNat ≤ (c j).age.toNat → (c' i).age.toNat ≤ (c' j).age.toNat) :
    Follows c' (b :: used) := by
  have hcases : ∀ i b', held c' i = some b' →
      i = v ∧ b' = b ∨ i ≠ v ∧ held c i = some b' ∧ b' ≠ b := by
    intro i b' hi
    rw [hheld] at hi
    rcases eq_or_ne i v with rfl | hne
    · rw [Function.update_self] at hi
      exact .inl ⟨rfl, (Option.some.inj hi).symm⟩
    · rw [Function.update_of_ne hne] at hi
      exact .inr ⟨hne, hi, fun hb => hother i hne (hb ▸ hi)⟩
  refine ⟨fun i b' hi => ?_, fun i j b' hi hj => ?_, fun i j b' b'' hset hi hj hlt => ?_⟩
  · rcases hcases i b' hi with ⟨-, rfl⟩ | ⟨-, hi, -⟩
    · exact List.mem_cons_self
    · exact List.mem_cons_of_mem _ (h.mem i b' hi)
  · rcases hcases i b' hi with ⟨rfl, rfl⟩ | ⟨-, hi, hb⟩ <;>
      rcases hcases j b' hj with ⟨rfl, hb'⟩ | ⟨-, hj, hb'⟩
    · rfl
    · exact absurd rfl hb'
    · exact absurd hb' hb
    · exact h.alone i j b' hi hj
  · rcases hcases i b' hi with ⟨rfl, rfl⟩ | ⟨hiv, hi, hb⟩
    · rw [hzero]
      exact Nat.zero_le _
    rcases hcases j b'' hj with ⟨rfl, rfl⟩ | ⟨hjv, hj, hb'⟩
    · rw [List.idxOf_cons_self] at hlt
      exact absurd hlt (Nat.not_lt_zero _)
    · rw [List.idxOf_cons_ne _ hb.symm, List.idxOf_cons_ne _ hb'.symm] at hlt
      refine horder i j hiv hjv hset ?_ ?_ (h.older i j b' b'' hset hi hj (by omega))
      · rw [hi]
        exact nofun
      · rw [hj]
        exact nofun

/-- A block that a packed set does not find is in no slot. -/
theorem Packed.held_ne (h : Packed c) (hl : lookup c s (b / S) = none) (hs : s.val = b % S)
    (i : Fin (S * W)) : held c i ≠ some b := by
  rcases hf : firstInvalid c s with _ | f
  · exact held_ne_of_lookup hl hs hf i
  · intro hi
    obtain ⟨hv, ht, his⟩ := (held_eq_some_iff i).1 hi
    obtain ⟨w, hw⟩ := exists_slot i
    have hset : setOf i = s := Fin.ext (his.trans hs.symm)
    rw [hset] at hw
    rw [hw] at hv ht
    have hlt := (h s f hf w hv).1
    have hprev := (firstInvalid_eq_some_iff.1 hf).2
    exact lookup_ne_none (fun w' hw' => hprev w' (hw'.trans_lt hlt)) ht hl

section Touch

theorem toNat_age_add_one {x y : BitVec a} (h : x < y) : (x + 1).toNat = x.toNat + 1 := by
  have hx : x.toNat < y.toNat := h
  have hy := y.isLt
  rcases Nat.eq_zero_or_pos a with rfl | ha
  · omega
  · have hone : (1 : BitVec a).toNat = 1 := by
      show (BitVec.ofNat a 1).toNat = 1
      rw [BitVec.toNat_ofNat, Nat.mod_eq_of_lt (Nat.one_lt_two_pow ha.ne')]
    rw [BitVec.toNat_add, hone, Nat.mod_eq_of_lt (by omega)]

theorem age_touch_of_ne (hs : setOf i = s) (hi : i ≠ slot s w) :
    (touch c s w i).age.toNat = if (c i).age.toNat < (c (slot s w)).age.toNat
      then (c i).age.toNat + 1 else (c i).age.toNat := by
  unfold touch
  rw [if_pos hs, if_neg hi]
  split_ifs with hlt hlt' hlt'
  · exact toNat_age_add_one hlt
  · exact absurd hlt hlt'
  · exact absurd hlt' hlt
  · rfl

theorem age_touch_self : (touch c s w (slot s w)).age.toNat = 0 := by
  unfold touch
  rw [if_pos (setOf_slot s w), if_pos rfl]
  rfl

/-- Touching keeps the order of the other slots of a set. -/
theorem touch_order {j : Fin (S * W)} (hi : i ≠ slot s w) (hj : j ≠ slot s w)
    (hset : setOf i = setOf j) (hle : (c i).age.toNat ≤ (c j).age.toNat) :
    (touch c s w i).age.toNat ≤ (touch c s w j).age.toNat := by
  by_cases hs : setOf i = s
  · rw [age_touch_of_ne hs hi, age_touch_of_ne (hset ▸ hs) hj]
    split_ifs <;> omega
  · rwa [touch_of_ne hs, touch_of_ne (hset ▸ hs)]

theorem Follows.touch (h : Follows c used) (hw : held c (slot s w) = some b) :
    Follows (touch c s w) (b :: used) := by
  refine h.use (v := slot s w) ?_ (fun j hj hb => hj (h.alone j _ b hb hw)) age_touch_self
    fun i j hi hj hset _ _ hle => touch_order hi hj hset hle
  rw [held_touch, ← hw, Function.update_eq_self]

/-- The way just used is the one replaced next only in a set where all are equally old and it is the
last. -/
theorem replaceSlot_touch_iff [NeZero W] (hv : (c (slot s w)).v = true) (hW : 1 < W) :
    replaceSlot (touch c s w) s = slot s w ↔ (∀ w', (c (slot s w')).v = true)
      ∧ (∀ w', (c (slot s w')).age.toNat = 0) ∧ ∀ w', w' ≤ w := by
  constructor
  · intro h
    have hway : replaceWay (touch c s w) s = w := (slot_inj.1 h).2
    rcases hf : firstInvalid (touch c s w) s with _ | f
    · have hvalid : ∀ w', (c (slot s w')).v = true := fun w' => by
        rw [← v_touch]
        exact firstInvalid_eq_none_iff.1 hf w'
      rw [replaceWay, hf, Option.getD_none] at hway
      have hold := oldestWay_spec (touch c s w) s
      rw [hway, age_touch_self] at hold
      have hzero : ∀ w' ≠ w, (c (slot s w')).age.toNat = 0 ∧ (c (slot s w)).age.toNat = 0 := by
        intro w' hw'
        have hle := (hold w').1
        rw [age_touch_of_ne (setOf_slot s w') fun he => hw' (slot_inj.1 he).2] at hle
        split_ifs at hle <;> omega
      obtain ⟨w₀, hw₀⟩ : ∃ w₀ : Fin W, w₀ ≠ w := by
        have : Nontrivial (Fin W) := Fin.nontrivial_iff_two_le.2 hW
        exact exists_ne w
      refine ⟨hvalid, fun w' => ?_, fun w' => not_lt.1 fun hlt => ?_⟩
      · by_cases hw' : w' = w
        · rw [hw']
          exact (hzero w₀ hw₀).2
        · exact (hzero w' hw').1
      · exact absurd ((hold w').2 hlt) (Nat.not_lt_zero _)
    · have hfv := (firstInvalid_eq_some_iff.1 hf).1
      rw [replaceWay, hf, Option.getD_some] at hway
      rw [hway, v_touch, hv] at hfv
      cases hfv
  · rintro ⟨hvalid, hage, hlast⟩
    have hfull : firstInvalid (touch c s w) s = none :=
      firstInvalid_eq_none_iff.2 fun w' => by rw [v_touch, hvalid]
    have hzero : ∀ w', (touch c s w (slot s w')).age.toNat = 0 := by
      intro w'
      by_cases hw' : w' = w
      · rw [hw', age_touch_self]
      · rw [age_touch_of_ne (setOf_slot s w') fun he => hw' (slot_inj.1 he).2, hage, hage]
        rfl
    have hold := (oldestWay_spec (touch c s w) s w).2
    rw [hzero, hzero] at hold
    have hle : w ≤ oldestWay (touch c s w) s := not_lt.1 fun hlt => lt_irrefl _ (hold hlt)
    rw [replaceSlot_of_full hfull, le_antisymm (hlast _) hle]

theorem Packed.touch (h : Packed c) (hv : (c (slot s w)).v = true) : Packed (touch c s w) := by
  intro s' f hf w' hw'
  rw [firstInvalid_eq_some_iff] at hf
  simp only [v_touch] at hf hw'
  have hf := firstInvalid_eq_some_iff.2 hf
  refine ⟨(h s' f hf w' hw').1, ?_⟩
  have hage := (h s' f hf w' hw').2
  by_cases hs : s' = s
  · subst hs
    have hage' := (h s' f hf w hv).2
    by_cases hne : slot s' w' = slot s' w
    · rw [hne, age_touch_self]
      omega
    · rw [age_touch_of_ne (setOf_slot _ _) hne]
      split_ifs <;> omega
  · rwa [touch_of_ne (by rwa [setOf_slot])]

end Touch

section Insert

variable [NeZero W]

/-- A fill of age 0 that ages nothing. -/
theorem Follows.fill (h : Follows c used) (hp : Packed c) (hl : lookup c s (b / S) = none)
    (hs : s.val = b % S) (he : e.held s = some b) (hage : e.age.toNat = 0) :
    Follows (Function.update c (replaceSlot c s) e) (b :: used) := by
  refine h.use (v := replaceSlot c s) ?_ (fun j _ => hp.held_ne hl hs j) ?_
    fun i j hi hj _ _ _ hle => ?_
  · rw [held_update, replaceSlot, setOf_slot, he]
  · rw [Function.update_self, hage]
  · rwa [Function.update_of_ne hi, Function.update_of_ne hj]

theorem age_insert_room {f : Fin W} (hf : firstInvalid c s = some f) (hs : setOf i = s)
    (hi : i ≠ replaceSlot c s) : (insert c s e i).age = (c i).age + 1 := by
  have hi' : i ≠ slot s f := by rwa [replaceSlot, replaceWay, hf] at hi
  simp only [insert, hf, ageAll]
  rw [if_pos hs, if_neg hi', Function.update_of_ne hi']

theorem insert_full (hfull : firstInvalid c s = none) :
    insert c s e = touch (Function.update c (replaceSlot c s) e) s (oldestWay c s) := by
  simp only [insert, hfull, replaceSlot_of_full hfull]

theorem age_insert_self : (insert c s e (replaceSlot c s)).age.toNat = 0 := by
  rcases hf : firstInvalid c s with _ | f
  · rw [insert_full hf, replaceSlot_of_full hf, age_touch_self]
  · have hslot : replaceSlot c s = slot s f := by rw [replaceSlot, replaceWay, hf, Option.getD_some]
    simp only [insert, hf, ageAll]
    rw [hslot, if_pos (setOf_slot s f), if_pos rfl]
    rfl

theorem insert_of_set_ne (hs : setOf i ≠ s) : insert c s e i = c i := by
  have hne : i ≠ replaceSlot c s := fun hi => hs (by rw [hi, replaceSlot, setOf_slot])
  rcases hf : firstInvalid c s with _ | f
  · rw [insert_full hf, touch_of_ne hs, Function.update_of_ne hne]
  · have hslot : i ≠ slot s f := by rwa [replaceSlot, replaceWay, hf] at hne
    simp only [insert, hf, ageAll]
    rw [if_neg hs, Function.update_of_ne hslot]

/-- In a full set the slots younger than the entry age. -/
theorem age_insert_full (hfull : firstInvalid c s = none) (hs : setOf i = s)
    (hi : i ≠ replaceSlot c s) : (insert c s e i).age.toNat
      = if (c i).age.toNat < e.age.toNat then (c i).age.toNat + 1 else (c i).age.toNat := by
  have hslot := replaceSlot_of_full hfull
  rw [insert_full hfull, age_touch_of_ne hs (hslot ▸ hi), ← hslot, Function.update_self,
    Function.update_of_ne hi]

/-- An entry that fills an invalid way loses its age. -/
theorem insert_room_age (hroom : firstInvalid c s ≠ none) (b : BitVec a) :
    insert c s { e with age := b } = insert c s e := by
  obtain ⟨w, hw⟩ := Option.ne_none_iff_exists'.1 hroom
  simp only [insert, hw]
  funext i
  unfold ageAll
  by_cases hi : i = slot s w
  · subst hi
    simp
  · simp [hi]

/-- In a full set the age of the entry does not matter exactly if no other way can age. -/
theorem insert_full_age_iff (hfull : firstInvalid c s = none) :
    (∀ b b' : BitVec a, insert c s { e with age := b } = insert c s { e with age := b' })
      ↔ ∀ w ≠ oldestWay c s, (c (slot s w)).age = BitVec.allOnes a := by
  have hslot := replaceSlot_of_full hfull
  constructor
  · intro h w hw
    by_contra hne
    have hi : slot s w ≠ replaceSlot c s := fun he => hw (slot_inj.1 (he.trans hslot)).2
    have hlt : (c (slot s w)).age.toNat < (BitVec.allOnes a).toNat := BitVec.lt_allOnes_iff.2 hne
    have hages := congrArg (fun c => (c (slot s w)).age.toNat) (h (BitVec.allOnes a) 0#a)
    simp only [age_insert_full hfull (setOf_slot s w) hi, if_pos hlt, BitVec.toNat_zero,
      Nat.not_lt_zero, if_false] at hages
    omega
  · intro h b b'
    funext i
    by_cases hs : setOf i = s
    swap
    · rw [insert_of_set_ne hs, insert_of_set_ne hs]
    rw [insert_full hfull, insert_full hfull, hslot]
    unfold touch
    by_cases hi : i = slot s (oldestWay c s)
    · subst hi
      simp
    · obtain ⟨w, hw⟩ := exists_slot i
      have hage : (c i).age = BitVec.allOnes a := by
        rw [hw, hs]
        exact h w fun he => hi (by rw [hw, hs, he])
      have hnot : ∀ b : BitVec a, ¬ (c i).age < b := by
        rw [hage]
        exact fun b => BitVec.not_allOnes_lt
      simp only [if_pos hs, if_neg hi, Function.update_of_ne hi, Function.update_self, hnot,
        if_false]

/-- In a packed set with room, an insertion makes each other way older by one. -/
theorem Packed.age_insert (h : Packed c) (hW : W ≤ 2 ^ a) {f : Fin W}
    (hf : firstInvalid c s = some f) (hv : (c (slot s w)).v = true)
    (hw : slot s w ≠ replaceSlot c s) :
    (SetAssoc.insert c s e (slot s w)).age.toNat = (c (slot s w)).age.toNat + 1 := by
  have hlt := (h s f hf w hv).2
  have hbound : (c (slot s w)).age < BitVec.ofNat a f.val := by
    rw [BitVec.lt_def, BitVec.toNat_ofNat, Nat.mod_eq_of_lt (f.isLt.trans_le hW)]
    exact hlt
  rw [age_insert_room hf (setOf_slot s w) hw, toNat_age_add_one hbound]

theorem Follows.insert (h : Follows c used) (hp : Packed c) (hW : W ≤ 2 ^ a)
    (hl : lookup c s (b / S) = none) (hs : s.val = b % S) (he : e.held s = some b) :
    Follows (SetAssoc.insert c s e) (b :: used) := by
  refine h.use (v := replaceSlot c s) (by rw [held_insert, he]) (fun j _ => hp.held_ne hl hs j)
    age_insert_self fun i j hi hj hset hhi hhj hle => ?_
  by_cases hsi : setOf i = s
  swap
  · rwa [insert_of_set_ne hsi, insert_of_set_ne (hset ▸ hsi)]
  rcases hf : firstInvalid c s with _ | f
  · rw [insert_full hf]
    rw [replaceSlot_of_full hf] at hi hj ⊢
    refine touch_order hi hj hset ?_
    rwa [Function.update_of_ne hi, Function.update_of_ne hj]
  · obtain ⟨w, hw⟩ := exists_slot i
    obtain ⟨w', hw'⟩ := exists_slot j
    rw [hsi] at hw
    rw [← hset, hsi] at hw'
    subst hw hw'
    rw [hp.age_insert hW hf (by simpa [held_eq_none_iff] using hhi) hi,
      hp.age_insert hW hf (by simpa [held_eq_none_iff] using hhj) hj]
    omega

/-- Filling the way an insertion takes keeps a set packed if the others age by at most one. -/
theorem Packed.use (h : Packed c) (hv : ∀ i, (c' i).v = true ↔ (c i).v = true ∨ i = replaceSlot c s)
    (hzero : (c' (replaceSlot c s)).age.toNat = 0)
    (hage : ∀ w, (c (slot s w)).v = true → slot s w ≠ replaceSlot c s → firstInvalid c s ≠ none →
      (c' (slot s w)).age.toNat ≤ (c (slot s w)).age.toNat + 1)
    (hother : ∀ i, setOf i ≠ s → (c' i).age = (c i).age) : Packed c' := by
  intro s' f' hf' w hw
  rw [firstInvalid_eq_some_iff] at hf'
  obtain ⟨hinv, hprev⟩ := hf'
  by_cases hs : s' = s
  swap
  · have hne : ∀ w, slot s' w ≠ replaceSlot c s := fun w hslot => hs (slot_inj.1 hslot).1
    have hsame : ∀ w, (c' (slot s' w)).v = true ↔ (c (slot s' w)).v = true := fun w => by
      rw [hv, or_iff_left (hne w)]
    have hf : firstInvalid c s' = some f' := firstInvalid_eq_some_iff.2
      ⟨by simpa [hsame] using (Bool.eq_false_iff.1 hinv), fun w hw => (hsame w).1 (hprev w hw)⟩
    rw [hother _ (by rwa [setOf_slot])]
    exact h s' f' hf w ((hsame w).1 hw)
  subst hs
  have hinv' : (c (slot s' f')).v ≠ true ∧ slot s' f' ≠ replaceSlot c s' := by
    rw [← not_or, ← hv, hinv]
    exact Bool.false_ne_true
  rcases hf : firstInvalid c s' with _ | f
  · exact absurd (firstInvalid_eq_none_iff.1 hf f') hinv'.1
  have hslot : replaceSlot c s' = slot s' f := by rw [replaceSlot, replaceWay, hf, Option.getD_some]
  -- the way filled is no longer invalid, so the first invalid way is a later one
  have hlt : f < f' := by
    rcases lt_trichotomy f f' with hlt | heq | hgt
    · exact hlt
    · rw [heq] at hslot
      exact absurd hslot.symm hinv'.2
    · exact absurd ((firstInvalid_eq_some_iff.1 hf).2 f' hgt) hinv'.1
  by_cases hwf : slot s' w = replaceSlot c s'
  · have hw' : w = f := (slot_inj.1 (hwf.trans hslot)).2
    subst hw'
    refine ⟨hlt, ?_⟩
    rw [hwf, hzero]
    exact (Nat.zero_le _).trans_lt (Fin.lt_def.1 hlt)
  · have hvw := ((hv _).1 hw).resolve_right hwf
    obtain ⟨hwlt, hagelt⟩ := h s' f hf w hvw
    have hle := hage w hvw hwf (by rw [hf]; exact Option.some_ne_none _)
    have hff' := Fin.lt_def.1 hlt
    exact ⟨hwlt.trans hlt, by omega⟩

theorem Packed.fill (h : Packed c) (hv : e.v = true) (hage : e.age.toNat = 0) :
    Packed (Function.update c (replaceSlot c s) e) := by
  refine h.use (s := s) (fun i => ?_) ?_ (fun w _ hne _ => ?_) fun i hi => ?_
  · rcases eq_or_ne i (replaceSlot c s) with rfl | hne
    · simp [hv]
    · simp [hne]
  · rw [Function.update_self, hage]
  · rw [Function.update_of_ne hne]
    omega
  · have hne : i ≠ replaceSlot c s := fun hi' => hi (by rw [hi', replaceSlot, setOf_slot])
    rw [Function.update_of_ne hne]

theorem Packed.insert (h : Packed c) (hW : W ≤ 2 ^ a) (hv : e.v = true) :
    Packed (SetAssoc.insert c s e) := by
  refine h.use (s := s) (fun i => ?_) age_insert_self (fun w hvw hne hroom => ?_) fun i hi => ?_
  · rcases eq_or_ne i (replaceSlot c s) with rfl | hne
    · have hvi : (SetAssoc.insert c s e (replaceSlot c s)).v = e.v := congrArg Content.v insert_self
      simp [hvi, hv]
    · have hvi : (SetAssoc.insert c s e i).v = (c i).v := congrArg Content.v (insert_of_ne hne)
      simp [hvi, hne]
  · obtain ⟨f, hf⟩ := Option.ne_none_iff_exists'.1 hroom
    exact (h.age_insert hW hf hvw hne).le
  · rw [insert_of_set_ne hi]

end Insert

/-- The only way of its age has the block that was used longest ago. -/
theorem Follows.oldest [NeZero W] (h : Follows c used) (halone : OldestAlone c s) {x z : ℕ}
    (hx : held c (slot s (oldestWay c s)) = some x) (hz : held c i = some z) (hi : setOf i = s) :
    used.idxOf z ≤ used.idxOf x := by
  by_contra hlt
  obtain ⟨w, hw⟩ := exists_slot i
  rw [hi] at hw
  subst hw
  have hle := h.older _ _ x z (by rw [setOf_slot, setOf_slot]) hx hz (not_le.1 hlt)
  have hne : w ≠ oldestWay c s := by
    rintro rfl
    obtain rfl : x = z := Option.some.inj (hx.symm.trans hz)
    exact hlt le_rfl
  exact absurd (halone w hne) (not_lt.2 hle)

end SetAssoc
