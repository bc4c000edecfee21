import Mathlib.Tactic

/-!
# Set-associative arrays with ages

An array of `S` sets of `W` ways. Each slot has a valid bit, a tag, an age of a few bits and a line.
A lookup takes the first way that is invalid or has the tag; a line is inserted in the first invalid
way of its set, or else in the last way of maximal age. Ageing never changes what a slot holds
(`content`), so only insertions and `clear` show in it.
-/

namespace SetAssoc

@[ext]
structure Entry (ageBits tagBits : ℕ) (δ : Type*) where
  v : Bool
  age : BitVec ageBits
  tag : BitVec tagBits
  line : δ

abbrev Cache (S W ageBits tagBits : ℕ) (δ : Type*) := Fin (S * W) → Entry ageBits tagBits δ

@[ext]
structure Content (tagBits : ℕ) (δ : Type*) where
  v : Bool
  tag : BitVec tagBits
  line : δ

variable {S W a t : ℕ} {δ : Type*}

def Entry.content (e : Entry a t δ) : Content t δ := ⟨e.v, e.tag, e.line⟩

def content (c : Cache S W a t δ) : Fin (S * W) → Content t δ := fun i => (c i).content

/-- The slot of a way of a set, and the set of a slot. -/
abbrev slot (s : Fin S) (w : Fin W) : Fin (S * W) := Fin.mkDivMod s w

abbrev setOf (i : Fin (S * W)) : Fin S := i.divNat

theorem setOf_slot (s : Fin S) (w : Fin W) : setOf (slot s w) = s := Fin.divNat_mkDivMod s w

theorem slot_inj {s s' : Fin S} {w w' : Fin W} : slot s w = slot s' w' ↔ s = s' ∧ w = w' := by
  constructor
  · intro h
    exact ⟨by simpa using congrArg Fin.divNat h, by simpa using congrArg Fin.modNat h⟩
  · rintro ⟨rfl, rfl⟩
    rfl

/-- Every slot is that of a way of its set. -/
theorem exists_slot (i : Fin (S * W)) : ∃ w, i = slot (setOf i) w :=
  ⟨i.modNat, (Fin.divNat_mkDivMod_modNat i).symm⟩

section Operations

variable (c : Cache S W a t δ) (s : Fin S)

/-- The way used becomes the youngest of its set, and those younger than it age. -/
def touch (w : Fin W) : Cache S W a t δ := fun i =>
  if setOf i = s then
    if i = slot s w then { c i with age := 0 }
    else if (c i).age < (c (slot s w)).age then { c i with age := (c i).age + 1 }
    else c i
  else c i

/-- The way filled becomes the youngest of its set, and all others age. -/
def ageAll (w : Fin W) : Cache S W a t δ := fun i =>
  if setOf i = s then
    if i = slot s w then { c i with age := 0 } else { c i with age := (c i).age + 1 }
  else c i

def clear (i : Fin (S * W)) : Cache S W a t δ := Function.update c i { c i with v := false }

def firstInvalid : Option (Fin W) := Fin.find? fun w => !(c (slot s w)).v

/-- The first way that is invalid or has the tag, if it is valid. -/
def lookup (tag : ℕ) : Option (Fin W) :=
  (Fin.find? fun w => !(c (slot s w)).v || (c (slot s w)).tag.toNat == tag).filter
    fun w => (c (slot s w)).v

/-- The last way of maximal age. -/
def oldestWay [NeZero W] : Fin W :=
  (List.finRange W).foldl
    (fun b w => if (c (slot s b)).age.toNat ≤ (c (slot s w)).age.toNat then w else b) 0

def replaceWay [NeZero W] : Fin W := (firstInvalid c s).getD (oldestWay c s)

def replaceSlot [NeZero W] : Fin (S * W) := slot s (replaceWay c s)

/-- An entry inserted in a set, as the youngest of it. -/
def insert [NeZero W] (e : Entry a t δ) : Cache S W a t δ :=
  match firstInvalid c s with
  | some w => ageAll (Function.update c (slot s w) e) s w
  | none => touch (Function.update c (slot s (oldestWay c s)) e) s (oldestWay c s)

end Operations

section Content

variable {c : Cache S W a t δ} {s : Fin S} {w : Fin W} {i : Fin (S * W)} {e : Entry a t δ}

@[simp] theorem content_touch : content (touch c s w) = content c := by
  funext i
  simp only [content, touch, Entry.content]
  split_ifs <;> rfl

@[simp] theorem content_ageAll : content (ageAll c s w) = content c := by
  funext i
  simp only [content, ageAll, Entry.content]
  split_ifs <;> rfl

theorem content_update (i : Fin (S * W)) (e : Entry a t δ) :
    content (Function.update c i e) = Function.update (content c) i e.content := by
  funext j
  by_cases hj : j = i
  · subst hj
    simp [content]
  · simp [content, hj]

theorem content_insert [NeZero W] :
    content (insert c s e) = Function.update (content c) (replaceSlot c s) e.content := by
  unfold insert replaceSlot replaceWay
  rcases hw : firstInvalid c s with _ | w
  · simp only [content_touch, content_update, Option.getD_none]
  · simp only [content_ageAll, content_update, Option.getD_some]

/-- A way of age 0 is touched for nothing. -/
theorem touch_of_age_zero (h : (c (slot s w)).age = 0) : touch c s w = c := by
  funext i
  unfold touch
  split_ifs with hs hi hlt
  · subst hi
    rw [← h]
  · rw [h] at hlt
    exact absurd hlt (by simp)
  · rfl
  · rfl

theorem v_touch : (touch c s w i).v = (c i).v :=
  congrArg Content.v (congrFun content_touch i)

@[simp] theorem line_touch : (touch c s w i).line = (c i).line :=
  congrArg Content.line (congrFun content_touch i)

@[simp] theorem tag_touch : (touch c s w i).tag = (c i).tag :=
  congrArg Content.tag (congrFun content_touch i)

theorem insert_of_ne [NeZero W] (h : i ≠ replaceSlot c s) :
    (insert c s e i).content = (c i).content := by
  have hi := congrFun (content_insert (c := c) (s := s) (e := e)) i
  rwa [Function.update_of_ne h] at hi

theorem insert_self [NeZero W] : (insert c s e (replaceSlot c s)).content = e.content := by
  have hi := congrFun (content_insert (c := c) (s := s) (e := e)) (replaceSlot c s)
  rwa [Function.update_self] at hi

theorem line_insert_of_ne [NeZero W] (h : i ≠ replaceSlot c s) :
    (insert c s e i).line = (c i).line :=
  congrArg Content.line (insert_of_ne h)

theorem line_insert_self [NeZero W] : (insert c s e (replaceSlot c s)).line = e.line :=
  congrArg Content.line insert_self

/-- A slot that is invalid is cleared for nothing. -/
theorem clear_of_invalid (h : (c i).v = false) : clear c i = c := by
  rw [clear, ← h]
  exact Function.update_eq_self i c

theorem firstInvalid_eq_none_iff : firstInvalid c s = none ↔ ∀ w, (c (slot s w)).v = true := by
  simp [firstInvalid]

theorem firstInvalid_eq_some_iff : firstInvalid c s = some w
    ↔ (c (slot s w)).v = false ∧ ∀ w' < w, (c (slot s w')).v = true := by
  simp [firstInvalid]

theorem replaceSlot_of_full [NeZero W] (h : firstInvalid c s = none) :
    replaceSlot c s = slot s (oldestWay c s) := by
  rw [replaceSlot, replaceWay, h, Option.getD_none]

theorem lookup_eq_some_iff {tag : ℕ} : lookup c s tag = some w
    ↔ (c (slot s w)).v = true ∧ (c (slot s w)).tag.toNat = tag
      ∧ ∀ w' < w, (c (slot s w')).v = true ∧ (c (slot s w')).tag.toNat ≠ tag := by
  rw [lookup, Option.filter_eq_some_iff, Fin.find?_eq_some_iff]
  constructor
  · rintro ⟨⟨hw, hlt⟩, hv⟩
    refine ⟨hv, by simpa [hv] using hw, fun w' hw' => ?_⟩
    simpa using hlt w' hw'
  · rintro ⟨hv, ht, hlt⟩
    refine ⟨⟨by simp [ht], fun w' hw' => ?_⟩, hv⟩
    simpa using hlt w' hw'

/-- A tag of a way with no invalid way before it is found. -/
theorem lookup_ne_none {tag : ℕ} (hv : ∀ w' ≤ w, (c (slot s w')).v = true)
    (ht : (c (slot s w)).tag.toNat = tag) : lookup c s tag ≠ none := by
  obtain ⟨w₀, ht₀, hmin⟩ := (Fin.exists_iff_exists_minimal
    fun w => (c (slot s w)).tag.toNat = tag).1 ⟨w, ht⟩
  have hle : w₀ ≤ w := not_lt.1 fun hlt => hmin w hlt ht
  have hsome : lookup c s tag = some w₀ := lookup_eq_some_iff.2
    ⟨hv w₀ hle, ht₀, fun w' hw' => ⟨hv w' (hw'.le.trans hle), hmin w' hw'⟩⟩
  rw [hsome]
  exact nofun

/-- In a full set a missed lookup means no way has the tag. -/
theorem ne_tag_of_lookup {tag : ℕ} (h : lookup c s tag = none) (hfull : firstInvalid c s = none)
    (w : Fin W) : (c (slot s w)).tag.toNat ≠ tag :=
  fun ht => lookup_ne_none (fun w' _ => firstInvalid_eq_none_iff.1 hfull w') ht h

theorem touch_of_ne (h : setOf i ≠ s) : touch c s w i = c i := if_neg h

section Frame

/-- The slots outside a set are the same. -/
def AgreeOff (s : Fin S) (c c' : Cache S W a t δ) : Prop := ∀ i, setOf i ≠ s → c' i = c i

theorem AgreeOff.refl (s : Fin S) (c : Cache S W a t δ) : AgreeOff s c c := fun _ _ => rfl

theorem AgreeOff.trans {c₁ c₂ c₃ : Cache S W a t δ} (h : AgreeOff s c₁ c₂) (h' : AgreeOff s c₂ c₃) :
    AgreeOff s c₁ c₃ :=
  fun i hi => (h' i hi).trans (h i hi)

theorem agreeOff_touch (c : Cache S W a t δ) (s : Fin S) (w : Fin W) : AgreeOff s c (touch c s w) :=
  fun _ hi => touch_of_ne hi

theorem agreeOff_ageAll (c : Cache S W a t δ) (s : Fin S) (w : Fin W) :
    AgreeOff s c (ageAll c s w) :=
  fun _ hi => if_neg hi

theorem agreeOff_update (c : Cache S W a t δ) (s : Fin S) (w : Fin W) (e : Entry a t δ) :
    AgreeOff s c (Function.update c (slot s w) e) := by
  intro i hi
  refine Function.update_of_ne (fun h => hi ?_) ..
  rw [h, setOf_slot]

theorem agreeOff_insert [NeZero W] (c : Cache S W a t δ) (s : Fin S) (e : Entry a t δ) :
    AgreeOff s c (insert c s e) := by
  unfold insert
  rcases firstInvalid c s with _ | w
  · exact (agreeOff_update c s _ e).trans (agreeOff_touch _ s _)
  · exact (agreeOff_update c s w e).trans (agreeOff_ageAll _ s w)

end Frame

section Exact

variable {tag : ℕ}

/-- A valid way with a tag. -/
def Carries (c : Cache S W a t δ) (s : Fin S) (tag : ℕ) (w : Fin W) : Prop :=
  (c (slot s w)).v = true ∧ (c (slot s w)).tag.toNat = tag

instance (w : Fin W) : Decidable (Carries c s tag w) := inferInstanceAs (Decidable (_ ∧ _))

/-- No invalid way comes before the first valid way with the tag. -/
def Reached (c : Cache S W a t δ) (s : Fin S) (tag : ℕ) : Prop :=
  ∀ w, Carries c s tag w → (∀ w' < w, ¬ Carries c s tag w') → ∀ w' < w, (c (slot s w')).v = true

theorem carries_of_lookup (h : lookup c s tag = some w) : Carries c s tag w := by
  obtain ⟨hv, ht, -⟩ := lookup_eq_some_iff.1 h
  exact ⟨hv, ht⟩

theorem carries_congr {c' : Cache S W a t δ} (h : content c' = content c) :
    Carries c' s tag w ↔ Carries c s tag w := by
  have hslot := congrFun h (slot s w)
  simp only [content, Entry.content, Content.mk.injEq] at hslot
  rw [Carries, Carries, hslot.1, hslot.2.1]

/-- An insertion leaves a tag nowhere if the entry does not have it and only the way replaced
did. -/
theorem not_carries_insert_iff [NeZero W] : (∀ w, ¬ Carries (insert c s e) s tag w)
    ↔ ¬ (e.v = true ∧ e.tag.toNat = tag) ∧ ∀ w, Carries c s tag w → w = replaceWay c s := by
  have hself : Carries (insert c s e) s tag (replaceWay c s) ↔ e.v = true ∧ e.tag.toNat = tag := by
    have hslot : (insert c s e (replaceSlot c s)).content = e.content := insert_self
    simp only [Entry.content, Content.mk.injEq] at hslot
    rw [Carries, ← replaceSlot, hslot.1, hslot.2.1]
  have hother : ∀ w ≠ replaceWay c s, (Carries (insert c s e) s tag w ↔ Carries c s tag w) := by
    intro w hw
    have hne : slot s w ≠ replaceSlot c s := fun he => hw (slot_inj.1 he).2
    have hslot : (insert c s e (slot s w)).content = (c (slot s w)).content := insert_of_ne hne
    simp only [Entry.content, Content.mk.injEq] at hslot
    rw [Carries, Carries, hslot.1, hslot.2.1]
  constructor
  · intro h
    refine ⟨fun he => h _ (hself.2 he), fun w hw => ?_⟩
    by_contra hne
    exact h w ((hother w hne).2 hw)
  · rintro ⟨he, honly⟩ w hw
    by_cases hne : w = replaceWay c s
    · exact he (hself.1 (hne ▸ hw))
    · exact hne (honly w ((hother w hne).1 hw))

/-- The lookup finds a tag whenever some valid way carries it, if and only if no invalid way hides
the first such way. -/
theorem lookup_exact_iff :
    ((lookup c s tag).isSome = true ↔ ∃ w, Carries c s tag w) ↔ Reached c s tag := by
  constructor
  · intro h w hw hfirst w' hw'
    obtain ⟨w₀, hw₀⟩ := Option.isSome_iff_exists.1 (h.2 ⟨w, hw⟩)
    have hle : w ≤ w₀ := not_lt.1 fun hlt => hfirst w₀ hlt (carries_of_lookup hw₀)
    exact ((lookup_eq_some_iff.1 hw₀).2.2 w' (hw'.trans_le hle)).1
  · intro h
    constructor
    · intro hs
      obtain ⟨w, hw⟩ := Option.isSome_iff_exists.1 hs
      exact ⟨w, carries_of_lookup hw⟩
    · intro hw
      obtain ⟨w, hw, hfirst⟩ := (Fin.exists_iff_exists_minimal fun w => Carries c s tag w).1 hw
      have hbefore := h w hw hfirst
      rw [Option.isSome_iff_ne_none]
      refine lookup_ne_none (fun w' hw' => ?_) hw.2
      rcases hw'.lt_or_eq with hlt | rfl
      · exact hbefore w' hlt
      · exact hw.1

end Exact

/-- A fold over increasing elements that keeps the larger of two values, the later one if they are
equal. -/
theorem foldl_last_max {α β : Type*} [LinearOrder α] [LinearOrder β] (f : α → β) (b : α) :
    ∀ l : List α, l.Pairwise (· < ·) → (∀ x ∈ l, b ≤ x) →
      let r := l.foldl (fun b x => if f b ≤ f x then x else b) b
      ∀ x, x = b ∨ x ∈ l → f x ≤ f r ∧ (r < x → f x < f r) := by
  intro l
  induction l using List.reverseRecOn with
  | nil => simp
  | append_singleton l y ih =>
    intro hl hb r x hx
    rw [List.pairwise_append] at hl
    have ih := ih hl.1 fun x hx => hb x (by simp [hx])
    have hy : ∀ x, x = b ∨ x ∈ l → x ≤ y := by
      rintro x (rfl | hx)
      · exact hb y (by simp)
      · exact (hl.2.2 x hx y (by simp)).le
    simp only [List.mem_append, List.mem_singleton, ← or_assoc] at hx
    simp only [r, List.foldl_append, List.foldl_cons, List.foldl_nil]
    split_ifs with hle
    · rcases hx with hx | rfl
      · exact ⟨(ih x hx).1.trans hle, fun h => absurd h (not_lt.2 (hy x hx))⟩
      · exact ⟨le_refl _, fun h => absurd h (lt_irrefl _)⟩
    · rcases hx with hx | rfl
      · exact ih x hx
      · exact ⟨(not_le.1 hle).le, fun _ => not_le.1 hle⟩

theorem oldestWay_spec [NeZero W] (c : Cache S W a t δ) (s : Fin S) (w : Fin W) :
    (c (slot s w)).age.toNat ≤ (c (slot s (oldestWay c s))).age.toNat ∧ (oldestWay c s < w →
      (c (slot s w)).age.toNat < (c (slot s (oldestWay c s))).age.toNat) :=
  foldl_last_max (fun w => (c (slot s w)).age.toNat) 0 (List.finRange W)
    (List.pairwise_lt_finRange W) (fun _ _ => Fin.zero_le _) w (.inr (List.mem_finRange w))

/-- The way replaced is the first invalid one, or in a full set one of maximal age. -/
theorem replaceWay_spec [NeZero W] (c : Cache S W a t δ) (s : Fin S) :
    (c (slot s (replaceWay c s))).v = false ∧ (∀ w < replaceWay c s, (c (slot s w)).v = true)
    ∨ (∀ w, (c (slot s w)).v = true)
      ∧ ∀ w, (c (slot s w)).age.toNat ≤ (c (slot s (replaceWay c s))).age.toNat := by
  unfold replaceWay
  rcases hw : firstInvalid c s with _ | w
  · exact .inr ⟨firstInvalid_eq_none_iff.1 hw, fun w => (oldestWay_spec c s w).1⟩
  · exact .inl (firstInvalid_eq_some_iff.1 hw)

end Content

section Held

/-- The block an entry of a set holds: its set is the remainder by the number of sets, its tag the
quotient. -/
def Entry.held (e : Entry a t δ) (s : Fin S) : Option ℕ :=
  if e.v then some (e.tag.toNat * S + s) else none

def held (c : Cache S W a t δ) : Fin (S * W) → Option ℕ := fun i => (c i).held (setOf i)

variable {c c' : Cache S W a t δ} {s : Fin S} {w : Fin W} {i : Fin (S * W)} {e : Entry a t δ}
  {b : ℕ}

theorem held_congr (h : content c = content c') : held c = held c' := by
  funext i
  have hi : (c i).content = (c' i).content := congrFun h i
  simp only [Entry.content, Content.mk.injEq] at hi
  simp only [held, Entry.held, hi.1, hi.2.1]

@[simp] theorem held_touch : held (touch c s w) = held c := held_congr content_touch

@[simp] theorem held_ageAll : held (ageAll c s w) = held c := held_congr content_ageAll

theorem held_update (i : Fin (S * W)) (e : Entry a t δ) :
    held (Function.update c i e) = Function.update (held c) i (e.held (setOf i)) := by
  funext j
  by_cases hj : j = i
  · subst hj
    simp [held]
  · simp [held, hj]

theorem held_clear (i : Fin (S * W)) : held (clear c i) = Function.update (held c) i none := by
  rw [clear, held_update]
  rfl

/-- A line written in place changes the block of no slot. -/
theorem held_update_touch (hv : (c (slot s w)).v = true) (age : BitVec a) (x : δ) :
    held (Function.update (touch c s w) (slot s w) ⟨true, age, (c (slot s w)).tag, x⟩)
      = held c := by
  rw [held_update, held_touch]
  refine Function.update_eq_self_iff.2 ?_
  simp only [held, Entry.held, hv]

theorem content_insert_eq [NeZero W] :
    content (insert c s e) = content (Function.update c (replaceSlot c s) e) := by
  rw [content_insert, content_update]

theorem held_insert [NeZero W] :
    held (insert c s e) = Function.update (held c) (replaceSlot c s) (e.held s) := by
  rw [held_congr content_insert_eq, held_update, replaceSlot, setOf_slot]

theorem held_eq_some_iff (i : Fin (S * W)) : held c i = some b
    ↔ (c i).v = true ∧ (c i).tag.toNat = b / S ∧ (setOf i).val = b % S := by
  have hS := (setOf i).isLt
  rw [held, Entry.held]
  split_ifs with hv
  · simp only [Option.some.injEq, hv, true_and]
    constructor
    · rintro rfl
      rw [Nat.mul_comm, Nat.mul_add_div (by omega), Nat.mul_add_mod, Nat.mod_eq_of_lt hS,
        Nat.div_eq_of_lt hS]
      exact ⟨rfl, rfl⟩
    · rintro ⟨ht, hs⟩
      rw [ht, hs]
      exact Nat.div_add_mod' b S
  · simp [hv]

theorem held_eq_none_iff (i : Fin (S * W)) : held c i = none ↔ (c i).v = false := by
  simp [held, Entry.held]

theorem held_of_lookup (h : lookup c s (b / S) = some w) (hs : s.val = b % S) :
    held c (slot s w) = some b := by
  obtain ⟨hv, ht, -⟩ := lookup_eq_some_iff.1 h
  exact (held_eq_some_iff _).2 ⟨hv, ht, by simpa using hs⟩

theorem lookup_congr {c' : Cache S W a t δ} (h : content c = content c') (s : Fin S) (tag : ℕ) :
    lookup c s tag = lookup c' s tag := by
  have hi : ∀ i, (c i).v = (c' i).v ∧ (c i).tag = (c' i).tag := fun i => by
    have := congrFun h i
    simp only [content, Entry.content, Content.mk.injEq] at this
    exact ⟨this.1, this.2.1⟩
  simp only [lookup, (hi _).1, (hi _).2]

theorem lookup_of_held_ne (hs : s.val = b % S) (h : ∀ i, held c i ≠ some b) :
    lookup c s (b / S) = none :=
  Option.eq_none_iff_forall_ne_some.2 fun _ hw => h _ (held_of_lookup hw hs)

/-- A tag that is not found is not found once a slot is cleared. -/
theorem lookup_clear {tag : ℕ} (h : lookup c s tag = none) : lookup (clear c i) s tag = none := by
  refine Option.eq_none_iff_forall_ne_some.2 fun w hw => ?_
  obtain ⟨hv, ht, hbefore⟩ := lookup_eq_some_iff.1 hw
  have hsame : ∀ j, (clear c i j).v = true → clear c i j = c j := by
    intro j hj
    refine Function.update_of_ne ?_ _ _
    rintro rfl
    simp [clear] at hj
  have hfound : lookup c s tag = some w := by
    rw [lookup_eq_some_iff, ← hsame _ hv]
    refine ⟨hv, ht, fun w' hlt => ?_⟩
    rw [← hsame _ (hbefore w' hlt).1]
    exact hbefore w' hlt
  rw [h] at hfound
  cases hfound

/-- What is inserted for a tag that was not found is found. -/
theorem lookup_update_replaceSlot [NeZero W] {tag : ℕ} (h : lookup c s tag = none) (hv : e.v = true)
    (ht : e.tag.toNat = tag) :
    lookup (Function.update c (replaceSlot c s) e) s tag = some (replaceWay c s) := by
  have hprev : ∀ w < replaceWay c s, (c (slot s w)).v = true := by
    intro w hw
    rcases hfree : firstInvalid c s with _ | w₀
    · exact firstInvalid_eq_none_iff.1 hfree w
    · rw [replaceWay, hfree, Option.getD_some] at hw
      exact (firstInvalid_eq_some_iff.1 hfree).2 w hw
  rw [lookup_eq_some_iff, replaceSlot, Function.update_self]
  refine ⟨hv, ht, fun w hw => ?_⟩
  rw [Function.update_of_ne (fun hslot => hw.ne (slot_inj.1 hslot).2)]
  exact ⟨hprev w hw, fun htag => lookup_ne_none (fun w' hw' => hprev w' (hw'.trans_lt hw)) htag h⟩

theorem lookup_insert [NeZero W] {tag : ℕ} (h : lookup c s tag = none) (hv : e.v = true)
    (ht : e.tag.toNat = tag) : lookup (insert c s e) s tag = some (replaceWay c s) := by
  rw [lookup_congr content_insert_eq, lookup_update_replaceSlot h hv ht]

theorem lookup_of_held_none (h : held c = fun _ => none) (tag : ℕ) : lookup c s tag = none := by
  refine Option.eq_none_iff_forall_ne_some.2 fun w hw => ?_
  have hv := (held_eq_none_iff _).1 (congrFun h (slot s w))
  rw [(lookup_eq_some_iff.1 hw).1] at hv
  cases hv

/-- A block that a full set does not find is in no slot. -/
theorem held_ne_of_lookup (h : lookup c s (b / S) = none) (hs : s.val = b % S)
    (hfull : firstInvalid c s = none) (i : Fin (S * W)) : held c i ≠ some b := by
  intro hi
  obtain ⟨-, ht, his⟩ := (held_eq_some_iff i).1 hi
  obtain ⟨w, hw⟩ := exists_slot i
  have hset : setOf i = s := Fin.ext (his.trans hs.symm)
  rw [hset] at hw
  exact ne_tag_of_lookup h hfull w (hw ▸ ht)

/-- A slot that is taken in a set with an invalid way holds nothing. -/
theorem ne_replaceSlot [NeZero W] (hfree : firstInvalid c s ≠ none) (h : held c i = some b) :
    i ≠ replaceSlot c s := by
  obtain ⟨w, hw⟩ := Option.ne_none_iff_exists'.1 hfree
  rintro rfl
  rw [replaceSlot, replaceWay, hw, Option.getD_some,
    (held_eq_none_iff _).2 (firstInvalid_eq_some_iff.1 hw).1] at h
  cases h

theorem held_replaceSlot [NeZero W] :
    held c (replaceSlot c s) = none ∨ firstInvalid c s = none := by
  rcases hw : firstInvalid c s with _ | w
  · exact .inr rfl
  · left
    rw [held_eq_none_iff, replaceSlot, replaceWay, hw]
    exact (firstInvalid_eq_some_iff.1 hw).1

/-- A block that is not found is not in the slot that is replaced. -/
theorem held_replaceSlot_ne [NeZero W] (h : lookup c s (b / S) = none) (hs : s.val = b % S) :
    held c (replaceSlot c s) ≠ some b := by
  rcases held_replaceSlot (c := c) (s := s) with hnone | hfull
  · rw [hnone]
    exact nofun
  · exact held_ne_of_lookup h hs hfull _

end Held

section Exclusive

variable {ι β : Type*} {f g : ι → Option β}

def Exclusive (f : ι → Option β) : Prop := ∀ i j b, f i = some b → f j = some b → i = j

theorem Exclusive.of_le (hf : Exclusive f) (h : ∀ i b, g i = some b → f i = some b) :
    Exclusive g := fun i j b hi hj => hf i j b (h i b hi) (h j b hj)

variable [DecidableEq ι]

theorem update_ne_some {b : β} {o : Option β} (hf : ∀ j, f j ≠ some b) (ho : o ≠ some b) (i j : ι) :
    Function.update f i o j ≠ some b := by
  rcases eq_or_ne j i with rfl | hj
  · rwa [Function.update_self]
  · rw [Function.update_of_ne hj]
    exact hf j

/-- What was only in the place overwritten is nowhere after. -/
theorem Exclusive.update_ne_some (hf : Exclusive f) {i : ι} {b : β} {o : Option β}
    (hi : f i = some b) (ho : o ≠ some b) (j : ι) : Function.update f i o j ≠ some b := by
  rcases eq_or_ne j i with rfl | hj
  · rwa [Function.update_self]
  · rw [Function.update_of_ne hj]
    exact fun h => hj (hf j i b h hi)

theorem Exclusive.update_none (hf : Exclusive f) (i : ι) :
    Exclusive (Function.update f i none) := by
  refine hf.of_le fun j b hj => ?_
  by_cases h : j = i
  · subst h
    simp at hj
  · rwa [Function.update_of_ne h] at hj

/-- A value that is in a place and in the one overwritten is there twice. -/
theorem not_exclusive_update {i j : ι} {b : β} (hj : f j = some b) (hne : j ≠ i) :
    ¬ Exclusive (Function.update f i (some b)) :=
  fun h => hne (h j i b (by rwa [Function.update_of_ne hne]) (by rw [Function.update_self]))

theorem exclusive_update_some (i : ι) (b : β) : Exclusive (Function.update f i (some b))
    ↔ Exclusive (Function.update f i none) ∧ ∀ j ≠ i, f j ≠ some b := by
  constructor
  · intro h
    refine ⟨by simpa using h.update_none i, fun j hj hb => hj ?_⟩
    exact h j i b (by rwa [Function.update_of_ne hj]) (by simp)
  · rintro ⟨h, hne⟩ j k c hj hk
    rcases eq_or_ne j i with rfl | hji <;> rcases eq_or_ne k j with rfl | hkj
    · rfl
    · rw [Function.update_self] at hj
      rw [Function.update_of_ne hkj] at hk
      exact absurd (hk.trans hj.symm) (hne k hkj)
    · rfl
    · rcases eq_or_ne k i with rfl | hki
      · rw [Function.update_self] at hk
        rw [Function.update_of_ne hji] at hj
        exact absurd (hj.trans hk.symm) (hne j hji)
      · refine h j k c ?_ ?_
        · rwa [Function.update_of_ne hji] at hj ⊢
        · rwa [Function.update_of_ne hki] at hk ⊢

/-- A place is overwritten with a value that was not in it. -/
theorem exclusive_fill_iff (hf : Exclusive f) {i : ι} {b : β} (hi : f i ≠ some b) :
    Exclusive (Function.update f i (some b)) ↔ ∀ j, f j ≠ some b := by
  rw [exclusive_update_some]
  constructor
  · rintro ⟨-, h⟩ j
    rcases eq_or_ne j i with rfl | hj
    · exact hi
    · exact h j hj
  · exact fun h => ⟨hf.update_none i, fun j _ => h j⟩

/-- `b` goes to `v`, where it was not, and what `v` gives up to `r`, where `b` was not either. -/
theorem exclusive_evict_iff (hf : Exclusive f) {v r : ι} {b : β} (o : Option β) (hv : f v ≠ some b)
    (hr : f r ≠ some b) (hrv : r ≠ v) :
    Exclusive (Function.update (Function.update f r o) v (some b))
      ↔ (∀ p, f p ≠ some b) ∧ ∀ x, o = some x → x ≠ b ∧ ∀ p, p ≠ v → p ≠ r → f p ≠ some x := by
  have hnb : (∀ p ≠ v, Function.update f r o p ≠ some b) ↔ (∀ p, f p ≠ some b) ∧ o ≠ some b := by
    constructor
    · intro h
      have hro := h r hrv
      rw [Function.update_self] at hro
      refine ⟨fun p => ?_, hro⟩
      rcases eq_or_ne p v with rfl | hpv
      · exact hv
      rcases eq_or_ne p r with rfl | hpr
      · exact hr
      · have hp := h p hpv
        rwa [Function.update_of_ne hpr] at hp
    · exact fun h p _ => update_ne_some h.1 h.2 r p
  rw [exclusive_update_some, hnb, Function.update_comm hrv]
  have hrest : Exclusive (Function.update (Function.update f v none) r none) :=
    (hf.update_none v).update_none r
  rcases o with _ | x
  · simp [hrest]
  rw [exclusive_update_some]
  constructor
  · rintro ⟨⟨-, hx⟩, hb, hxb⟩
    refine ⟨hb, fun y hy => ?_⟩
    obtain rfl := Option.some.inj hy
    refine ⟨fun h => hxb (congrArg some h), fun p hpv hpr => ?_⟩
    have hp := hx p hpr
    rwa [Function.update_of_ne hpv] at hp
  · rintro ⟨hb, hx⟩
    obtain ⟨hxb, hx⟩ := hx x rfl
    refine ⟨⟨hrest, fun p hpr => ?_⟩, hb, fun h => hxb (Option.some.inj h)⟩
    rcases eq_or_ne p v with rfl | hpv
    · rw [Function.update_self]
      exact nofun
    · rw [Function.update_of_ne hpv]
      exact hx p hpv hpr

/-- A value is copied from `p` to `v` while `c` is emptied and `x` goes to `r`: the copy stays alone
only if `x` overwrites the original. -/
theorem exclusive_copy_iff (hf : Exclusive f) {c v r p : ι} {b x : β} (hb : f p = some b)
    (hpc : p ≠ c) (hpv : p ≠ v) (hrv : r ≠ v) :
    Exclusive (Function.update (Function.update (Function.update f c none) r (some x)) v (some b))
      ↔ r = p ∧ x ≠ b ∧ ∀ q, q ≠ c → q ≠ v → q ≠ p → f q ≠ some x := by
  rw [exclusive_update_some, Function.update_comm hrv, exclusive_update_some]
  have hrest : Exclusive
      (Function.update (Function.update (Function.update f c none) v none) r none) :=
    ((hf.update_none c).update_none v).update_none r
  constructor
  · rintro ⟨⟨-, hx⟩, hnb⟩
    have hrp : r = p := by
      by_contra hne
      refine hnb p hpv ?_
      rw [Function.update_of_ne (Ne.symm hne), Function.update_of_ne hpc, hb]
    subst hrp
    refine ⟨rfl, fun h => hnb r hrv (by rw [Function.update_self, h]), fun q hc hv hq => ?_⟩
    have h := hx q hq
    rwa [Function.update_of_ne hv, Function.update_of_ne hc] at h
  · rintro ⟨rfl, hxb, hx⟩
    refine ⟨⟨hrest, fun q hq => ?_⟩, fun q hq => ?_⟩
    · rcases eq_or_ne q v with rfl | hv
      · rw [Function.update_self]
        exact nofun
      rcases eq_or_ne q c with rfl | hc
      · rw [Function.update_of_ne hv, Function.update_self]
        exact nofun
      · rw [Function.update_of_ne hv, Function.update_of_ne hc]
        exact hx q hc hv hq
    · rcases eq_or_ne q r with rfl | hr
      · rwa [Function.update_self, ne_eq, Option.some.injEq]
      rcases eq_or_ne q c with rfl | hc
      · rw [Function.update_of_ne hr, Function.update_self]
        exact nofun
      · rw [Function.update_of_ne hr, Function.update_of_ne hc]
        exact fun h => hr (hf q r b h hb)

end Exclusive

end SetAssoc
