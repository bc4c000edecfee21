import KabyLake.Library.Ranks
import KabyLake.Library.Run
import KabyLake.Proofs.CacheOps

/-!
# The ageing macros rank the ways of a set

From a set with no valid way, each event fills an invalid way or touches a valid one. The ages of
the valid ways are then their ranks by recency after any events, and `LRU_way` finds the way whose
last event is the oldest once all are valid (`ages_rank_recency`).
-/

namespace KabyLake

open SetAssoc Run Recency

variable {S W a t : ℕ} {s : Fin S} {c : CacheArray S W a t} {order : List (Fin W)}

/-- An invalid way gets a valid entry and `LRU_age_increase`, or a valid way `LRU_age_update`. -/
inductive AgeEvent (W a t : ℕ)
  | fill (way : Fin W) (e : CacheEntry a t)
  | touch (way : Fin W)

def AgeEvent.way : AgeEvent W a t → Fin W
  | .fill way _ => way
  | .touch way => way

def ageEvent (s : Fin S) (c : CacheArray S W a t) : AgeEvent W a t →
    Exec (Unit × CacheArray S W a t)
  | .fill way e => do
    let c ← setCacheEntry c W s way e
    return ((), ← lruAgeIncrease c W way s)
  | .touch way => do
    return ((), ← lruAgeUpdate c W way s)

/-- The way filled is invalid and its entry valid; the way touched is valid. -/
def AgeEvent.Legal (s : Fin S) (c : CacheArray S W a t) : AgeEvent W a t → Prop
  | .fill way e => (c (slot s way)).v = false ∧ e.v = true
  | .touch way => (c (slot s way)).v = true

instance (s : Fin S) (c : CacheArray S W a t) :
    ∀ event : AgeEvent W a t, Decidable (event.Legal s c)
  | .fill _ _ => inferInstanceAs (Decidable (_ ∧ _))
  | .touch _ => inferInstanceAs (Decidable (_ = _))

/-- The number of ways of a cache. -/
def CacheT.ways : CacheT → ℕ
  | .l1ICache => 4
  | .l1DCache => 4
  | .l2Cache => 8

theorem lruAgeIncrease_upTo (c : CacheArray S W a t) (s : Fin S) (w : Fin W) :
    lruAgeIncrease c W w s = .ok (ageUpTo (W - 1) c s w) := by
  simp only [lruAgeIncrease, foreachWay_eq, cacheEntry_slot, setCacheEntry_slot, Exec.ok_bind]
  congr 1
  funext i
  by_cases hi : i = slot s w
  · subst hi
    simp only [ageUpTo, setOf_slot, if_true, Function.update_self]
    split_ifs <;> rfl
  · simp only [ageUpTo, hi, if_false, Function.update_of_ne hi]

/-- An event that is legal in a ranked set moves its way to the front. -/
theorem ageEvent_ranked (hW : W ≤ 2 ^ a) (h : Ranked c s order) {event : AgeEvent W a t}
    (hlegal : event.Legal s c) :
    ∃ c', ageEvent s c event = .ok ((), c') ∧ Ranked c' s (touch event.way order) := by
  cases event with
  | fill way e =>
    have hw : way ∉ order := by
      rw [← h.valid_iff way, hlegal.1]
      exact nofun
    refine ⟨_, ?_, h.fill hW hw hlegal.2⟩
    simp only [ageEvent, setCacheEntry_slot, lruAgeIncrease_upTo, Exec.ok_bind, Exec.pure_eq,
      AgeEvent.way]
  | touch way =>
    refine ⟨_, ?_, h.touch ((h.valid_iff way).1 hlegal)⟩
    simp only [ageEvent, lruAgeUpdate_eq, Exec.ok_bind, Exec.pure_eq, AgeEvent.way]

/-- The events on ranked ways, the list of the uses before them given. -/
theorem run_ranked (hW : W ≤ 2 ^ a) : ∀ (events : List (AgeEvent W a t)) {c : CacheArray S W a t}
    {history : List (Fin W)}, Ranked c s (recency history) →
    Along (ageEvent s) (fun c event => event.Legal s c) c events →
    ∃ outs c', run (ageEvent s) c events = .ok (outs, c')
      ∧ Ranked c' s (recency ((events.map AgeEvent.way).reverse ++ history))
  | [], c, history, h, _ => ⟨[], c, rfl, h⟩
  | event :: events, c, history, h, hlegal => by
    obtain ⟨c', hevent, h'⟩ := ageEvent_ranked hW h hlegal.1
    have hrank : Ranked c' s (recency (event.way :: history)) := h'
    obtain ⟨outs, c'', hrun, h''⟩ := run_ranked hW events hrank (hlegal.2 () c' hevent)
    refine ⟨() :: outs, c'', by rw [run_cons_of_ok hevent, hrun], ?_⟩
    rw [List.map_cons, List.reverse_cons, List.append_assoc]
    exact h''

/-- `LRU_way` finds the way. -/
def FindsWay (c : CacheArray S W a t) (s : Fin S) (w : Fin W) : Prop :=
  (∃ age, lruWayLoop c W s = .ok (w.val, age))
    ∧ ∀ type : CacheT, type.ways = W → lruWay c type s = .ok w.val

theorem lruWay_of_ways [NeZero W] (c : CacheArray S W a t) (s : Fin S) {type : CacheT}
    (h : type.ways = W) : lruWay c type s = .ok (oldestWay c s).val := by
  have hloop := lruWayLoop_eq c s
  cases type with
  | l1ICache =>
    obtain rfl : 4 = W := h
    simp only [lruWay, hloop, Exec.ok_bind, Exec.pure_eq]
  | l1DCache =>
    obtain rfl : 4 = W := h
    simp only [lruWay, hloop, Exec.ok_bind, Exec.pure_eq]
  | l2Cache =>
    obtain rfl : 8 = W := h
    simp only [lruWay, hloop, Exec.ok_bind, Exec.pure_eq]

/-- From a set with no valid way, with whatever ages, after any events the valid ways have the ages
0, 1, … in the order of their last events, the last of all first. If all ways are valid, `LRU_way`
finds the one whose last event is the oldest. -/
theorem ages_rank_recency [NeZero W] (hW : W ≤ 2 ^ a) (s : Fin S) (c : CacheArray S W a t)
    (hinvalid : ∀ w, (c (slot s w)).v = false) (events : List (AgeEvent W a t))
    (hlegal : Along (ageEvent s) (fun c event => event.Legal s c) c events) :
    ∃ outs c', run (ageEvent s) c events = .ok (outs, c')
      ∧ Ranked c' s (recency (events.map AgeEvent.way).reverse)
      ∧ ((∀ w, (c' (slot s w)).v = true) → ∃ recent oldest,
        recency (events.map AgeEvent.way).reverse = recent ++ [oldest] ∧ FindsWay c' s oldest) := by
  have hstart : Ranked c s (recency []) := ranked_nil hinvalid
  obtain ⟨outs, c', hrun, hrank⟩ := run_ranked hW events hstart hlegal
  rw [List.append_nil] at hrank
  refine ⟨outs, c', hrun, hrank, fun hfull => ?_⟩
  rcases List.eq_nil_or_concat' (recency (events.map AgeEvent.way).reverse) with hnil | ⟨rs, w, hrs⟩
  · have hmem := (hrank.valid_iff 0).1 (hfull 0)
    rw [hnil] at hmem
    cases hmem
  · have hold : oldestWay c' s = w := (hrs ▸ hrank).oldestWay_eq hfull
    refine ⟨rs, w, hrs, ⟨(c' (slot s w)).age.toNat, ?_⟩, fun type hways => ?_⟩
    · rw [lruWayLoop_eq, hold]
    · rw [← hold, lruWay_of_ways c' s hways]

/-- A set of invalid ways of age 3 is filled, and its first way touched before the last is. -/
def fillEvents : List (AgeEvent 4 2 22) :=
  [.fill 0 ⟨true, 1, 5, fun _ => 0⟩, .fill 1 ⟨true, 0, 6, fun _ => 0⟩,
    .fill 2 ⟨true, 3, 7, fun _ => 0⟩, .touch 0, .fill 3 ⟨true, 0, 8, fun _ => 0⟩]

/-- The second way is then the oldest. -/
theorem ages_rank_recency_fillEvents : ∃ outs c',
    run (ageEvent 0) (fun _ => ⟨false, 3, 0, fun _ => 0⟩ : L1Cache) fillEvents = .ok (outs, c')
      ∧ Ranked c' 0 [3, 0, 2, 1] ∧ FindsWay c' 0 1 := by
  obtain ⟨outs, c', hrun, hrank, holdest⟩ := ages_rank_recency (by norm_num) 0
    (fun _ => ⟨false, 3, 0, fun _ => 0⟩ : L1Cache) (fun _ => rfl) fillEvents (by decide +kernel)
  have horder : recency (fillEvents.map AgeEvent.way).reverse = [3, 0, 2, 1] := by decide
  rw [horder] at hrank holdest
  have hfull : ∀ w, (c' (slot 0 w)).v = true := fun w => by
    rw [hrank.valid_iff w]
    revert w
    decide
  obtain ⟨recent, oldest, hlast, hfinds⟩ := holdest hfull
  have hsame : oldest = 1 := by simpa using (congrArg List.getLast? hlast).symm
  exact ⟨outs, c', hrun, hrank, hsame ▸ hfinds⟩

end KabyLake
