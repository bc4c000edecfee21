import KabyLake.Proofs.CacheOps

/-!
# When a lookup is exact

`cache_hit` goes through the ways of a set up to the first that is invalid, so a valid way with the
tag that comes after an invalid one is missed. A hit designates a valid way with the tag and changes
only ages of its set, a miss changes nothing; whether every such way is found is the question
(`cacheHit_exact_iff`).
-/

namespace KabyLake

open SetAssoc

variable {S W a t : ℕ}

/-- The lookup of a tag in a set finds one of the valid ways that carry it if there is one, and
changes only ages of the set, nothing on a miss. -/
def LookupExact (c : CacheArray S W a t) (paddr : PhyAddr) (type : CacheT) (s : Fin S) (tag : ℕ) :
    Prop :=
  ∃ hit c', cacheHit c paddr type = .ok (.errNone, hit, c')
    ∧ (hit.isSome = true ↔ ∃ w, Carries c s tag w)
    ∧ (∀ h, hit = some h → ∃ w, Carries c s tag w ∧ h.way = w ∧ h.index = s
      ∧ h.line = (c (slot s w)).line)
    ∧ content c' = content c ∧ (∀ i, SetAssoc.setOf i ≠ s → c' i = c i) ∧ (hit = none → c' = c)

/-- `cache_hit` reports a miss. -/
def Misses (c : CacheArray S W a t) (paddr : PhyAddr) (type : CacheT) : Prop :=
  ∃ c', cacheHit c paddr type = .ok (.errNone, none, c')

/-- `cache_hit` reports a hit at a set and a way. -/
def HitsAt (c : CacheArray S W a t) (paddr : PhyAddr) (type : CacheT) (s : Fin S) (w : Fin W) :
    Prop :=
  ∃ line c', cacheHit c paddr type = .ok (.errNone, some ⟨w, s, line⟩, c')

section Reports

variable {l1 : L1Cache} {l2 : L2Cache} {paddr : PhyAddr}

theorem misses_l1_iff {type : CacheT} (ht : type ≠ .l2Cache) :
    Misses l1 paddr type ↔ paddr.lookup1 l1 = none := by
  unfold Misses
  rw [cacheHit_l1 l1 ht]
  rcases hw : paddr.lookup1 l1 with _ | w
  · exact iff_of_true ⟨l1, rfl⟩ rfl
  · simp

theorem misses_l2_iff : Misses l2 paddr .l2Cache ↔ paddr.lookup2 l2 = none := by
  unfold Misses
  rw [cacheHit_l2 l2]
  rcases hw : paddr.lookup2 l2 with _ | w
  · exact iff_of_true ⟨l2, rfl⟩ rfl
  · simp

theorem hitsAt_l2_iff {s : Fin 512} {k : Fin 8} :
    HitsAt l2 paddr .l2Cache s k ↔ s = paddr.set2 ∧ paddr.lookup2 l2 = some k := by
  unfold HitsAt
  rw [cacheHit_l2 l2]
  rcases hw : paddr.lookup2 l2 with _ | w
  · simp
  · simp only [Except.ok.injEq, Prod.mk.injEq, Option.some.injEq, Hit.mk.injEq, true_and]
    constructor
    · rintro ⟨line, c', ⟨hway, hindex, -⟩, -⟩
      exact ⟨Fin.ext hindex.symm, Fin.ext hway⟩
    · rintro ⟨rfl, rfl⟩
      exact ⟨_, _, ⟨rfl, rfl, rfl⟩, rfl⟩

end Reports

theorem lookupExact_iff {c : CacheArray S W a t} {paddr : PhyAddr} {type : CacheT} {s : Fin S}
    {tag : ℕ} (hhit : ∀ w, lookup c s tag = some w → cacheHit c paddr type
      = .ok (.errNone, some ⟨w, s, (c (slot s w)).line⟩, touch c s w))
    (hmiss : lookup c s tag = none → cacheHit c paddr type = .ok (.errNone, none, c)) :
    LookupExact c paddr type s tag ↔ Reached c s tag := by
  rw [← lookup_exact_iff]
  unfold LookupExact
  rcases hw : lookup c s tag with _ | w
  · rw [hmiss hw]
    constructor
    · rintro ⟨hit, c', heq, hiff, -⟩
      cases heq
      exact hiff
    · intro hiff
      exact ⟨none, c, rfl, hiff, nofun, rfl, fun _ _ => rfl, fun _ => rfl⟩
  · have hcarries := carries_of_lookup hw
    rw [hhit w hw]
    constructor
    · exact fun _ => iff_of_true rfl ⟨w, hcarries⟩
    · intro _
      refine ⟨_, _, rfl, iff_of_true rfl ⟨w, hcarries⟩, ?_, content_touch,
        fun i hi => touch_of_ne hi, nofun⟩
      rintro _ ⟨⟩
      exact ⟨w, hcarries, rfl, rfl, rfl⟩

theorem lookupExact_l1_iff (c : L1Cache) (paddr : PhyAddr) {type : CacheT} (ht : type ≠ .l2Cache) :
    LookupExact c paddr type paddr.set1 (paddr.block / 64)
      ↔ Reached c paddr.set1 (paddr.block / 64) := by
  refine lookupExact_iff (fun w hw => ?_) fun hw => ?_
  all_goals rw [cacheHit_l1 c ht, PhyAddr.lookup1, hw]

/-- The lookup of an address is exact in each cache exactly when no invalid way of its set comes
before the first valid way with its tag. -/
theorem cacheHit_exact_iff (l1i l1d : L1Cache) (l2 : L2Cache) (paddr : PhyAddr) :
    (LookupExact l1i paddr .l1ICache paddr.set1 (paddr.block / 64)
      ↔ Reached l1i paddr.set1 (paddr.block / 64))
    ∧ (LookupExact l1d paddr .l1DCache paddr.set1 (paddr.block / 64)
      ↔ Reached l1d paddr.set1 (paddr.block / 64))
    ∧ (LookupExact l2 paddr .l2Cache paddr.set2 (paddr.block / 512)
      ↔ Reached l2 paddr.set2 (paddr.block / 512)) := by
  refine ⟨lookupExact_l1_iff l1i paddr (by decide), lookupExact_l1_iff l1d paddr (by decide),
    lookupExact_iff (fun w hw => ?_) fun hw => ?_⟩
  all_goals rw [cacheHit_l2 l2, PhyAddr.lookup2, hw]

/-- Way 1 of set 0 holds tag 0, and no other way is valid. -/
def secondWay : L1Cache := fun i => ⟨i.val = 1, 0, 0, fun _ => 0⟩

/-- Block 0 is in way 1 of its set and is not found there. -/
theorem cacheHit_misses_secondWay :
    ∃ w, Carries secondWay 0 0 w
      ∧ cacheHit secondWay ⟨0, 0⟩ .l1DCache = .ok (.errNone, none, secondWay)
      ∧ ¬ LookupExact secondWay ⟨0, 0⟩ .l1DCache 0 0 := by
  have hcarries : Carries secondWay 0 0 (1 : Fin 4) := ⟨by decide, rfl⟩
  have hmiss : cacheHit secondWay ⟨0, 0⟩ .l1DCache = .ok (.errNone, none, secondWay) := by
    have hlookup : PhyAddr.lookup1 ⟨0, 0⟩ secondWay = none := by decide
    rw [cacheHit_l1 secondWay (by decide) ⟨0, 0⟩, hlookup]
  refine ⟨1, hcarries, hmiss, ?_⟩
  rintro ⟨hit, c', heq, hiff, -⟩
  rw [hmiss] at heq
  cases heq
  exact absurd (hiff.2 ⟨1, hcarries⟩) (by decide)

end KabyLake
