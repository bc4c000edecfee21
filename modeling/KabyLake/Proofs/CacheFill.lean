import KabyLake.Proofs.CacheLookup
import KabyLake.Proofs.CachePlaces

/-!
# Filling the first level after a miss in both

A line that is in neither level goes to the first invalid way of its set in the first level, or in
a full set to a way of maximal age. The lookup finds it there, since the ways before it are valid
and do not have its tag (`doubleMiss_fills`).
-/

namespace KabyLake

open SetAssoc

variable {size : ℕ} {junk : Malloc} {memSpace : Memory size} {paddr : PhyAddr} {access : MemAccess}
  {l1 l1' : L1Cache} {l2 : L2Cache} {word : Word}

/-- The first level a fill leaves: a lookup hits a way with the word, which was the first invalid
one or else one of maximal age, and every other entry holds what it held. -/
def Filled (l1 l1' : L1Cache) (paddr : PhyAddr) (type : CacheT) (word : Word) : Prop :=
  ∃ (w : Fin 4) (hit : Hit) (c : L1Cache), cacheHit l1' paddr type = .ok (.errNone, some hit, c)
    ∧ hit.way = w ∧ hit.index = paddr.set1 ∧ hit.line paddr.word = word
    ∧ (∀ i ≠ slot paddr.set1 w, (l1' i).content = (l1 i).content)
    ∧ ((l1 (slot paddr.set1 w)).v = false ∧ (∀ w' < w, (l1 (slot paddr.set1 w')).v = true)
      ∨ (∀ w', (l1 (slot paddr.set1 w')).v = true)
        ∧ ∀ w', (l1 (slot paddr.set1 w')).age.toNat ≤ (l1 (slot paddr.set1 w)).age.toNat)

/-- Only the content of the first level matters. -/
theorem filled_of_content {type : CacheT} (ht : type ≠ .l2Cache) (h1 : paddr.lookup1 l1 = none)
    {age : BitVec 2} {line : CacheLine} (hword : line paddr.word = word)
    (hc : content l1' = content (Function.update l1 (replaceSlot l1 paddr.set1)
      (paddr.entry age line))) : Filled l1 l1' paddr type word := by
  have hlookup : paddr.lookup1 l1' = some (replaceWay l1 paddr.set1) := by
    rw [PhyAddr.lookup1, lookup_congr hc]
    exact lookup_update_replaceSlot h1 rfl (paddr.entry_tag age line)
  have hslot : ∀ i, (l1' i).content
      = (Function.update l1 (replaceSlot l1 paddr.set1) (paddr.entry age line) i).content :=
    congrFun hc
  have hline := congrArg Content.line (hslot (replaceSlot l1 paddr.set1))
  rw [Function.update_self] at hline
  refine ⟨replaceWay l1 paddr.set1, _, _, by rw [cacheHit_l1 l1' ht, hlookup], rfl, rfl,
    (congrFun hline paddr.word).trans hword, fun i hi => ?_, replaceWay_spec l1 paddr.set1⟩
  rw [hslot i, replaceSlot, Function.update_of_ne hi]

/-- A read or write that misses both levels returns without an error and fills the first level. -/
theorem doubleMiss_fills (memSpace : Memory size) {paddr : PhyAddr} (h16 : paddr.addr + 16 ≤ size)
    {l2 : L2Cache} (h2 : Misses l2 paddr .l2Cache) :
    (∀ (junk : Malloc) (access : MemAccess) (l1 : L1Cache) (word : Word),
      let type := if access = .instruction then CacheT.l1ICache else .l1DCache
      Misses l1 paddr type → ∃ r, cacheRead junk memSpace paddr access l1 l2 word = .ok r
        ∧ r.err = .errNone ∧ Filled l1 r.l1 paddr type r.word)
    ∧ ∀ (junk : Malloc) (l1 : L1Cache) (word : Word), Misses l1 paddr .l1DCache →
      ∃ r, cacheWrite junk memSpace paddr l1 l2 word = .ok r
        ∧ r.err = .errNone ∧ Filled l1 r.l1 paddr .l1DCache word := by
  have hl2 := misses_l2_iff.1 h2
  constructor
  · intro junk access l1 word type h1
    have hl1 := (misses_l1_iff (accessType_ne access)).1 h1
    refine ⟨_, by rw [cacheRead_miss hl1 hl2, if_pos h16], rfl, ?_⟩
    exact filled_of_content (accessType_ne access) hl1 rfl rfl
  · intro junk l1 word h1
    have hl1 := (misses_l1_iff l1DCache_ne).1 h1
    refine ⟨_, by rw [cacheWrite_miss hl1 hl2, if_pos h16], rfl, ?_⟩
    exact filled_of_content l1DCache_ne hl1 (Function.update_self ..) content_insert_eq

/-- Full caches of the blocks with tag 1, the ways of a set one older than the other. -/
def fullL1 : L1Cache := fun i => ⟨true, BitVec.ofNat 2 i.val, 1, fun _ => 0⟩

def fullL2 : L2Cache := fun _ => ⟨true, 0, 1, fun _ => 0⟩

theorem misses_full :
    Misses fullL1 ⟨0, 4⟩ .l1DCache ∧ Misses fullL1 ⟨0, 4⟩ .l1ICache
      ∧ Misses fullL2 ⟨0, 4⟩ .l2Cache := by
  rw [misses_l1_iff (by decide), misses_l1_iff (by decide), misses_l2_iff]
  decide

/-- A fetch, a read and a write of the word at address 4, each of which evicts a block. -/
theorem doubleMiss_fills_full :
    (∃ r, cacheRead default (fun _ => 7 : Memory 32) ⟨0, 4⟩ .instruction fullL1 fullL2 0 = .ok r
      ∧ r.err = .errNone ∧ Filled fullL1 r.l1 ⟨0, 4⟩ .l1ICache r.word)
    ∧ (∃ r, cacheRead default (fun _ => 7 : Memory 32) ⟨0, 4⟩ .data fullL1 fullL2 0 = .ok r
      ∧ r.err = .errNone ∧ Filled fullL1 r.l1 ⟨0, 4⟩ .l1DCache r.word)
    ∧ ∃ r, cacheWrite default (fun _ => 7 : Memory 32) ⟨0, 4⟩ fullL1 fullL2 9 = .ok r
      ∧ r.err = .errNone ∧ Filled fullL1 r.l1 ⟨0, 4⟩ .l1DCache 9 := by
  obtain ⟨hdata, hfetch, h2⟩ := misses_full
  obtain ⟨hread, hwrite⟩ := doubleMiss_fills (fun _ => 7 : Memory 32) (by decide) h2
  exact ⟨hread default .instruction fullL1 0 hfetch, hread default .data fullL1 0 hdata,
    hwrite default fullL1 9 hdata⟩

end KabyLake
