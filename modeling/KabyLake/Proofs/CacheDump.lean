import KabyLake.CacheDump
import KabyLake.Proofs.CacheOps

/-!
# What a dump shows of a cache

The dump prints a line for each way of each set, and of a valid entry its age, its tag and its
words. So two caches are dumped as the same text exactly if they have the same valid entries
(`cacheDump_eq_iff`).
-/

namespace KabyLake

open SetAssoc Printf

variable {S W a t : ℕ} {c c' : CacheArray S W a t} {e e' : CacheEntry a t}

/-- Two entries are dumped alike: both are invalid, or they are the same. -/
def DumpedAlike (e e' : CacheEntry a t) : Prop := e.v = e'.v ∧ (e.v = true → e = e')

section Entry

theorem words_inj {line line' : CacheLine} {rest rest' : List Char} : ∀ is : List (Fin 4),
    is.flatMap (fun i => "0x".toList ++ (lowerHex 8 (line i).toNat ++ [' '])) ++ rest
      = is.flatMap (fun i => "0x".toList ++ (lowerHex 8 (line' i).toNat ++ [' '])) ++ rest' →
    (∀ i ∈ is, line i = line' i) ∧ rest = rest'
  | [], h => ⟨List.forall_mem_nil _, h⟩
  | i :: is, h => by
    simp only [List.flatMap_cons, List.append_assoc] at h
    obtain ⟨hword, htail⟩ := lowerHex_append_inj ⟨' ', [], rfl, rfl⟩ (List.append_cancel_left h)
    obtain ⟨hwords, hrest⟩ := words_inj is htail
    exact ⟨List.forall_mem_cons.2 ⟨BitVec.eq_of_toNat_eq hword, hwords⟩, hrest⟩

theorem printCacheLine_inj (h : printCacheLine e = printCacheLine e') : e = e' := by
  unfold printCacheLine at h
  simp only [List.append_assoc] at h
  obtain ⟨hbit, h⟩ := lowerHex_append_inj ⟨',', _, rfl, rfl⟩ (List.append_cancel_left h)
  obtain ⟨hage, h⟩ := lowerHex_append_inj ⟨',', _, rfl, rfl⟩ h
  obtain ⟨htag, h⟩ := lowerHex_append_inj ⟨',', _, rfl, rfl⟩ h
  obtain ⟨hwords, -⟩ := words_inj _ h
  have hv : ∀ v v' : Bool, v.toNat = v'.toNat → v = v' := by decide
  have hline : e.line = e'.line := funext fun i => hwords i (List.mem_finRange i)
  obtain ⟨v, age, tag, line⟩ := e
  obtain ⟨v', age', tag', line'⟩ := e'
  obtain rfl : v = v' := hv v v' hbit
  obtain rfl : age = age' := BitVec.eq_of_toNat_eq hage
  obtain rfl : tag = tag' := BitVec.eq_of_toNat_eq htag
  obtain rfl : line = line' := hline
  rfl

theorem printInvalidCacheLine_congr (h : e.v = e'.v) :
    printInvalidCacheLine e = printInvalidCacheLine e' := by
  unfold printInvalidCacheLine
  rw [h]

/-- The bit after `V: ` tells a valid line from an invalid one. -/
theorem printed_ne (hv : e.v = true) (hv' : e'.v = false) :
    printCacheLine e ≠ printInvalidCacheLine e' := by
  intro h
  unfold printCacheLine printInvalidCacheLine at h
  simp only [List.append_assoc] at h
  have hcomma : Scanf.isXDigit ',' = false := rfl
  obtain ⟨hbit, -⟩ := lowerHex_inj hcomma hcomma (List.append_cancel_left h)
  rw [hv, hv'] at hbit
  cases hbit

theorem dumpWay_inj (index way : ℕ) : dumpWay index way e = dumpWay index way e'
    ↔ DumpedAlike e e' := by
  unfold dumpWay
  rw [List.append_cancel_left_eq]
  constructor
  · intro h
    rcases hv : e.v <;> rcases hv' : e'.v
    · exact ⟨hv.trans hv'.symm, fun he => by rw [hv] at he; cases he⟩
    · rw [hv, hv'] at h
      exact absurd h.symm (printed_ne hv' hv)
    · rw [hv, hv'] at h
      exact absurd h (printed_ne hv hv')
    · rw [hv, hv'] at h
      exact ⟨hv.trans hv'.symm, fun _ => printCacheLine_inj h⟩
  · intro h
    rcases hv : e.v
    · rw [← h.1, hv]
      exact printInvalidCacheLine_congr h.1
    · rw [← h.2 hv, hv]

end Entry

section Lines

theorem isLine_printCacheLine (e : CacheEntry a t) : IsLine (printCacheLine e) := by
  have hwords : '\n' ∉ (List.finRange 4).flatMap fun i =>
      "0x".toList ++ (lowerHex 8 (e.line i).toNat ++ [' ']) := by
    intro h
    obtain ⟨i, -, hi⟩ := List.mem_flatMap.1 h
    refine List.not_mem_append (by decide) (List.not_mem_append ?_ (by decide)) hi
    exact newline_not_mem_lowerHex 8 _
  have hend : IsLine ")\n".toList := ⟨[')'], rfl, by decide⟩
  unfold printCacheLine
  simp only [List.append_assoc]
  refine (((((((hend.append_left hwords).append_left ?_).append_left ?_).append_left ?_).append_left
    ?_).append_left ?_).append_left ?_).append_left ?_
  all_goals first | exact newline_not_mem_lowerHex _ _ | decide

theorem isLine_printInvalidCacheLine (e : CacheEntry a t) : IsLine (printInvalidCacheLine e) := by
  have hend : IsLine "( ---------- ---------- ---------- ---------- )\n".toList :=
    ⟨"( ---------- ---------- ---------- ---------- )".toList, rfl, by decide⟩
  unfold printInvalidCacheLine
  simp only [List.append_assoc]
  refine ((hend.append_left ?_).append_left ?_).append_left ?_
  all_goals first | exact newline_not_mem_lowerHex _ _ | decide

theorem isLine_dumpWay (index way : ℕ) (e : CacheEntry a t) : IsLine (dumpWay index way e) := by
  have hline : IsLine (if e.v then printCacheLine e else printInvalidCacheLine e) := by
    split_ifs
    · exact isLine_printCacheLine e
    · exact isLine_printInvalidCacheLine e
  unfold dumpWay
  simp only [List.append_assoc]
  refine (((hline.append_left ?_).append_left ?_).append_left ?_).append_left ?_
  all_goals first | exact newline_not_mem_lowerHex _ _ | decide

/-- The lines of a dump, one for each way of each set. -/
def dumpLines (c : CacheArray S W a t) : List (List Char) :=
  (List.finRange S ×ˢ List.finRange W).map fun x => dumpWay x.1 x.2 (c (slot x.1 x.2))

theorem dumpWays_eq (c : CacheArray S W a t) (s : Fin S) : ∀ (ways : List (Fin W))
    (output : List Char), (ways.map Fin.val).foldlM (fun output way => do
      let e ← cacheEntry c W s way
      return output ++ dumpWay s way e) output
    = .ok (output ++ (ways.map fun w : Fin W => dumpWay s w (c (slot s w))).flatten)
  | [], output => by simp
  | w :: ways, output => by
    rw [List.map_cons, List.foldlM_cons, cacheEntry_slot, Exec.ok_bind, Exec.pure_eq, Exec.ok_bind,
      dumpWays_eq c s ways, List.map_cons, List.flatten_cons, List.append_assoc]

theorem dumpSets_eq (c : CacheArray S W a t) : ∀ (sets : List (Fin S)) (output : List Char),
    (sets.map Fin.val).foldlM (fun output index =>
      (List.range W).foldlM (fun output way => do
        let e ← cacheEntry c W index way
        return output ++ dumpWay index way e) output) output
    = .ok (output ++
        ((sets ×ˢ List.finRange W).map fun x => dumpWay x.1 x.2 (c (slot x.1 x.2))).flatten)
  | [], output => by simp
  | s :: sets, output => by
    have hways := dumpWays_eq c s (List.finRange W) output
    rw [List.map_coe_finRange_eq_range] at hways
    rw [List.map_cons, List.foldlM_cons, hways, Exec.ok_bind, dumpSets_eq c sets,
      List.product_cons, List.map_append, List.flatten_append, List.append_assoc, List.map_map]
    rfl

theorem dumpCacheType_eq (c : CacheArray S W a t) (output : List Char) :
    dumpCacheType W S c output = .ok (output ++ (dumpLines c).flatten) := by
  have h := dumpSets_eq c (List.finRange S) output
  rwa [List.map_coe_finRange_eq_range] at h

theorem dumpLines_inj : (dumpLines c).flatten = (dumpLines c').flatten
    ↔ ∀ i, DumpedAlike (c i) (c' i) := by
  have hlines : ∀ c : CacheArray S W a t, ∀ l ∈ dumpLines c, IsLine l := by
    intro c l hl
    obtain ⟨x, -, rfl⟩ := List.mem_map.1 hl
    exact isLine_dumpWay _ _ _
  constructor
  · intro h i
    have hsame := flatten_inj (hlines c) (hlines c') h
    obtain ⟨w, hw⟩ := exists_slot i
    have hway := List.map_inj_left.1 hsame (SetAssoc.setOf i, w) (by simp)
    rw [hw]
    exact (dumpWay_inj _ _).1 hway
  · intro h
    refine congrArg List.flatten (List.map_inj_left.2 fun x _ => ?_)
    exact (dumpWay_inj _ _).2 (h _)

end Lines

theorem cacheDump_l1 (c : L1Cache) {type : CacheT} (ht : type ≠ .l2Cache) :
    cacheDump c type = .ok (.errNone, "WAY/LINE: V: AGE: TAG: WORDS\n".toList
      ++ (dumpLines c).flatten ++ ['\n']) := by
  have h := dumpCacheType_eq c "WAY/LINE: V: AGE: TAG: WORDS\n".toList
  rcases type
  case l2Cache => exact absurd rfl ht
  all_goals
    unfold cacheDump
    simp only [h, Exec.ok_bind, Exec.pure_eq]

theorem cacheDump_l2 (c : L2Cache) :
    cacheDump c .l2Cache = .ok (.errNone, "WAY/LINE: V: AGE: TAG: WORDS\n".toList
      ++ (dumpLines c).flatten ++ ['\n']) := by
  have h := dumpCacheType_eq c "WAY/LINE: V: AGE: TAG: WORDS\n".toList
  unfold cacheDump
  simp only [h, Exec.ok_bind, Exec.pure_eq]

/-- The dump of each cache prints a text, and prints the same text of two caches exactly if in every
slot both entries are invalid or they are the same. -/
theorem cacheDump_eq_iff :
    (∀ (c c' : L1Cache) type, type ≠ .l2Cache → (∃ text, cacheDump c type = .ok (.errNone, text))
      ∧ (cacheDump c type = cacheDump c' type ↔ ∀ i, DumpedAlike (c i) (c' i)))
    ∧ ∀ c c' : L2Cache, (∃ text, cacheDump c .l2Cache = .ok (.errNone, text))
      ∧ (cacheDump c .l2Cache = cacheDump c' .l2Cache ↔ ∀ i, DumpedAlike (c i) (c' i)) := by
  refine ⟨fun c c' type ht => ⟨⟨_, cacheDump_l1 c ht⟩, ?_⟩, fun c c' => ⟨⟨_, cacheDump_l2 c⟩, ?_⟩⟩
  · rw [cacheDump_l1 c ht, cacheDump_l1 c' ht, ← dumpLines_inj]
    simp only [Except.ok.injEq, Prod.mk.injEq, true_and, List.append_cancel_right_eq,
      List.append_cancel_left_eq]
  · rw [cacheDump_l2 c, cacheDump_l2 c', ← dumpLines_inj]
    simp only [Except.ok.injEq, Prod.mk.injEq, true_and, List.append_cancel_right_eq,
      List.append_cancel_left_eq]

end KabyLake
