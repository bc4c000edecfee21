import KabyLake.Library.Local
import KabyLake.Proofs.TlbHrchyInvalidation
import KabyLake.Proofs.TlbHrchyRuns

/-!
# Two searches of the two-level TLB

A search leaves its page in its first-level table, so the same search again hits there and changes
nothing (`tlbSearch_repeat`). The other access is to be answered by the second level, which probes
line `p % 16` for what it stored in line `p % 64` (`tlbSearch_other_hits_iff`). A search reads and
writes only lines that are `p` modulo 16, so searches of pages that differ there commute
(`tlbSearch_comm`).
-/

namespace KabyLake.TlbHrchy

variable {size : ℕ} {memSpace : Memory size} {vaddr vaddr' : VirtAddr} {paddr paddr' : PhyAddr}
  {access : MemAccess} {s s' t : Tlbs} {r : Search} {p : ℕ} {frame : BitVec 20}

theorem tlbSearch_invalid (memSpace : Memory size) (vaddr : VirtAddr) (paddr : PhyAddr) (s : Tlbs) :
    tlbSearch memSpace vaddr paddr .invalid s = .ok (⟨.errBadParameter, paddr, none⟩, s) := rfl

/-- A search that returns `ERR_NONE` was given an access the enumeration names. -/
theorem access_ne_invalid (h : tlbSearch memSpace vaddr paddr access s = .ok (r, s'))
    (herr : r.err = .errNone) : access ≠ .invalid := by
  rintro rfl
  rw [tlbSearch_invalid] at h
  cases h
  cases herr

section Repeat

theorem l1_promote (s : Tlbs) (access : MemAccess) (p : ℕ) (frame : BitVec 20) :
    (s.promote access p frame).l1 access
      = Function.update (s.l1 access) (line16 p) (entryFor 32 4 p frame) := by
  cases access <;> rfl

/-- A page is in its first-level table with its frame once it is promoted. -/
theorem l1Hit_promote (s : Tlbs) (access : MemAccess) (hp : p < 2 ^ 36) (frame : BitVec 20) :
    (s.promote access p frame).L1Hit access p
      ∧ ((s.promote access p frame).l1 access (line16 p)).phyPageNum = frame := by
  unfold Tlbs.L1Hit
  rw [l1_promote, Function.update_self, answers_entryFor (by omega)]
  exact ⟨rfl, rfl⟩

/-- After a search that returns `ERR_NONE` its page is in its first-level table. -/
theorem l1Hit_of_search (h : tlbSearch memSpace vaddr paddr access s = .ok (r, s'))
    (herr : r.err = .errNone) : s'.L1Hit access vaddr.vpn
      ∧ (s'.l1 access (line16 vaddr.vpn)).phyPageNum = r.paddr.phyPageNum := by
  cases searched (access_ne_invalid h herr) h with
  | first h1 => exact ⟨h1, rfl⟩
  | second => exact l1Hit_promote s access vaddr.vpn_lt _
  | failed => cases herr
  | filled => exact l1Hit_promote _ access vaddr.vpn_lt _

/-- A search that returned `ERR_NONE` is repeated for any offset of its page: it hits the first
level, returns the same frame and changes nothing. -/
theorem tlbSearch_repeat (h : tlbSearch memSpace vaddr paddr access s = .ok (r, s'))
    (herr : r.err = .errNone) (hpage : vaddr'.vpn = vaddr.vpn) (paddr' : PhyAddr) :
    tlbSearch memSpace vaddr' paddr' access s'
      = .ok (⟨.errNone, ⟨r.paddr.phyPageNum, vaddr'.pageOffset⟩, some true⟩, s') := by
  obtain ⟨hhit, hframe⟩ := l1Hit_of_search h herr
  rw [← hpage] at hhit hframe
  rw [tlbSearch_eq memSpace vaddr' paddr' (access_ne_invalid h herr), if_pos hhit, hframe]

/-- Full tables, with the same pages in both levels where they can be. -/
def fullTlbs : Tlbs := ⟨fun _ => ⟨36, 7, true⟩, fun _ => ⟨36, 7, true⟩, fun _ => ⟨9, 7, true⟩⟩

/-- A search of page 5 at offset 7 in an image of zeros. -/
theorem tlbSearch_fullTlbs : tlbSearch (fun _ => 0 : Memory 4096) ⟨0, 0, 0, 0, 5, 7⟩ ⟨0, 0⟩ .data
    fullTlbs = .ok (⟨.errNone, ⟨0, 7⟩, some false⟩, fullTlbs.fill .data 5 0) := rfl

/-- And again at offset 9. -/
theorem tlbSearch_repeat_full :
    tlbSearch (fun _ => 0 : Memory 4096) ⟨0, 0, 0, 0, 5, 9⟩ ⟨0, 0⟩ .data (fullTlbs.fill .data 5 0)
      = .ok (⟨.errNone, ⟨0, 9⟩, some true⟩, fullTlbs.fill .data 5 0) :=
  tlbSearch_repeat tlbSearch_fullTlbs rfl
    (rfl : VirtAddr.vpn ⟨0, 0, 0, 0, 5, 9⟩ = VirtAddr.vpn ⟨0, 0, 0, 0, 5, 7⟩) _

end Repeat

section Other

theorem l1_other_fill (s : Tlbs) (ha : access ≠ .invalid) (p : ℕ) (frame : BitVec 20) :
    (s.fill access p frame).l1 access.other = s.drop (s.l1 access.other) p := by
  cases access with
  | instruction => rfl
  | data => rfl
  | invalid => exact absurd rfl ha

theorem l2Tlb_fill (s : Tlbs) (access : MemAccess) (p : ℕ) (frame : BitVec 20) :
    (s.fill access p frame).l2Tlb
      = Function.update s.l2Tlb (stored p) (entryFor 30 6 p frame) := by
  cases access <;> rfl

/-- The page is left in the other table if it was there and not stale. -/
theorem answers_drop_iff (l1Tlb : Table 16 32) (q : ℕ) : Answers 4 (s.drop l1Tlb p (line16 p)) q
    ↔ Answers 4 (l1Tlb (line16 p)) q ∧ ¬ s.Stale l1Tlb p := by
  unfold Tlbs.drop
  split_ifs with hstale
  · rw [Function.update_self]
    exact iff_of_false (fun h => nomatch h.1) fun h => h.2 hstale
  · exact (and_iff_left hstale).symm

/-- The line probed is the one stored for pages with bits 4 and 5 zero. -/
theorem probed_eq_stored_iff : probed p = stored p ↔ p % 64 < 16 := by
  rw [probed, stored, Fin.mk.injEq]
  omega

theorem l2Hit_fill_iff (access : MemAccess) (hp : p < 2 ^ 36) (frame : BitVec 20)
    (h2 : ¬ s.L2Hit p) : (s.fill access p frame).L2Hit p ↔ p % 64 < 16 := by
  unfold Tlbs.L2Hit
  rw [l2Tlb_fill, ← probed_eq_stored_iff]
  by_cases hline : probed p = stored p
  · rw [hline, Function.update_self, answers_entryFor (by omega)]
    exact iff_of_true rfl rfl
  · rw [Function.update_of_ne hline]
    exact iff_of_false h2 hline

/-- What a search that missed both levels and returned `ERR_NONE` has done. -/
theorem search_missed (h : tlbSearch memSpace vaddr paddr access s = .ok (r, s'))
    (herr : r.err = .errNone) (hmiss : r.hitOrMiss = some false) :
    ¬ s.L2Hit vaddr.vpn ∧ walkFrame memSpace vaddr = .ok (some r.paddr.phyPageNum)
      ∧ s' = s.fill access vaddr.vpn r.paddr.phyPageNum := by
  cases searched (access_ne_invalid h herr) h with
  | first => cases hmiss
  | second => cases hmiss
  | failed => cases herr
  | filled _ h2 hw => exact ⟨h2, hw, rfl⟩

/-- If the other first-level table holds the page, and it is not dropped, it has the frame the walk
finds; else bits 4 and 5 of the page number are zero. -/
def ServesOther (memSpace : Memory size) (s : Tlbs) (access : MemAccess) (vaddr : VirtAddr) :
    Prop :=
  if s.L1Hit access.other vaddr.vpn ∧ ¬ s.Stale (s.l1 access.other) vaddr.vpn then
    walkFrame memSpace vaddr
      = .ok (some (s.l1 access.other (line16 vaddr.vpn)).phyPageNum)
  else vaddr.vpn % 64 < 16

/-- After a search that missed both levels and returned `ERR_NONE`, the search of its page with the
other access hits and returns the same frame exactly under this condition on the tables before. -/
theorem tlbSearch_other_hits_iff (h : tlbSearch memSpace vaddr paddr access s = .ok (r, s'))
    (herr : r.err = .errNone) (hmiss : r.hitOrMiss = some false) (hpage : vaddr'.vpn = vaddr.vpn)
    (paddr' : PhyAddr) :
    (∃ r' s'', tlbSearch memSpace vaddr' paddr' access.other s' = .ok (r', s'')
        ∧ r'.hitOrMiss = some true ∧ r'.paddr.phyPageNum = r.paddr.phyPageNum)
      ↔ ServesOther memSpace s access vaddr := by
  have ha := access_ne_invalid h herr
  have hp := vaddr.vpn_lt
  obtain ⟨h2, hwalk, rfl⟩ := search_missed h herr hmiss
  rw [tlbSearch_eq memSpace vaddr' paddr' (MemAccess.other_ne_invalid ha), hpage,
    walkFrame_congr memSpace hpage, hwalk]
  unfold ServesOther
  have hleft : (s.fill access vaddr.vpn r.paddr.phyPageNum).L1Hit access.other vaddr.vpn
      ↔ s.L1Hit access.other vaddr.vpn ∧ ¬ s.Stale (s.l1 access.other) vaddr.vpn := by
    unfold Tlbs.L1Hit
    rw [l1_other_fill s ha, answers_drop_iff]
  by_cases hother : s.L1Hit access.other vaddr.vpn ∧ ¬ s.Stale (s.l1 access.other) vaddr.vpn
  · rw [if_pos (hleft.2 hother), if_pos hother, l1_other_fill s ha]
    have hkept : s.drop (s.l1 access.other) vaddr.vpn = s.l1 access.other := if_neg hother.2
    rw [hkept, hwalk, Except.ok.injEq, Option.some.injEq]
    constructor
    · rintro ⟨_, _, heq, -, hframe⟩
      cases heq
      exact hframe.symm
    · intro hframe
      exact ⟨_, _, rfl, rfl, hframe.symm⟩
  rw [if_neg (mt hleft.1 hother), if_neg hother]
  by_cases h64 : vaddr.vpn % 64 < 16
  · -- the line probed is the one the first search has stored
    rw [if_pos ((l2Hit_fill_iff access hp _ h2).2 h64), l2Tlb_fill, probed_eq_stored_iff.2 h64,
      Function.update_self]
    exact iff_of_true ⟨_, _, rfl, rfl, rfl⟩ h64
  · rw [if_neg (mt (l2Hit_fill_iff access hp _ h2).1 h64)]
    refine iff_of_false ?_ h64
    rintro ⟨_, _, heq, hhit, -⟩
    cases heq
    cases hhit

/-- The instruction search of page 5 after that data search. -/
theorem tlbSearch_other_hits_full : ∃ r' s'',
    tlbSearch (fun _ => 0 : Memory 4096) ⟨0, 0, 0, 0, 5, 7⟩ ⟨0, 0⟩ .instruction
        (fullTlbs.fill .data 5 0) = .ok (r', s'')
      ∧ r'.hitOrMiss = some true ∧ r'.paddr.phyPageNum = 0 := by
  refine (tlbSearch_other_hits_iff tlbSearch_fullTlbs rfl rfl rfl ⟨0, 0⟩).2 ?_
  unfold ServesOther
  rw [if_neg (by decide)]
  decide

/-- Page 16 is stored in line 16 and probed in line 0. -/
theorem tlbSearch_other_misses :
    tlbSearch (fun _ => 0 : Memory 4096) ⟨0, 0, 0, 0, 16, 0⟩ ⟨0, 0⟩ .data Tlbs.zero
        = .ok (⟨.errNone, ⟨0, 0⟩, some false⟩, Tlbs.zero.fill .data 16 0)
      ∧ ¬ ∃ r' s'', tlbSearch (fun _ => 0 : Memory 4096) ⟨0, 0, 0, 0, 16, 0⟩ ⟨0, 0⟩ .instruction
          (Tlbs.zero.fill .data 16 0) = .ok (r', s'')
        ∧ r'.hitOrMiss = some true ∧ r'.paddr.phyPageNum = 0 := by
  refine ⟨rfl, ?_⟩
  rintro ⟨r', s'', heq, hhit, -⟩
  have hmiss : tlbSearch (fun _ => 0 : Memory 4096) ⟨0, 0, 0, 0, 16, 0⟩ ⟨0, 0⟩ .instruction
      (Tlbs.zero.fill .data 16 0) = .ok (⟨.errNone, ⟨0, 0⟩, some false⟩, _) := rfl
  rw [hmiss] at heq
  cases heq
  cases hhit

end Other

section Commute

/-- The lines of one remainder modulo 16: one in each first-level table, four in the second. -/
@[ext]
structure Column where
  itlb : Entry 32
  dtlb : Entry 32
  l2 : Fin 4 → Entry 30

/-- The line of the second level with quotient `q`. -/
def lineOf (c : Fin 16) (q : Fin 4) : Fin 64 := ⟨c + 16 * q, by omega⟩

def Tlbs.column (s : Tlbs) (c : Fin 16) : Column :=
  ⟨s.l1ITlb c, s.l1DTlb c, fun q => s.l2Tlb (lineOf c q)⟩

theorem column_injective : Function.Injective Tlbs.column := by
  intro s t h
  have hc := congrFun h
  refine Tlbs.ext (funext fun c => congrArg Column.itlb (hc c))
    (funext fun c => congrArg Column.dtlb (hc c)) (funext fun i => ?_)
  have hi : i = lineOf ⟨i % 16, by omega⟩ ⟨i / 16, by omega⟩ :=
    Fin.ext (Nat.mod_add_div i.val 16).symm
  rw [hi]
  exact congrFun (congrArg Column.l2 (hc _)) _

variable {c : Fin 16}

theorem lineOf_ne_stored (hc : c ≠ line16 p) (q : Fin 4) : lineOf c q ≠ stored p := by
  intro h
  have hval : c.val + 16 * q.val = p % 64 := congrArg Fin.val h
  refine hc (Fin.ext ?_)
  show c.val = p % 16
  omega

section Frame

theorem column_promote_of_ne (hc : c ≠ line16 p) :
    (s.promote access p frame).column c = s.column c := by
  cases access <;> simp only [Tlbs.promote, Tlbs.column, Function.update_of_ne hc]

theorem column_dropOther_of_ne (hc : c ≠ line16 p) :
    (s.dropOther access p).column c = s.column c := by
  have hdrop : ∀ l1Tlb, s.drop l1Tlb p c = l1Tlb c := by
    intro l1Tlb
    unfold Tlbs.drop
    split_ifs
    · exact Function.update_of_ne hc ..
    · rfl
  cases access <;> simp only [Tlbs.dropOther, Tlbs.column, hdrop]

theorem column_store_of_ne (hc : c ≠ line16 p) : (s.store p frame).column c = s.column c := by
  simp only [Tlbs.store, Tlbs.column, Function.update_of_ne (lineOf_ne_stored hc _)]

theorem column_fill_of_ne (hc : c ≠ line16 p) :
    (s.fill access p frame).column c = s.column c := by
  rw [Tlbs.fill, column_promote_of_ne hc, column_store_of_ne hc, column_dropOther_of_ne hc]

end Frame

section Congr

theorem column_promote_congr (h : s.column c = t.column c) :
    (s.promote access p frame).column c = (t.promote access p frame).column c := by
  obtain ⟨hi, hd, h2⟩ := Column.mk.inj h
  cases access <;>
    simp only [Tlbs.promote, Tlbs.column, Function.update_apply, hi, hd, h2]

theorem column_store_congr (h : s.column c = t.column c) :
    (s.store p frame).column c = (t.store p frame).column c := by
  obtain ⟨hi, hd, h2⟩ := Column.mk.inj h
  simp only [Tlbs.store, Tlbs.column, Function.update_apply, hi, hd, fun q => congrFun h2 q]

/-- What a search of a page looks at is in the page's column. -/
theorem lines_of_column (h : s.column (line16 p) = t.column (line16 p)) :
    (∀ access, s.l1 access (line16 p) = t.l1 access (line16 p))
      ∧ s.l2Tlb (probed p) = t.l2Tlb (probed p) ∧ s.l2Tlb (stored p) = t.l2Tlb (stored p) := by
  obtain ⟨hi, hd, h2⟩ := Column.mk.inj h
  have hprobed : probed p = lineOf (line16 p) 0 := rfl
  have hstored : stored p = lineOf (line16 p) ⟨p % 64 / 16, by omega⟩ := by
    refine Fin.ext ?_
    show p % 64 = p % 16 + 16 * (p % 64 / 16)
    omega
  refine ⟨fun access => ?_, ?_, ?_⟩
  · cases access
    exacts [hi, hd, hd]
  · rw [hprobed]
    exact congrFun h2 0
  · rw [hstored]
    exact congrFun h2 _

theorem column_dropOther_congr (h : s.column (line16 p) = t.column (line16 p)) :
    (s.dropOther access p).column (line16 p) = (t.dropOther access p).column (line16 p) := by
  obtain ⟨-, -, hstored⟩ := lines_of_column h
  obtain ⟨hi, hd, h2⟩ := Column.mk.inj h
  have hdrop : ∀ {u v : Table 16 32}, u (line16 p) = v (line16 p) →
      s.drop u p (line16 p) = t.drop v p (line16 p) := by
    intro u v huv
    have hstale : s.Stale u p ↔ t.Stale v p := by
      unfold Tlbs.Stale
      rw [huv, hstored]
    unfold Tlbs.drop
    by_cases hv : t.Stale v p
    · rw [if_pos (hstale.2 hv), if_pos hv, Function.update_self, Function.update_self, huv]
    · rw [if_neg (mt hstale.1 hv), if_neg hv]
      exact huv
  cases access <;> simp only [Tlbs.dropOther, Tlbs.column, hdrop hi, hdrop hd, hi, hd, h2]

theorem column_fill_congr (h : s.column (line16 p) = t.column (line16 p)) :
    (s.fill access p frame).column (line16 p) = (t.fill access p frame).column (line16 p) :=
  column_promote_congr (column_store_congr (column_dropOther_congr h))

end Congr

/-- In tables with the same column of the page a search finds, returns and leaves the same. -/
theorem Searched.congr {memSpace : Memory size} (hcol : s.column (line16 vaddr.vpn)
      = t.column (line16 vaddr.vpn)) (h : Searched memSpace vaddr paddr access s r s') :
    ∃ t', Searched memSpace vaddr paddr access t r t'
      ∧ t'.column (line16 vaddr.vpn) = s'.column (line16 vaddr.vpn) := by
  obtain ⟨hl1, hprobed, -⟩ := lines_of_column hcol
  have h1 : t.L1Hit access vaddr.vpn ↔ s.L1Hit access vaddr.vpn := by
    unfold Tlbs.L1Hit
    rw [hl1]
  have h2 : t.L2Hit vaddr.vpn ↔ s.L2Hit vaddr.vpn := by
    unfold Tlbs.L2Hit
    rw [hprobed]
  cases h with
  | first hs1 =>
    rw [hl1]
    exact ⟨t, .first (h1.2 hs1), hcol.symm⟩
  | second hs1 hs2 =>
    rw [hprobed]
    exact ⟨_, .second (mt h1.1 hs1) (h2.2 hs2), (column_promote_congr hcol).symm⟩
  | failed hs1 hs2 hw => exact ⟨t, .failed (mt h1.1 hs1) (mt h2.1 hs2) hw, hcol.symm⟩
  | filled hs1 hs2 hw =>
    exact ⟨_, .filled (mt h1.1 hs1) (mt h2.1 hs2) hw, (column_fill_congr hcol).symm⟩

/-- A search is local to the column of its page. -/
theorem tlbSearch_local (memSpace : Memory size) (vaddr : VirtAddr) (paddr : PhyAddr)
    (access : MemAccess) :
    Local.LocalAt Tlbs.column (line16 vaddr.vpn) (tlbSearch memSpace vaddr paddr access) := by
  by_cases ha : access = .invalid
  · subst ha
    refine ⟨fun h _ _ => ?_, fun {s t s' a} hcol h => ?_⟩
    · cases h
      rfl
    · cases h
      exact ⟨t, rfl, hcol.symm⟩
  constructor
  · intro s s' r h c hc
    cases searched ha h with
    | first => rfl
    | second => exact column_promote_of_ne hc
    | failed => rfl
    | filled => exact column_fill_of_ne hc
  · intro s t s' r hcol h
    obtain ⟨t', ht, hcol'⟩ := (searched ha h).congr hcol
    exact ⟨t', ht.eq_ok ha, hcol'⟩

/-- Two searches of pages that differ modulo 16 have the same outcomes in either order: what each
returns and the tables they leave. -/
theorem tlbSearch_comm (memSpace : Memory size) (h : vaddr.vpn % 16 ≠ vaddr'.vpn % 16)
    (paddr paddr' : PhyAddr) (access access' : MemAccess) (s t : Tlbs) (r r' : Search) :
    (∃ s₁, tlbSearch memSpace vaddr paddr access s = .ok (r, s₁)
        ∧ tlbSearch memSpace vaddr' paddr' access' s₁ = .ok (r', t))
      ↔ ∃ s₁, tlbSearch memSpace vaddr' paddr' access' s = .ok (r', s₁)
        ∧ tlbSearch memSpace vaddr paddr access s₁ = .ok (r, t) := by
  have hne : line16 vaddr.vpn ≠ line16 vaddr'.vpn := fun he => h (congrArg Fin.val he)
  exact Local.comm column_injective (tlbSearch_local memSpace vaddr paddr access)
    (tlbSearch_local memSpace vaddr' paddr' access') hne s t r r'

/-- Page 5 and then page 1, or page 1 and then page 5. -/
theorem tlbSearch_comm_full : ∃ s₁,
    tlbSearch (fun _ => 0 : Memory 4096) ⟨0, 0, 0, 0, 1, 3⟩ ⟨0, 0⟩ .instruction fullTlbs
        = .ok (⟨.errNone, ⟨0, 3⟩, some false⟩, s₁)
      ∧ tlbSearch (fun _ => 0 : Memory 4096) ⟨0, 0, 0, 0, 5, 7⟩ ⟨0, 0⟩ .data s₁
        = .ok (⟨.errNone, ⟨0, 7⟩, some false⟩,
            (fullTlbs.fill .data 5 0).fill .instruction 1 0) :=
  (tlbSearch_comm (fun _ => 0 : Memory 4096) (by decide) ⟨0, 0⟩ ⟨0, 0⟩ .data .instruction
    fullTlbs _ _ _).1 ⟨_, tlbSearch_fullTlbs, rfl⟩

end Commute

end KabyLake.TlbHrchy
