import KabyLake.Proofs.TlbHrchySearch

/-!
# What `invalidation` clears

The entry of the other first-level table is meant to go when it is the page that leaves the second
level. The two page numbers are built in 32 bits, and the valid bit of the second level's entry is
not looked at, so other entries go too (`invalidation_exact_iff`).
-/

namespace KabyLake

/-- The access of the other first-level table. -/
def MemAccess.other : MemAccess → MemAccess
  | instruction => data
  | data => instruction
  | invalid => invalid

theorem MemAccess.other_ne_invalid {access : MemAccess} (ha : access ≠ invalid) :
    access.other ≠ invalid := by
  cases access with
  | instruction => decide
  | data => decide
  | invalid => exact absurd rfl ha

namespace TlbHrchy

/-- The tables with one of the first level replaced. -/
def Tlbs.setL1 (s : Tlbs) (access : MemAccess) (l1Tlb : Table 16 32) : Tlbs :=
  match access with
  | .instruction => { s with l1ITlb := l1Tlb }
  | _ => { s with l1DTlb := l1Tlb }

theorem Tlbs.setL1_self (s : Tlbs) (access : MemAccess) : s.setL1 access (s.l1 access) = s := by
  cases access <;> rfl

@[simp] theorem Tlbs.l1_setL1 (s : Tlbs) (access : MemAccess) (l1Tlb : Table 16 32) :
    (s.setL1 access l1Tlb).l1 access = l1Tlb := by
  cases access <;> rfl

theorem Tlbs.dropOther_eq (s : Tlbs) {access : MemAccess} (ha : access ≠ .invalid) (p : ℕ) :
    s.dropOther access p = s.setL1 access.other (s.drop (s.l1 access.other) p) := by
  cases access with
  | instruction => rfl
  | data => rfl
  | invalid => exact absurd rfl ha

/-- A first-level table's line of a page and the second level's are valid and hold the same page. -/
def Tlbs.SamePage (s : Tlbs) (l1Tlb : Table 16 32) (p : ℕ) : Prop :=
  (l1Tlb (line16 p)).v = true ∧ (s.l2Tlb (stored p)).v = true
    ∧ (l1Tlb (line16 p)).tag.toNat * 16 + p % 16 = (s.l2Tlb (stored p)).tag.toNat * 64 + p % 64

instance (s : Tlbs) (l1Tlb : Table 16 32) (p : ℕ) : Decidable (s.SamePage l1Tlb p) :=
  inferInstanceAs (Decidable (_ ∧ _))

/-- The tables with the valid bit of the other first-level table's line of a page cleared. -/
def Tlbs.clearOther (s : Tlbs) (access : MemAccess) (p : ℕ) : Tlbs :=
  s.setL1 access.other (Function.update (s.l1 access.other) (line16 p)
    { s.l1 access.other (line16 p) with v := false })

/-- The call clears the valid bit of the other first-level table's line if the second level holds
the same page, and changes nothing else. -/
def InvalidatesExactly (s : Tlbs) (page : BitVec 64) (access : MemAccess) : Prop :=
  invalidation s page access = .ok (.errNone,
    if s.SamePage (s.l1 access.other) page.toNat then s.clearOther access page.toNat else s)

theorem Tlbs.SamePage.stale {s : Tlbs} {l1Tlb : Table 16 32} {p : ℕ} (h : s.SamePage l1Tlb p) :
    s.Stale l1Tlb p := by
  obtain ⟨hv, -, hpage⟩ := h
  exact ⟨hv, by rw [hpage]⟩

/-- A valid entry changes when it is cleared. -/
theorem Tlbs.clearOther_ne {s : Tlbs} {access : MemAccess} {p : ℕ}
    (hv : (s.l1 access.other (line16 p)).v = true) : s.clearOther access p ≠ s := by
  intro h
  have hl1 := congrArg (fun s => (s.l1 access.other (line16 p)).v) h
  simp only [Tlbs.clearOther, Tlbs.l1_setL1, Function.update_self, hv] at hl1
  cases hl1

theorem invalidatesExactly_iff (s : Tlbs) (page : BitVec 64) {access : MemAccess}
    (ha : access ≠ .invalid) : InvalidatesExactly s page access
      ↔ (s.Stale (s.l1 access.other) page.toNat → s.SamePage (s.l1 access.other) page.toNat) := by
  have hdrop : s.dropOther access page.toNat
      = if s.Stale (s.l1 access.other) page.toNat then s.clearOther access page.toNat else s := by
    rw [s.dropOther_eq ha]
    unfold Tlbs.drop Tlbs.clearOther
    split_ifs
    · rfl
    · exact s.setL1_self access.other
  unfold InvalidatesExactly
  rw [invalidation_eq s page ha, hdrop, Except.ok.injEq, Prod.mk.injEq, and_iff_right rfl]
  by_cases hstale : s.Stale (s.l1 access.other) page.toNat
  · rw [if_pos hstale, forall_prop_of_true hstale]
    split_ifs with hsame
    · exact iff_of_true rfl hsame
    · exact iff_of_false (Tlbs.clearOther_ne hstale.1) hsame
  · rw [if_neg hstale, if_neg fun h : s.SamePage _ _ => hstale h.stale]
    exact iff_of_true rfl fun h => absurd h hstale

/-- For either access the call clears exactly the entry of the page that leaves the second level if
and only if no valid entry shares the low 32 bits of its page with an invalid entry or another page
there. -/
theorem invalidation_exact_iff (s : Tlbs) (page : BitVec 64) :
    (InvalidatesExactly s page .instruction
      ↔ (s.Stale s.l1DTlb page.toNat → s.SamePage s.l1DTlb page.toNat))
    ∧ (InvalidatesExactly s page .data
      ↔ (s.Stale s.l1ITlb page.toNat → s.SamePage s.l1ITlb page.toNat)) :=
  ⟨invalidatesExactly_iff s page (by decide), invalidatesExactly_iff s page (by decide)⟩

/-- Page 2^32 in line 0 of the data table, and page 0 in line 0 of the second level. -/
def pagesApart : Tlbs where
  l1ITlb := fun _ => ⟨0, 0, false⟩
  l1DTlb := fun i => ⟨BitVec.ofNat 32 (2 ^ 28), 0, i = 0⟩
  l2Tlb := fun i => ⟨0, 0, i = 0⟩

/-- Page 2^32 goes when page 64 takes the line of page 0. -/
theorem invalidation_clears_other_page : ¬ InvalidatesExactly pagesApart 64 .instruction := by
  rw [invalidatesExactly_iff pagesApart 64 (by decide)]
  decide

end TlbHrchy

end KabyLake
