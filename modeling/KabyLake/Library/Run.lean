import Mathlib.Data.List.Forall2

/-!
# Runs of a step function

A step takes a state and an input, and either stops at a fault or returns an output and the next
state. `run` feeds it a list of inputs; `Along P` says `P` holds of every state and input the run
meets, up to a fault if there is one.

An invariant is carried through a run once here: from what one step keeps, `along_of_inv`,
`along_iff_of_inv` and `run_of_inv` give what every run keeps, `run_eq_of_sim` turns a step-wise
simulation into equality of the outputs, and `run_outputs_of_fold` into a relation of the last
states and of each output to its input.
-/

namespace Run

variable {σ ι ε ρ : Type*} (step : σ → ι → Except ε (ρ × σ))

/-- The outputs of the inputs taken in order, and the state after the last. -/
def run : σ → List ι → Except ε (List ρ × σ)
  | s, [] => .ok ([], s)
  | s, i :: is =>
    match step s i with
    | .error e => .error e
    | .ok (r, s') =>
      match run s' is with
      | .error e => .error e
      | .ok (rs, s'') => .ok (r :: rs, s'')

/-- `P` holds of every state and input the run meets. -/
def Along (P : σ → ι → Prop) : σ → List ι → Prop
  | _, [] => True
  | s, i :: is => P s i ∧ ∀ r s', step s i = .ok (r, s') → Along P s' is

/-- Whether the result of a step meets a condition, if there is one, and whether there is one. -/
instance decidableOk {α : Type*} (P : α → Prop) [DecidablePred P] :
    ∀ x : Except ε α, Decidable (∀ a, x = .ok a → P a)
  | .error _ => .isTrue nofun
  | .ok a => decidable_of_iff (P a) (by simp)

instance decidableExistsOk {α : Type*} : ∀ x : Except ε α, Decidable (∃ a, x = .ok a)
  | .error _ => .isFalse nofun
  | .ok a => .isTrue ⟨a, rfl⟩

/-- Whether a run meets a condition is found by running it. -/
instance decidableAlong (P : σ → ι → Prop) [∀ s i, Decidable (P s i)] :
    ∀ (s : σ) (is : List ι), Decidable (Along step P s is)
  | _, [] => .isTrue trivial
  | s, i :: is =>
    match h : step s i with
    | .error _ => decidable_of_iff (P s i) (by simp [Along, h])
    | .ok (_, s') =>
      have := decidableAlong P s' is
      decidable_of_iff (P s i ∧ Along step P s' is) (by simp [Along, h])

@[simp] theorem run_nil (s : σ) : run step s [] = .ok ([], s) := rfl

variable {step} {P Q : σ → ι → Prop} {Inv : σ → Prop}

theorem run_cons_of_ok {s s' : σ} {i : ι} {is : List ι} {r : ρ} (h : step s i = .ok (r, s')) :
    run step s (i :: is)
      = match run step s' is with
        | .error e => .error e
        | .ok (rs, s'') => .ok (r :: rs, s'') := by
  simp only [run, h]

/-- If each step meeting `P` meets `Q` and keeps the invariant, a run meeting `P` meets `Q`. -/
theorem along_of_inv
    (hstep : ∀ s i, Inv s → P s i → Q s i ∧ ∀ r s', step s i = .ok (r, s') → Inv s') :
    ∀ (is : List ι) {s : σ}, Inv s → Along step P s is → Along step Q s is
  | [], _, _, _ => trivial
  | i :: is, s, hI, hP => by
    obtain ⟨hQ, hI'⟩ := hstep s i hI hP.1
    exact ⟨hQ, fun r s' h => along_of_inv hstep is (hI' r s' h) (hP.2 r s' h)⟩

/-- If each step from the invariant meets `Q` and keeps it, every run from it meets `Q`. -/
theorem along_of_step
    (hstep : ∀ s i, Inv s → Q s i ∧ ∀ r s', step s i = .ok (r, s') → Inv s') :
    ∀ (is : List ι) {s : σ}, Inv s → Along step Q s is
  | [], _, _ => trivial
  | i :: is, s, hI => by
    obtain ⟨hQ, hI'⟩ := hstep s i hI
    exact ⟨hQ, fun r s' h => along_of_step hstep is (hI' r s' h)⟩

/-- If `P` and `Q` say the same of a step from the invariant, and a step meeting `P` keeps it, they
say the same of a run. -/
theorem along_iff_of_inv (hiff : ∀ s i, Inv s → (Q s i ↔ P s i))
    (hstep : ∀ s i r s', Inv s → P s i → step s i = .ok (r, s') → Inv s') :
    ∀ (is : List ι) {s : σ}, Inv s → (Along step Q s is ↔ Along step P s is)
  | [], _, _ => Iff.rfl
  | i :: is, s, hI => by
    constructor
    · intro hQ
      have hP : P s i := (hiff s i hI).1 hQ.1
      refine ⟨hP, fun r s' h => ?_⟩
      exact (along_iff_of_inv hiff hstep is (hstep s i r s' hI hP h)).1 (hQ.2 r s' h)
    · intro hP
      refine ⟨(hiff s i hI).2 hP.1, fun r s' h => ?_⟩
      exact (along_iff_of_inv hiff hstep is (hstep s i r s' hI hP.1 h)).2 (hP.2 r s' h)

/-- If each step meeting `P` succeeds and keeps the invariant, a run meeting `P` succeeds and ends
in it. -/
theorem run_of_inv
    (hstep : ∀ s i, Inv s → P s i → ∃ r s', step s i = .ok (r, s') ∧ Inv s') :
    ∀ (is : List ι) {s : σ}, Inv s → Along step P s is →
      ∃ rs s', run step s is = .ok (rs, s') ∧ Inv s'
  | [], s, hI, _ => ⟨[], s, rfl, hI⟩
  | i :: is, s, hI, hP => by
    obtain ⟨r, s', h, hI'⟩ := hstep s i hI hP.1
    obtain ⟨rs, s'', hrun, hI''⟩ := run_of_inv hstep is hI' (hP.2 r s' h)
    exact ⟨r :: rs, s'', by rw [run_cons_of_ok h, hrun], hI''⟩

section Simulation

variable {τ : Type*} (spec : τ → ι → ρ × τ)

/-- The outputs a total specification gives the inputs taken in order. -/
def specRun : τ → List ι → List ρ
  | _, [] => []
  | t, i :: is => (spec t i).1 :: specRun (spec t i).2 is

variable {spec} {Rel : σ → τ → Prop}

/-- If each step meeting `P` from related states returns what the specification returns and stays
related to it, a run meeting `P` returns what the specification returns. -/
theorem run_eq_of_sim
    (hstep : ∀ s t i, Rel s t → P s i → ∃ s', step s i = .ok ((spec t i).1, s')
      ∧ Rel s' (spec t i).2) :
    ∀ (is : List ι) {s : σ} {t : τ}, Rel s t → Along step P s is →
      ∃ s', run step s is = .ok (specRun spec t is, s')
  | [], s, _, _, _ => ⟨s, rfl⟩
  | i :: is, s, t, hR, hP => by
    obtain ⟨s', h, hR'⟩ := hstep s t i hR hP.1
    obtain ⟨s'', hrun⟩ := run_eq_of_sim hstep is hR' (hP.2 _ s' h)
    exact ⟨s'', by rw [run_cons_of_ok h, hrun]; rfl⟩

end Simulation

section Fold

variable {τ : Type*} (f : τ → ι → τ)

/-- `P` holds of every state and input a total fold meets. -/
def AlongFold (P : τ → ι → Prop) : τ → List ι → Prop
  | _, [] => True
  | t, i :: is => P t i ∧ AlongFold P (f t i) is

instance decidableAlongFold (P : τ → ι → Prop) [∀ t i, Decidable (P t i)] :
    ∀ (t : τ) (is : List ι), Decidable (AlongFold f P t is)
  | _, [] => .isTrue trivial
  | t, i :: is =>
    have := decidableAlongFold P (f t i) is
    inferInstanceAs (Decidable (P t i ∧ AlongFold f P (f t i) is))

variable {f} {P : τ → ι → Prop} {Rel : σ → τ → Prop}

/-- If each step from related states whose input meets `P` succeeds with an output that fits the
input and stays related, a run whose inputs meet `P` succeeds with outputs that fit and ends related
to the fold. -/
theorem run_outputs_of_fold {Q : ι → ρ → Prop}
    (hstep : ∀ s t i, Rel s t → P t i →
      ∃ r s', step s i = .ok (r, s') ∧ Q i r ∧ Rel s' (f t i)) :
    ∀ (is : List ι) {s : σ} {t : τ}, Rel s t → AlongFold f P t is →
      ∃ rs s', run step s is = .ok (rs, s') ∧ List.Forall₂ Q is rs ∧ Rel s' (is.foldl f t)
  | [], s, _, hR, _ => ⟨[], s, rfl, .nil, hR⟩
  | i :: is, s, t, hR, hP => by
    obtain ⟨r, s', h, hQ, hR'⟩ := hstep s t i hR hP.1
    obtain ⟨rs, s'', hrun, hQs, hR''⟩ := run_outputs_of_fold hstep is hR' hP.2
    exact ⟨r :: rs, s'', by rw [run_cons_of_ok h, hrun], .cons hQ hQs, hR''⟩

theorem run_of_fold
    (hstep : ∀ s t i, Rel s t → P t i → ∃ r s', step s i = .ok (r, s') ∧ Rel s' (f t i))
    (is : List ι) {s : σ} {t : τ} (h : Rel s t) (hP : AlongFold f P t is) :
    ∃ rs s', run step s is = .ok (rs, s') ∧ Rel s' (is.foldl f t) := by
  obtain ⟨rs, s', hrun, -, hR⟩ := run_outputs_of_fold (Q := fun _ _ => True)
    (fun s t i hR hP =>
      let ⟨r, s', hs, hR'⟩ := hstep s t i hR hP
      ⟨r, s', hs, trivial, hR'⟩) is h hP
  exact ⟨rs, s', hrun, hR⟩

end Fold

end Run
