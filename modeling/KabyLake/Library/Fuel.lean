import Mathlib.Tactic

/-!
# Calls that take fuel

A call that needs more than `n` fuel gives its result with more, and with less it gives it too or
runs out (`Gives`). Calls in a row give their results one after the other, up to the first that
runs out whatever it gets.

What a call comes to when no bound on its fuel is at hand is its outcome with enough of it
(`Settles`). It may be that it runs out.
-/

namespace Fuel

universe u

variable {ε : Type*} {α β : Type u} {out : ε} {n m fuel : ℕ} {call : Except ε α} {a b : α} {c : β}
  {g : α → Except ε β}

/-- The call gives `a`, or it has no more than `n` fuel and runs out. -/
def Gives (out : ε) (n fuel : ℕ) (call : Except ε α) (a : α) : Prop :=
  call = .ok a ∨ fuel ≤ n ∧ call = .error out

theorem gives_ok (out : ε) (n fuel : ℕ) (a : α) : Gives out n fuel (.ok a) a := .inl rfl

theorem Gives.mono (h : Gives out n fuel call a) (hn : n ≤ m) : Gives out m fuel call a :=
  h.imp_right fun h => ⟨h.1.trans hn, h.2⟩

theorem Gives.eq_ok (h : Gives out n fuel call a) (hfuel : n < fuel) : call = .ok a :=
  h.resolve_right fun h => absurd h.1 (not_le.2 hfuel)

theorem Gives.bind (h : Gives out n fuel call a) (hg : Gives out n fuel (g a) c) :
    Gives out n fuel (call >>= g) c := by
  rcases h with rfl | ⟨hfuel, rfl⟩
  · exact hg
  · exact .inr ⟨hfuel, rfl⟩

/-- What runs out after a result runs out. -/
theorem Gives.bind_error (h : Gives out n fuel call a) (hg : g a = .error out) :
    call >>= g = .error out := by
  rcases h with rfl | ⟨-, rfl⟩
  · exact hg
  · rfl

theorem Gives.bind_eq_ok (h : Gives out n fuel call a) (hb : call >>= g = .ok c) :
    g a = .ok c := by
  rcases h with rfl | ⟨-, rfl⟩
  · exact hb
  · cases hb

section Settles

variable {F G : Type*} [SemilatticeSup F] [SemilatticeSup G] {outcome : Except ε α}
  {call : F → Except ε α}

/-- With enough fuel the call comes to the outcome, and with less to that or it runs out. -/
structure Settles (out : ε) (call : F → Except ε α) (outcome : Except ε α) : Prop where
  enough : ∃ n, ∀ fuel, n ≤ fuel → call fuel = outcome
  below : ∀ fuel, call fuel = outcome ∨ call fuel = .error out

theorem settles_of_eq [OrderBot F] (h : ∀ fuel, call fuel = outcome) : Settles out call outcome :=
  ⟨⟨⊥, fun fuel _ => h fuel⟩, fun fuel => .inl (h fuel)⟩

theorem settles_const [OrderBot F] (out : ε) (outcome : Except ε α) :
    Settles out (fun _ : F => outcome) outcome := settles_of_eq fun _ => rfl

theorem settles_of_gives {call : ℕ → Except ε α} (h : ∀ fuel, Gives out n fuel (call fuel) a) :
    Settles out call (.ok a) :=
  ⟨⟨n + 1, fun fuel hfuel => (h fuel).eq_ok hfuel⟩, fun fuel => (h fuel).imp_right And.right⟩

/-- A result with some fuel is the outcome. -/
theorem Settles.eq_of_ok (h : Settles out call outcome) {fuel : F} (hcall : call fuel = .ok a) :
    outcome = .ok a := by
  rcases h.below fuel with hb | hb
  · rw [← hb, hcall]
  · rw [hcall] at hb
    cases hb

/-- A call returns with some fuel if it comes to a result. -/
theorem Settles.exists_ok_iff (h : Settles out call outcome) :
    (∃ fuel, call fuel = .ok a) ↔ outcome = .ok a := by
  constructor
  · rintro ⟨fuel, hcall⟩
    exact h.eq_of_ok hcall
  · rintro rfl
    obtain ⟨n, hn⟩ := h.enough
    exact ⟨n, hn n le_rfl⟩

/-- So is an error that is not that of running out. -/
theorem Settles.eq_of_error {e : ε} (h : Settles out call outcome) (he : e ≠ out) {fuel : F}
    (hcall : call fuel = .error e) : outcome = .error e := by
  rcases h.below fuel with hb | hb
  · rw [← hb, hcall]
  · rw [hcall, Except.error.injEq] at hb
    exact absurd hb he

theorem Settles.exists_error {e : ε} (h : Settles out call (.error e)) :
    ∃ fuel, call fuel = .error e := by
  obtain ⟨n, hn⟩ := h.enough
  exact ⟨n, hn n le_rfl⟩

theorem Settles.bind {g : F → α → Except ε β} {outcome' : Except ε β}
    (h : Settles out call outcome) (hg : Settles out (fun fuel => outcome >>= g fuel) outcome') :
    Settles out (fun fuel => call fuel >>= g fuel) outcome' := by
  obtain ⟨n, hn⟩ := h.enough
  obtain ⟨m, hm⟩ := hg.enough
  refine ⟨⟨n ⊔ m, fun fuel hfuel => ?_⟩, fun fuel => ?_⟩
  · rw [hn fuel (le_sup_left.trans hfuel)]
    exact hm fuel (le_sup_right.trans hfuel)
  · rcases h.below fuel with h | h <;> rw [h]
    · exact hg.below fuel
    · exact .inr rfl

/-- A call that takes the fuel of one of two loops. -/
theorem Settles.fst [OrderBot G] (h : Settles out call outcome) :
    Settles out (fun fuel : F × G => call fuel.1) outcome := by
  obtain ⟨n, hn⟩ := h.enough
  exact ⟨⟨(n, ⊥), fun fuel hfuel => hn fuel.1 hfuel.1⟩, fun fuel => h.below fuel.1⟩

/-- A round of the loop the second fuel is for. -/
theorem Settles.succ {call call' : F × ℕ → Except ε α} (h : Settles out call outcome)
    (hzero : ∀ n, call' (n, 0) = .error out) (hsucc : ∀ n m, call' (n, m + 1) = call (n, m)) :
    Settles out call' outcome := by
  obtain ⟨⟨n, m⟩, hn⟩ := h.enough
  refine ⟨⟨(n, m + 1), ?_⟩, ?_⟩
  · rintro ⟨fuel, _ | rounds⟩ ⟨hfuel, hrounds⟩
    · exact absurd hrounds (Nat.not_succ_le_zero m)
    · rw [hsucc]
      exact hn _ ⟨hfuel, Nat.le_of_succ_le_succ hrounds⟩
  · rintro ⟨fuel, _ | rounds⟩
    · exact .inr (hzero fuel)
    · rw [hsucc]
      exact h.below _

/-- Both loops get the same fuel. -/
theorem Settles.diag {call : ℕ × ℕ → Except ε α} (h : Settles out call outcome) :
    Settles out (fun fuel => call (fuel, fuel)) outcome := by
  obtain ⟨⟨n, m⟩, hn⟩ := h.enough
  refine ⟨⟨n ⊔ m, fun fuel hfuel => hn _ ⟨?_, ?_⟩⟩, fun fuel => h.below _⟩
  · exact le_sup_left.trans hfuel
  · exact le_sup_right.trans hfuel

end Settles

end Fuel
