import Mathlib.Logic.Function.Basic

/-!
# Steps that keep to one part of a state

A state is given by its parts. A step is local to a part if it changes no other, and if what it
returns and what it makes of that part depends on that part only. Two steps local to different parts
commute (`comm`).
-/

namespace Local

variable {σ ι ε α β : Type*} {π : ι → Type*} (part : σ → ∀ i, π i)

structure LocalAt (i : ι) (f : σ → Except ε (α × σ)) : Prop where
  frame : ∀ {s s' a}, f s = .ok (a, s') → ∀ j ≠ i, part s' j = part s j
  congr : ∀ {s t s' a}, part s i = part t i → f s = .ok (a, s') →
    ∃ t', f t = .ok (a, t') ∧ part t' i = part s' i

variable {part} {i j : ι} {f : σ → Except ε (α × σ)} {g : σ → Except ε (β × σ)}

/-- The outcome of a step followed by another is one of the other followed by it. -/
theorem swap (hpart : Function.Injective part) (hf : LocalAt part i f) (hg : LocalAt part j g)
    (hij : i ≠ j) {s s₁ t : σ} {a : α} {b : β} (h₁ : f s = .ok (a, s₁)) (h₂ : g s₁ = .ok (b, t)) :
    ∃ s₂, g s = .ok (b, s₂) ∧ f s₂ = .ok (a, t) := by
  obtain ⟨s₂, hs₂, hj⟩ := hg.congr (hf.frame h₁ j hij.symm) h₂
  obtain ⟨t', ht', hi⟩ := hf.congr (hg.frame hs₂ i hij).symm h₁
  have heq : t' = t := by
    apply hpart
    funext k
    by_cases hki : k = i
    · subst hki
      rw [hi, hg.frame h₂ k hij]
    by_cases hkj : k = j
    · subst hkj
      rw [hf.frame ht' k hki, hj]
    · rw [hf.frame ht' k hki, hg.frame hs₂ k hkj, hg.frame h₂ k hkj, hf.frame h₁ k hki]
  exact ⟨s₂, hs₂, heq ▸ ht'⟩

/-- Steps local to different parts give the same outcomes in either order. -/
theorem comm (hpart : Function.Injective part) (hf : LocalAt part i f) (hg : LocalAt part j g)
    (hij : i ≠ j) (s t : σ) (a : α) (b : β) :
    (∃ s₁, f s = .ok (a, s₁) ∧ g s₁ = .ok (b, t))
      ↔ ∃ s₂, g s = .ok (b, s₂) ∧ f s₂ = .ok (a, t) := by
  constructor
  · rintro ⟨s₁, h₁, h₂⟩
    exact swap hpart hf hg hij h₁ h₂
  · rintro ⟨s₂, h₁, h₂⟩
    exact swap hpart hg hf hij.symm h₁ h₂

end Local
