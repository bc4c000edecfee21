import Mathlib.Tactic
import Mathlib.Data.Stream.Init

/-!
# Programs that draw from a stream

A program takes values off the front of a stream, and a check that fails ends it. If it always takes
the same number of values, what it returns is a function of the stream (`Yields`), or whether it
fails a condition on it (`PassesIf`), and what comes after it runs on the stream without them. So a
loop passes exactly if its body does at each of its places in the stream (`passes_times`). A
program that fails on no stream `Succeeds`, whatever it takes.
-/

namespace Draws

variable {ι α β : Type} {k l n : ℕ}

/-- What is left of the stream is the state. -/
abbrev Draw (ι α : Type) := StateT (Stream' ι) Option α

def next : Draw ι ι := fun s => some (s.head, s.tail)

def check (p : Prop) [Decidable p] : Draw ι Unit := if p then pure () else failure

/-- A loop with a variable. -/
def times (body : α → Draw ι α) : ℕ → α → Draw ι α
  | 0, a => pure a
  | n + 1, a => body a >>= times body n

/-- The program takes `k` values and returns `f` of the stream. -/
def Yields (k : ℕ) (f : Stream' ι → α) (x : Draw ι α) : Prop := ∀ s, x s = some (f s, s.drop k)

/-- It takes `k` values, or fails unless the condition is met. -/
def PassesIf (k : ℕ) (P : Stream' ι → Prop) (x : Draw ι α) : Prop :=
  ∀ s, (P s → ∃ a, x s = some (a, s.drop k)) ∧ (¬ P s → x s = none)

variable {P Q : Stream' ι → Prop} {f : Stream' ι → α} {x : Draw ι α} {g : α → Draw ι β}

theorem bind_eq (x : Draw ι α) (g : α → Draw ι β) (s : Stream' ι) :
    (x >>= g) s = (x s).bind fun r => g r.1 r.2 := rfl

theorem yields_next : Yields 1 Stream'.head (next : Draw ι ι) := fun _ => rfl

theorem yields_pure (a : α) : Yields 0 (fun _ => a) (pure a : Draw ι α) := fun _ => rfl

theorem Yields.bind {h : α → Stream' ι → β} (hx : Yields k f x) (hg : ∀ a, Yields l (h a) (g a)) :
    Yields (k + l) (fun s => h (f s) (s.drop k)) (x >>= g) := by
  intro s
  rw [bind_eq, hx s, Option.bind_some, hg, Stream'.drop_drop]

theorem passes_check (p : Prop) [Decidable p] :
    PassesIf 0 (fun _ => p) (check p : Draw ι Unit) := by
  intro s
  unfold check
  refine ⟨fun hp => ⟨(), ?_⟩, fun hp => ?_⟩
  · rw [if_pos hp]
    rfl
  · rw [if_neg hp]
    rfl

theorem PassesIf.congr (hx : PassesIf k P x) (h : ∀ s, P s ↔ Q s) : PassesIf k Q x := by
  intro s
  rw [← h s]
  exact hx s

/-- What is drawn first decides what is checked of the rest. -/
theorem Yields.bind_passes {R : α → Stream' ι → Prop} (hx : Yields k f x)
    (hg : ∀ a, PassesIf l (R a) (g a)) :
    PassesIf (k + l) (fun s => R (f s) (s.drop k)) (x >>= g) := by
  intro s
  rw [bind_eq, hx s, Option.bind_some, ← Stream'.drop_drop]
  exact hg (f s) (s.drop k)

theorem PassesIf.bind (hx : PassesIf k P x) (hg : ∀ a, PassesIf l Q (g a)) :
    PassesIf (k + l) (fun s => P s ∧ Q (s.drop k)) (x >>= g) := by
  intro s
  obtain ⟨hpass, hfail⟩ := hx s
  by_cases hP : P s
  · obtain ⟨a, ha⟩ := hpass hP
    simp only [bind_eq, ha, Option.bind_some, hP, true_and, ← Stream'.drop_drop]
    exact hg a (s.drop k)
  · exact ⟨fun h => absurd h.1 hP, fun _ => by rw [bind_eq, hfail hP, Option.bind_none]⟩

/-- A loop passes if each time its body passes. -/
theorem passes_times {body : α → Draw ι α} (hbody : ∀ a, PassesIf k P (body a)) :
    ∀ (n : ℕ) (a : α), PassesIf (k * n) (fun s => ∀ i < n, P (s.drop (k * i))) (times body n a)
  | 0, a => fun s =>
    ⟨fun _ => ⟨a, rfl⟩, fun h => absurd (fun i hi => absurd hi (Nat.not_lt_zero i)) h⟩
  | n + 1, a => by
    have hloop := (hbody a).bind fun a => passes_times hbody n a
    rw [mul_add, mul_one, add_comm]
    refine hloop.congr fun s => ?_
    rw [Nat.forall_lt_succ_left]
    refine and_congr (by rw [mul_zero, Stream'.drop_zero]) (forall₂_congr fun i _ => ?_)
    rw [Stream'.drop_drop, mul_add, mul_one]
    rw [add_comm]

/-- Whether a program that passes returns. -/
theorem PassesIf.isSome_iff (hx : PassesIf k P x) (s : Stream' ι) : (x s).isSome = true ↔ P s := by
  obtain ⟨hpass, hfail⟩ := hx s
  by_cases hP : P s
  · obtain ⟨a, ha⟩ := hpass hP
    rw [ha]
    exact iff_of_true rfl hP
  · rw [hfail hP]
    exact iff_of_false (by simp) hP

section Succeeds

/-- The program does not fail. -/
def Succeeds (x : Draw ι α) : Prop := ∀ s, ∃ r, x s = some r

theorem succeeds_pure (a : α) : Succeeds (pure a : Draw ι α) := fun s => ⟨(a, s), rfl⟩

theorem succeeds_check {p : Prop} [Decidable p] (hp : p) : Succeeds (check p : Draw ι Unit) := by
  intro s
  obtain ⟨a, ha⟩ := (passes_check p s).1 hp
  exact ⟨_, ha⟩

theorem Succeeds.bind (hx : Succeeds x) (hg : ∀ a, Succeeds (g a)) : Succeeds (x >>= g) := by
  intro s
  obtain ⟨r, hr⟩ := hx s
  rw [bind_eq, hr, Option.bind_some]
  exact hg r.1 r.2

theorem succeeds_check_bind {p : Prop} [Decidable p] {g : Unit → Draw ι α} (hp : p)
    (hg : Succeeds (g ())) : Succeeds (check p >>= g) :=
  (succeeds_check hp).bind fun _ => hg

/-- What comes after a program is known of what it yields. -/
theorem Yields.bind_succeeds {p : α → Prop} (hx : Yields k f x) (hf : ∀ s, p (f s))
    (hg : ∀ a, p a → Succeeds (g a)) : Succeeds (x >>= g) := by
  intro s
  rw [bind_eq, hx s, Option.bind_some]
  exact hg (f s) (hf s) (s.drop k)

theorem succeeds_times {body : α → Draw ι α} (hbody : ∀ a, Succeeds (body a)) :
    ∀ (n : ℕ) (a : α), Succeeds (times body n a)
  | 0, a => succeeds_pure a
  | n + 1, a => (hbody a).bind fun a => succeeds_times hbody n a

theorem Succeeds.isSome (hx : Succeeds x) (s : Stream' ι) : (x s).isSome = true := by
  obtain ⟨r, hr⟩ := hx s
  rw [hr]
  rfl

end Succeeds

end Draws
