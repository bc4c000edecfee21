import Mathlib.Tactic

/-!
# Blocks written into an array

A block is a start and a content. Blocks that do not overlap, written one after the other, all lie
in the array afterwards, and everything outside them is as before (`putAll_of_mem`,
`putAll_outside`), in whatever order they are written (`putAll_perm`).
-/

namespace Blocks

variable {size : ℕ} {β : Type*}

/-- A content and where it starts. -/
abbrev Block (β : Type*) := ℕ × List β

/-- The positions of a block. -/
def Covers (b : Block β) (j : ℕ) : Prop := b.1 ≤ j ∧ j < b.1 + b.2.length

instance (b : Block β) (j : ℕ) : Decidable (Covers b j) := inferInstanceAs (Decidable (_ ∧ _))

theorem Covers.lt {b : Block β} {j : ℕ} (h : Covers b j) : j - b.1 < b.2.length := by
  have h1 := h.1
  have h2 := h.2
  omega

/-- An array with a block written. -/
def put (m : Fin size → β) (b : Block β) : Fin size → β := fun j =>
  if h : Covers b j then b.2.get ⟨j - b.1, h.lt⟩ else m j

def putAll (m : Fin size → β) (blocks : List (Block β)) : Fin size → β := blocks.foldl put m

/-- A block lies inside an array and its content is there. -/
def Holds (m : Fin size → β) (b : Block β) : Prop :=
  ∀ i (h : i < b.2.length), ∃ hj : b.1 + i < size, m ⟨b.1 + i, hj⟩ = b.2[i]

/-- No position is in both. -/
def Apart (b c : Block β) : Prop := ∀ j, Covers b j → ¬ Covers c j

variable {m : Fin size → β} {b c : Block β} {blocks : List (Block β)} {j : Fin size}

theorem put_outside (h : ¬ Covers b j) : put m b j = m j := dif_neg h

theorem put_self (h : b.1 + b.2.length ≤ size) : Holds (put m b) b := by
  intro i hi
  have hcovers : Covers b (b.1 + i) := ⟨by omega, by omega⟩
  refine ⟨by omega, ?_⟩
  unfold put
  rw [dif_pos hcovers]
  simp

theorem Holds.put (h : Holds m b) (hapart : Apart b c) : Holds (put m c) b := by
  intro i hi
  obtain ⟨hj, heq⟩ := h i hi
  have hcovers : Covers b (b.1 + i) := ⟨by omega, by omega⟩
  refine ⟨hj, ?_⟩
  rw [put_outside (hapart _ hcovers), heq]

theorem Holds.putAll (h : Holds m b) (hapart : ∀ c ∈ blocks, Apart b c) :
    Holds (putAll m blocks) b := by
  induction blocks generalizing m with
  | nil => exact h
  | cons c blocks ih =>
    exact ih (h.put (hapart c List.mem_cons_self)) fun c hc =>
      hapart c (List.mem_cons_of_mem _ hc)

instance : Std.Symm (Apart : Block β → Block β → Prop) := ⟨fun _ _ h j hc hb => h j hb hc⟩

/-- Blocks apart from each other can be written in either order. -/
theorem put_comm (h : Apart b c) : put (put m b) c = put (put m c) b := by
  funext j
  by_cases hb : Covers b j
  · have hc : ¬ Covers c j := h j hb
    simp only [put, dif_pos hb, dif_neg hc]
  · simp only [put, dif_neg hb]

theorem putAll_perm {blocks' : List (Block β)} (hperm : blocks.Perm blocks')
    (hapart : blocks.Pairwise Apart) (m : Fin size → β) : putAll m blocks = putAll m blocks' := by
  refine hperm.foldl_eq' (fun b hb c hc m => ?_) m
  by_cases heq : b = c
  · rw [heq]
  · exact put_comm (hapart.forall hb hc heq)

/-- Outside the blocks nothing changes. -/
theorem putAll_outside (h : ∀ b ∈ blocks, ¬ Covers b j) : putAll m blocks j = m j := by
  induction blocks generalizing m with
  | nil => rfl
  | cons b blocks ih =>
    have hrest := ih (m := put m b) fun c hc => h c (List.mem_cons_of_mem _ hc)
    exact hrest.trans (put_outside (h b List.mem_cons_self))

/-- Blocks apart from each other all lie in the array that is left. -/
theorem putAll_of_mem (hapart : blocks.Pairwise Apart)
    (hsize : ∀ b ∈ blocks, b.1 + b.2.length ≤ size) (hb : b ∈ blocks) :
    Holds (putAll m blocks) b := by
  induction blocks generalizing m with
  | nil => cases hb
  | cons c blocks ih =>
    rw [List.pairwise_cons] at hapart
    rcases List.mem_cons.1 hb with rfl | hb
    · have hput : Holds (put m b) b := put_self (hsize b List.mem_cons_self)
      exact hput.putAll hapart.1
    · exact ih hapart.2 (fun c hc => hsize c (List.mem_cons_of_mem _ hc)) hb

end Blocks
