import Mathlib.Tactic

/-!
# Error codes and undefined behaviour

A C function here returns its error code with whatever it has written through its pointers. What
the language leaves undefined, an access outside an object or through a null or freed pointer, is
a `Fault`: the call has no outcome. A loop that is still running when its fuel is used up is the
fault `fuel`.
-/

namespace KabyLake

/-- `error_code` of error.h. -/
inductive ErrorCode
  | errNone
  | errMem
  | errIo
  | errBadParameter
  | errEof
  | errAddr
  | errSize
  | errPolicy
  | errLast
  deriving DecidableEq, Repr

/-- `mem_access_t` of mem_access.h; `invalid` is any value the enumeration does not name. -/
inductive MemAccess
  | instruction
  | data
  | invalid
  deriving DecidableEq, Repr

/-- What ends an execution with no outcome. -/
inductive Fault
  | memory
  | slot
  | heap
  | fuel
  deriving DecidableEq, Repr

abbrev Exec := Except Fault

-- the numbers of lines, ways and words; named, so that no definition carries its own proof of them
instance neZero_four : NeZero 4 := ⟨by decide⟩

instance neZero_eight : NeZero 8 := ⟨by decide⟩

instance neZero_sixteen : NeZero 16 := ⟨by decide⟩

instance neZero_sixtyFour : NeZero 64 := ⟨by decide⟩

instance neZero_fiveHundredTwelve : NeZero 512 := ⟨by decide⟩

variable {α β : Type}

@[simp] theorem Exec.ok_bind (a : α) (f : α → Exec β) : (Except.ok a >>= f) = f a := rfl

@[simp] theorem Exec.error_bind (e : Fault) (f : α → Exec β) :
    ((Except.error e : Exec α) >>= f) = Except.error e := rfl

@[simp] theorem Exec.pure_eq (a : α) : (pure a : Exec α) = Except.ok a := rfl

@[simp] theorem Exec.throw_eq (e : Fault) : (throw e : Exec α) = Except.error e := rfl

/-- A fault has no outcome. -/
theorem Exec.not_exists_ok (e : Fault) (P : α → β → Prop) :
    ¬ ∃ a b, (Except.error e : Exec (α × β)) = .ok (a, b) ∧ P a b := by
  rintro ⟨_, _, h, _⟩
  cases h

theorem Exec.map_bind {γ : Type} (x : Exec α) (f : α → Exec β) (g : β → γ) :
    (x >>= f).map g = x >>= fun a => (f a).map g := by
  rcases x with e | a
  · rfl
  · rfl

/-- A computation that succeeds has succeeded in its first part. -/
theorem Exec.bind_eq_ok {x : Exec α} {f : α → Exec β} {b : β} (h : (x >>= f) = Except.ok b) :
    ∃ a, x = Except.ok a ∧ f a = Except.ok b := by
  rcases x with e | a
  · cases h
  · exact ⟨a, rfl, h⟩

end KabyLake
