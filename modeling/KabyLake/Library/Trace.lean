import KabyLake.Library.Run

/-!
# Traces of two machines

The trace of a run is its outputs up to a stop, and what stopped it. Two machines in lockstep, where
each step stops both for the same reason or has both return the same output, have the same traces
(`trace_eq_of_lockstep`). A machine that outputs its states instead stops where the other does
(`trace_observed`), and inputs that lead to the same states have it output the same
(`trace_observed_congr`). A machine whose steps decode their input first has the trace of the
decoded inputs as long as no step changes how the inputs left decode (`trace_decoded`).
-/

namespace Run

variable {σ τ ι κ ε ρ : Type*}

/-- The outputs of the inputs taken in order up to the first that stops the run, and what it stops
with. -/
def trace (step : σ → ι → Except ε (ρ × σ)) : σ → List ι → List ρ × Option ε
  | _, [] => ([], none)
  | s, i :: is =>
    match step s i with
    | .error e => ([], some e)
    | .ok (r, s') => ((trace step s' is).1.cons r, (trace step s' is).2)

/-- Two machines stop for the same reason, or go on to related states with the same output. -/
inductive Lockstep (Rel : σ → τ → Prop) : Except ε (ρ × σ) → Except ε (ρ × τ) → Prop
  | stop (e : ε) : Lockstep Rel (.error e) (.error e)
  | next (r : ρ) {s : σ} {t : τ} (h : Rel s t) : Lockstep Rel (.ok (r, s)) (.ok (r, t))

variable {step : σ → ι → Except ε (ρ × σ)} {step' : τ → ι → Except ε (ρ × τ)} {Rel : σ → τ → Prop}
  {P : σ → ι → Prop}

theorem trace_cons_error {s : σ} {i : ι} {e : ε} (is : List ι) (h : step s i = .error e) :
    trace step s (i :: is) = ([], some e) := by
  simp only [trace, h]

theorem trace_cons_ok {s s' : σ} {i : ι} {r : ρ} (is : List ι) (h : step s i = .ok (r, s')) :
    trace step s (i :: is) = ((trace step s' is).1.cons r, (trace step s' is).2) := by
  simp only [trace, h]

/-- Machines whose steps keep in lockstep have the same trace. -/
theorem trace_eq_of_lockstep
    (hstep : ∀ s t i, Rel s t → P s i → Lockstep Rel (step s i) (step' t i)) :
    ∀ (is : List ι) {s : σ} {t : τ}, Rel s t → Along step P s is →
      trace step s is = trace step' t is
  | [], _, _, _, _ => rfl
  | i :: is, s, t, hR, hP => by
    have hlock := hstep s t i hR hP.1
    rcases hs : step s i with e | ⟨r, s'⟩
    · rw [hs] at hlock
      generalize ht : step' t i = y at hlock
      cases hlock
      rw [trace_cons_error is hs, trace_cons_error is ht]
    · rw [hs] at hlock
      generalize ht : step' t i = y at hlock
      cases hlock with
      | next _ hR' =>
        rw [trace_cons_ok is hs, trace_cons_ok is ht,
          trace_eq_of_lockstep hstep is hR' (hP.2 r s' hs)]

/-- What the condition of one machine says of the other along its run. -/
theorem along_of_lockstep {Q : τ → ι → Prop}
    (hstep : ∀ s t i, Rel s t → P s i → Lockstep Rel (step s i) (step' t i))
    (hPQ : ∀ s t i, Rel s t → P s i → Q t i) :
    ∀ (is : List ι) {s : σ} {t : τ}, Rel s t → Along step P s is → Along step' Q t is
  | [], _, _, _, _ => trivial
  | i :: is, s, t, hR, hP => by
    refine ⟨hPQ s t i hR hP.1, fun r t' ht => ?_⟩
    have hlock := hstep s t i hR hP.1
    rw [ht] at hlock
    generalize hs : step s i = x at hlock
    cases hlock with
    | next _ hR' => exact along_of_lockstep hstep hPQ is hR' (hP.2 r _ hs)

/-- No condition is needed if every step from related states keeps in lockstep. -/
theorem trace_eq_of_always_lockstep
    (hstep : ∀ s t i, Rel s t → Lockstep Rel (step s i) (step' t i)) (is : List ι) {s : σ} {t : τ}
    (h : Rel s t) : trace step s is = trace step' t is := by
  have hall : Along step (fun _ _ => True) s is :=
    along_of_step (fun s _ (_ : True) => ⟨trivial, fun _ _ _ => trivial⟩) is trivial
  exact trace_eq_of_lockstep (fun s t i hR _ => hstep s t i hR) is h hall

/-- Runs of machines whose steps on these inputs are in lockstep are in lockstep. -/
theorem run_lockstep : ∀ (is : List ι) {s : σ} {t : τ},
    (∀ i ∈ is, ∀ s t, Rel s t → Lockstep Rel (step s i) (step' t i)) → Rel s t →
      Lockstep Rel (run step s is) (run step' t is)
  | [], _, _, _, h => .next [] h
  | i :: is, s, t, hstep, h => by
    rw [List.forall_mem_cons] at hstep
    have hlock := hstep.1 s t h
    rw [run, run]
    generalize step s i = x, step' t i = y at hlock
    cases hlock with
    | stop e => exact .stop e
    | @next r s' t' h' =>
      have hrest := run_lockstep is hstep.2 h'
      dsimp only
      generalize run step s' is = x, run step' t' is = y at hrest
      cases hrest with
      | stop e => exact .stop e
      | next rs h'' => exact .next (r :: rs) h''

/-- A machine whose outputs are mapped has the mapped outputs. -/
theorem run_map {ρ' : Type*} (f : ρ → ρ') : ∀ (is : List ι) (s : σ),
    run (fun s i => (step s i).map fun x => (f x.1, x.2)) s is
      = (run step s is).map fun x => (x.1.map f, x.2)
  | [], _ => rfl
  | i :: is, s => by
    rw [run, run]
    rcases step s i with e | ⟨r, s'⟩
    · rfl
    · have hrest := run_map f is s'
      simp only [Except.map] at hrest ⊢
      rw [hrest]
      rcases run step s' is with e | ⟨rs, s''⟩
      · rfl
      · rfl

section Completes

variable {Q : σ → ι → Prop}

/-- A run comes to its end exactly if each step that it takes does, and then has an output for each
input. -/
theorem trace_completes_iff : ∀ (is : List ι) {s : σ},
    ((trace step s is).2 = none ↔ Along step (fun s i => ∃ x, step s i = .ok x) s is)
      ∧ ((trace step s is).2 = none → (trace step s is).1.length = is.length)
  | [], _ => ⟨iff_of_true rfl trivial, fun _ => rfl⟩
  | i :: is, s => by
    rcases hs : step s i with e | ⟨r, s'⟩
    · rw [trace_cons_error is hs]
      refine ⟨iff_of_false (Option.some_ne_none e) ?_, fun h => absurd h (Option.some_ne_none e)⟩
      rintro ⟨⟨x, hx⟩, -⟩
      rw [hs] at hx
      cases hx
    · obtain ⟨hiff, hlen⟩ := trace_completes_iff is (s := s')
      rw [trace_cons_ok is hs]
      refine ⟨hiff.trans ⟨fun h => ⟨⟨_, hs⟩, fun r₁ s₁ h₁ => ?_⟩, fun h => h.2 r s' hs⟩,
        fun h => ?_⟩
      · rw [hs] at h₁
        cases h₁
        exact h
      · rw [List.length_cons, List.length_cons, hlen h]

theorem along_of_forall_mem : ∀ {is : List ι} {s : σ}, (∀ i ∈ is, ∀ s, P s i) → Along step P s is
  | [], _, _ => trivial
  | i :: is, s, h => by
    rw [List.forall_mem_cons] at h
    exact ⟨h.1 s, fun _ _ _ => along_of_forall_mem h.2⟩

theorem length_run : ∀ {is : List ι} {s s' : σ} {rs : List ρ}, run step s is = .ok (rs, s') →
    rs.length = is.length
  | [], _, _, _, h => by
    cases h
    rfl
  | i :: is, s, s', rs, h => by
    rcases hs : step s i with e | ⟨r, s₁⟩
    · simp only [run, hs] at h
      cases h
    · rw [run_cons_of_ok hs] at h
      rcases hrest : run step s₁ is with e | ⟨rs', s₂⟩
      · rw [hrest] at h
        cases h
      · rw [hrest] at h
        cases h
        rw [List.length_cons, List.length_cons, length_run hrest]

theorem along_congr : ∀ {is : List ι} {s : σ}, (∀ i ∈ is, ∀ s, P s i ↔ Q s i) →
    (Along step P s is ↔ Along step Q s is)
  | [], _, _ => Iff.rfl
  | i :: is, s, h => by
    rw [List.forall_mem_cons] at h
    exact and_congr (h.1 s) (forall_congr' fun r => forall_congr' fun s' =>
      imp_congr_right fun _ => along_congr h.2)

end Completes

section Observe

variable {ρ' : Type*} {observed : σ → κ → Except ε (ρ' × σ)} (f : ι → κ) (g : σ → ρ')

/-- A machine that outputs what is observed of the state after each step of another stops where the
other does, after as many outputs. -/
theorem trace_observed
    (hstep : ∀ s i, observed s (f i) = (step s i).map fun x => (g x.2, x.2)) :
    ∀ (is : List ι) (s : σ), (trace observed s (is.map f)).2 = (trace step s is).2
      ∧ (trace observed s (is.map f)).1.length = (trace step s is).1.length
  | [], _ => ⟨rfl, rfl⟩
  | i :: is, s => by
    have hobserved := hstep s i
    rw [List.map_cons]
    rcases hs : step s i with e | ⟨r, s'⟩
    · rw [hs] at hobserved
      rw [trace_cons_error _ hs, trace_cons_error _ hobserved]
      exact ⟨rfl, rfl⟩
    · rw [hs] at hobserved
      obtain ⟨hstop, hlen⟩ := trace_observed hstep is s'
      rw [trace_cons_ok _ hs, trace_cons_ok _ hobserved, List.length_cons, List.length_cons, hlen]
      exact ⟨hstop, rfl⟩

/-- Inputs that lead to the same states are observed the same. -/
theorem trace_observed_congr {S : ι → ι → Prop}
    (hstep : ∀ s i, observed s (f i) = (step s i).map fun x => (g x.2, x.2))
    (hsame : ∀ s i j, S i j → P s i → (step s j).map Prod.snd = (step s i).map Prod.snd)
    {is js : List ι} (h : List.Forall₂ S is js) {s : σ} (hP : Along step P s is) :
    trace observed s (js.map f) = trace observed s (is.map f) := by
  induction h generalizing s with
  | nil => rfl
  | @cons i j is js hS _ ih =>
    have hmap : ∀ x : Except ε (ρ × σ),
        (x.map fun x => (g x.2, x.2)) = (x.map Prod.snd).map fun s' => (g s', s') := by
      rintro (e | x) <;> rfl
    have hobserved : observed s (f j) = observed s (f i) := by
      rw [hstep, hstep, hmap, hmap, hsame s i j hS hP.1]
    rw [List.map_cons, List.map_cons]
    rcases hs : step s i with e | ⟨r, s'⟩
    · have hi : observed s (f i) = .error e := by
        rw [hstep, hs]
        rfl
      rw [trace_cons_error _ hi, trace_cons_error _ (hobserved.trans hi)]
    · have hi : observed s (f i) = .ok (g s', s') := by
        rw [hstep, hs]
        rfl
      rw [trace_cons_ok _ hi, trace_cons_ok _ (hobserved.trans hi), ih (hP.2 r s' hs)]

end Observe

section Decode

variable (decode : σ → ι → Except ε κ) (exec : σ → κ → Except ε (ρ × σ))

/-- A step that decodes its input in the state it is in. -/
def decodeStep (s : σ) (i : ι) : Except ε (ρ × σ) :=
  (decode s i).bind (exec s)

/-- A step on an input that was decoded before. -/
def decodedStep (s : σ) (k : Except ε κ) : Except ε (ρ × σ) := k.bind (exec s)

variable {decode exec}

/-- If a step taken from the invariant decodes its input as the start does, and keeps the invariant,
the inputs can be decoded before the run. -/
theorem trace_decoded {Inv : σ → Prop} {s₀ : σ} : ∀ (is : List ι) {s : σ}, Inv s →
    (∀ i ∈ is, ∀ s, Inv s → decode s i = decode s₀ i) →
    (∀ i ∈ is, ∀ s k r s', Inv s → decode s₀ i = .ok k → exec s k = .ok (r, s') → Inv s') →
    trace (decodeStep decode exec) s is = trace (decodedStep exec) s (is.map (decode s₀))
  | [], _, _, _, _ => rfl
  | i :: is, s, hI, hdecode, hkeep => by
    rw [List.forall_mem_cons] at hdecode hkeep
    have hsame : decodeStep decode exec s i = decodedStep exec s (decode s₀ i) := by
      rw [decodeStep, hdecode.1 s hI]
      rfl
    rw [List.map_cons]
    rcases hs : decodedStep exec s (decode s₀ i) with e | ⟨r, s'⟩
    · rw [trace_cons_error _ (hsame.trans hs), trace_cons_error _ hs]
    · have hI' : Inv s' := by
        rcases hk : decode s₀ i with e | k
        · rw [hk] at hs
          cases hs
        · rw [hk] at hs
          exact hkeep.1 s k r s' hI hk hs
      rw [trace_cons_ok _ (hsame.trans hs), trace_cons_ok _ hs,
        trace_decoded is hI' hdecode.2 hkeep.2]

end Decode

end Run
