import Mathlib.Tactic

/-! Labelled machines given by a partial step function, their finite runs, and the
induction rule for invariants. A disabled action is `none`. -/
namespace Machine

variable {σ α : Type*}

/-- The states passed through by a list of actions; only the last one is returned. -/
def run (step : σ → α → Option σ) : σ → List α → Option σ
  | s, [] => some s
  | s, a::as => (step s a).bind fun t => run step t as

@[simp] theorem run_nil (step : σ → α → Option σ) (s : σ) : run step s [] = some s := rfl

theorem run_cons {step : σ → α → Option σ} {s u : σ} {a : α} {as : List α} :
    run step s (a::as) = some u ↔ ∃ t, step s a = some t ∧ run step t as = some u := by
  simp [run,Option.bind_eq_some_iff]

theorem run_append {step : σ → α → Option σ} {s u : σ} {as bs : List α} :
    run step s (as++bs) = some u ↔ ∃ t, run step s as = some t ∧ run step t bs = some u := by
  induction as generalizing s with
  | nil => simp
  | cons a as ih =>
    simp only [List.cons_append,run_cons,ih]
    constructor
    · rintro ⟨t,ht,v,hv,hu⟩
      exact ⟨v,⟨t,ht,hv⟩,hu⟩
    · rintro ⟨v,⟨t,ht,hv⟩,hu⟩
      exact ⟨t,ht,v,hv,hu⟩

theorem exists_run_of_any {step : σ → α → Option σ} {P : σ → Prop} [DecidablePred P] {s : σ}
    {as : List α} (h : (run step s as).any (fun t => P t) = true) :
    ∃ t, run step s as = some t ∧ P t := by
  simpa [Option.any_eq_true] using h

/-- A property kept by the enabled actions of some kind is kept by every run of such actions. -/
theorem run_invariant_of {step : σ → α → Option σ} {inv : σ → Prop} {P : α → Prop}
    (hstep : ∀ s a t, inv s → P a → step s a = some t → inv t)
    {s u : σ} {as : List α} (hs : inv s) (hP : ∀ a ∈ as, P a) (hrun : run step s as = some u) :
    inv u := by
  induction as generalizing s with
  | nil =>
    cases hrun
    exact hs
  | cons a as ih =>
    obtain ⟨t,ht,hu⟩ := run_cons.mp hrun
    exact ih (hstep s a t hs (hP a List.mem_cons_self) ht)
      (fun b hb => hP b (List.mem_cons_of_mem a hb)) hu

theorem run_invariant {step : σ → α → Option σ} {inv : σ → Prop}
    (hstep : ∀ s a t, inv s → step s a = some t → inv t)
    {s u : σ} {as : List α} (hs : inv s) (hrun : run step s as = some u) : inv u :=
  run_invariant_of (P := fun _ => True) (fun s a t h _ ht => hstep s a t h ht) hs
    (fun _ _ => trivial) hrun

def Along (step : σ → α → Option σ) (P : σ → α → Prop) : σ → List α → Prop
  | _, [] => True
  | s, a::as => P s a ∧ match step s a with
    | some t => Along step P t as
    | none => True

instance decidableAlong (step : σ → α → Option σ) (P : σ → α → Prop)
    [∀ s a, Decidable (P s a)] : (s : σ) → (as : List α) → Decidable (Along step P s as)
  | _, [] => inferInstanceAs (Decidable True)
  | s, a::as =>
    match h : step s a with
    | some t =>
      haveI := decidableAlong step P t as
      decidable_of_iff (P s a ∧ Along step P t as) (by simp [Along,h])
    | none => decidable_of_iff (P s a) (by simp [Along,h])

theorem along_cons {step : σ → α → Option σ} {P : σ → α → Prop} {s t : σ} {a : α} {as : List α}
    (h : step s a = some t) : Along step P s (a::as) ↔ P s a ∧ Along step P t as := by
  simp [Along,h]

theorem along_of_forall {step : σ → α → Option σ} {P : σ → α → Prop} {as : List α}
    (h : ∀ s, ∀ a ∈ as, P s a) (s : σ) : Along step P s as := by
  induction as generalizing s with
  | nil => exact trivial
  | cons a as ih =>
    refine ⟨h s a List.mem_cons_self,?_⟩
    split
    · exact ih (fun t b hb => h t b (List.mem_cons_of_mem a hb)) _
    · exact trivial

/-- Two conditions that agree wherever an invariant holds and the action is enabled agree
along every run from such a state. -/
theorem along_congr {step : σ → α → Option σ} {inv : σ → Prop} {P Q : σ → α → Prop}
    (hstep : ∀ s a t, inv s → step s a = some t → inv t)
    (hPQ : ∀ s a t, inv s → step s a = some t → (P s a ↔ Q s a))
    {s u : σ} {as : List α} (hs : inv s) (hrun : run step s as = some u) :
    Along step P s as ↔ Along step Q s as := by
  induction as generalizing s with
  | nil => exact Iff.rfl
  | cons a as ih =>
    obtain ⟨t,ht,hu⟩ := run_cons.mp hrun
    rw [along_cons ht,along_cons ht,hPQ s a t hs ht,ih (hstep s a t hs ht) hu]

/-- An invariant kept by the steps that satisfy a condition holds after every run whose steps
all satisfy it. -/
theorem run_invariant_along {step : σ → α → Option σ} {inv : σ → Prop} {P : σ → α → Prop}
    (hstep : ∀ s a t, inv s → P s a → step s a = some t → inv t)
    {s u : σ} {as : List α} (hs : inv s) (hP : Along step P s as)
    (hrun : run step s as = some u) : inv u := by
  induction as generalizing s with
  | nil =>
    cases hrun
    exact hs
  | cons a as ih =>
    obtain ⟨t,ht,hu⟩ := run_cons.mp hrun
    rw [along_cons ht] at hP
    exact ih (hstep s a t hs hP.1 ht) hP.2 hu

/-- An invariant kept by the steps that satisfy a condition holds along every run that
satisfies it, and so does what it implies at each step. -/
theorem along_of_invariant {step : σ → α → Option σ} {inv : σ → Prop} {P Q : σ → α → Prop}
    (hstep : ∀ s a t, inv s → P s a → step s a = some t → inv t)
    (hQ : ∀ s a t, inv s → P s a → step s a = some t → Q s a)
    {s u : σ} {as : List α} (hs : inv s) (hP : Along step P s as)
    (hrun : run step s as = some u) : Along step Q s as := by
  induction as generalizing s with
  | nil => exact trivial
  | cons a as ih =>
    obtain ⟨t,ht,hu⟩ := run_cons.mp hrun
    rw [along_cons ht] at hP ⊢
    exact ⟨hQ s a t hs hP.1 ht,ih (hstep s a t hs hP.1 ht) hP.2 hu⟩

end Machine
