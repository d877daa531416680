import Mathlib.Tactic

/-! Commands on a state that may stop for good: state passing over `Except`, their weakest
preconditions, and the loop rules. The second postcondition says which stops are allowed. -/
namespace Command

abbrev Cmd (ε σ : Type) := StateT σ (Except ε)

variable {ε ε' σ τ α β : Type}

/-- From `s` the command ends in a state and a value satisfying `Q`, or stops with an allowed
error. -/
def wp (c : Cmd ε σ α) (Q : α → σ → Prop) (E : ε → Prop) (s : σ) : Prop :=
  match c.run s with
  | .ok (a,t) => Q a t
  | .error e => E e

theorem wp_mono {c : Cmd ε σ α} {Q R : α → σ → Prop} {E F : ε → Prop} {s : σ}
    (h : wp c Q E s) (hQ : ∀ a t, Q a t → R a t) (hE : ∀ e, E e → F e) : wp c R F s := by
  unfold wp at *
  split at h
  · exact hQ _ _ h
  · exact hE _ h

/-- Sequential reasoning: a specification of the first command, then the rest from every state
it may end in. -/
theorem wp_conseq {c : Cmd ε σ α} {Q R : α → σ → Prop} {E : ε → Prop} {s : σ}
    (h : wp c Q E s) (hQ : ∀ a t, Q a t → R a t) : wp c R E s :=
  wp_mono h hQ fun _ he => he

theorem wp_and {c : Cmd ε σ α} {Q R : α → σ → Prop} {E F : ε → Prop} {s : σ}
    (hQ : wp c Q E s) (hR : wp c R F s) :
    wp c (fun a t => Q a t ∧ R a t) (fun e => E e ∧ F e) s := by
  unfold wp at *
  split at hQ <;> simp_all

theorem wp_ok {c : Cmd ε σ α} {Q : α → σ → Prop} {E : ε → Prop} {s t : σ} {a : α}
    (h : wp c Q E s) (hc : c.run s = .ok (a,t)) : Q a t := by
  simpa [wp,hc] using h

theorem wp_error {c : Cmd ε σ α} {Q : α → σ → Prop} {E : ε → Prop} {s : σ} {e : ε}
    (h : wp c Q E s) (hc : c.run s = .error e) : E e := by
  simpa [wp,hc] using h

theorem exists_run {c : Cmd ε σ α} {Q : α → σ → Prop} {s : σ} (h : wp c Q (fun _ => False) s) :
    ∃ a t, c.run s = .ok (a,t) ∧ Q a t := by
  unfold wp at h
  split at h
  case h_1 a t hrun => exact ⟨a,t,hrun,h⟩
  case h_2 => exact h.elim

theorem wp_true (c : Cmd ε σ α) (s : σ) : wp c (fun _ _ => True) (fun _ => True) s := by
  unfold wp
  split <;> trivial

theorem run_eq_error {c : Cmd ε σ α} {s : σ} {e : ε} (h : wp c (fun _ _ => False) (· = e) s) :
    c.run s = .error e := by
  unfold wp at h
  split at h
  · exact h.elim
  case h_2 e' hrun => rw [hrun,h]

instance {c : Cmd ε σ α} {Q : α → σ → Prop} {E : ε → Prop} {s : σ}
    [∀ a t, Decidable (Q a t)] [DecidablePred E] : Decidable (wp c Q E s) :=
  match h : c.run s with
  | .ok (a,t) => decidable_of_iff (Q a t) (by simp [wp,h])
  | .error e => decidable_of_iff (E e) (by simp [wp,h])

section Rules

variable {Q : α → σ → Prop} {E : ε → Prop} {s : σ}

@[simp] theorem wp_pure (a : α) : wp (pure a : Cmd ε σ α) Q E s ↔ Q a s := Iff.rfl

@[simp] theorem wp_bind (c : Cmd ε σ β) (f : β → Cmd ε σ α) :
    wp (c >>= f) Q E s ↔ wp c (fun b t => wp (f b) Q E t) E s := by
  have hrun : (c >>= f).run s = (c.run s).bind fun p => (f p.1).run p.2 := rfl
  simp only [wp,hrun]
  cases c.run s <;> rfl

@[simp] theorem wp_throw (e : ε) : wp (throw e : Cmd ε σ α) Q E s ↔ E e := Iff.rfl

@[simp] theorem wp_get {Q : σ → σ → Prop} : wp (get : Cmd ε σ σ) Q E s ↔ Q s s := Iff.rfl

@[simp] theorem wp_set {Q : PUnit → σ → Prop} (t : σ) :
    wp (set t : Cmd ε σ PUnit) Q E s ↔ Q ⟨⟩ t := Iff.rfl

@[simp] theorem wp_modify {Q : PUnit → σ → Prop} (f : σ → σ) :
    wp (modify f : Cmd ε σ PUnit) Q E s ↔ Q ⟨⟩ (f s) := Iff.rfl

theorem wp_ite {p : Prop} [Decidable p] {c d : Cmd ε σ α} :
    wp (if p then c else d) Q E s ↔ (p → wp c Q E s) ∧ (¬p → wp d Q E s) := by
  by_cases hp : p <;> simp [hp]

end Rules

def when (p : Prop) [Decidable p] (c : Cmd ε σ Unit) : Cmd ε σ Unit :=
  if p then c else pure ()

theorem wp_when {p : Prop} [Decidable p] {c : Cmd ε σ Unit} {Q : Unit → σ → Prop} {E : ε → Prop}
    {s : σ} : wp (when p c) Q E s ↔ (p → wp c Q E s) ∧ (¬p → Q () s) := by
  rw [when,wp_ite]
  simp

def zoom (view : τ → σ) (put : τ → σ → τ) (inj : ε → ε') (c : Cmd ε σ α) : Cmd ε' τ α := fun t =>
  match c.run (view t) with
  | .ok (a,s) => .ok (a,put t s)
  | .error e => .error (inj e)

@[simp] theorem wp_zoom {view : τ → σ} {put : τ → σ → τ} {inj : ε → ε'} {c : Cmd ε σ α}
    {Q : α → τ → Prop} {E : ε' → Prop} {t : τ} :
    wp (zoom view put inj c) Q E t ↔
      wp c (fun a s => Q a (put t s)) (fun e => E (inj e)) (view t) := by
  have hrun : (zoom view put inj c).run t = match c.run (view t) with
    | .ok (a,s) => .ok (a,put t s)
    | .error e => .error (inj e) := rfl
  simp only [wp,hrun]
  cases c.run (view t) <;> rfl

def forUp (body : ℕ → Cmd ε σ Unit) : ℕ → ℕ → Cmd ε σ Unit
  | _, 0 => pure ()
  | i, n+1 => do
    body i
    forUp body (i+1) n

theorem wp_forUp {body : ℕ → Cmd ε σ Unit} {E : ε → Prop} (I : ℕ → σ → Prop) {n i : ℕ} {s : σ}
    (hbody : ∀ j s, i ≤ j → j < i+n → I j s → wp (body j) (fun _ t => I (j+1) t) E s)
    (hs : I i s) : wp (forUp body i n) (fun _ t => I (i+n) t) E s := by
  induction n generalizing i s with
  | zero => simpa [forUp] using hs
  | succ n ih =>
    rw [forUp,wp_bind]
    refine wp_conseq (hbody i s le_rfl (by omega) hs) ?_
    intro _ t ht
    have hrest : wp (forUp body (i+1) n) (fun _ t => I (i+1+n) t) E t := by
      apply ih _ ht
      intro j s hl hr hj
      exact hbody j s (by omega) (by omega) hj
    rwa [show i+1+n = i+(n+1) by omega] at hrest

end Command
