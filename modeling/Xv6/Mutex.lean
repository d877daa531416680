import Mathlib.Tactic

/-! Locks with an owner field, and the agreement of that field with the locks that each owner's
program counter says it holds. -/
namespace Mutex

variable {ι κ : Type}

/-- Lock `l` is marked as owned by `c` exactly when `c` is where it holds `l`. -/
def Agree (lock : ι → Option κ) (held : κ → List ι) : Prop :=
  ∀ l c, lock l = some c ↔ l ∈ held c

namespace Agree

variable {lock : ι → Option κ} {held : κ → List ι} {l : ι} {c d : κ} {new : List ι}

theorem owner_unique (h : Agree lock held) (hc : l ∈ held c) (hd : l ∈ held d) : c = d := by
  have := (h l c).mpr hc
  rw [(h l d).mpr hd] at this
  exact (Option.some.inj this).symm

theorem not_held (h : Agree lock held) (hl : lock l = none) : l ∉ held c := by
  intro hc
  rw [(h l c).mpr hc] at hl
  cases hl

variable [DecidableEq ι] [DecidableEq κ]

theorem acquire (h : Agree lock held) (hfree : lock l = none)
    (hnew : ∀ x, x ∈ new ↔ x = l ∨ x ∈ held c) :
    Agree (Function.update lock l (some c)) (Function.update held c new) := by
  intro x d
  rcases eq_or_ne x l with rfl | hx
  · rcases eq_or_ne d c with rfl | hd
    · simp [hnew]
    · simp [hd,hd.symm,h.not_held hfree]
  · rcases eq_or_ne d c with rfl | hd
    · simp [hx,hnew,h x d]
    · simp [hx,hd,h x d]

theorem release (h : Agree lock held) (hl : lock l = some c)
    (hnew : ∀ x, x ∈ new ↔ x ∈ held c ∧ x ≠ l) :
    Agree (Function.update lock l none) (Function.update held c new) := by
  intro x d
  rcases eq_or_ne x l with rfl | hx
  · rcases eq_or_ne d c with rfl | hd
    · simp [hnew]
    · have hno : x ∉ held d := fun hmem => hd (h.owner_unique hmem ((h x c).mp hl))
      simp [hd,hno]
  · rcases eq_or_ne d c with rfl | hd
    · simp [hx,hnew,h x d]
    · simp [hx,hd,h x d]

omit [DecidableEq ι] in
theorem keep (h : Agree lock held) (hnew : ∀ x, x ∈ new ↔ x ∈ held c) :
    Agree lock (Function.update held c new) := by
  intro x d
  rcases eq_or_ne d c with rfl | hd
  · simp [hnew,h x d]
  · simp [hd,h x d]

end Agree

end Mutex
