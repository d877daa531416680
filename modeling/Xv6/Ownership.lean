import Mathlib.Tactic

/-! Exact ownership of the units of a resource. Every position owns at most one unit, no unit
has two owners, and the units in use are the reserved ones and the owned ones. -/
namespace Ownership

variable {ι β : Type}

structure Exact (reserved used : β → Prop) (own : ι → Option β) : Prop where
  used_iff : ∀ b, used b ↔ reserved b ∨ ∃ p, own p = some b
  unique : ∀ {p q b}, own p = some b → own q = some b → p = q
  apart : ∀ {p b}, own p = some b → ¬ reserved b

namespace Exact

variable {reserved used used' : β → Prop} {own own' : ι → Option β} {p : ι} {b : β}

theorem used_of_own (h : Exact reserved used own) (hp : own p = some b) : used b :=
  (h.used_iff b).mpr (.inr ⟨p,hp⟩)

theorem used_of_reserved (h : Exact reserved used own) (hb : reserved b) : used b :=
  (h.used_iff b).mpr (.inl hb)

theorem ne_of_not_used (h : Exact reserved used own) (hb : ¬ used b) (p : ι) : own p ≠ some b :=
  fun hp => hb (h.used_of_own hp)

theorem congr (h : Exact reserved used own) (hu : ∀ b, used' b ↔ used b)
    (ho : ∀ p, own' p = own p) : Exact reserved used' own' := by
  obtain rfl : own' = own := funext ho
  obtain rfl : used' = used := funext fun b => propext (hu b)
  exact h

theorem used_congr (h : Exact reserved used own) (h' : Exact reserved used' own)
    (b : β) : used' b ↔ used b := by
  rw [h.used_iff,h'.used_iff]

/-- A position that has got a unit: the unit was not in use, and is the only new one. -/
theorem used_insert (h : Exact reserved used own) (h' : Exact reserved used' own')
    (hp : own p = none) (hown : own' p = some b) (ho : ∀ q, q ≠ p → own' q = own q) :
    ¬ used b ∧ ∀ c, used' c ↔ c = b ∨ used c := by
  have hold : ∀ {q c}, own q = some c → own' q = some c := by
    intro q c hq
    have hqp : q ≠ p := by rintro rfl; simp [hp] at hq
    rw [ho q hqp,hq]
  constructor
  · intro hused
    rcases (h.used_iff b).mp hused with hb | ⟨q,hq⟩
    · exact h'.apart hown hb
    · obtain rfl := h'.unique (hold hq) hown
      simp [hp] at hq
  · intro c
    rw [h.used_iff,h'.used_iff]
    constructor
    · rintro (hc | ⟨q,hq⟩)
      · exact .inr (.inl hc)
      · by_cases hqp : q = p
        · subst hqp
          exact .inl (Option.some.inj (hq.symm.trans hown))
        · exact .inr (.inr ⟨q,by rw [← ho q hqp,hq]⟩)
    · rintro (rfl | hc | ⟨q,hq⟩)
      · exact .inr ⟨p,hown⟩
      · exact .inl hc
      · exact .inr ⟨q,hold hq⟩

theorem alloc (h : Exact reserved used own) (hb : ¬ used b) (hp : own p = none)
    (hu : ∀ c, used' c ↔ c = b ∨ used c) (hown : own' p = some b)
    (ho : ∀ q, q ≠ p → own' q = own q) : Exact reserved used' own' where
  used_iff := by
    intro c
    rw [hu,h.used_iff]
    constructor
    · rintro (rfl | hc | ⟨q,hq⟩)
      · exact .inr ⟨p,hown⟩
      · exact .inl hc
      · have hqp : q ≠ p := by rintro rfl; simp [hp] at hq
        exact .inr ⟨q,by rw [ho q hqp,hq]⟩
    · rintro (hc | ⟨q,hq⟩)
      · exact .inr (.inl hc)
      · by_cases hqp : q = p
        · subst hqp
          exact .inl (by rw [hown] at hq; exact (Option.some.inj hq).symm)
        · exact .inr (.inr ⟨q,by rw [← ho q hqp,hq]⟩)
  unique := by
    have hne : ∀ q, q ≠ p → own' q ≠ some b := by
      intro q hqp
      rw [ho q hqp]
      exact h.ne_of_not_used hb q
    intro q r c hq hr
    by_cases hqp : q = p <;> by_cases hrp : r = p
    · rw [hqp,hrp]
    · subst hqp
      rw [hown] at hq
      cases hq
      exact absurd hr (hne r hrp)
    · subst hrp
      rw [hown] at hr
      cases hr
      exact absurd hq (hne q hqp)
    · rw [ho q hqp] at hq
      rw [ho r hrp] at hr
      exact h.unique hq hr
  apart := by
    intro q c hq hc
    by_cases hqp : q = p
    · subst hqp
      rw [hown] at hq
      cases hq
      exact hb (h.used_of_reserved hc)
    · rw [ho q hqp] at hq
      exact h.apart hq hc

theorem free (h : Exact reserved used own) (hp : own p = some b)
    (hu : ∀ c, used' c ↔ c ≠ b ∧ used c) (hown : own' p = none)
    (ho : ∀ q, q ≠ p → own' q = own q) : Exact reserved used' own' where
  used_iff := by
    intro c
    rw [hu,h.used_iff]
    constructor
    · rintro ⟨hcb,hc | ⟨q,hq⟩⟩
      · exact .inl hc
      · have hqp : q ≠ p := by rintro rfl; rw [hp] at hq; exact hcb (Option.some.inj hq).symm
        exact .inr ⟨q,by rw [ho q hqp,hq]⟩
    · rintro (hc | ⟨q,hq⟩)
      · exact ⟨by rintro rfl; exact h.apart hp hc,.inl hc⟩
      · have hqp : q ≠ p := by rintro rfl; simp [hown] at hq
        rw [ho q hqp] at hq
        exact ⟨by rintro rfl; exact hqp (h.unique hq hp),.inr ⟨q,hq⟩⟩
  unique := by
    have hsome : ∀ {q c}, own' q = some c → own q = some c := by
      intro q c hq
      have hqp : q ≠ p := by rintro rfl; simp [hown] at hq
      rw [← ho q hqp,hq]
    intro q r c hq hr
    exact h.unique (hsome hq) (hsome hr)
  apart := by
    intro q c hq
    have hqp : q ≠ p := by rintro rfl; simp [hown] at hq
    rw [ho q hqp] at hq
    exact h.apart hq

end Exact
end Ownership
