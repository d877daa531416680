import Xv6.LogCrash

/-! Group commit: who counts as outstanding, which buffers are pinned, and who wakes the processes
that sleep in `begin_op`. On top of the invariant of the log, a kernel that runs has an empty header
between groups, and a sleeper only while somebody is there to wake it. -/
namespace Xv6
namespace Log

variable {sb : Superblock} {s t : State} {disk : Disk}

structure Waits (s : State) : Prop where
  quiet : s.outstanding = 0 → s.committing = false → s.lh = []
  sleeper : ∀ p, s.status p = .waiting → 0 < s.outstanding ∨ s.committing = true

theorem Waits.congr (h : Waits s) (hlh : t.lh = s.lh) (hout : t.outstanding = s.outstanding)
    (hc : t.committing = s.committing) (hst : ∀ p, t.status p = .waiting → s.status p = .waiting) :
    Waits t where
  quiet := by
    rw [hlh,hout,hc]
    exact h.quiet
  sleeper p hp := by
    rw [hout,hc]
    exact h.sleeper p (hst p hp)

theorem Waits.of_outstanding (h : 0 < s.outstanding) : Waits s :=
  ⟨fun h0 => absurd h0 (by omega),fun _ _ => .inl h⟩

theorem Waits.of_committing (h : s.committing = true) : Waits s :=
  ⟨fun _ hc => absurd (h.symm.trans hc) (by decide),fun _ _ => .inr h⟩

/-- With an empty header and nobody inside, `begin_op` does not put its caller to sleep. -/
theorem Waits.beginOp (h : Waits s) (p : ℕ) : Waits (beginOp s p) := by
  unfold Log.beginOp
  split
  · rename_i hc
    exact .of_committing hc
  · rename_i hc
    split
    · rename_i hfull
      refine .of_outstanding (Nat.pos_of_ne_zero fun h0 => ?_)
      have hlh := h.quiet h0 (by simpa using hc)
      change s.outstanding = 0 at h0
      rw [hlh,h0] at hfull
      exact absurd hfull (by decide)
    · exact .of_outstanding (Nat.succ_pos _)

/-- The blocks whose pins are still to be released: those that `install_trans` has not written. -/
def Pinned (s : State) : Prop :=
  (∀ p k, s.status p = .commit (.install k) → ∀ b, s.pin b = if b ∈ s.lh.drop k then 1 else 0) ∧
  ((∀ p k, s.status p ≠ .commit (.install k)) → ∀ b, s.pin b = if b ∈ s.lh then 1 else 0)

theorem Live.pinned (hl : Live sb s) : Pinned s := by
  refine ⟨fun p k hp => (hl.commit p _ hp).2.2.2.2.1,fun hno b => ?_⟩
  cases hc : s.committing with
  | false => exact (hl.quiet hc).pin b
  | true =>
    obtain ⟨p,ph,hp⟩ := hl.procs.committer.mp hc
    have hat := (hl.commit p ph hp).2
    cases ph with
    | writeLog k => exact hat.2.2.2.1 b
    | install k => exact absurd hp (hno p k)
    | finish => rw [hat.1,hat.2.2.1 b,if_neg List.not_mem_nil]

end Log
end Xv6
