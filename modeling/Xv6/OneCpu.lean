import Xv6.SchedInv

/-! A process is on at most one CPU. -/
namespace Xv6.Sched

variable {s : Sys}

namespace Core

/-- A process that a CPU points to, while its lock is free, is executed there. -/
theorem on_of_cpuproc (h : Core s) {c : Cpu} {p : ℕ} (hfree : s.lock (.proc p) = none)
    (hc : s.cpuproc c = some p) : s.on c = some p := by
  cases hon : s.on c with
  | some q => rw [← hc,h.current c q hon]
  | none =>
    have hback := h.idle c hon
    rw [hc] at hback
    cases hs : s.stack (.sched c) with
    | nil =>
      rw [hs] at hback
      cases hback
    | cons f rest =>
      rw [hs] at hback
      have hf : f = .schedBack p := by
        unfold backOf at hback
        split at hback
        · rename_i heq
          rw [(List.cons.inj heq).1,Option.some.inj hback]
        · cases hback
      have hmem : Lock.proc p ∈ s.locksOf c :=
        mem_locksOf (by rw [Sys.tid_of_none hon,hs]) (by simp [hf,Frame.locks])
      exact absurd hmem (h.locks.not_held hfree)

/-- Without its lock held, a process is executed exactly when it is `RUNNING`. -/
theorem running_iff_on (h : Core s) {p : ℕ} (hfree : s.lock (.proc p) = none) :
    (s.proc p).state = .RUNNING ↔ ∃ c, s.on c = some p := by
  constructor
  · intro hst
    by_contra hnone
    obtain ⟨c,rest,hc,hs⟩ := h.picked p (fun d hd => hnone ⟨d,hd⟩) hst
    have hmem : Lock.proc p ∈ s.locksOf c :=
      mem_locksOf (by rw [Sys.tid_of_none hc,hs]) (by simp [Frame.locks])
    exact h.locks.not_held hfree hmem
  · rintro ⟨c,hc⟩
    rw [h.running c p hc]
    cases hs : s.stack (.proc p) with
    | nil => rfl
    | cons f rest =>
      by_contra hne
      have hmem : Lock.proc p ∈ s.locksOf c := by
        apply mem_locksOf (by rw [Sys.tid_of_some hc,hs])
        rw [h.current c p hc]
        exact Frame.mem_locks_of_onState hne
      exact h.locks.not_held hfree hmem

theorem off_of_waitFound (h : Core s) {c : Cpu} {addr q : ℕ} {rest : List Frame}
    (htop : s.stack (s.tid c) = .waitFound addr q::rest) (d : Cpu) : s.on d ≠ some q := by
  intro hd
  have hzombie : (s.proc q).state = .ZOMBIE := h.found c _ _ htop
  rcases eq_or_ne d c with rfl | hdc
  · have hrun := h.running d q hd
    rw [← Sys.tid_of_some hd,htop,hzombie] at hrun
    cases hrun
  · have hst := h.state_of_foreign_lock (mem_locksOf htop (by simp [Frame.locks])) hd hdc
    rw [hzombie] at hst
    cases hst

end Core

/-- In every reachable state: a process whose lock is free is `RUNNING` exactly when one CPU points
to it, and only then; a CPU about to switch to a process finds its thread on no CPU; and a zombie
about to be freed is on no CPU. -/
theorem one_cpu {cond : ℕ → Bool} {as : List Action}
    (hrun : Machine.run step (init cond) as = some s) :
    (∀ p, s.lock (.proc p) = none →
      ((s.proc p).state = .RUNNING ↔ ∃! c, s.cpuproc c = some p) ∧
      ((s.proc p).state ≠ .RUNNING → ∀ c, s.cpuproc c ≠ some p)) ∧
    (∀ c p rest, s.stack (s.tid c) = .schedRun p::rest → ∀ d, s.on d ≠ some p) ∧
    (∀ c addr q rest, s.stack (s.tid c) = .waitFound addr q::rest → ∀ d, s.on d ≠ some q) := by
  have h := Core.of_run hrun
  refine ⟨fun p hfree => ⟨⟨fun hst => ?_,?_⟩,?_⟩,?_,fun c addr q rest htop => h.off_of_waitFound htop⟩
  · obtain ⟨c,hc⟩ := (h.running_iff_on hfree).mp hst
    refine ⟨c,h.current c p hc,fun d hd => h.tid_inj ?_⟩
    rw [Sys.tid_of_some hc,Sys.tid_of_some (h.on_of_cpuproc hfree hd)]
  · rintro ⟨c,hc,-⟩
    exact (h.running_iff_on hfree).mpr ⟨c,h.on_of_cpuproc hfree hc⟩
  · intro hst c hc
    exact hst ((h.running_iff_on hfree).mpr ⟨c,h.on_of_cpuproc hfree hc⟩)
  · intro c p rest htop
    have hfound : (s.proc p).state = .RUNNING ∧ ∀ d, s.on d ≠ some p := h.found c _ _ htop
    exact hfound.2

/-- CPU 0 finds the first process, switches to it and lets it return to user space. -/
def firstSwitch : List Action := List.replicate 5 (.run 0 false)

theorem one_cpu_firstSwitch : ∃ s, Machine.run step (init fun _ => false) firstSwitch = some s ∧
    (s.proc 0).state = .RUNNING ∧ ∃! c, s.cpuproc c = some 0 := by
  have hend : (Machine.run step (init fun _ => false) firstSwitch).any
      (fun s => s.lock (.proc 0) = none ∧ (s.proc 0).state = .RUNNING) = true := by decide +kernel
  obtain ⟨s,hs,hfree,hst⟩ := Machine.exists_run_of_any hend
  exact ⟨s,hs,hst,((one_cpu hs).1 0 hfree).1.mp hst⟩

end Xv6.Sched
