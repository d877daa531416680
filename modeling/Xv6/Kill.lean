import Xv6.SchedStep

/-! `kill` looks a pid up in the whole table, unused slots included. Their pid is 0, so `kill(0)`
marks an unused slot, and the process that `fork` puts there later is born killed. -/
namespace Xv6.Sched

def hit (r : Proc) : Proc :=
  {r with killed := true,state := if r.state = .SLEEPING then .RUNNABLE else r.state}

def killLoop (proc : ℕ → Proc) (pid : ℤ) : ℕ → ℕ → ℤ × (ℕ → Proc)
  | 0,_ => (-1,proc)
  | n+1,q =>
    if (proc q).pid = pid then (0,Function.update proc q (hit (proc q)))
    else killLoop proc pid n (q+1)

/-- `kill(pid)` on a table that nobody else uses: its result and the new table. -/
def kill (proc : ℕ → Proc) (pid : ℤ) : ℤ × (ℕ → Proc) := killLoop proc pid NPROC 0

/-- A call of `kill` with result `r` that hits the process with that pid and nothing else. -/
structure KillExact (proc : ℕ → Proc) (pid r : ℤ) (proc' : ℕ → Proc) : Prop where
  found : r = 0 ↔ ∃ q < NPROC, (proc q).state ≠ .UNUSED ∧ (proc q).pid = pid
  only : r = 0 → ∀ q < NPROC, (proc q).state ≠ .UNUSED → (proc q).pid = pid →
    proc' = Function.update proc q (hit (proc q))
  missed : r ≠ 0 → r = -1 ∧ proc' = proc

theorem killLoop_cases (proc : ℕ → Proc) (pid : ℤ) (n q : ℕ) :
    (∃ k, q ≤ k ∧ k < q+n ∧ (proc k).pid = pid ∧
      killLoop proc pid n q = (0,Function.update proc k (hit (proc k)))) ∨
    (∀ k, q ≤ k → k < q+n → (proc k).pid ≠ pid) ∧ killLoop proc pid n q = (-1,proc) := by
  induction n generalizing q with
  | zero => exact .inr ⟨fun k hk hk' => by omega,rfl⟩
  | succ n ih =>
    rw [killLoop]
    split
    · rename_i hq
      exact .inl ⟨q,le_rfl,by omega,hq,rfl⟩
    · rename_i hq
      rcases ih (q+1) with ⟨k,hk,hk',hpid,heq⟩ | ⟨hno,heq⟩
      · exact .inl ⟨k,by omega,by omega,hpid,heq⟩
      · refine .inr ⟨fun k hk hk' => ?_,heq⟩
        rcases eq_or_lt_of_le hk with rfl | hk
        · exact hq
        · exact hno k hk (by omega)

theorem kill_cases (proc : ℕ → Proc) (pid : ℤ) :
    (∃ q < NPROC, (proc q).pid = pid ∧
      kill proc pid = (0,Function.update proc q (hit (proc q)))) ∨
    (∀ q < NPROC, (proc q).pid ≠ pid) ∧ kill proc pid = (-1,proc) := by
  rcases killLoop_cases proc pid NPROC 0 with ⟨q,-,hq,hpid,heq⟩ | ⟨hno,heq⟩
  · exact .inl ⟨q,by omega,hpid,heq⟩
  · exact .inr ⟨fun q hq => hno q q.zero_le (by omega),heq⟩

variable {s t : Sys} {c : Cpu} {o : Bool} {f g : Frame} {rest : List Frame} {i : Instr}

/-- CPU `c` is in `kill` before slot `q`, and no process lock is held. -/
structure AtKill (s : Sys) (c : Cpu) (pid : ℤ) (q : ℕ) (rest : List Frame) : Prop where
  top : s.stack (s.tid c) = .killAcq pid q::rest
  free : ∀ k, s.lock (.proc k) = none

theorem step_of_top (htop : s.stack (s.tid c) = f::rest)
    (hfetch : fetch s (s.cpuproc c) o f = some i) : step s (.run c o) = exec s c rest i := by
  simp [step,htop,hfetch]

theorem AtKill.miss {pid : ℤ} {q : ℕ} (h : AtKill s c pid q rest) (hq : q < NPROC)
    (hpid : (s.proc q).pid ≠ pid) : ∃ t,
    Machine.run step s (List.replicate 3 (.run c false)) = some t ∧ t.proc = s.proc ∧
      AtKill t c pid (q+1) rest := by
  let s₁ : Sys := {s with lock := Function.update s.lock (.proc q) (some c)}.goto c
    (.killTest pid q::rest)
  let s₂ := s₁.goto c (.killRel pid q false::rest)
  let s₃ : Sys := {s₂ with lock := Function.update s₂.lock (.proc q) none}.goto c
    (.killAcq pid (q+1)::rest)
  have h₁ : step s (.run c false) = some s₁ := by
    rw [step_of_top h.top (if_pos hq)]
    exact if_pos (h.free q)
  have h₂ : step s₁ (.run c false) = some s₂ := by
    have htop : s₁.stack (s₁.tid c) = .killTest pid q::rest := Sys.goto_top ..
    rw [step_of_top htop (if_neg hpid)]
    rfl
  have h₃ : step s₂ (.run c false) = some s₃ := by
    rw [step_of_top (Sys.goto_top ..) rfl]
    exact if_pos (Function.update_self ..)
  refine ⟨s₃,by simp [Machine.run,h₁,h₂,h₃],rfl,Sys.goto_top ..,fun k => ?_⟩
  change Function.update (Function.update s.lock (.proc q) (some c)) (.proc q) none (.proc k) = none
  rw [Function.update_idem]
  rcases eq_or_ne k q with rfl | hk
  · simp
  · simp [hk,h.free]

theorem AtKill.hit {pid : ℤ} {q : ℕ} (h : AtKill s c pid q rest) (hq : q < NPROC)
    (hpid : (s.proc q).pid = pid) : ∃ t,
    Machine.run step s (List.replicate 5 (.run c false)) = some t ∧
      t.proc = Function.update s.proc q (Sched.hit (s.proc q)) ∧ t.stack (t.tid c) = rest := by
  let s₁ : Sys := {s with lock := Function.update s.lock (.proc q) (some c)}.goto c
    (.killTest pid q::rest)
  let s₂ := s₁.goto c (.killSet pid q::rest)
  let r : Proc := {s.proc q with killed := true}
  let s₃ : Sys := {s₂ with proc := Function.update s.proc q r,log := s.log++[]}.goto c
    (.killWake pid q::rest)
  let s₄ : Sys := {s₃ with
    proc := Function.update s₃.proc q
      (if (s₃.proc q).state = ProcState.SLEEPING then {s₃.proc q with state := .RUNNABLE}
        else s₃.proc q)
    log := s₃.log++[]}.goto c (.killRel pid q true::rest)
  let s₅ : Sys := {s₄ with lock := Function.update s₄.lock (.proc q) none}.goto c rest
  have h₁ : step s (.run c false) = some s₁ := by
    rw [step_of_top h.top (if_pos hq)]
    exact if_pos (h.free q)
  have h₂ : step s₁ (.run c false) = some s₂ := by
    have htop : s₁.stack (s₁.tid c) = .killTest pid q::rest := Sys.goto_top ..
    rw [step_of_top htop (if_pos hpid)]
    rfl
  have h₃ : step s₂ (.run c false) = some s₃ := by
    rw [step_of_top (Sys.goto_top ..) rfl]
    rfl
  have h₄ : step s₃ (.run c false) = some s₄ := by
    rw [step_of_top (Sys.goto_top ..) rfl]
    rfl
  have h₅ : step s₄ (.run c false) = some s₅ := by
    rw [step_of_top (Sys.goto_top ..) rfl]
    exact if_pos (Function.update_self ..)
  refine ⟨s₅,by simp [Machine.run,h₁,h₂,h₃,h₄,h₅],?_,Sys.goto_top ..⟩
  change Function.update (Function.update s.proc q r) q _ = _
  rw [Function.update_idem]
  refine congrArg _ ?_
  simp only [s₃,Sys.goto,Function.update_self,Sched.hit,r]
  by_cases hst : (s.proc q).state = .SLEEPING <;> simp [hst]

theorem AtKill.run {pid : ℤ} (n : ℕ) {q : ℕ} (h : AtKill s c pid q rest) (hn : q+n = NPROC) :
    ∃ m t, Machine.run step s (List.replicate m (.run c false)) = some t ∧
      t.proc = (killLoop s.proc pid n q).2 ∧ t.stack (t.tid c) = rest := by
  induction n generalizing s q with
  | zero =>
    refine ⟨1,s.goto c rest,?_,rfl,Sys.goto_top ..⟩
    have hstep : step s (.run c false) = some (s.goto c rest) := by
      rw [step_of_top h.top (if_neg (by omega))]
      rfl
    simp [Machine.run,hstep]
  | succ n ih =>
    by_cases hpid : (s.proc q).pid = pid
    · obtain ⟨t,hrun,hproc,htop⟩ := h.hit (by omega) hpid
      exact ⟨5,t,hrun,by rw [hproc,killLoop,if_pos hpid],htop⟩
    · obtain ⟨t,hrun,hproc,hkill⟩ := h.miss (by omega) hpid
      obtain ⟨m,u,hrun',hproc',htop⟩ := ih hkill (by omega)
      refine ⟨3+m,u,?_,?_,htop⟩
      · rw [List.replicate_add]
        exact Machine.run_append.mpr ⟨t,hrun,hrun'⟩
      · rw [hproc',hproc,killLoop,if_neg hpid]

/-- `kill` is exact unless it is asked for pid 0 while some slot is unused. -/
theorem Pids.exact_iff (h : Pids s) (pid : ℤ) :
    KillExact s.proc pid (kill s.proc pid).1 (kill s.proc pid).2 ↔
      (pid = 0 → ∀ q < NPROC, (s.proc q).state ≠ .UNUSED) := by
  constructor
  · rintro hexact rfl q hq hun
    rcases kill_cases s.proc 0 with ⟨k,-,-,heq⟩ | ⟨hno,-⟩
    · obtain ⟨k',-,hk',hpid⟩ := hexact.found.mp (by rw [heq])
      exact (h.used k' hk').ne' hpid
    · exact hno q hq (h.unused q hun)
  · intro hpid
    rcases kill_cases s.proc pid with ⟨q,hq,hfound,heq⟩ | ⟨hno,heq⟩
    · have hst : (s.proc q).state ≠ .UNUSED := by
        intro hun
        exact hpid (hfound.symm.trans (h.unused q hun)) q hq hun
      rw [heq]
      refine ⟨⟨fun _ => ⟨q,hq,hst,hfound⟩,fun _ => rfl⟩,fun _ k _ hk hkpid => ?_,by simp⟩
      rw [h.unique q k (hfound.trans hkpid.symm) (h.used q hst).ne']
    · rw [heq]
      refine ⟨⟨by simp,fun ⟨q,hq,_,hqpid⟩ => absurd hqpid (hno q hq)⟩,by simp,fun _ => ⟨rfl,rfl⟩⟩

def Frame.sought : Frame → Option ℤ
  | .killAcq pid _ | .killTest pid _ | .killSet pid _ | .killWake pid _ | .killRel pid _ _ =>
    some pid
  | _ => none

theorem fetch_sought {me : Option ℕ} {pid : ℤ} (h : fetch s me o f = some i)
    (hg : i.next = some g) (hp : g.sought = some pid) : f.sought = some pid := by
  cases f <;> simp only [fetch,Option.map_eq_some_iff,Option.some.injEq,reduceCtorEq] at h
  all_goals try obtain ⟨p,rfl,h⟩ := h
  all_goals repeat' split at h
  all_goals try cases h
  all_goals simp only [Instr.next,Option.some.injEq,reduceCtorEq] at hg
  all_goals subst hg
  case allocFound => cases o <;> cases hp
  case sleepReacq w => cases w <;> cases hp
  case wakeupAcq.isFalse.refl w _ _ _ => cases w <;> cases hp
  all_goals exact hp

theorem fetch_killSet {me : Option ℕ} {pid : ℤ} {q : ℕ} (h : fetch s me o f = some i)
    (hg : i.next = some (.killSet pid q)) : f = .killTest pid q ∧ (s.proc q).pid = pid := by
  cases f <;> simp only [fetch,Option.map_eq_some_iff,Option.some.injEq,reduceCtorEq] at h
  all_goals try obtain ⟨p,rfl,h⟩ := h
  all_goals repeat' split at h
  all_goals try cases h
  all_goals simp only [Instr.next,Option.some.injEq,reduceCtorEq] at hg
  case killTest.isTrue.refl hpid =>
    cases hg
    exact ⟨rfl,hpid⟩
  case allocFound => cases o <;> cases hg
  case sleepReacq w => cases w <;> cases hg
  case wakeupAcq.isFalse.refl w _ _ _ => cases w <;> cases hg

structure Gentle (s : Sys) : Prop where
  core : Core s
  pids : Pids s
  frames : ∀ j, ∀ f ∈ s.stack j, f.sought ≠ some 0
  target : ∀ c pid q rest, s.stack (s.tid c) = .killSet pid q::rest → (s.proc q).pid = pid
  clean : ∀ q, (s.proc q).state = .UNUSED → (s.proc q).killed = false
  born : ∀ q k, .forked q k ∈ s.log → k = false

namespace Gentle

section Exec

variable (h : Gentle s) (htop : s.stack (s.tid c) = f::rest)
  (hfetch : fetch s (s.cpuproc c) o f = some i) (ht : exec s c rest i = some t)
include h htop hfetch ht

theorem target_exec {d : Cpu} {pid : ℤ} {q : ℕ} {k : List Frame}
    (hd : t.stack (t.tid d) = .killSet pid q::k) : (t.proc q).pid = pid := by
  rcases eq_or_ne d c with rfl | hdc
  · rcases h.core.exec_top htop hfetch ht hd with ⟨hn,-⟩ | hcalm
    · obtain ⟨rfl,hpid⟩ := fetch_killSet hfetch hn
      simp only [fetch,if_pos hpid] at hfetch
      cases hfetch
      obtain rfl := Option.some.inj ht
      exact hpid
    · exact absurd hcalm (by simp [Frame.Calm,Frame.resumable,Frame.locks])
  · rw [(h.core.exec_others htop hfetch ht hdc).2] at hd
    have hold := h.target d pid q k hd
    have hlock : .proc q ∉ f.locks (s.cpuproc c) := fun hl =>
      hdc (h.core.locks.owner_unique (Core.mem_locksOf hd (by simp [Frame.locks]))
        (Core.mem_locksOf htop hl))
    cases exec_change hfetch ht with
    | same hproc => rw [hproc,hold]
    | @store q' r ev n hstore hproc =>
      rw [hproc]
      rcases eq_or_ne q q' with rfl | hne
      · rw [Function.update_self]
        rcases h.core.store_pid htop hstore with ⟨hkeep,-⟩ | ⟨-,addr,rfl⟩
        · rw [hkeep,hold]
        · exact absurd (by simp [Frame.locks]) hlock
      · rw [Function.update_of_ne hne,hold]
    | @fail q' hf hproc | @alloc q' hf hproc =>
      rw [hproc,Function.update_of_ne,hold]
      rintro rfl
      exact hlock (by simp [hf,Frame.locks])

theorem clean_exec {q : ℕ} (hq : (t.proc q).state = .UNUSED) : (t.proc q).killed = false := by
  cases exec_change hfetch ht with
  | same hproc =>
    rw [hproc] at hq ⊢
    exact h.clean q hq
  | @store q' r ev n hstore hproc =>
    rw [hproc] at hq ⊢
    rcases eq_or_ne q q' with rfl | hne
    · rw [Function.update_self] at hq ⊢
      rcases h.core.store_pid htop hstore with ⟨-,hun⟩ | ⟨rfl,-⟩
      · have hold := h.clean q (hun.mp hq)
        have hwho := (h.core.store_unused htop hstore (hun.mp hq)).2
        generalize s.cpuproc c = me at hstore
        cases hstore with
        | @kill _ pid =>
          have hpid := h.target c pid q rest htop
          rw [h.pids.unused q (hun.mp hq)] at hpid
          have hsought := h.frames (s.tid c) (.killSet pid q) (by simp [htop])
          exact absurd (congrArg some hpid.symm) hsought
        | killWake => simpa [hun.mp hq] using hold
        | reparent => exact hold
        | _ => simp at hwho
      · rfl
    · rw [Function.update_of_ne hne] at hq ⊢
      exact h.clean q hq
  | @fail q' hf hproc =>
    rw [hproc] at hq ⊢
    rcases eq_or_ne q q' with rfl | hne
    · rw [Function.update_self]
      rfl
    · rw [Function.update_of_ne hne] at hq ⊢
      exact h.clean q hq
  | @alloc q' hf hproc =>
    rw [hproc] at hq ⊢
    rcases eq_or_ne q q' with rfl | hne
    · simp at hq
    · rw [Function.update_of_ne hne] at hq ⊢
      exact h.clean q hq

theorem born_exec {q : ℕ} {k : Bool} (hmem : .forked q k ∈ t.log) : k = false := by
  cases exec_change hfetch ht with
  | same _ hlog | fail _ _ hlog =>
    rw [hlog] at hmem
    exact h.born q k hmem
  | store hstore _ hlog =>
    rw [hlog] at hmem
    generalize s.cpuproc c = me at hstore
    refine h.born q k ((List.mem_append.mp hmem).resolve_right ?_)
    cases hstore <;> simp
  | @alloc q' hf _ hlog =>
    rw [hlog] at hmem
    rcases List.mem_append.mp hmem with hmem | hmem
    · exact h.born q k hmem
    · obtain ⟨rfl,rfl⟩ := Event.forked.inj (List.mem_singleton.mp hmem)
      subst hf
      exact h.clean q (h.core.found c _ rest htop)

end Exec

theorem start (h : Gentle s) (hstart : s.mayStart c f) (hf : f ≠ .killAcq 0 0) :
    Gentle (s.goto c (f::s.stack (s.tid c))) := by
  have hstarts := mayStart_starts hstart
  refine ⟨h.core.start hstarts,h.pids.congr rfl rfl,?_,?_,h.clean,h.born⟩
  · intro j g hg
    change g ∈ Function.update s.stack (s.tid c) _ j at hg
    rcases eq_or_ne j (s.tid c) with rfl | hj
    · rw [Function.update_self] at hg
      rcases List.mem_cons.mp hg with rfl | hg
      · simp only [Sys.mayStart,Bool.and_eq_true] at hstart
        have hstart := hstart.2
        split at hstart <;> simp_all [Frame.sought]
      · exact h.frames _ g hg
    · rw [Function.update_of_ne hj] at hg
      exact h.frames j g hg
  · intro d pid q k hd
    rcases eq_or_ne d c with rfl | hdc
    · rw [Sys.goto_top] at hd
      have hlocks := hstarts.locks none
      rw [(List.cons.inj hd).1] at hlocks
      cases hlocks
    · change Function.update s.stack (s.tid c) _ (s.tid d) = _ at hd
      rw [Function.update_of_ne fun hi => hdc (h.core.tid_inj hi)] at hd
      exact h.target d pid q k hd

theorem step (h : Gentle s) {a : Action} (ha : ∀ c, a ≠ .start c (.killAcq 0 0))
    (ht : Sched.step s a = some t) : Gentle t := by
  rcases step_cases ht with ⟨c,o,f,rest,i,htop,hi,ht⟩ | ⟨c,f,rfl,hstart,rfl⟩
  · refine ⟨h.core.exec htop hi ht,h.pids.exec h.core htop hi ht,?_,
      fun _ _ _ _ hd => h.target_exec htop hi ht hd,fun _ hq => h.clean_exec htop hi ht hq,
      fun _ _ hmem => h.born_exec htop hi ht hmem⟩
    intro j g hg hzero
    rcases exec_mem htop ht hg with hg | ⟨-,hg⟩ | rfl
    · exact h.frames j g hg hzero
    · exact h.frames (s.tid c) f (by simp [htop]) (fetch_sought hi hg hzero)
    · cases hzero
  · exact h.start hstart fun hf => ha c (by rw [hf])

theorem init (cond : ℕ → Bool) : Gentle (init cond) where
  core := Core.init cond
  pids := Pids.init cond
  frames j f hf := by
    cases j <;> simp only [Sched.init] at hf
    · rw [List.mem_singleton.mp hf]
      simp [Frame.sought]
    · split at hf
      · rw [List.mem_singleton.mp hf]
        simp [Frame.sought]
      · simp at hf
  target c pid q rest htop := by simp [Sched.init,Sys.tid] at htop
  clean q _ := by
    simp only [Sched.init]
    split <;> rfl
  born q k hmem := by simp [Sched.init] at hmem

end Gentle

/-- In every reachable state `kill(pid)` hits exactly its target if and only if it is not asked for
pid 0 while a slot is unused; and after every run without a call `kill(0)` the processes that `fork`
made were not killed when they began, which is where `allocproc` takes the slot. -/
theorem kill_exact_iff {cond : ℕ → Bool} {as : List Action}
    (hrun : Machine.run step (init cond) as = some s) :
    (∀ pid, KillExact s.proc pid (kill s.proc pid).1 (kill s.proc pid).2 ↔
      (pid = 0 → ∀ q < NPROC, (s.proc q).state ≠ .UNUSED)) ∧
    ((∀ a ∈ as, ∀ c, a ≠ .start c (.killAcq 0 0)) → ∀ q k, .forked q k ∈ s.log → k = false) := by
  constructor
  · exact (Pids.of_run hrun).exact_iff
  · intro has
    exact (Machine.run_invariant_of (fun _ _ _ h ha ht => Gentle.step h ha ht) (Gentle.init cond)
      has hrun).born

def boot : List Action := List.replicate 5 (.run 0 false)

/-- It calls `kill(0)`, which marks slot 1, and then `fork`. -/
def killZeroFork : List Action :=
  .start 0 (.killAcq 0 0)::List.replicate 8 (.run 0 false)++
    .start 0 (.allocAcq 0)::List.replicate 6 (.run 0 true)

theorem kill_zero_born_killed : ∃ s, Machine.run step (init fun _ => false) boot = some s ∧
    ¬KillExact s.proc 0 (kill s.proc 0).1 (kill s.proc 0).2 ∧
    ∃ t, Machine.run step s killZeroFork = some t ∧ .forked 1 true ∈ t.log := by
  have hend : (Machine.run step (init fun _ => false) boot).any (fun s =>
      (kill s.proc 0).1 = 0 ∧ (∀ q < NPROC, (s.proc q).pid = 0 → (s.proc q).state = .UNUSED) ∧
      (Machine.run step s killZeroFork).any (fun t => .forked 1 true ∈ t.log)) = true := by
    decide +kernel
  obtain ⟨s,hs,hret,hun,hfork⟩ := Machine.exists_run_of_any hend
  refine ⟨s,hs,fun hexact => ?_,Machine.exists_run_of_any hfork⟩
  obtain ⟨q,hq,hst,hpid⟩ := hexact.found.mp hret
  exact hst (hun q hq hpid)

/-- At the same point `kill(1)` hits the first process. -/
theorem kill_exact_iff_boot : ∃ s, Machine.run step (init fun _ => false) boot = some s ∧
    KillExact s.proc 1 (kill s.proc 1).1 (kill s.proc 1).2 := by
  have hend : (Machine.run step (init fun _ => false) boot).isSome = true := by decide +kernel
  obtain ⟨s,hs⟩ := Option.isSome_iff_exists.mp hend
  exact ⟨s,hs,((kill_exact_iff hs).1 1).mpr (by simp)⟩

end Xv6.Sched
