import Xv6.SchedCode

/-! The invariant of the machine of `kernel/proc.c`: which stacks threads can have, who owns which
lock, and how the state of a process tells where its thread is. -/
namespace Xv6.Sched

/-- Interrupts only are above other frames, and what they interrupt holds no lock. -/
structure Shape (s : Sys) : Prop where
  schedKind : ∀ c, ∀ f ∈ s.stack (.sched c), f.kind = .sched ∨ f.kind = .device
  procKind : ∀ p, ∀ f ∈ s.stack (.proc p), f.kind ≠ .sched
  nested : ∀ t, ∀ f ∈ (s.stack t).dropLast, f.kind = .device ∨ f.kind = .timer
  below : ∀ t, ∀ f ∈ (s.stack t).tail, ∀ me, f.locks me = []

def onState : List Frame → ProcState
  | [] => .RUNNING
  | f::_ => f.onState

def backOf : List Frame → Option ℕ
  | .schedBack p::_ => some p
  | _ => none

theorem onState_live (k : List Frame) : onState k ≠ .UNUSED ∧ onState k ≠ .USED := by
  cases k with
  | nil => exact ⟨by simp [onState],by simp [onState]⟩
  | cons f k => cases f <;> exact ⟨by simp [onState,Frame.onState],by simp [onState,Frame.onState]⟩

theorem backOf_eq_none {f : Frame} {k : List Frame} (h : ∀ p, f ≠ .schedBack p) :
    backOf (f::k) = none := by
  unfold backOf
  split
  · rename_i p _ heq
    exact absurd (List.cons.inj heq).1 (h p)
  · rfl

def Suspended (st : ProcState) : Prop := st = .RUNNABLE ∨ st = .SLEEPING ∨ st = .RUNNING

structure Core (s : Sys) : Prop where
  shape : Shape s
  locks : Mutex.Agree s.lock s.locksOf
  /-- No thread is on two CPUs. -/
  tid_inj : Function.Injective s.tid
  current : ∀ c p, s.on c = some p → s.cpuproc c = some p
  waiting : ∀ c p, s.on c = some p → ∃ rest, s.stack (.sched c) = .schedBack p::rest
  idle : ∀ c, s.on c = none → s.cpuproc c = backOf (s.stack (.sched c))
  running : ∀ c p, s.on c = some p → (s.proc p).state = onState (s.stack (.proc p))
  ready : ∀ p, (∀ c, s.on c ≠ some p) → Suspended (s.proc p).state →
    ∃ f rest, s.stack (.proc p) = f::rest ∧ f.resumable
  picked : ∀ p, (∀ c, s.on c ≠ some p) → (s.proc p).state = .RUNNING →
    ∃ c rest, s.on c = none ∧ s.stack (.sched c) = .schedRun p::rest
  used : ∀ p, (s.proc p).state = .USED → s.stack (.proc p) = [.forkret]
  found : ∀ c f rest, s.stack (s.tid c) = f::rest → f.Found s
  forks : ∀ p f q, f ∈ s.stack (.proc p) → f.forking = some q → (s.proc q).state = .USED
  forker : ∀ p p' f f' q, f ∈ s.stack (.proc p) → f' ∈ s.stack (.proc p') →
    f.forking = some q → f'.forking = some q → p = p'

variable {s t : Sys} {c : Cpu} {f : Frame} {rest k : List Frame}

@[simp] theorem Sys.tid_of_none (h : s.on c = none) : s.tid c = .sched c := by
  simp [Sys.tid,h]

@[simp] theorem Sys.tid_of_some {p : ℕ} (h : s.on c = some p) : s.tid c = .proc p := by
  simp [Sys.tid,h]

theorem Sys.tid_eq_proc {p : ℕ} : s.tid c = .proc p ↔ s.on c = some p := by
  cases h : s.on c <;> simp [Sys.tid,h]

theorem Sys.tid_eq_sched {d : Cpu} : s.tid c = .sched d ↔ s.on c = none ∧ c = d := by
  cases h : s.on c <;> simp [Sys.tid,h]

theorem Sys.tid_congr (h : t.on = s.on) : t.tid = s.tid := by
  funext c
  simp [Sys.tid,h]

def headLocks (me : Option ℕ) : List Frame → List Lock
  | [] => []
  | f::_ => f.locks me

theorem Sys.locksOf_eq (s : Sys) (c : Cpu) :
    s.locksOf c = headLocks (s.cpuproc c) (s.stack (s.tid c)) := by
  rw [Sys.locksOf]
  cases s.stack (s.tid c) <;> rfl

theorem locksOf_act (hinj : Function.Injective s.tid) (hon : t.on = s.on)
    (hstack : t.stack = Function.update s.stack (s.tid c) k)
    (hcp : ∀ d, d ≠ c → t.cpuproc d = s.cpuproc d) :
    t.locksOf = Function.update s.locksOf c (headLocks (t.cpuproc c) k) := by
  funext d
  rw [Sys.locksOf_eq,Sys.tid_congr hon,hstack]
  rcases eq_or_ne d c with rfl | hd
  · simp
  · rw [Function.update_of_ne (fun h => hd (hinj h)),Function.update_of_ne hd,hcp d hd,
      Sys.locksOf_eq]

namespace Shape

theorem headLocks_rest (h : Shape s) {i : Tid} (htop : s.stack i = f::rest) (me : Option ℕ) :
    headLocks me rest = [] := by
  cases rest with
  | nil => rfl
  | cons g rest => exact h.below i g (by simp [htop]) me

theorem headLocks_next (h : Shape s) {i : Tid} (htop : s.stack i = f::rest) (me : Option ℕ)
    (n : Option Frame) : headLocks me (n.toList++rest) = nextLocks me n := by
  cases n with
  | none => exact h.headLocks_rest htop me
  | some g => rfl

theorem rest_eq_nil (h : Shape s) {i : Tid} (htop : s.stack i = f::rest) (hf : f.kind = .call) :
    rest = [] := by
  by_contra hne
  have hmem : f ∈ (s.stack i).dropLast := by
    rw [htop,List.dropLast_cons_of_ne_nil hne]
    exact List.mem_cons_self
  rcases h.nested i f hmem with hk | hk <;> simp [hf] at hk

theorem next (h : Shape s) (htop : s.stack (s.tid c) = f::rest) {n : Option Frame}
    (hn : ∀ g, n = some g → g.kind = f.kind)
    (hstack : t.stack = Function.update s.stack (s.tid c) (n.toList++rest)) : Shape t := by
  have hmem : ∀ g ∈ n.toList++rest, g ∈ rest ∨ g.kind = f.kind := by
    intro g hg
    rcases List.mem_append.mp hg with hg | hg
    · exact .inr (hn g (by simpa using hg))
    · exact .inl hg
  have hrest : ∀ g ∈ rest, g ∈ s.stack (s.tid c) := fun g hg => by simp [htop,hg]
  have hf : f ∈ s.stack (s.tid c) := by simp [htop]
  constructor
  case schedKind =>
    intro d g hg
    by_cases hd : Tid.sched d = s.tid c
    · rw [hstack,hd,Function.update_self] at hg
      have hall := h.schedKind d
      rw [hd] at hall
      rcases hmem g hg with hg | hg
      · exact hall g (hrest g hg)
      · exact hg ▸ hall f hf
    · rw [hstack,Function.update_of_ne hd] at hg
      exact h.schedKind d g hg
  case procKind =>
    intro p g hg
    by_cases hp : Tid.proc p = s.tid c
    · rw [hstack,hp,Function.update_self] at hg
      have hall := h.procKind p
      rw [hp] at hall
      rcases hmem g hg with hg | hg
      · exact hall g (hrest g hg)
      · exact hg ▸ hall f hf
    · rw [hstack,Function.update_of_ne hp] at hg
      exact h.procKind p g hg
  case nested =>
    intro i g hg
    by_cases hi : i = s.tid c
    · rw [hstack,hi,Function.update_self] at hg
      have hall := h.nested (s.tid c)
      rw [htop] at hall
      cases hr : rest with
      | nil =>
        subst hr
        cases n <;> simp at hg
      | cons a as =>
        rw [hr,List.dropLast_cons_of_ne_nil (by simp)] at hall
        cases n with
        | none => exact hall g (by simp [hr] at hg ⊢; exact .inr hg)
        | some n =>
          simp only [hr,Option.toList_some,List.singleton_append,
            List.dropLast_cons_of_ne_nil (List.cons_ne_nil a as),List.mem_cons] at hg
          rcases hg with rfl | hg
          · rw [hn g rfl]
            exact hall f (by simp)
          · exact hall g (by simp [hg])
    · rw [hstack,Function.update_of_ne hi] at hg
      exact h.nested i g hg
  case below =>
    intro i g hg
    by_cases hi : i = s.tid c
    · rw [hstack,hi,Function.update_self] at hg
      refine h.below (s.tid c) g ?_
      rw [htop]
      cases n with
      | none => exact List.mem_of_mem_tail hg
      | some n => exact hg
    · rw [hstack,Function.update_of_ne hi] at hg
      exact h.below i g hg

theorem push (h : Shape s) {g : Frame} (hg : g.kind ≠ .sched)
    (hsched : s.on c = none → g.kind = .device)
    (hcall : s.stack (s.tid c) ≠ [] → g.kind = .device ∨ g.kind = .timer)
    (hfree : ∀ f rest, s.stack (s.tid c) = f::rest → ∀ me, f.locks me = [])
    (hstack : t.stack = Function.update s.stack (s.tid c) (g::s.stack (s.tid c))) : Shape t := by
  constructor
  case schedKind =>
    intro d f hf
    by_cases hd : Tid.sched d = s.tid c
    · rw [hstack,hd,Function.update_self] at hf
      obtain ⟨hon,rfl⟩ := Sys.tid_eq_sched.mp hd.symm
      rcases List.mem_cons.mp hf with rfl | hf
      · exact .inr (hsched hon)
      · exact h.schedKind _ f (hd ▸ hf)
    · rw [hstack,Function.update_of_ne hd] at hf
      exact h.schedKind d f hf
  case procKind =>
    intro p f hf
    by_cases hp : Tid.proc p = s.tid c
    · rw [hstack,hp,Function.update_self] at hf
      rcases List.mem_cons.mp hf with rfl | hf
      · exact hg
      · exact h.procKind p f (hp ▸ hf)
    · rw [hstack,Function.update_of_ne hp] at hf
      exact h.procKind p f hf
  case nested =>
    intro i f hf
    by_cases hi : i = s.tid c
    · rw [hstack,hi,Function.update_self] at hf
      cases hr : s.stack (s.tid c) with
      | nil => simp [hr] at hf
      | cons a as =>
        rw [hr,List.dropLast_cons_of_ne_nil (by simp)] at hf
        rcases List.mem_cons.mp hf with rfl | hf
        · exact hcall (by simp [hr])
        · exact h.nested (s.tid c) f (by rwa [hr])
    · rw [hstack,Function.update_of_ne hi] at hf
      exact h.nested i f hf
  case below =>
    intro i f hf
    by_cases hi : i = s.tid c
    · rw [hstack,hi,Function.update_self,List.tail_cons] at hf
      cases hr : s.stack (s.tid c) with
      | nil => simp [hr] at hf
      | cons a as =>
        rw [hr] at hf
        rcases List.mem_cons.mp hf with rfl | hf
        · exact hfree f as hr
        · exact h.below (s.tid c) f (by simpa [hr] using hf)
    · rw [hstack,Function.update_of_ne hi] at hf
      exact h.below i f hf

end Shape

theorem Frame.Found.mono {me : Option ℕ} (h : f.Found s)
    (hstate : ∀ q, Lock.proc q ∈ f.locks me → (t.proc q).state = (s.proc q).state)
    (hon : ∀ c p, Lock.proc p ∈ f.locks me → t.on c = some p → s.on c = some p) : f.Found t := by
  cases f with
  | schedSet p => exact (hstate p (by simp [Frame.locks])).trans h
  | schedRun p =>
    have hp : Lock.proc p ∈ (Frame.schedRun p).locks me := by simp [Frame.locks]
    exact ⟨(hstate p hp).trans h.1,fun c hc => h.2 c (hon c p hp hc)⟩
  | wakeupSet _ _ q | allocFound q | waitFound _ q =>
    exact (hstate q (by simp [Frame.locks])).trans h
  | _ => trivial

theorem Frame.Found.congr (h : f.Found s) (hproc : t.proc = s.proc) (hon : t.on = s.on) :
    f.Found t :=
  h.mono (fun q (_ : Lock.proc q ∈ f.locks none) => by rw [hproc])
    fun c p _ hc => by rwa [hon] at hc

theorem step_cases {a : Action} (ht : step s a = some t) :
    (∃ c o f rest i, s.stack (s.tid c) = f::rest ∧ fetch s (s.cpuproc c) o f = some i ∧
      exec s c rest i = some t) ∨
    ∃ c f, a = .start c f ∧ s.mayStart c f ∧ t = s.goto c (f::s.stack (s.tid c)) := by
  cases a with
  | run c o =>
    cases hs : s.stack (s.tid c) with
    | nil => simp [step,hs] at ht
    | cons f rest =>
      simp only [step,hs] at ht
      obtain ⟨i,hi,ht⟩ := Option.bind_eq_some_iff.mp ht
      exact .inl ⟨c,o,f,rest,i,hs,hi,ht⟩
  | start c f =>
    obtain ⟨hstart,ht⟩ := Option.ite_none_right_eq_some.mp ht
    exact .inr ⟨c,f,rfl,hstart,(Option.some.inj ht).symm⟩

/-- What a step of CPU `c` leaves alone: the other CPUs, and all threads but its own. -/
structure Local (s t : Sys) (c : Cpu) : Prop where
  on : ∀ d ≠ c, t.on d = s.on d
  cpuproc : ∀ d ≠ c, t.cpuproc d = s.cpuproc d
  stack : ∀ i ≠ s.tid c, t.stack i = s.stack i

namespace Local

variable (h : Local s t c)

include h

theorem tid {d : Cpu} (hd : d ≠ c) : t.tid d = s.tid d := by
  simp only [Sys.tid,h.on d hd]

theorem sched {d : Cpu} (hd : d ≠ c) :
    t.stack (.sched d) = s.stack (.sched d) :=
  h.stack _ fun hi => hd (Sys.tid_eq_sched.mp hi.symm).2.symm

theorem thread (hinj : Function.Injective s.tid) {d : Cpu} (hd : d ≠ c) :
    t.stack (s.tid d) = s.stack (s.tid d) :=
  h.stack _ fun hi => hd (hinj hi)

theorem locksOf (hinj : Function.Injective s.tid) :
    t.locksOf = Function.update s.locksOf c (t.locksOf c) := by
  funext d
  rcases eq_or_ne d c with rfl | hd
  · rw [Function.update_self]
  · rw [Function.update_of_ne hd,Sys.locksOf_eq,Sys.locksOf_eq,h.tid hd,h.thread hinj hd,
      h.cpuproc d hd]

theorem tid_inj (hinj : Function.Injective s.tid)
    (hc : ∀ d ≠ c, s.tid d ≠ t.tid c) : Function.Injective t.tid := by
  intro d e hde
  rcases eq_or_ne d c with rfl | hdc
  · by_contra hne
    exact hc e (Ne.symm hne) (by rw [← h.tid (Ne.symm hne),hde])
  · rcases eq_or_ne e c with rfl | hec
    · exact absurd (by rw [← h.tid hdc,hde]) (hc d hdc)
    · rw [h.tid hdc,h.tid hec] at hde
      exact hinj hde

end Local

/-- What the invariant says about CPU `c`. -/
structure CpuInv (s : Sys) (c : Cpu) : Prop where
  current : ∀ p, s.on c = some p → s.cpuproc c = some p
  waiting : ∀ p, s.on c = some p → ∃ rest, s.stack (.sched c) = .schedBack p::rest
  idle : s.on c = none → s.cpuproc c = backOf (s.stack (.sched c))
  running : ∀ p, s.on c = some p → (s.proc p).state = onState (s.stack (.proc p))
  found : ∀ f rest, s.stack (s.tid c) = f::rest → f.Found s

namespace Core

theorem rest_idle (h : Core s) (htop : s.stack (s.tid c) = f::rest) {g : Frame} {k : List Frame}
    (hr : rest = g::k) : g.Idle :=
  Frame.idle_of_locks (h.shape.below (s.tid c) g (by simp [htop,hr]) (some 0))

theorem mem_locksOf (htop : s.stack (s.tid c) = f::rest) {l : Lock} (hl : l ∈ f.locks (s.cpuproc c)) :
    l ∈ s.locksOf c := by
  rwa [Sys.locksOf_eq,htop]

theorem waiting_of_on (h : Core s) (hl : Local s t c) {p : ℕ} (hp : s.on c = some p) :
    ∃ rest, t.stack (.sched c) = .schedBack p::rest := by
  rw [hl.stack _ (by simp [hp])]
  exact h.waiting c p hp

theorem agree_local (h : Core s) (hl : Local s t c) (hlock : t.lock = s.lock)
    (hkeep : ∀ x, x ∈ t.locksOf c ↔ x ∈ s.locksOf c) : Mutex.Agree t.lock t.locksOf := by
  rw [hlock,hl.locksOf h.tid_inj]
  exact h.locks.keep hkeep

theorem forks_of_old (h : Core s) (hproc : t.proc = s.proc)
    (hold : ∀ p f q, f ∈ t.stack (.proc p) → f.forking = some q →
      ∃ g ∈ s.stack (.proc p), g.forking = some q) :
    (∀ p f q, f ∈ t.stack (.proc p) → f.forking = some q → (t.proc q).state = .USED) ∧
    ∀ p p' f f' q, f ∈ t.stack (.proc p) → f' ∈ t.stack (.proc p') →
      f.forking = some q → f'.forking = some q → p = p' := by
  refine ⟨fun p f q hf hq => ?_,fun p p' f f' q hf hf' hq hq' => ?_⟩
  · obtain ⟨g,hg,hgq⟩ := hold p f q hf hq
    rw [hproc]
    exact h.forks p g q hg hgq
  · obtain ⟨a,ha,haq⟩ := hold p f q hf hq
    obtain ⟨b,hb,hbq⟩ := hold p' f' q hf' hq'
    exact h.forker p p' a b q ha hb haq hbq

/-- A step of CPU `c` has to be checked at `c` only: what it stores to and the process that it
switches to are locked there. -/
theorem of_local (h : Core s) (hl : Local s t c) (hcpu : CpuInv t c) (shape : Shape t)
    (locks : Mutex.Agree t.lock t.locksOf) (htid : ∀ d ≠ c, s.tid d ≠ t.tid c)
    (hstate : ∀ d ≠ c, ∀ p, s.on d = some p → (t.proc p).state = (s.proc p).state)
    (hproc : ∀ q, (t.proc q).state = (s.proc q).state ∨ .proc q ∈ s.locksOf c)
    (hnew : ∀ q, t.on c = some q → s.on c = some q ∨ .proc q ∈ s.locksOf c)
    (ready : ∀ p, (∀ d, t.on d ≠ some p) → Suspended (t.proc p).state →
      ∃ f rest, t.stack (.proc p) = f::rest ∧ f.resumable)
    (picked : ∀ p, (∀ d, t.on d ≠ some p) → (t.proc p).state = .RUNNING →
      ∃ d rest, t.on d = none ∧ t.stack (.sched d) = .schedRun p::rest)
    (used : ∀ p, (t.proc p).state = .USED → t.stack (.proc p) = [.forkret])
    (forks : ∀ p f q, f ∈ t.stack (.proc p) → f.forking = some q → (t.proc q).state = .USED)
    (forker : ∀ p p' f f' q, f ∈ t.stack (.proc p) → f' ∈ t.stack (.proc p') →
      f.forking = some q → f'.forking = some q → p = p') : Core t := by
  refine ⟨shape,locks,hl.tid_inj h.tid_inj htid,?current,?waiting,?idle,?running,ready,picked,used,
    ?found,forks,forker⟩
  case current =>
    intro d p hd
    rcases eq_or_ne d c with rfl | hdc
    · exact hcpu.current p hd
    · rw [hl.cpuproc d hdc]
      exact h.current d p (hl.on d hdc ▸ hd)
  case waiting =>
    intro d p hd
    rcases eq_or_ne d c with rfl | hdc
    · exact hcpu.waiting p hd
    · rw [hl.sched hdc]
      exact h.waiting d p (hl.on d hdc ▸ hd)
  case idle =>
    intro d hd
    rcases eq_or_ne d c with rfl | hdc
    · exact hcpu.idle hd
    · rw [hl.cpuproc d hdc,hl.sched hdc]
      exact h.idle d (hl.on d hdc ▸ hd)
  case running =>
    intro d p hd
    rcases eq_or_ne d c with rfl | hdc
    · exact hcpu.running p hd
    · rw [hl.on d hdc] at hd
      rw [hstate d hdc p hd,← Sys.tid_of_some hd,hl.thread h.tid_inj hdc,Sys.tid_of_some hd]
      exact h.running d p hd
  case found =>
    intro d f rest hf
    rcases eq_or_ne d c with rfl | hdc
    · exact hcpu.found f rest hf
    rw [hl.tid hdc,hl.thread h.tid_inj hdc] at hf
    have hmine : ∀ q, Lock.proc q ∈ f.locks (s.cpuproc d) → Lock.proc q ∉ s.locksOf c :=
      fun q hq hc => hdc (h.locks.owner_unique (mem_locksOf hf hq) hc)
    refine (h.found d f rest hf).mono (fun q hq => (hproc q).resolve_right (hmine q hq))
      fun e q hq he => ?_
    rcases eq_or_ne e c with rfl | hec
    · exact (hnew q he).resolve_right (hmine q hq)
    · rwa [hl.on e hec] at he

/-- A step that leaves the process table alone and no CPU to another thread. -/
theorem control (h : Core s) (hproc : t.proc = s.proc) (hon : t.on = s.on)
    (hstack : t.stack = Function.update s.stack (s.tid c) k)
    (hcp : ∀ d, d ≠ c → t.cpuproc d = s.cpuproc d)
    (hcur : s.on c ≠ none → t.cpuproc c = s.cpuproc c)
    (hback : s.on c = none → t.cpuproc c = backOf k)
    (hshape : Shape t) (hlocks : Mutex.Agree t.lock t.locksOf)
    (hstate : onState k = onState (s.stack (s.tid c)))
    (hrun : ∀ p rest, s.stack (s.tid c) ≠ .schedRun p::rest)
    (hfound : ∀ f rest, k = f::rest → f.Found s)
    (hfork : ∀ g ∈ k, ∀ q, g.forking = some q → ∃ g' ∈ s.stack (s.tid c), g'.forking = some q) :
    Core t := by
  have hl : Local s t c := ⟨fun d _ => by rw [hon],hcp,fun i hi => by
    rw [hstack,Function.update_of_ne hi]⟩
  have htid := Sys.tid_congr hon
  have hself : t.stack (s.tid c) = k := by rw [hstack,Function.update_self]
  have hforks := h.forks_of_old hproc fun p g q hg hq => by
    by_cases hp : Tid.proc p = s.tid c
    · rw [hp,hself] at hg
      rw [hp]
      exact hfork g hg q hq
    · exact ⟨g,hl.stack _ hp ▸ hg,hq⟩
  refine h.of_local hl ⟨?current,fun p hp => h.waiting_of_on hl (hon ▸ hp),?idle,?running,?found⟩
    hshape hlocks (fun d hd hdc => hd (h.tid_inj (by rw [hdc,htid])))
    (fun _ _ _ _ => by rw [hproc]) (fun _ => .inl (by rw [hproc])) (fun q hq => .inl (hon ▸ hq))
    ?ready ?picked ?used hforks.1 hforks.2
  case current =>
    intro p hp
    rw [hon] at hp
    rw [hcur (by simp [hp])]
    exact h.current c p hp
  case idle =>
    intro hc
    rw [hon] at hc
    rw [hback hc,← Sys.tid_of_none hc,hself]
  case running =>
    intro p hp
    rw [hon] at hp
    rw [hproc,h.running c p hp,← Sys.tid_of_some hp,hself,hstate]
  case found =>
    intro f rest hf
    rw [htid,hself] at hf
    exact (hfound f rest hf).congr hproc hon
  case ready =>
    intro p hoff hst
    rw [hproc] at hst
    rw [hon] at hoff
    rw [hl.stack _ fun hi => hoff c (Sys.tid_eq_proc.mp hi.symm)]
    exact h.ready p hoff hst
  case picked =>
    intro p hoff hst
    rw [hproc] at hst
    rw [hon] at hoff ⊢
    obtain ⟨d,rest,hd,hd'⟩ := h.picked p hoff hst
    refine ⟨d,rest,hd,?_⟩
    rw [hl.stack _ fun hi => hrun p rest (hi ▸ hd')]
    exact hd'
  case used =>
    intro p hst
    rw [hproc] at hst
    rw [hl.stack _ fun hi => ?_]
    · exact h.used p hst
    · have hrunp := h.running c p (Sys.tid_eq_proc.mp hi.symm)
      rw [hst,h.used p hst] at hrunp
      cases hrunp

/-- A frame of a system call is on the thread of the current process. -/
theorem on_of_kind (h : Core s) (htop : s.stack (s.tid c) = f::rest) (hs : f.kind ≠ .sched)
    (hd : f.kind ≠ .device) : ∃ p, s.on c = some p ∧ s.cpuproc c = some p := by
  cases hon : s.on c with
  | none =>
    rw [Sys.tid_of_none hon] at htop
    rcases h.shape.schedKind c f (by simp [htop]) with hk | hk
    · exact absurd hk hs
    · exact absurd hk hd
  | some p => exact ⟨p,rfl,h.current c p hon⟩

theorem off_of_kind (h : Core s) (htop : s.stack (s.tid c) = f::rest) (hs : f.kind = .sched) :
    s.on c = none := by
  cases hon : s.on c with
  | none => rfl
  | some p =>
    rw [Sys.tid_of_some hon] at htop
    exact absurd hs (h.shape.procKind p f (by simp [htop]))

/-- A process on one CPU whose lock is held on another is `RUNNING`. -/
theorem state_of_foreign_lock (h : Core s) {d : Cpu} {q : ℕ} (hl : .proc q ∈ s.locksOf c)
    (hd : s.on d = some q) (hdc : d ≠ c) : (s.proc q).state = .RUNNING := by
  by_contra hne
  have hrun := h.running d q hd
  cases hst : s.stack (.proc q) with
  | nil => exact hne (by rw [hrun,hst]; rfl)
  | cons g k =>
    rw [hst] at hrun
    have hg : g.onState ≠ .RUNNING := fun hg => hne (hrun.trans hg)
    have hmem : Lock.proc q ∈ s.locksOf d := by
      apply mem_locksOf (by rw [Sys.tid_of_some hd,hst])
      rw [h.current d q hd]
      exact Frame.mem_locks_of_onState hg
    exact hdc (h.locks.owner_unique hmem hl)

theorem off_of_schedSet (h : Core s) {p : ℕ} (htop : s.stack (s.tid c) = .schedSet p::rest)
    (d : Cpu) : s.on d ≠ some p := by
  intro hd
  have hoff := h.off_of_kind htop rfl
  have hdc : d ≠ c := by
    rintro rfl
    rw [hoff] at hd
    cases hd
  have hst := h.state_of_foreign_lock (mem_locksOf htop (by simp [Frame.locks])) hd hdc
  have hfound : (s.proc p).state = .RUNNABLE := h.found c _ _ htop
  rw [hfound] at hst
  cases hst

/-- The routine that stores its own state runs on the thread of that process. -/
theorem on_of_self (h : Core s) (htop : s.stack (s.tid c) = f::rest) {q : ℕ}
    (hme : s.cpuproc c = some q) (hk : f.kind ≠ .sched) : s.on c = some q := by
  cases hon : s.on c with
  | none =>
    have hback := h.idle c hon
    rw [← Sys.tid_of_none hon,htop,hme] at hback
    cases f <;> first | exact absurd rfl hk | cases hback
  | some p => rw [← h.current c p hon,hme]

section Store

variable {q : ℕ} {r : Proc} {n : Frame}

/-- CPU `c` stores `r` to slot `q` and goes on at `n`. -/
structure Stored (s t : Sys) (c : Cpu) (f n : Frame) (rest : List Frame) (q : ℕ) (r : Proc) :
    Prop where
  top : s.stack (s.tid c) = f::rest
  proc : t.proc = Function.update s.proc q r
  on : t.on = s.on
  cpuproc : t.cpuproc = s.cpuproc
  stack : t.stack = Function.update s.stack (s.tid c) (n::rest)
  move : Move s (s.cpuproc c) f q n r.state
  held : r.state = (s.proc q).state ∨ .proc q ∈ f.locks (s.cpuproc c)

namespace Stored

variable (hs : Stored s t c f n rest q r)

include hs

theorem isLocal : Local s t c where
  on _ _ := by rw [hs.on]
  cpuproc _ _ := by rw [hs.cpuproc]
  stack _ hi := by rw [hs.stack,Function.update_of_ne hi]

theorem self : t.stack (s.tid c) = n::rest := by
  rw [hs.stack,Function.update_self]

theorem slot : t.proc q = r := by
  rw [hs.proc,Function.update_self]

theorem state_ne {p : ℕ} (hp : p ≠ q) :
    (t.proc p).state = (s.proc p).state := by
  rw [hs.proc,Function.update_of_ne hp]

end Stored

/-- A state-changing store leaves every process that runs elsewhere as it is. -/
theorem store_elsewhere (h : Core s) (htop : s.stack (s.tid c) = f::rest)
    (hmove : Move s (s.cpuproc c) f q n r.state)
    (hlk : r.state = (s.proc q).state ∨ .proc q ∈ f.locks (s.cpuproc c)) {d : Cpu} (hdc : d ≠ c)
    (hd : s.on d = some q) : r.state = (s.proc q).state := by
  rcases hlk with hsame | hl
  · exact hsame
  have hrun := h.state_of_foreign_lock (mem_locksOf htop hl) hd hdc
  cases hmove with
  | same heq => exact heq
  | self _ hme _ _ _ hk =>
    have hc := h.on_of_self htop hme hk
    exact absurd (h.tid_inj (by rw [Sys.tid_of_some hd,Sys.tid_of_some hc])) hdc
  | pick _ hf =>
    subst hf
    exact absurd hd (h.off_of_schedSet htop d)
  | ready _ hf =>
    subst hf
    obtain ⟨p,hp,-⟩ := h.on_of_kind htop (by simp [Frame.kind]) (by simp [Frame.kind])
    rw [Sys.tid_of_some hp] at htop
    simp [h.forks p (.forkSet q) q (by simp [htop]) rfl] at hrun
  | wake _ hst | take _ hst | reap _ hst => simp [hst] at hrun

theorem store_self (h : Core s) {p : ℕ} (hp : s.on c = some p)
    (htop : s.stack (.proc p) = f::rest) (hmove : Move s (some p) f q n r.state)
    (hproc : t.proc = Function.update s.proc q r) : (t.proc p).state = n.onState := by
  have hrun : (s.proc p).state = f.onState := by rw [h.running c p hp,htop]; rfl
  have hf : f ∈ s.stack (.proc p) := by simp [htop]
  rw [hproc]
  rcases eq_or_ne p q with rfl | hpq
  · rw [Function.update_self]
    cases hmove with
    | same heq hon => rw [heq,hrun,hon]
    | self heq => exact heq
    | pick _ hf' => exact absurd (by simp [hf',Frame.kind]) (h.shape.procKind p f hf)
    | wake _ hst hon | reap _ hst hon => simp [hst,hon] at hrun
    | take _ hst hf' => simp [hst,hf',Frame.onState] at hrun
    | ready _ hf' => simp [h.forks p f p hf (by rw [hf']; rfl),hf',Frame.onState] at hrun
  · rw [Function.update_of_ne hpq,hrun]
    cases hmove with
    | same _ hon => exact hon.symm
    | self _ hme => exact absurd (Option.some.inj hme) hpq
    | pick _ hf' => exact absurd (by simp [hf',Frame.kind]) (h.shape.procKind p f hf)
    | wake _ _ hon hon' | reap _ _ hon hon' => rw [hon,hon']
    | take _ _ hf' hn | ready _ hf' hn => rw [hf',hn]; rfl

/-- A forking frame after a store was there before, or was made by taking an unused slot. -/
theorem store_forking (htop : s.stack (s.tid c) = f::rest)
    (hmove : Move s (s.cpuproc c) f q n r.state)
    (hstack : t.stack = Function.update s.stack (s.tid c) (n::rest)) {p q' : ℕ} {g : Frame}
    (hg : g ∈ t.stack (.proc p)) (hq : g.forking = some q') :
    (∃ g' ∈ s.stack (.proc p), g'.forking = some q') ∨
      s.tid c = .proc p ∧ q' = q ∧ (s.proc q).state = .UNUSED ∧ r.state = .USED := by
  by_cases hp : Tid.proc p = s.tid c
  · rw [hstack,hp,Function.update_self] at hg
    rw [hp,htop]
    rcases List.mem_cons.mp hg with rfl | hg
    · cases hmove with
      | same _ _ hfork => exact .inl ⟨f,by simp,hfork ▸ hq⟩
      | self _ _ _ _ _ _ hfork | wake _ _ _ _ hfork | reap _ _ _ _ hfork => simp [hfork] at hq
      | pick _ _ hn | ready _ _ hn => simp [hn,Frame.forking] at hq
      | take heq hst _ hn =>
        rw [hn] at hq
        exact .inr ⟨rfl,(Option.some.inj hq).symm,hst,heq⟩
    · exact .inl ⟨g,by simp [hg],hq⟩
  · rw [hstack,Function.update_of_ne hp] at hg
    exact .inl ⟨g,hg,hq⟩

/-- A slot that `fork` holds stays `USED`, unless its own `fork` makes it runnable. -/
theorem store_used (h : Core s) (htop : s.stack (s.tid c) = f::rest)
    (hmove : Move s (s.cpuproc c) f q n r.state) (hst : (s.proc q).state = .USED) :
    r.state = .USED ∨ f = .forkSet q ∧ n = .forkDone q := by
  cases hmove with
  | same heq => exact .inl (heq.trans hst)
  | self _ hme _ _ hon hk =>
    have hc := h.on_of_self htop hme hk
    have hrun := h.running c q hc
    rw [← Sys.tid_of_some hc,htop,hst,onState,hon] at hrun
    cases hrun
  | pick _ hf =>
    subst hf
    have hfound : (s.proc q).state = .RUNNABLE := h.found c _ _ htop
    simp [hfound] at hst
  | take heq => exact .inl heq
  | ready _ hf hn => exact .inr ⟨hf,hn⟩
  | wake _ hst' | reap _ hst' => simp [hst'] at hst

theorem store_taken (hmove : Move s (s.cpuproc c) f q n r.state) (hst : r.state = .USED) :
    (s.proc q).state = .USED ∨ (s.proc q).state = .UNUSED := by
  cases hmove with
  | same heq => exact .inl (heq ▸ hst)
  | self _ _ _ hne => exact absurd hst hne
  | take _ hst' => exact .inr hst'
  | pick heq | wake heq | ready heq | reap heq => simp [heq] at hst

theorem store_ready (h : Core s) (htop : s.stack (s.tid c) = f::rest)
    (hmove : Move s (s.cpuproc c) f q n r.state) (hoff : ∀ d, s.on d ≠ some q)
    (hst : Suspended r.state) : ∃ g k, s.stack (.proc q) = g::k ∧ g.resumable := by
  cases hmove with
  | same heq => exact h.ready q hoff (heq ▸ hst)
  | self _ hme _ _ _ hk => exact absurd (h.on_of_self htop hme hk) (hoff c)
  | pick _ hf =>
    subst hf
    exact h.ready q hoff (.inl (h.found c _ _ htop))
  | wake _ hst' => exact h.ready q hoff (.inr (.inl hst'))
  | take heq | reap heq => simp [heq,Suspended] at hst
  | ready _ hf =>
    obtain ⟨p,hp,-⟩ := h.on_of_kind htop (by simp [hf,Frame.kind]) (by simp [hf,Frame.kind])
    rw [Sys.tid_of_some hp] at htop
    exact ⟨_,_,h.used q (h.forks p f q (by simp [htop]) (by rw [hf]; rfl)),rfl⟩

section

variable (h : Core s) (hs : Stored s t c f n rest q r)

include h hs

theorem store_cpu (hfound : n.Found t)
    (hback : ∀ p, n ≠ .schedBack p) (hnb : ∀ p, f ≠ .schedBack p) : CpuInv t c := by
  constructor
  case current =>
    rw [hs.on,hs.cpuproc]
    exact h.current c
  case waiting => exact fun p hp => h.waiting_of_on hs.isLocal (hs.on ▸ hp)
  case idle =>
    intro hc
    rw [hs.on] at hc
    rw [hs.cpuproc,h.idle c hc,← Sys.tid_of_none hc,hs.self,hs.top,backOf_eq_none hback,
      backOf_eq_none hnb]
  case running =>
    intro p hp
    rw [hs.on] at hp
    have htop := hs.top
    have hself := hs.self
    have hmove := hs.move
    rw [Sys.tid_of_some hp] at htop hself
    rw [h.current c p hp] at hmove
    rw [h.store_self hp htop hmove hs.proc,hself]
    rfl
  case found =>
    intro g k hg
    rw [Sys.tid_congr hs.on,hs.self] at hg
    exact (List.cons.inj hg).1 ▸ hfound

theorem store_picked (hrun : ∀ p, f ≠ .schedRun p)
    (p : ℕ) (hoff : ∀ d, t.on d ≠ some p) (hst : (t.proc p).state = .RUNNING) :
    ∃ d k, t.on d = none ∧ t.stack (.sched d) = .schedRun p::k := by
  rw [hs.on] at hoff ⊢
  have hkeep : (s.proc p).state = .RUNNING →
      ∃ d k, s.on d = none ∧ t.stack (.sched d) = .schedRun p::k := by
    intro hst'
    obtain ⟨d,k,hd,hd'⟩ := h.picked p hoff hst'
    refine ⟨d,k,hd,?_⟩
    rw [hs.isLocal.stack _ fun hi => ?_,hd']
    rw [hi,hs.top] at hd'
    exact hrun p (List.cons.inj hd').1
  rcases eq_or_ne p q with rfl | hpq
  · rw [hs.slot] at hst
    cases hs.move with
    | same heq => exact hkeep (heq ▸ hst)
    | self _ _ hne => exact absurd hst hne
    | pick _ hf hn =>
      have hc := h.off_of_kind hs.top (by rw [hf]; rfl)
      exact ⟨c,rest,hc,by rw [← Sys.tid_of_none hc,hs.self,hn]⟩
    | wake heq | take heq | ready heq | reap heq => simp [heq] at hst
  · exact hkeep (hs.state_ne hpq ▸ hst)

theorem store_forkret
    (htake : (s.proc q).state = .UNUSED → r.state = .USED → s.stack (.proc q) = [.forkret])
    (p : ℕ) (hst : (t.proc p).state = .USED) : t.stack (.proc p) = [.forkret] := by
  have hold : (s.proc p).state = .USED ∨ (s.proc p).state = .UNUSED ∧ p = q := by
    rcases eq_or_ne p q with rfl | hpq
    · exact (store_taken hs.move (hs.slot ▸ hst)).imp id fun hst' => ⟨hst',rfl⟩
    · exact .inl (hs.state_ne hpq ▸ hst)
  have hoff : s.on c ≠ some p := by
    intro hc
    have hlive := onState_live (s.stack (.proc p))
    rw [← h.running c p hc] at hlive
    exact hold.elim hlive.2 fun hun => hlive.1 hun.1
  rw [hs.isLocal.stack _ fun hi => hoff (Sys.tid_eq_proc.mp hi.symm)]
  rcases hold with hold | ⟨hold,rfl⟩
  · exact h.used p hold
  · exact htake hold (hs.slot ▸ hst)

theorem store_forks (p : ℕ) (g : Frame) (q' : ℕ)
    (hg : g ∈ t.stack (.proc p)) (hq' : g.forking = some q') : (t.proc q').state = .USED := by
  rcases store_forking hs.top hs.move hs.stack hg hq' with ⟨g',hg',hgq⟩ | ⟨-,rfl,-,hst⟩
  · have hold := h.forks p g' q' hg' hgq
    rcases eq_or_ne q' q with rfl | hne
    · rw [hs.slot]
      refine (h.store_used hs.top hs.move hold).resolve_right ?_
      -- the `fork` that makes its slot runnable has no frame left for it
      rintro ⟨hf,hn⟩
      have htop := hs.top
      have hself := hs.self
      obtain ⟨p',hp',-⟩ := h.on_of_kind htop (by simp [hf,Frame.kind]) (by simp [hf,Frame.kind])
      have hnil := h.shape.rest_eq_nil htop (by simp [hf,Frame.kind])
      rw [Sys.tid_of_some hp'] at htop hself
      obtain rfl := h.forker p p' g' f q' hg' (by simp [htop]) hgq (by rw [hf]; rfl)
      rw [hself,hnil,List.mem_singleton] at hg
      simp [hg,hn,Frame.forking] at hq'
    · rw [hs.state_ne hne]
      exact hold
  · rw [hs.slot]
    exact hst

theorem store_forker (p p' : ℕ) (g g' : Frame)
    (q' : ℕ) (hg : g ∈ t.stack (.proc p)) (hg' : g' ∈ t.stack (.proc p'))
    (hgq : g.forking = some q') (hgq' : g'.forking = some q') : p = p' := by
  have hold : ∀ p a, a ∈ s.stack (.proc p) → a.forking = some q' → (s.proc q').state ≠ .UNUSED := by
    intro p a ha haq hun
    rw [h.forks p a q' ha haq] at hun
    cases hun
  rcases store_forking hs.top hs.move hs.stack hg hgq with ⟨a,ha,haq⟩ | ⟨hp,rfl,hun,-⟩ <;>
    rcases store_forking hs.top hs.move hs.stack hg' hgq' with ⟨b,hb,hbq⟩ | ⟨hp',heq,hun',-⟩
  · exact h.forker p p' a b q' ha hb haq hbq
  · exact absurd (heq ▸ hun') (hold p a ha haq)
  · exact absurd hun (hold p' b hb hbq)
  · exact Tid.proc.inj (hp.symm.trans hp')

theorem store (hlock : t.lock = s.lock)
    (hkind : n.kind = f.kind)
    (hkeep : ∀ x, x ∈ n.locks (s.cpuproc c) ↔ x ∈ f.locks (s.cpuproc c))
    (htake : (s.proc q).state = .UNUSED → r.state = .USED → s.stack (.proc q) = [.forkret])
    (hfound : n.Found t) (hback : ∀ p, n ≠ .schedBack p) (hnb : ∀ p, f ≠ .schedBack p)
    (hrun : ∀ p, f ≠ .schedRun p) : Core t := by
  have hl := hs.isLocal
  have htid := Sys.tid_congr hs.on
  refine h.of_local hl (h.store_cpu hs hfound hback hnb) ?shape ?locks
    (fun d hd hdc => hd (h.tid_inj (by rw [hdc,htid]))) ?state ?proc
    (fun q' hq' => .inl (hs.on ▸ hq')) ?ready (h.store_picked hs hrun) (h.store_forkret hs htake)
    (h.store_forks hs) (h.store_forker hs)
  case shape =>
    refine h.shape.next hs.top (n := some n) ?_ hs.stack
    rintro g ⟨⟩
    exact hkind
  case locks =>
    refine h.agree_local hl hlock fun x => ?_
    rw [Sys.locksOf_eq,Sys.locksOf_eq,htid,hs.self,hs.top,hs.cpuproc]
    exact hkeep x
  case state =>
    intro d hdc p hd
    rcases eq_or_ne p q with rfl | hpq
    · rw [hs.slot,h.store_elsewhere hs.top hs.move hs.held hdc hd]
    · exact hs.state_ne hpq
  case proc =>
    intro p
    rcases eq_or_ne p q with rfl | hpq
    · rw [hs.slot]
      exact hs.held.imp id (mem_locksOf hs.top)
    · exact .inl (hs.state_ne hpq)
  case ready =>
    intro p hoff hst
    rw [hs.on] at hoff
    rw [hl.stack _ fun hi => hoff c (Sys.tid_eq_proc.mp hi.symm)]
    rcases eq_or_ne p q with rfl | hpq
    · exact h.store_ready hs.top hs.move hoff (hs.slot ▸ hst)
    · rw [hs.state_ne hpq] at hst
      exact h.ready p hoff hst

end

end Store

theorem newStack (h : Core s) {q : ℕ} (hst : (s.proc q).state = .UNUSED) :
    Core {s with stack := Function.update s.stack (.proc q) [.forkret]} := by
  have hoff : ∀ d, s.tid d ≠ .proc q := by
    intro d hd
    have hlive := onState_live (s.stack (.proc q))
    rw [← h.running d q (Sys.tid_eq_proc.mp hd)] at hlive
    exact hlive.1 hst
  have hmem : ∀ p f, f ∈ Function.update s.stack (.proc q) [.forkret] (.proc p) →
      f = .forkret ∨ f ∈ s.stack (.proc p) := by
    intro p f hf
    rcases eq_or_ne p q with rfl | hp
    · rw [Function.update_self] at hf
      exact .inl (by simpa using hf)
    · rw [Function.update_of_ne (by simpa using hp)] at hf
      exact .inr hf
  constructor
  case shape =>
    constructor
    case schedKind => exact h.shape.schedKind
    case procKind =>
      intro p f hf
      rcases hmem p f hf with rfl | hf
      · simp [Frame.kind]
      · exact h.shape.procKind p f hf
    case nested =>
      intro i f hf
      rcases eq_or_ne i (.proc q) with rfl | hi
      · simp at hf
      · exact h.shape.nested i f (by simpa [hi] using hf)
    case below =>
      intro i f hf
      rcases eq_or_ne i (.proc q) with rfl | hi
      · simp at hf
      · exact h.shape.below i f (by simpa [hi] using hf)
  case locks =>
    have hlocks : Sys.locksOf {s with stack := Function.update s.stack (.proc q) [.forkret]} =
        s.locksOf := by
      funext d
      rw [Sys.locksOf_eq,Sys.locksOf_eq]
      change headLocks _ (Function.update s.stack (.proc q) [.forkret] (s.tid d)) = _
      rw [Function.update_of_ne (hoff d)]
    rw [hlocks]
    exact h.locks
  case tid_inj => exact h.tid_inj
  case current => exact h.current
  case waiting => exact h.waiting
  case idle => exact h.idle
  case running =>
    intro d p hd
    have hp : p ≠ q := by
      rintro rfl
      exact hoff d (Sys.tid_of_some hd)
    change _ = onState (Function.update s.stack (.proc q) [.forkret] (.proc p))
    rw [Function.update_of_ne (by simpa using hp)]
    exact h.running d p hd
  case ready =>
    intro p hp hsus
    change ∃ f rest, Function.update s.stack (.proc q) [.forkret] (.proc p) = _ ∧ _
    rcases eq_or_ne p q with rfl | hpq
    · exact ⟨.forkret,[],Function.update_self .., rfl⟩
    · rw [Function.update_of_ne (by simpa using hpq)]
      exact h.ready p hp hsus
  case picked => exact h.picked
  case used =>
    intro p hp
    change Function.update s.stack (.proc q) [.forkret] (.proc p) = _
    rcases eq_or_ne p q with rfl | hpq
    · exact Function.update_self ..
    · rw [Function.update_of_ne (by simpa using hpq)]
      exact h.used p hp
  case found =>
    intro d f rest hf
    refine (h.found d f rest ?_).congr rfl rfl
    change Function.update s.stack (.proc q) [.forkret] (s.tid d) = _ at hf
    rwa [Function.update_of_ne (hoff d)] at hf
  case forks =>
    intro p f q' hf hq'
    rcases hmem p f hf with rfl | hf
    · cases hq'
    · exact h.forks p f q' hf hq'
  case forker =>
    intro p p' f f' q' hf hf' hq hq'
    rcases hmem p f hf with rfl | hf
    · cases hq
    rcases hmem p' f' hf' with rfl | hf'
    · cases hq'
    exact h.forker p p' f f' q' hf hf' hq hq'

/-- The scheduler on CPU `c` switches to the process it has chosen. -/
theorem run (h : Core s) {p : ℕ} (htop : s.stack (s.tid c) = .schedRun p::rest)
    (hproc : t.proc = s.proc) (hlock : t.lock = s.lock)
    (hstack : t.stack = Function.update s.stack (s.tid c) (.schedBack p::rest))
    (hcp : t.cpuproc = Function.update s.cpuproc c (some p))
    (hon : t.on = Function.update s.on c (some p)) : Core t := by
  obtain ⟨hst,hoff⟩ : (s.proc p).state = .RUNNING ∧ ∀ d, s.on d ≠ some p := h.found c _ _ htop
  have hc := h.off_of_kind htop rfl
  obtain ⟨g,k,hg,hres⟩ := h.ready p hoff (.inr (.inr hst))
  have honc : t.on c = some p := by rw [hon,Function.update_self]
  have hl : Local s t c := ⟨fun d hd => by rw [hon,Function.update_of_ne hd],
    fun d hd => by rw [hcp,Function.update_of_ne hd],
    fun i hi => by rw [hstack,Function.update_of_ne hi]⟩
  have hpstack : ∀ q, t.stack (.proc q) = s.stack (.proc q) := fun q => hl.stack _ (by simp [hc])
  have htop' : t.stack (t.tid c) = g::k := by rw [Sys.tid_of_some honc,hpstack,hg]
  have hoff' : ∀ q, (∀ d, t.on d ≠ some q) → ∀ d, s.on d ≠ some q := by
    intro q hq d hd
    rcases eq_or_ne d c with rfl | hdc
    · rw [hc] at hd
      cases hd
    · exact hq d (by rw [hl.on d hdc,hd])
  have hforks := h.forks_of_old hproc fun q f _ hf hq => ⟨f,hpstack q ▸ hf,hq⟩
  refine h.of_local hl ⟨?current,?waiting,by simp [honc],?running,?found⟩ ?shape ?locks ?tid
    (fun _ _ _ _ => by rw [hproc]) (fun _ => .inl (by rw [hproc])) ?new ?ready ?picked ?used
    hforks.1 hforks.2
  case current =>
    intro q hq
    rw [hcp,Function.update_self,← hq,honc]
  case waiting =>
    intro q hq
    obtain rfl := Option.some.inj (honc.symm.trans hq)
    exact ⟨rest,by rw [hstack,← Sys.tid_of_none hc,Function.update_self]⟩
  case running =>
    intro q hq
    obtain rfl := Option.some.inj (honc.symm.trans hq)
    rw [hproc,hpstack,hst,hg]
    exact (Frame.resumable_found (s := s) hres).1.symm
  case found =>
    intro f k' hf
    cases htop'.symm.trans hf
    exact (Frame.resumable_found hres).2
  case shape =>
    refine h.shape.next htop (n := some (.schedBack p)) ?_ hstack
    rintro _ ⟨⟩
    rfl
  case locks =>
    refine h.agree_local hl hlock fun x => ?_
    rw [Sys.locksOf_eq,Sys.locksOf_eq,htop',htop,hcp,Function.update_self]
    change x ∈ g.locks (some p) ↔ _
    rw [Frame.resumable_locks hres]
    rfl
  case tid =>
    intro d _ hd
    rw [Sys.tid_of_some honc] at hd
    exact hoff d (Sys.tid_eq_proc.mp hd)
  case new =>
    intro q hq
    obtain rfl := Option.some.inj (honc.symm.trans hq)
    exact .inr (mem_locksOf htop (by simp [Frame.locks]))
  case ready =>
    intro q hq hsus
    rw [hproc] at hsus
    rw [hpstack]
    exact h.ready q (hoff' q hq) hsus
  case picked =>
    intro q hq hst'
    rw [hproc] at hst'
    obtain ⟨d,k,hd,hd'⟩ := h.picked q (hoff' q hq) hst'
    have hdc : d ≠ c := by
      rintro rfl
      rw [Sys.tid_of_none hd,hd'] at htop
      cases htop
      exact hq d honc
    exact ⟨d,k,by rw [hl.on d hdc,hd],by rw [hl.sched hdc,hd']⟩
  case used =>
    intro q hq
    rw [hproc] at hq
    rw [hpstack]
    exact h.used q hq

theorem swtch (h : Core s) {p : ℕ} {n : Frame} (hc : s.on c = some p)
    (htop : s.stack (s.tid c) = f::rest) (hkind : n.kind = f.kind) (hnone : n.forking = none)
    (hmine : s.locksOf c = [.proc p]) (hstate : (s.proc p).state ≠ .RUNNING)
    (hres : Suspended f.onState → n.resumable) (hproc : t.proc = s.proc) (hlock : t.lock = s.lock)
    (hstack : t.stack = Function.update s.stack (s.tid c) (n::rest))
    (hcp : t.cpuproc = s.cpuproc) (hon : t.on = Function.update s.on c none) : Core t := by
  have htop' : s.stack (.proc p) = f::rest := by rwa [Sys.tid_of_some hc] at htop
  have honc : t.on c = none := by rw [hon,Function.update_self]
  have hl : Local s t c := ⟨fun d hd => by rw [hon,Function.update_of_ne hd],
    fun d _ => by rw [hcp],fun i hi => by rw [hstack,Function.update_of_ne hi]⟩
  have hself : t.stack (.proc p) = n::rest := by
    rw [hstack,Sys.tid_of_some hc,Function.update_self]
  have hother : ∀ q, q ≠ p → t.stack (.proc q) = s.stack (.proc q) := fun q hq =>
    hl.stack _ (by simpa [hc] using hq)
  have hsched : ∀ d, t.stack (.sched d) = s.stack (.sched d) := fun d => hl.stack _ (by simp [hc])
  have hoff' : ∀ q, q ≠ p → (∀ d, t.on d ≠ some q) → ∀ d, s.on d ≠ some q := by
    intro q hqp hq d hd
    rcases eq_or_ne d c with rfl | hdc
    · exact hqp (Option.some.inj (hd.symm.trans hc))
    · exact hq d (by rw [hl.on d hdc,hd])
  have hforks := h.forks_of_old hproc fun q g q' hg hq' => by
    rcases eq_or_ne q p with rfl | hqp
    · rw [hself] at hg
      rcases List.mem_cons.mp hg with rfl | hg
      · rw [hnone] at hq'
        cases hq'
      · exact ⟨g,by simp [htop',hg],hq'⟩
    · exact ⟨g,hother q hqp ▸ hg,hq'⟩
  obtain ⟨k,hback⟩ := h.waiting c p hc
  have htop'' : t.stack (t.tid c) = .schedBack p::k := by
    rw [Sys.tid_of_none honc,hsched,hback]
  refine h.of_local hl ⟨by simp [honc],by simp [honc],?idle,by simp [honc],?found⟩ ?shape ?locks
    ?tid (fun _ _ _ _ => by rw [hproc]) (fun _ => .inl (by rw [hproc])) (by simp [honc]) ?ready
    ?picked ?used hforks.1 hforks.2
  case idle =>
    intro _
    rw [hcp,hsched,h.current c p hc,hback]
    rfl
  case found =>
    intro g k' hg
    cases htop''.symm.trans hg
    trivial
  case shape =>
    refine h.shape.next htop (n := some n) ?_ hstack
    rintro _ ⟨⟩
    exact hkind
  case locks =>
    refine h.agree_local hl hlock fun x => ?_
    rw [hmine,Sys.locksOf_eq,htop'']
    rfl
  case tid =>
    intro d hdc hd
    rw [Sys.tid_of_none honc] at hd
    exact hdc (Sys.tid_eq_sched.mp hd).2
  case ready =>
    intro q hq hsus
    rw [hproc] at hsus
    rcases eq_or_ne q p with rfl | hqp
    · rw [h.running c q hc,htop'] at hsus
      exact ⟨n,rest,hself,hres hsus⟩
    · rw [hother q hqp]
      exact h.ready q (hoff' q hqp hq) hsus
  case picked =>
    intro q hq hst
    rw [hproc] at hst
    have hqp : q ≠ p := by
      rintro rfl
      exact hstate hst
    obtain ⟨d,k,hd,hd'⟩ := h.picked q (hoff' q hqp hq) hst
    have hdc : d ≠ c := by
      rintro rfl
      cases hd.symm.trans hc
    exact ⟨d,k,by rw [hl.on d hdc,hd],by rw [hsched,hd']⟩
  case used =>
    intro q hq
    rw [hproc] at hq
    have hqp : q ≠ p := by
      rintro rfl
      exact (onState_live (s.stack (.proc q))).2 (h.running c q hc ▸ hq)
    rw [hother q hqp]
    exact h.used q hq

/-- Where nothing is locked the thread is not in the middle of anything. -/
theorem free (h : Core s) (hfree : s.locksOf c = []) (htop : s.stack (s.tid c) = f::rest) :
    (∀ me, f.locks me = []) ∧ f.Idle := by
  rw [Sys.locksOf_eq,htop] at hfree
  have hnil : ∀ me, f.locks me = [] := by
    cases hc : s.on c with
    | none =>
      rw [Sys.tid_of_none hc] at htop
      intro me
      rw [Frame.locks_of_kind (h.shape.schedKind c f (by simp [htop])) me (s.cpuproc c)]
      exact hfree
    | some p =>
      rw [h.current c p hc] at hfree
      exact Frame.locks_eq_nil hfree
  exact ⟨hnil,Frame.idle_of_locks (hnil (some 0))⟩

theorem start (h : Core s) (hstart : Starts s c f) : Core (s.goto c (f::s.stack (s.tid c))) := by
  have hlocks : (s.goto c (f::s.stack (s.tid c))).locksOf = Function.update s.locksOf c [] := by
    rw [locksOf_act (t := s.goto c (f::s.stack (s.tid c))) h.tid_inj rfl rfl fun _ _ => rfl]
    exact congrArg _ (hstart.locks _)
  refine h.control (k := f::s.stack (s.tid c)) rfl rfl rfl (fun _ _ => rfl) (fun _ => rfl)
    ?_ ?_ ?_ ?_ ?_ ?_ ?_
  · intro hc
    rw [backOf_eq_none hstart.back]
    change s.cpuproc c = none
    rw [h.idle c hc]
    cases hs : s.stack (.sched c) with
    | nil => rfl
    | cons g k => exact backOf_eq_none (h.free hstart.free (by rw [Sys.tid_of_none hc,hs])).2.back
  · refine h.shape.push hstart.kind ?_ hstart.call (fun g k hg => (h.free hstart.free hg).1) rfl
    intro hc
    by_contra hdev
    apply hstart.current hdev
    rw [h.idle c hc]
    cases hs : s.stack (.sched c) with
    | nil => rfl
    | cons g k => exact backOf_eq_none (h.free hstart.free (by rw [Sys.tid_of_none hc,hs])).2.back
  · rw [hlocks]
    exact h.locks.keep fun x => by rw [hstart.free]
  · cases hs : s.stack (s.tid c) with
    | nil => exact hstart.onState
    | cons g k => exact hstart.onState.trans (h.free hstart.free hs).2.onState.symm
  · intro p k hs
    exact (h.free hstart.free hs).2.run p rfl
  · rintro g k ⟨⟩
    exact hstart.found
  · intro g hg q hq
    rcases List.mem_cons.mp hg with rfl | hg
    · rw [hstart.forking] at hq
      cases hq
    · exact ⟨g,hg,hq⟩

theorem quiet (h : Core s) {me : Option ℕ} {o : Bool} {i : Instr}
    (htop : s.stack (s.tid c) = f::rest) (hfetch : fetch s me o f = some i) (hi : i.quiet)
    (hproc : t.proc = s.proc) (hon : t.on = s.on) (hcp : t.cpuproc = s.cpuproc)
    (hstack : t.stack = Function.update s.stack (s.tid c) (i.next.toList++rest))
    (hagree : Mutex.Agree t.lock
      (Function.update s.locksOf c (nextLocks (s.cpuproc c) i.next))) : Core t := by
  have hq := fetch_quiet hfetch hi
  have hlocks : Mutex.Agree t.lock t.locksOf := by
    rwa [locksOf_act h.tid_inj hon hstack fun d _ => by rw [hcp],hcp,
      h.shape.headLocks_next htop]
  have hnext : ∀ g, i.next = some g → g.kind = f.kind := fun g hg => fetch_kind hfetch hg
  have hloud : (∀ p, f ≠ .schedBack p) ∧ ∀ p, f ≠ .schedRun p := by
    constructor
    · rintro p rfl
      cases hfetch
      exact hi
    · rintro p rfl
      cases hfetch
      exact hi
  have hhead : ∀ g k, i.next.toList++rest = g::k → i.next = some g ∨ i.next = none ∧ g.Idle := by
    intro g k hg
    cases hn : i.next with
    | none =>
      rw [hn] at hg
      exact .inr ⟨rfl,h.rest_idle htop hg⟩
    | some n =>
      rw [hn] at hg
      exact .inl (by rw [(List.cons.inj hg).1])
  refine h.control hproc hon hstack (fun d _ => by rw [hcp]) (fun _ => by rw [hcp]) ?_
    (h.shape.next htop hnext hstack) hlocks ?_ ?_ ?_ ?_
  · intro hc
    rw [hcp,h.idle c hc,← Sys.tid_of_none hc,htop,backOf_eq_none hloud.1]
    cases hk : i.next.toList++rest with
    | nil => rfl
    | cons g k =>
      rcases hhead g k hk with hg | ⟨-,hg⟩
      · exact (backOf_eq_none fun p hp => hq.back p (by rw [hg,hp])).symm
      · exact (backOf_eq_none hg.back).symm
  · rw [htop]
    change _ = f.onState
    rw [← hq.onState]
    cases hk : i.next.toList++rest with
    | nil =>
      cases hn : i.next with
      | none => rfl
      | some n => simp [hn] at hk
    | cons g k =>
      rcases hhead g k hk with hg | ⟨hn,hg⟩
      · rw [hg]
        rfl
      · rw [hn]
        exact hg.onState
  · intro p k hk
    rw [htop] at hk
    exact hloud.2 p (List.cons.inj hk).1
  · intro g k hk
    rcases hhead g k hk with hg | ⟨-,hg⟩
    · exact hq.found g hg
    · exact hg.found s
  · intro g hg q hgq
    rcases List.mem_append.mp hg with hg | hg
    · refine ⟨f,by simp [htop],?_⟩
      have hn : i.next = some g := by simpa using hg
      rw [← hq.forking,hn]
      exact hgq
    · exact ⟨g,by simp [htop,hg],hgq⟩

theorem clear (h : Core s) {p : ℕ} (htop : s.stack (s.tid c) = .schedBack p::rest)
    (hproc : t.proc = s.proc) (hlock : t.lock = s.lock) (hon : t.on = s.on)
    (hcp : t.cpuproc = Function.update s.cpuproc c none)
    (hstack : t.stack = Function.update s.stack (s.tid c) (.schedRel p::rest)) : Core t := by
  have hc := h.off_of_kind htop rfl
  have hcpd : ∀ d, d ≠ c → t.cpuproc d = s.cpuproc d :=
    fun d hd => by rw [hcp,Function.update_of_ne hd]
  refine h.control hproc hon hstack hcpd (fun hne => absurd hc hne) ?_ ?_ ?_ ?_ ?_ ?_ ?_
  · intro _
    rw [hcp,Function.update_self]
    rfl
  · refine h.shape.next htop (n := some (.schedRel p)) ?_ hstack
    rintro _ ⟨⟩
    rfl
  · rw [hlock,locksOf_act h.tid_inj hon hstack hcpd]
    refine h.locks.keep fun x => ?_
    rw [Sys.locksOf_eq,htop]
    rfl
  · rw [htop]
    rfl
  · intro p' k hk
    rw [htop] at hk
    cases hk
  · rintro _ _ ⟨⟩
    trivial
  · intro g hg q hq
    rcases List.mem_cons.mp hg with rfl | hg
    · cases hq
    · exact ⟨g,by simp [htop,hg],hq⟩

theorem exec_swtch (h : Core s) {n : Frame} (htop : s.stack (s.tid c) = f::rest)
    (hkind : n.kind = f.kind) (hnone : n.forking = none)
    (hres : Suspended f.onState → n.resumable)
    (ht : Sched.exec s c rest (.swtch n) = some t) : Core t := by
  simp only [Sched.exec] at ht
  split at ht
  · cases ht
  · rename_i p hp
    obtain ⟨⟨hmine,hstate⟩,ht⟩ := Option.ite_none_right_eq_some.mp ht
    obtain rfl := Option.some.inj ht
    exact h.swtch hp htop hkind hnone hmine hstate hres rfl rfl rfl rfl rfl

theorem exec (h : Core s) {o : Bool} {i : Instr} (htop : s.stack (s.tid c) = f::rest)
    (hfetch : fetch s (s.cpuproc c) o f = some i) (ht : Sched.exec s c rest i = some t) :
    Core t := by
  have hkeeps := fetch_keeps hfetch
  have hheld : s.locksOf c = f.locks (s.cpuproc c) := by rw [Sys.locksOf_eq,htop]; rfl
  rcases fetch_cases hfetch with hi | hloud
  · cases i with
    | acquire l n =>
      obtain ⟨hfree,ht⟩ := Option.ite_none_right_eq_some.mp ht
      obtain rfl := Option.some.inj ht
      refine h.quiet htop hfetch hi rfl rfl rfl rfl ?_
      exact h.locks.acquire hfree fun x => by rw [hheld]; exact hkeeps x
    | release l n =>
      obtain ⟨hl,ht⟩ := Option.ite_none_right_eq_some.mp ht
      obtain rfl := Option.some.inj ht
      refine h.quiet htop hfetch hi rfl rfl rfl rfl ?_
      exact h.locks.release hl fun x => by rw [hheld]; exact hkeeps x
    | goto | assign =>
      obtain rfl := Option.some.inj ht
      refine h.quiet htop hfetch hi rfl rfl rfl rfl ?_
      exact h.locks.keep fun x => by rw [hheld]; exact hkeeps x
    | _ => exact hi.elim
  · cases hloud with
    | store hstore =>
      obtain rfl := Option.some.inj ht
      have hfound := h.found c f rest htop
      refine h.store ⟨htop,rfl,rfl,rfl,rfl,hstore.move hfound,hstore.lock⟩ rfl
        (fetch_kind hfetch rfl) hkeeps ?_ ?_ hstore.back (fun p => (hstore.run p).2)
        fun p => (hstore.run p).1
      · intro hun hused
        rw [hstore.used hused] at hun
        cases hun
      · rcases hstore.found (({s with proc := _,log := _} : Sys).goto c _) with hf | ⟨rfl,rfl,hg⟩
        · exact hf
        · exact ⟨by simp [Sys.goto,hg],h.off_of_schedSet htop⟩
    | @alloc q =>
      obtain rfl := Option.some.inj ht
      have hst : (s.proc q).state = .UNUSED := h.found c _ _ htop
      have hoff : s.tid c ≠ .proc q := by
        intro hc
        have hlive := onState_live (s.stack (.proc q))
        rw [← h.running c q (Sys.tid_eq_proc.mp hc)] at hlive
        exact hlive.1 hst
      cases o with
      | false =>
        refine h.store ⟨htop,rfl,rfl,rfl,rfl,.same hst.symm rfl rfl,.inl hst.symm⟩ rfl rfl
          (fun x => Iff.rfl) ?_ trivial (by simp) (by simp) (by simp)
        exact fun _ hused => absurd hused (by simp [freeproc])
      | true =>
        refine (h.newStack hst).store (c := c) (f := .allocFound q) (n := .forkRel q)
          ⟨(Function.update_of_ne hoff _ _).trans htop,rfl,rfl,rfl,rfl,.take rfl hst rfl rfl,
            .inr (by simp [Frame.locks])⟩ rfl rfl (fun x => Iff.rfl) ?_ trivial (by simp) (by simp)
          (by simp)
        exact fun _ _ => Function.update_self ..
    | run =>
      obtain rfl := Option.some.inj ht
      exact h.run htop rfl rfl rfl rfl rfl
    | clear =>
      obtain rfl := Option.some.inj ht
      exact h.clear htop rfl rfl rfl rfl rfl
    | yield | sleep => exact h.exec_swtch htop (fetch_kind hfetch rfl) rfl (fun _ => rfl) ht
    | exit =>
      refine h.exec_swtch htop (fetch_kind hfetch rfl) rfl (fun hsus => ?_) ht
      simp [Suspended,Frame.onState] at hsus

theorem step (h : Core s) {a : Action} (ht : Sched.step s a = some t) : Core t := by
  rcases step_cases ht with ⟨c,o,f,rest,i,htop,hi,ht⟩ | ⟨c,f,-,hstart,rfl⟩
  · exact h.exec htop hi ht
  · exact h.start (mayStart_starts hstart)

theorem init (cond : ℕ → Bool) : Core (init cond) where
  shape := by
    constructor
    case schedKind =>
      intro c f hf
      simp only [Sched.init,List.mem_singleton] at hf
      subst hf
      exact .inl rfl
    case procKind =>
      intro p f hf
      simp only [Sched.init] at hf
      split at hf <;> simp_all [Frame.kind]
    case nested | below =>
      intro i f hf
      cases i <;> simp only [Sched.init] at hf
      · simp at hf
      · split at hf <;> simp at hf
  locks l c := by simp [Sched.init,Sys.locksOf,Sys.tid,Frame.locks]
  tid_inj c d h := by simpa [Sched.init,Sys.tid] using h
  current c p h := by simp [Sched.init] at h
  waiting c p h := by simp [Sched.init] at h
  idle c _ := rfl
  running c p h := by simp [Sched.init] at h
  ready p _ h := by
    simp only [Sched.init] at h ⊢
    split at h
    · rename_i hp
      exact ⟨.forkret,[],by simp [hp],rfl⟩
    · simp [Suspended] at h
  picked p _ h := by
    simp only [Sched.init] at h
    split at h <;> simp at h
  used p h := by
    simp only [Sched.init] at h
    split at h <;> simp at h
  found c f rest h := by
    simp [Sched.init,Sys.tid] at h
    rw [← h.1]
    trivial
  forks p f q hf h := by
    simp only [Sched.init] at hf
    split at hf
    · simp only [List.mem_singleton] at hf
      subst hf
      cases h
    · simp at hf
  forker p p' f f' q hf _ h _ := by
    simp only [Sched.init] at hf
    split at hf
    · simp only [List.mem_singleton] at hf
      subst hf
      cases h
    · simp at hf

theorem of_run {cond : ℕ → Bool} {as : List Action}
    (hrun : Machine.run Sched.step (Sched.init cond) as = some s) : Core s :=
  Machine.run_invariant (fun _ _ _ (h : Core _) ht => h.step ht) (Core.init cond) hrun

end Core

end Xv6.Sched
