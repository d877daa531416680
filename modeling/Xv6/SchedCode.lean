import Xv6.Mutex
import Xv6.Sched

/-! What the operation of a frame can be, read off from the code once for all routines: which locks
it takes or drops, which stores it makes and where it goes on. -/
namespace Xv6.Sched

/-- Frames of the scheduler, of a device interrupt, of the timer interrupt, and of system calls. -/
inductive Kind
  | sched | device | timer | call
deriving DecidableEq

def Waker.kind : Waker → Kind
  | .cond _ => .device
  | _ => .call

def Frame.kind : Frame → Kind
  | .schedAcq _ | .schedTest _ | .schedSet _ | .schedRun _ | .schedBack _ | .schedRel _ => .sched
  | .wakerAcq _ | .wakerSet _ | .wakerRel _ => .device
  | .wakeupAcq w _ _ | .wakeupTest w _ _ | .wakeupSet w _ _ | .wakeupRel w _ _ => w.kind
  | .yieldAcq | .yieldSet | .yieldSched | .yieldRel => .timer
  | _ => .call

def Instr.next : Instr → Option Frame
  | .acquire _ n | .release _ n | .goto n | .store _ _ _ n | .assign _ _ n | .clear n => n
  | .alloc q ok => some (if ok then .forkRel q else .forkFail q)
  | .run _ n | .swtch n => some n

def nextLocks (me : Option ℕ) : Option Frame → List Lock
  | none => []
  | some f => f.locks me

def Instr.Keeps (me : Option ℕ) (f : Frame) : Instr → Prop
  | .acquire l n => ∀ x, x ∈ nextLocks me n ↔ x = l ∨ x ∈ f.locks me
  | .release l n => ∀ x, x ∈ nextLocks me n ↔ x ∈ f.locks me ∧ x ≠ l
  | .goto n | .store _ _ _ n | .assign _ _ n => ∀ x, x ∈ nextLocks me n ↔ x ∈ f.locks me
  | .clear n => ∀ me', nextLocks me' n = f.locks me
  | .alloc q _ => f.locks me = [.proc q]
  | .run p n => f.locks me = [.proc p] ∧ n = .schedBack p
  | .swtch n => f.locks me = own me ∧ n.locks me = own me

@[simp] theorem Sleeper.lk_waiter (i : ℕ) : (Sleeper.waiter i).lk = .cond i := rfl
@[simp] theorem Sleeper.lk_wait (addr : ℕ) : (Sleeper.wait addr).lk = .wait := rfl
@[simp] theorem Waker.lk_cond (i : ℕ) : (Waker.cond i).lk = .cond i := rfl
@[simp] theorem Waker.lk_child (status : ℤ) (q : ℕ) : (Waker.child status q).lk = .wait := rfl
@[simp] theorem Waker.lk_parent (status : ℤ) : (Waker.parent status).lk = .wait := rfl

@[simp] theorem Sleeper.resume_locks (me : Option ℕ) (w : Sleeper) : w.resume.locks me = [w.lk] := by
  cases w <;> rfl

@[simp] theorem Waker.resume_locks (me : Option ℕ) (w : Waker) : w.resume.locks me = [w.lk] := by
  cases w <;> rfl

@[simp] theorem Sleeper.resume_kind (w : Sleeper) : w.resume.kind = .call := by
  cases w <;> rfl

@[simp] theorem Waker.resume_kind (w : Waker) : w.resume.kind = w.kind := by
  cases w <;> rfl

theorem Sleeper.lk_ne_proc (w : Sleeper) (q : ℕ) : w.lk ≠ .proc q := by
  cases w <;> simp

theorem Waker.lk_ne_proc (w : Waker) (q : ℕ) : w.lk ≠ .proc q := by
  cases w <;> simp

theorem mem_own {me : Option ℕ} {l : Lock} : l ∈ own me ↔ ∃ p, me = some p ∧ l = .proc p := by
  cases me <;> simp [own]

variable {s : Sys} {me : Option ℕ} {o : Bool} {f : Frame} {i : Instr}

theorem fetch_keeps (h : fetch s me o f = some i) : i.Keeps me f := by
  cases f <;> simp only [fetch,Option.map_eq_some_iff,Option.some.injEq,reduceCtorEq] at h
  all_goals try obtain ⟨p,rfl,h⟩ := h
  all_goals repeat' split at h
  all_goals try cases h
  all_goals simp only [Instr.Keeps,nextLocks,Sleeper.resume_locks,Waker.resume_locks]
  all_goals simp [Frame.locks,mem_own]
  all_goals grind [Sleeper.lk_ne_proc,Waker.lk_ne_proc]

theorem fetch_kind (h : fetch s me o f = some i) {g : Frame} (hg : i.next = some g) :
    g.kind = f.kind := by
  cases f <;> simp only [fetch,Option.map_eq_some_iff,Option.some.injEq,reduceCtorEq] at h
  all_goals try obtain ⟨p,rfl,h⟩ := h
  all_goals repeat' split at h
  all_goals try cases h
  all_goals simp only [Instr.next,Option.some.injEq,reduceCtorEq] at hg
  case allocFound =>
    subst hg
    cases o <;> rfl
  all_goals subst hg
  all_goals first | rfl | exact Sleeper.resume_kind _ | exact Waker.resume_kind _

inductive Store (s : Sys) :
    Option ℕ → Frame → ℕ → (Proc → Proc) → List Event → Frame → Prop
  | chosen {me : Option ℕ} {p : ℕ} : Store s me (.schedSet p) p
      (fun r => {r with state := .RUNNING}) [] (.schedRun p)
  | yield {p : ℕ} : Store s (some p) .yieldSet p
      (fun r => {r with state := .RUNNABLE}) [] .yieldSched
  | chan {p : ℕ} {w : Sleeper} : Store s (some p) (.sleepChan w) p
      (fun r => {r with chan := some (w.chan p)}) [] (.sleepState w)
  | sleep {p : ℕ} {w : Sleeper} : Store s (some p) (.sleepState w) p
      (fun r => {r with state := .SLEEPING}) [] (.sleepSched w)
  | tidy {p : ℕ} {w : Sleeper} : Store s (some p) (.sleepWake w) p
      (fun r => {r with chan := none}) [] (.sleepRelP w)
  | wakeup {me : Option ℕ} {w : Waker} {chan : Option Chan} {q : ℕ} :
      Store s me (.wakeupSet w chan q) q
        (fun r => {r with state := .RUNNABLE}) [] (.wakeupRel w chan q)
  | kill {me : Option ℕ} {pid : ℤ} {q : ℕ} : Store s me (.killSet pid q) q
      (fun r => {r with killed := true}) [] (.killWake pid q)
  | killWake {me : Option ℕ} {pid : ℤ} {q : ℕ} : Store s me (.killWake pid q) q
      (fun r => if r.state = .SLEEPING then {r with state := .RUNNABLE} else r) []
      (.killRel pid q true)
  | parent {p np : ℕ} : Store s (some p) (.forkParent np) np
      (fun r => {r with parent := some p}) [] (.forkWaitRel np)
  | ready {me : Option ℕ} {np : ℕ} : Store s me (.forkSet np) np
      (fun r => {r with state := .RUNNABLE}) [] (.forkDone np)
  | reparent {p q : ℕ} {status : ℤ} (hq : q < NPROC) (hp : (s.proc q).parent = some p) :
      Store s (some p) (.exitScan status q) q
        (fun r => {r with parent := some initproc}) []
        (.wakeupAcq (.child status q) (some (.proc initproc)) 0)
  | exit {p : ℕ} {status : ℤ} : Store s (some p) (.exitSet status) p
      (fun r => {r with xstate := status,state := .ZOMBIE})
      [.exited p (s.proc p).pid status] .exitRel
  | reap {p addr q : ℕ} : Store s (some p) (.waitFound addr q) q freeproc
      [.reaped p q (s.proc q).pid (s.proc q).xstate] (.waitReaped q (s.proc q).pid)

def Instr.quiet : Instr → Prop
  | .acquire .. | .release .. | .goto _ | .assign .. => True
  | _ => False

inductive Loud (s : Sys) (me : Option ℕ) (o : Bool) : Frame → Instr → Prop
  | store {f : Frame} {q : ℕ} {g : Proc → Proc} {ev : List Event} {n : Frame} :
      Store s me f q g ev n → Loud s me o f (.store q g ev (some n))
  | alloc {q : ℕ} : Loud s me o (.allocFound q) (.alloc q o)
  | run {p : ℕ} : Loud s me o (.schedRun p) (.run p (.schedBack p))
  | clear {p : ℕ} : Loud s me o (.schedBack p) (.clear (some (.schedRel p)))
  | yield : Loud s me o .yieldSched (.swtch .yieldRel)
  | sleep {w : Sleeper} : Loud s me o (.sleepSched w) (.swtch (.sleepWake w))
  | exit : Loud s me o .exitSched (.swtch .exitDead)

theorem fetch_cases (h : fetch s me o f = some i) : i.quiet ∨ Loud s me o f i := by
  cases f <;> simp only [fetch,Option.map_eq_some_iff,Option.some.injEq,reduceCtorEq] at h
  all_goals try obtain ⟨p,rfl,h⟩ := h
  all_goals repeat' split at h
  all_goals try cases h
  all_goals first
    | exact .inl trivial
    | exact .inr (.store (by constructor <;> assumption))
    | exact .inr (by constructor)

/-- The state of a process whose thread runs and is at this frame: it has left `RUNNING` only
between the store of its new state and `sched`. -/
def Frame.onState : Frame → ProcState
  | .yieldSched => .RUNNABLE
  | .sleepSched _ => .SLEEPING
  | .exitRel | .exitSched => .ZOMBIE
  | _ => .RUNNING

/-- Where `swtch` to a process leads: with its lock held, to be released there. -/
def Frame.resumable : Frame → Bool
  | .forkret | .yieldRel | .sleepWake _ => true
  | _ => false

/-- The slot that `fork` has taken and not yet made runnable. -/
def Frame.forking : Frame → Option ℕ
  | .forkRel q | .forkWait q | .forkParent q | .forkWaitRel q | .forkAcq q | .forkSet q => some q
  | _ => none

/-- What a test under a process's lock has found; it holds until the lock is released. -/
def Frame.Found (s : Sys) : Frame → Prop
  | .schedSet p => (s.proc p).state = .RUNNABLE
  | .schedRun p => (s.proc p).state = .RUNNING ∧ ∀ c, s.on c ≠ some p
  | .wakeupSet _ _ q => (s.proc q).state = .SLEEPING
  | .allocFound q => (s.proc q).state = .UNUSED
  | .waitFound _ q => (s.proc q).state = .ZOMBIE
  | _ => True

@[simp] theorem Sleeper.resume_onState (w : Sleeper) : w.resume.onState = .RUNNING := by
  cases w <;> rfl
@[simp] theorem Waker.resume_onState (w : Waker) : w.resume.onState = .RUNNING := by
  cases w <;> rfl
@[simp] theorem Sleeper.resume_forking (w : Sleeper) : w.resume.forking = none := by
  cases w <;> rfl
@[simp] theorem Waker.resume_forking (w : Waker) : w.resume.forking = none := by
  cases w <;> rfl
@[simp] theorem Sleeper.resume_found (s : Sys) (w : Sleeper) : w.resume.Found s := by
  cases w <;> trivial
@[simp] theorem Waker.resume_found (s : Sys) (w : Waker) : w.resume.Found s := by
  cases w <;> trivial

@[simp] theorem Sleeper.resume_ne_back (w : Sleeper) (p : ℕ) : w.resume ≠ .schedBack p := by
  cases w <;> simp [Sleeper.resume]
@[simp] theorem Waker.resume_ne_back (w : Waker) (p : ℕ) : w.resume ≠ .schedBack p := by
  cases w <;> simp [Waker.resume]

structure Quiet (s : Sys) (f : Frame) (n : Option Frame) : Prop where
  onState : (n.elim .RUNNING Frame.onState) = f.onState
  found : ∀ g, n = some g → g.Found s
  forking : n.bind Frame.forking = f.forking
  back : ∀ p, n ≠ some (.schedBack p)

theorem fetch_quiet (h : fetch s me o f = some i) (hi : i.quiet) : Quiet s f i.next := by
  cases f <;> simp only [fetch,Option.map_eq_some_iff,Option.some.injEq,reduceCtorEq] at h
  all_goals try obtain ⟨p,rfl,h⟩ := h
  all_goals repeat' split at h
  all_goals try cases h
  all_goals try exact hi.elim
  all_goals constructor
  all_goals simp [Instr.next]
  case wakeupTest.isTrue.refl.found h => exact h.1
  all_goals first | rfl | trivial

structure Starts (s : Sys) (c : Cpu) (f : Frame) : Prop where
  free : s.locksOf c = []
  kind : f.kind ≠ .sched
  current : f.kind ≠ .device → s.cpuproc c ≠ none
  call : s.stack (s.tid c) ≠ [] → f.kind = .device ∨ f.kind = .timer
  onState : f.onState = .RUNNING
  found : f.Found s
  forking : f.forking = none
  locks : ∀ me, f.locks me = []
  back : ∀ p, f ≠ .schedBack p

theorem mayStart_starts {c : Cpu} (h : s.mayStart c f) : Starts s c f := by
  simp only [Sys.mayStart,Bool.and_eq_true,decide_eq_true_eq] at h
  obtain ⟨hfree,h⟩ := h
  split at h
  all_goals try simp at h
  all_goals exact {
    free := hfree
    kind := by simp [Frame.kind]
    current := by simp_all [Frame.kind]
    call := by simp_all [Frame.kind]
    onState := rfl
    found := trivial
    forking := rfl
    locks := fun _ => rfl
    back := by simp }

/-- What a store that leaves state `st` does to its slot, seen from the routine that makes it. -/
inductive Move (s : Sys) (me : Option ℕ) (f : Frame) (q : ℕ) (n : Frame) (st : ProcState) : Prop
  | same (heq : st = (s.proc q).state) (hon : n.onState = f.onState)
      (hfork : n.forking = f.forking)
  | self (heq : st = n.onState) (hme : me = some q) (hne : st ≠ .RUNNING) (hused : st ≠ .USED)
      (hon : f.onState = .RUNNING) (hkind : f.kind ≠ .sched) (hfork : n.forking = none)
  | pick (heq : st = .RUNNING) (hf : f = .schedSet q) (hn : n = .schedRun q)
  | wake (heq : st = .RUNNABLE) (hst : (s.proc q).state = .SLEEPING) (hon : f.onState = .RUNNING)
      (hon' : n.onState = .RUNNING) (hfork : n.forking = none)
  | take (heq : st = .USED) (hst : (s.proc q).state = .UNUSED) (hf : f = .allocFound q)
      (hn : n = .forkRel q)
  | ready (heq : st = .RUNNABLE) (hf : f = .forkSet q) (hn : n = .forkDone q)
  | reap (heq : st = .UNUSED) (hst : (s.proc q).state = .ZOMBIE) (hon : f.onState = .RUNNING)
      (hon' : n.onState = .RUNNING) (hfork : n.forking = none)

namespace Store

variable {q : ℕ} {g : Proc → Proc} {ev : List Event} {n : Frame}

theorem move (h : Store s me f q g ev n) (hf : f.Found s) : Move s me f q n (g (s.proc q)).state := by
  cases h with
  | chosen => exact .pick rfl rfl rfl
  | yield => exact .self rfl rfl (by simp) (by simp) rfl (by simp [Frame.kind]) rfl
  | chan => exact .same rfl rfl rfl
  | sleep => exact .self rfl rfl (by simp) (by simp) rfl (by simp [Frame.kind]) rfl
  | tidy => exact .same rfl rfl rfl
  | wakeup => exact .wake rfl hf rfl rfl rfl
  | kill => exact .same rfl rfl rfl
  | killWake =>
    by_cases hst : (s.proc q).state = .SLEEPING
    · exact .wake (by simp [hst]) hst rfl rfl rfl
    · exact .same (by simp [hst]) rfl rfl
  | parent => exact .same rfl rfl rfl
  | ready => exact .ready rfl rfl rfl
  | reparent => exact .same rfl rfl rfl
  | exit => exact .self rfl rfl (by simp) (by simp) rfl (by simp [Frame.kind]) rfl
  | reap => exact .reap rfl hf rfl rfl rfl

theorem lock (h : Store s me f q g ev n) :
    (g (s.proc q)).state = (s.proc q).state ∨ .proc q ∈ f.locks me := by
  cases h with
  | parent => exact .inl rfl
  | reparent => exact .inl rfl
  | _ => exact .inr (by simp [Frame.locks,own])

theorem found (h : Store s me f q g ev n) (t : Sys) : n.Found t ∨
    f = .schedSet q ∧ n = .schedRun q ∧ ∀ r, (g r).state = .RUNNING := by
  cases h with
  | chosen => exact .inr ⟨rfl,rfl,fun _ => rfl⟩
  | _ => exact .inl trivial

theorem back (h : Store s me f q g ev n) (p : ℕ) : n ≠ .schedBack p := by
  cases h <;> simp

theorem run (h : Store s me f q g ev n) (p : ℕ) : f ≠ .schedRun p ∧ f ≠ .schedBack p := by
  cases h <;> simp

theorem used (h : Store s me f q g ev n) (hst : (g (s.proc q)).state = .USED) :
    (s.proc q).state = .USED := by
  cases h <;> simp_all [freeproc]
  split at hst <;> simp_all

end Store

structure Frame.Idle (f : Frame) : Prop where
  onState : f.onState = .RUNNING
  found : ∀ s, f.Found s
  back : ∀ p, f ≠ .schedBack p
  run : ∀ p, f ≠ .schedRun p

theorem Frame.idle_of_locks {p : ℕ} (h : f.locks (some p) = []) : f.Idle := by
  cases f <;> first
    | (simp [Frame.locks,own] at h; done)
    | exact ⟨rfl,fun _ => trivial,by simp,by simp⟩

theorem Frame.locks_eq_nil {p : ℕ} (h : f.locks (some p) = []) (me : Option ℕ) :
    f.locks me = [] := by
  cases f <;> first | rfl | simp [Frame.locks,own] at h

/-- The frames of a scheduler's thread do not depend on a current process. -/
theorem Frame.locks_of_kind (h : f.kind = .sched ∨ f.kind = .device) (me me' : Option ℕ) :
    f.locks me = f.locks me' := by
  cases f <;> first | rfl | simp [Frame.kind] at h

theorem Frame.mem_locks_of_onState {p : ℕ} (h : f.onState ≠ .RUNNING) :
    .proc p ∈ f.locks (some p) := by
  cases f <;> first | exact absurd rfl h | simp [Frame.locks,own]

theorem Frame.resumable_locks (h : f.resumable) : f.locks me = own me := by
  cases f <;> first | rfl | simp [Frame.resumable] at h

theorem Frame.resumable_found (h : f.resumable) : f.onState = .RUNNING ∧ f.Found s := by
  cases f <;> first | exact ⟨rfl,trivial⟩ | simp [Frame.resumable] at h

end Xv6.Sched
