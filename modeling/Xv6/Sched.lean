import Xv6.Machine
import Xv6.Param

/-! The code of `kernel/proc.c` as a machine of `NCPU` CPUs: processes, their locks and the
hand-over of a CPU through `swtch`. A thread is a stack of frames; a frame says where in a routine
the thread is. One step is one lock operation, one test or one store made under a lock. -/
namespace Xv6.Sched

inductive ProcState
  | UNUSED | USED | SLEEPING | RUNNABLE | RUNNING | ZOMBIE
deriving DecidableEq

/-- What a process sleeps on: a process, as `wait` does, or the channel of a condition. -/
inductive Chan
  | proc (p : ℕ)
  | cond (i : ℕ)
deriving DecidableEq

/-- The fields of `struct proc` that other processes look at. Pids are unbounded: C leaves the
overflow of `nextpid` undefined. -/
structure Proc where
  state : ProcState := .UNUSED
  chan : Option Chan := none
  killed : Bool := false
  xstate : ℤ := 0
  pid : ℤ := 0
  parent : Option ℕ := none
deriving DecidableEq

def freeproc (p : Proc) : Proc :=
  {p with pid := 0,parent := none,chan := none,killed := false,xstate := 0,state := .UNUSED}

/-- `wait_lock`, the lock of a process, and the lock that protects a condition. -/
inductive Lock
  | wait
  | proc (p : ℕ)
  | cond (i : ℕ)
deriving DecidableEq

/-- The callers of `sleep`: a loop that waits for condition `i`, and `wait(addr)`. -/
inductive Sleeper
  | waiter (i : ℕ)
  | wait (addr : ℕ)
deriving DecidableEq

def Sleeper.lk : Sleeper → Lock
  | .waiter i => .cond i
  | .wait _ => .wait

def Sleeper.chan (p : ℕ) : Sleeper → Chan
  | .waiter i => .cond i
  | .wait _ => .proc p

/-- The callers of `wakeup`: code that made condition `i` true, `reparent` after slot `q` in
`exit(status)`, and `exit(status)` itself. -/
inductive Waker
  | cond (i : ℕ)
  | child (status : ℤ) (q : ℕ)
  | parent (status : ℤ)
deriving DecidableEq

def Waker.lk : Waker → Lock
  | .cond i => .cond i
  | _ => .wait

inductive WaitResult
  | reaped (pid : ℤ)
  | noKids
  | killed
  | badAddr (q : ℕ)
deriving DecidableEq

/-- Where a thread is; the next operation of each frame is given by `fetch`. -/
inductive Frame
  | schedAcq (p : ℕ) | schedTest (p : ℕ) | schedSet (p : ℕ) | schedRun (p : ℕ) | schedBack (p : ℕ)
  | schedRel (p : ℕ)
  | forkret
  | yieldAcq | yieldSet | yieldSched | yieldRel
  | sleepAcq (w : Sleeper) | sleepRel (w : Sleeper) | sleepChan (w : Sleeper)
  | sleepState (w : Sleeper) | sleepSched (w : Sleeper) | sleepWake (w : Sleeper)
  | sleepRelP (w : Sleeper) | sleepReacq (w : Sleeper)
  | wakeupAcq (w : Waker) (chan : Option Chan) (q : ℕ)
  | wakeupTest (w : Waker) (chan : Option Chan) (q : ℕ)
  | wakeupSet (w : Waker) (chan : Option Chan) (q : ℕ)
  | wakeupRel (w : Waker) (chan : Option Chan) (q : ℕ)
  | killAcq (pid : ℤ) (q : ℕ) | killTest (pid : ℤ) (q : ℕ) | killSet (pid : ℤ) (q : ℕ)
  | killWake (pid : ℤ) (q : ℕ) | killRel (pid : ℤ) (q : ℕ) (found : Bool)
  | allocAcq (q : ℕ) | allocTest (q : ℕ) | allocRel (q : ℕ) | allocFound (q : ℕ)
  | forkFail (np : ℕ) | forkRel (np : ℕ) | forkWait (np : ℕ) | forkParent (np : ℕ)
  | forkWaitRel (np : ℕ) | forkAcq (np : ℕ) | forkSet (np : ℕ) | forkDone (np : ℕ)
  | exitWait (status : ℤ) | exitScan (status : ℤ) (q : ℕ) | exitAcq (status : ℤ)
  | exitSet (status : ℤ) | exitRel | exitSched | exitDead
  | waitStart (addr : ℕ) | waitScan (addr q : ℕ) (havekids : Bool) | waitAcq (addr q : ℕ)
  | waitTest (addr q : ℕ) | waitFound (addr q : ℕ) | waitBad (q : ℕ) | waitReaped (q : ℕ) (pid : ℤ)
  | waitNext (addr q : ℕ) | waitKilled (addr : ℕ) | waitKilledTest (addr : ℕ)
  | waitKilledRel (addr : ℕ) (killed : Bool) | waitRet (r : WaitResult)
  | waiterAcq (i : ℕ) | waiterTest (i : ℕ) | waiterBody (i : ℕ) | waiterRel (i : ℕ)
  | wakerAcq (i : ℕ) | wakerSet (i : ℕ) | wakerRel (i : ℕ)
deriving DecidableEq

def own : Option ℕ → List Lock
  | some p => [.proc p]
  | none => []

/-- The locks that a thread of process `me` holds at a frame. -/
def Frame.locks (me : Option ℕ) : Frame → List Lock
  | .schedAcq _ => []
  | .schedTest p | .schedSet p | .schedRun p | .schedBack p | .schedRel p => [.proc p]
  | .forkret => own me
  | .yieldAcq => []
  | .yieldSet | .yieldSched | .yieldRel => own me
  | .sleepAcq w => [w.lk]
  | .sleepRel w => own me++[w.lk]
  | .sleepChan _ | .sleepState _ | .sleepSched _ | .sleepWake _ | .sleepRelP _ => own me
  | .sleepReacq _ => []
  | .wakeupAcq w _ _ => [w.lk]
  | .wakeupTest w _ q | .wakeupSet w _ q | .wakeupRel w _ q => [.proc q,w.lk]
  | .killAcq _ _ => []
  | .killTest _ q | .killSet _ q | .killWake _ q | .killRel _ q _ => [.proc q]
  | .allocAcq _ => []
  | .allocTest q | .allocRel q | .allocFound q | .forkFail q | .forkRel q => [.proc q]
  | .forkWait _ => []
  | .forkParent _ | .forkWaitRel _ => [.wait]
  | .forkAcq _ => []
  | .forkSet q | .forkDone q => [.proc q]
  | .exitWait _ => []
  | .exitScan _ _ | .exitAcq _ => [.wait]
  | .exitSet _ | .exitRel => own me++[.wait]
  | .exitSched | .exitDead => own me
  | .waitStart _ => []
  | .waitScan _ _ _ | .waitAcq _ _ => [.wait]
  | .waitTest _ q | .waitFound _ q | .waitBad q | .waitReaped q _ | .waitNext _ q => [.proc q,.wait]
  | .waitKilled _ => [.wait]
  | .waitKilledTest _ | .waitKilledRel _ _ => own me++[.wait]
  | .waitRet _ => [.wait]
  | .waiterAcq _ => []
  | .waiterTest i | .waiterBody i | .waiterRel i => [.cond i]
  | .wakerAcq _ => []
  | .wakerSet i | .wakerRel i => [.cond i]

inductive Event
  | forked (q : ℕ) (killed : Bool)
  | exited (q : ℕ) (pid status : ℤ)
  | reaped (parent q : ℕ) (pid status : ℤ)
deriving DecidableEq

/-- One operation and the frame that follows it, `none` for a return. -/
inductive Instr
  | acquire (l : Lock) (next : Option Frame)
  | release (l : Lock) (next : Option Frame)
  | goto (next : Option Frame)
  | store (q : ℕ) (f : Proc → Proc) (ev : List Event) (next : Option Frame)
  | alloc (q : ℕ) (ok : Bool)
  | assign (i : ℕ) (b : Bool) (next : Option Frame)
  | swtch (next : Frame)
  | run (p : ℕ) (next : Frame)
  | clear (next : Option Frame)

instance : NeZero NCPU := ⟨by decide⟩

abbrev Cpu := Fin NCPU

/-- The threads: the scheduler of each CPU and the kernel thread of each process. -/
inductive Tid
  | sched (c : Cpu)
  | proc (p : ℕ)
deriving DecidableEq

def initproc : ℕ := 0

/-- `on c` is the process whose thread CPU `c` executes, `none` for its scheduler; `cpuproc c` is
`c->proc`. The stack of a thread that no CPU executes is its saved context. -/
structure Sys where
  proc : ℕ → Proc
  nextpid : ℤ
  lock : Lock → Option Cpu
  cpuproc : Cpu → Option ℕ
  on : Cpu → Option ℕ
  stack : Tid → List Frame
  cond : ℕ → Bool
  log : List Event

namespace Sys

def tid (s : Sys) (c : Cpu) : Tid :=
  match s.on c with
  | none => .sched c
  | some p => .proc p

/-- The locks taken by the thread on CPU `c`; their number is `noff`. -/
def locksOf (s : Sys) (c : Cpu) : List Lock :=
  match s.stack (s.tid c) with
  | [] => []
  | f::_ => f.locks (s.cpuproc c)

end Sys

def Sleeper.resume : Sleeper → Frame
  | .waiter i => .waiterTest i
  | .wait addr => .waitScan addr 0 false

def Waker.resume : Waker → Frame
  | .cond i => .wakerRel i
  | .child status q => .exitScan status (q+1)
  | .parent status => .exitAcq status

/-- The operation of each frame. `me` is `myproc()`; `o` decides what is outside this code: whether
the memory for a new process is there, whether the address given to `wait` can be written, and
whether the code under a condition's lock leaves it true. -/
def fetch (s : Sys) (me : Option ℕ) (o : Bool) : Frame → Option Instr
  | .schedAcq p => some (.acquire (.proc p) (some (.schedTest p)))
  | .schedTest p =>
    if (s.proc p).state = .RUNNABLE then some (.goto (some (.schedSet p)))
    else some (.goto (some (.schedRel p)))
  | .schedSet p => some (.store p (fun r => {r with state := .RUNNING}) [] (some (.schedRun p)))
  | .schedRun p => some (.run p (.schedBack p))
  | .schedBack p => some (.clear (some (.schedRel p)))
  | .schedRel p => some (.release (.proc p)
      (some (.schedAcq (if p+1 < NPROC then p+1 else 0))))
  | .forkret => me.map fun p => .release (.proc p) none
  | .yieldAcq => me.map fun p => .acquire (.proc p) (some .yieldSet)
  | .yieldSet => me.map fun p =>
      .store p (fun r => {r with state := .RUNNABLE}) [] (some .yieldSched)
  | .yieldSched => me.map fun _ => .swtch .yieldRel
  | .yieldRel => me.map fun p => .release (.proc p) none
  | .sleepAcq w => me.map fun p => .acquire (.proc p) (some (.sleepRel w))
  | .sleepRel w => me.map fun _ => .release w.lk (some (.sleepChan w))
  | .sleepChan w => me.map fun p =>
      .store p (fun r => {r with chan := some (w.chan p)}) [] (some (.sleepState w))
  | .sleepState w => me.map fun p =>
      .store p (fun r => {r with state := .SLEEPING}) [] (some (.sleepSched w))
  | .sleepSched w => me.map fun _ => .swtch (.sleepWake w)
  | .sleepWake w => me.map fun p =>
      .store p (fun r => {r with chan := none}) [] (some (.sleepRelP w))
  | .sleepRelP w => me.map fun p => .release (.proc p) (some (.sleepReacq w))
  | .sleepReacq w => me.map fun _ => .acquire w.lk (some w.resume)
  | .wakeupAcq w chan q =>
    if q < NPROC then
      if me = some q then some (.goto (some (.wakeupAcq w chan (q+1))))
      else some (.acquire (.proc q) (some (.wakeupTest w chan q)))
    else some (.goto (some w.resume))
  | .wakeupTest w chan q =>
    if (s.proc q).state = .SLEEPING ∧ (s.proc q).chan = chan then
      some (.goto (some (.wakeupSet w chan q)))
    else some (.goto (some (.wakeupRel w chan q)))
  | .wakeupSet w chan q => some (.store q (fun r => {r with state := .RUNNABLE}) []
      (some (.wakeupRel w chan q)))
  | .wakeupRel w chan q => some (.release (.proc q) (some (.wakeupAcq w chan (q+1))))
  | .killAcq pid q =>
    if q < NPROC then some (.acquire (.proc q) (some (.killTest pid q))) else some (.goto none)
  | .killTest pid q =>
    if (s.proc q).pid = pid then some (.goto (some (.killSet pid q)))
    else some (.goto (some (.killRel pid q false)))
  | .killSet pid q => some (.store q (fun r => {r with killed := true}) []
      (some (.killWake pid q)))
  | .killWake pid q => some (.store q
      (fun r => if r.state = .SLEEPING then {r with state := .RUNNABLE} else r) []
      (some (.killRel pid q true)))
  | .killRel pid q found =>
    if found then some (.release (.proc q) none)
    else some (.release (.proc q) (some (.killAcq pid (q+1))))
  | .allocAcq q =>
    if q < NPROC then some (.acquire (.proc q) (some (.allocTest q))) else some (.goto none)
  | .allocTest q =>
    if (s.proc q).state = .UNUSED then some (.goto (some (.allocFound q)))
    else some (.goto (some (.allocRel q)))
  | .allocRel q => some (.release (.proc q) (some (.allocAcq (q+1))))
  | .allocFound q => some (.alloc q o)
  | .forkFail np => some (.release (.proc np) none)
  | .forkRel np => some (.release (.proc np) (some (.forkWait np)))
  | .forkWait np => some (.acquire .wait (some (.forkParent np)))
  | .forkParent np => me.map fun p =>
      .store np (fun r => {r with parent := some p}) [] (some (.forkWaitRel np))
  | .forkWaitRel np => some (.release .wait (some (.forkAcq np)))
  | .forkAcq np => some (.acquire (.proc np) (some (.forkSet np)))
  | .forkSet np => some (.store np (fun r => {r with state := .RUNNABLE}) []
      (some (.forkDone np)))
  | .forkDone np => some (.release (.proc np) none)
  | .exitWait status => some (.acquire .wait (some (.exitScan status 0)))
  | .exitScan status q => me.map fun p =>
    if q < NPROC then
      if (s.proc q).parent = some p then
        .store q (fun r => {r with parent := some initproc}) []
          (some (.wakeupAcq (.child status q) (some (.proc initproc)) 0))
      else .goto (some (.exitScan status (q+1)))
    else .goto (some (.wakeupAcq (.parent status) ((s.proc p).parent.map Chan.proc) 0))
  | .exitAcq status => me.map fun p => .acquire (.proc p) (some (.exitSet status))
  | .exitSet status => me.map fun p =>
      .store p (fun r => {r with xstate := status,state := .ZOMBIE})
        [.exited p (s.proc p).pid status] (some .exitRel)
  | .exitRel => some (.release .wait (some .exitSched))
  | .exitSched => me.map fun _ => .swtch .exitDead
  | .exitDead => none
  | .waitStart addr => some (.acquire .wait (some (.waitScan addr 0 false)))
  | .waitScan addr q havekids => me.map fun p =>
    if q < NPROC then
      if (s.proc q).parent = some p then .goto (some (.waitAcq addr q))
      else .goto (some (.waitScan addr (q+1) havekids))
    else if havekids then .goto (some (.waitKilled addr))
    else .goto (some (.waitRet .noKids))
  | .waitAcq addr q => some (.acquire (.proc q) (some (.waitTest addr q)))
  | .waitTest addr q =>
    if (s.proc q).state = .ZOMBIE then some (.goto (some (.waitFound addr q)))
    else some (.goto (some (.waitNext addr q)))
  | .waitFound addr q => me.map fun p =>
    if addr ≠ 0 ∧ o = false then .goto (some (.waitBad q))
    else .store q freeproc [.reaped p q (s.proc q).pid (s.proc q).xstate]
      (some (.waitReaped q (s.proc q).pid))
  | .waitBad q => some (.release (.proc q) (some (.waitRet (.badAddr q))))
  | .waitReaped q pid => some (.release (.proc q) (some (.waitRet (.reaped pid))))
  | .waitNext addr q => some (.release (.proc q) (some (.waitScan addr (q+1) true)))
  | .waitKilled addr => me.map fun p => .acquire (.proc p) (some (.waitKilledTest addr))
  | .waitKilledTest addr => me.map fun p =>
      .goto (some (.waitKilledRel addr (s.proc p).killed))
  | .waitKilledRel addr killed => me.map fun p =>
    if killed then .release (.proc p) (some (.waitRet .killed))
    else .release (.proc p) (some (.sleepAcq (.wait addr)))
  | .waitRet _ => some (.release .wait none)
  -- a loop around sleep, and the code that ends it
  | .waiterAcq i => some (.acquire (.cond i) (some (.waiterTest i)))
  | .waiterTest i =>
    if s.cond i then some (.goto (some (.waiterBody i)))
    else some (.goto (some (.sleepAcq (.waiter i))))
  | .waiterBody i => some (.assign i (s.cond i && o) (some (.waiterRel i)))
  | .waiterRel i => some (.release (.cond i) none)
  | .wakerAcq i => some (.acquire (.cond i) (some (.wakerSet i)))
  | .wakerSet i => some (.assign i true (some (.wakeupAcq (.cond i) (some (.cond i)) 0)))
  | .wakerRel i => some (.release (.cond i) none)

/-- The part of `allocproc` after `found`, and the copy of the parent's memory in `fork`: without
memory for the trap frame, the page table or the copy the slot is freed again. -/
def Sys.allocproc (s : Sys) (q : ℕ) (ok : Bool) : Sys :=
  let r : Proc := {s.proc q with pid := s.nextpid,state := .USED}
  if ok then {s with
    nextpid := s.nextpid+1
    proc := Function.update s.proc q r
    stack := Function.update s.stack (.proc q) [.forkret]
    log := s.log++[.forked q r.killed]}
  else {s with nextpid := s.nextpid+1,proc := Function.update s.proc q (freeproc r)}

def Sys.goto (s : Sys) (c : Cpu) (stack : List Frame) : Sys :=
  {s with stack := Function.update s.stack (s.tid c) stack}

/-- Execute an operation on CPU `c`, whose thread has `rest` below the current frame. An operation
that spins or panics is not enabled. -/
def exec (s : Sys) (c : Cpu) (rest : List Frame) : Instr → Option Sys
  | .acquire l next =>
    if s.lock l = none then
      some ({s with lock := Function.update s.lock l (some c)}.goto c (next.toList++rest))
    else none
  | .release l next =>
    if s.lock l = some c then
      some ({s with lock := Function.update s.lock l none}.goto c (next.toList++rest))
    else none
  | .goto next => some (s.goto c (next.toList++rest))
  | .store q f ev next => some
      ({s with proc := Function.update s.proc q (f (s.proc q)),log := s.log++ev}.goto c
        (next.toList++rest))
  | .alloc q ok => some
      ((s.allocproc q ok).goto c ((if ok then .forkRel q else .forkFail q)::rest))
  | .assign i b next => some
      ({s with cond := Function.update s.cond i b}.goto c (next.toList++rest))
  | .clear next => some
      ({s with cpuproc := Function.update s.cpuproc c none}.goto c (next.toList++rest))
  | .run p next => some {s.goto c (next::rest) with
      cpuproc := Function.update s.cpuproc c (some p)
      on := Function.update s.on c (some p)}
  -- sched() panics unless the process holds its own lock only and is not RUNNING
  | .swtch next =>
    match s.on c with
    | none => none
    | some p =>
      if s.locksOf c = [.proc p] ∧ (s.proc p).state ≠ .RUNNING then
        some {s.goto c (next::rest) with on := Function.update s.on c none}
      else none

/-- Run one operation of CPU `c`, or begin a routine there. -/
inductive Action
  | run (c : Cpu) (o : Bool)
  | start (c : Cpu) (f : Frame)

/-- A routine begins where no lock is held, as a system call of a process that is not in any of
this code, or as an interrupt: the timer makes a process yield, and a device makes a condition
true and wakes its waiters. `exit` of the first process panics. -/
def Sys.mayStart (s : Sys) (c : Cpu) (f : Frame) : Bool :=
  s.locksOf c = [] && match f with
    | .wakerAcq _ => true
    | .yieldAcq => s.cpuproc c ≠ none
    | .waiterAcq _ | .killAcq _ 0 | .allocAcq 0 | .waitStart _ =>
      s.stack (s.tid c) = [] && s.cpuproc c ≠ none
    | .exitWait _ =>
      s.stack (s.tid c) = [] && s.cpuproc c ≠ none && s.cpuproc c ≠ some initproc
    | _ => false

def step (s : Sys) : Action → Option Sys
  | .run c o =>
    match s.stack (s.tid c) with
    | [] => none
    | f::rest => (fetch s (s.cpuproc c) o f).bind (exec s c rest)
  | .start c f => if s.mayStart c f then some (s.goto c (f::s.stack (s.tid c))) else none

/-- After `userinit`: the first process is ready and the CPUs enter `scheduler`. -/
def init (cond : ℕ → Bool) : Sys where
  proc := fun q => if q = initproc then {state := .RUNNABLE,pid := 1} else {}
  nextpid := 2
  lock := fun _ => none
  cpuproc := fun _ => none
  on := fun _ => none
  stack
    | .sched _ => [.schedAcq 0]
    | .proc q => if q = initproc then [.forkret] else []
  cond := cond
  log := []

end Xv6.Sched
