import Xv6.Command
import Xv6.Sched

/-! `kernel/spinlock.c` and `sched` of `kernel/proc.c`: the nesting of critical sections on each
CPU, recorded in `noff` and `intena`, and the threads that take turns on it. A call is one step;
`sched` and the switch of `scheduler` to a process end in `swtch`, where another thread goes on. -/
namespace Xv6.Spin

open Command
open Sched (Cpu Lock Tid ProcState)

/-- `struct cpu` and the bit `SIE` of the CPU's `sstatus`. -/
structure Hart where
  proc : Option ℕ := none
  noff : Int32 := 0
  intena : Bool := false
  sie : Bool
deriving DecidableEq

structure Spinlock where
  locked : Bool := false
  cpu : Option Cpu := none
deriving DecidableEq

/-- Where the thread of a process goes on when it is switched to: in `forkret`, or in `sched` with
its local `intena`. -/
inductive Context
  | running
  | forkret
  | sched (intena : Bool)
deriving DecidableEq

/-- `mycpu()->intena` after the switch: `sched` writes its local back, `forkret` does not. -/
def Context.restore (old : Bool) : Context → Bool
  | .sched intena => intena
  | _ => old

structure Sys where
  cpu : Cpu → Hart
  lock : Lock → Spinlock
  state : ℕ → ProcState
  context : ℕ → Context

def Sys.tid (s : Sys) (c : Cpu) : Tid :=
  match (s.cpu c).proc with
  | none => .sched c
  | some p => .proc p

inductive Stop
  | panic (msg : String)
  | blocked
deriving DecidableEq

abbrev M := Command.Cmd Stop Sys

def hart (c : Cpu) : M Hart := do
  let s ← get
  return s.cpu c

def Sys.setHart (s : Sys) (c : Cpu) (h : Hart) : Sys := {s with cpu := Function.update s.cpu c h}

def setHart (c : Cpu) (h : Hart) : M Unit := modify fun s => s.setHart c h

def Sys.setLock (s : Sys) (l : Lock) (lk : Spinlock) : Sys :=
  {s with lock := Function.update s.lock l lk}

def Sys.setState (s : Sys) (p : ℕ) (state : ProcState) : Sys :=
  {s with state := Function.update s.state p state}

def Sys.setContext (s : Sys) (p : ℕ) (k : Context) : Sys :=
  {s with context := Function.update s.context p k}

def panicIf (p : Prop) [Decidable p] (msg : String) : M Unit := when p (throw (.panic msg))

def await (p : Prop) [Decidable p] : M Unit := when (¬p) (throw .blocked)

def intr_get (c : Cpu) : M Bool := do
  let h ← hart c
  return h.sie

def intr_off (c : Cpu) : M Unit := do
  let h ← hart c
  setHart c {h with sie := false}

def intr_on (c : Cpu) : M Unit := do
  let h ← hart c
  setHart c {h with sie := true}

def push_off (c : Cpu) : M Unit := do
  let old ← intr_get c
  intr_off c
  let h ← hart c
  when (h.noff = 0) (setHart c {h with intena := old})
  let h ← hart c
  setHart c {h with noff := h.noff+1}

def pop_off (c : Cpu) : M Unit := do
  panicIf (← intr_get c) "pop_off - interruptible"
  let h ← hart c
  panicIf (h.noff < 1) "pop_off"
  setHart c {h with noff := h.noff-1}
  let h ← hart c
  when (h.noff = 0 ∧ h.intena) (intr_on c)

def holding (c : Cpu) (l : Lock) : M Bool := do
  let s ← get
  return (s.lock l).locked && (s.lock l).cpu = some c

/-- `acquire`. It spins while another CPU has the lock. -/
def acquire (c : Cpu) (l : Lock) : M Unit := do
  push_off c
  panicIf (← holding c l) "acquire"
  let s ← get
  await ((s.lock l).locked = false)
  set (s.setLock l ⟨true,some c⟩)

def release (c : Cpu) (l : Lock) : M Unit := do
  panicIf (¬ (← holding c l)) "release"
  modify fun s => s.setLock l ⟨false,none⟩
  pop_off c

def myproc (c : Cpu) : M (Option ℕ) := do
  push_off c
  let h ← hart c
  pop_off c
  return h.proc

/-- `sched` up to its `swtch`, after which `scheduler` clears `c->proc`. -/
def sched (c : Cpu) : M Unit := do
  match ← myproc c with
  | none => throw .blocked
  | some p =>
    panicIf (¬ (← holding c (.proc p))) "sched p->lock"
    let h ← hart c
    panicIf (h.noff ≠ 1) "sched locks"
    let s ← get
    panicIf (s.state p = .RUNNING) "sched running"
    panicIf (← intr_get c) "sched interruptible"
    set ((s.setContext p (.sched h.intena)).setHart c {h with proc := none})

/-- `scheduler` with the lock of a process that it found `RUNNABLE`, and no other: it switches to
the process, which goes on in `forkret` or behind the `swtch` of `sched`. A context that is in use is
never switched to. -/
def switchTo (c : Cpu) (p : ℕ) : M Unit := do
  let h ← hart c
  await (h.proc = none ∧ h.noff = 1)
  await (← holding c (.proc p))
  let s ← get
  await (s.state p = .RUNNABLE ∧ s.context p ≠ .running)
  set (((s.setState p .RUNNING).setContext p .running).setHart c
    {h with proc := some p,intena := (s.context p).restore h.intena})

/-- A step of the thread on CPU `c`. Outside of all critical sections it may turn interrupts on and
off, as `scheduler`, `usertrap`, `usertrapret` and the hardware do when a trap is taken and left.
With the lock of a process it may store a state, and set up a new context for a thread that is
gone. -/
inductive Action
  | acquire (c : Cpu) (l : Lock)
  | release (c : Cpu) (l : Lock)
  | pushOff (c : Cpu)
  | popOff (c : Cpu)
  | intrOn (c : Cpu)
  | intrOff (c : Cpu)
  | store (c : Cpu) (p : ℕ) (state : ProcState)
  | alloc (c : Cpu) (p : ℕ)
  | sched (c : Cpu)
  | switchTo (c : Cpu) (p : ℕ)
deriving DecidableEq

def exec : Action → M Unit
  | .acquire c l => acquire c l
  | .release c l => release c l
  | .pushOff c => push_off c
  | .popOff c => pop_off c
  | .intrOn c => do
    let h ← hart c
    await (h.noff = 0)
    intr_on c
  | .intrOff c => do
    let h ← hart c
    await (h.noff = 0)
    intr_off c
  | .store c p state => do
    await (← holding c (.proc p))
    modify fun s => s.setState p state
  | .alloc c p => do
    await (← holding c (.proc p))
    let s ← get
    await (s.context p ≠ .running)
    set (s.setContext p .forkret)
  | .sched c => sched c
  | .switchTo c p => switchTo c p

def step (s : Sys) (a : Action) : Option Sys :=
  match (exec a).run s with
  | .ok (_,t) => some t
  | .error _ => none

/-- The CPUs enter `scheduler` with interrupts on or off; no lock is taken. -/
def init (sie : Cpu → Bool) (state : ℕ → ProcState) : Sys where
  cpu := fun c => {sie := sie c}
  lock := fun _ => {}
  state := state
  context := fun _ => .forkret

def Hart.push (h : Hart) : Hart :=
  {h with sie := false,intena := if h.noff = 0 then h.sie else h.intena,noff := h.noff+1}

def Hart.pop (h : Hart) : Hart :=
  {h with sie := decide (h.noff-1 = 0) && h.intena,noff := h.noff-1}

section Rules

variable {s t : Sys} {a : Action} {c : Cpu} {l : Lock} {h h' : Hart} {E : Stop → Prop}

@[simp] theorem setHart_self : (s.setHart c h).cpu c = h := by simp [Sys.setHart]

@[simp] theorem setHart_lock : (s.setHart c h).lock = s.lock := rfl

@[simp] theorem setHart_state : (s.setHart c h).state = s.state := rfl

@[simp] theorem setHart_context : (s.setHart c h).context = s.context := rfl

@[simp] theorem setHart_setHart : (s.setHart c h).setHart c h' = s.setHart c h' := by
  simp [Sys.setHart]

theorem setHart_eq_self (hh : h = s.cpu c) : s.setHart c h = s := by
  rw [hh,Sys.setHart,Function.update_eq_self]

@[simp] theorem wp_hart {Q : Hart → Sys → Prop} : wp (hart c) Q E s ↔ Q (s.cpu c) s := Iff.rfl

@[simp] theorem wp_setHart {Q : Unit → Sys → Prop} :
    wp (setHart c h) Q E s ↔ Q () (s.setHart c h) := Iff.rfl

@[simp] theorem wp_intr_get {Q : Bool → Sys → Prop} :
    wp (intr_get c) Q E s ↔ Q (s.cpu c).sie s := Iff.rfl

@[simp] theorem wp_holding {Q : Bool → Sys → Prop} :
    wp (holding c l) Q E s ↔ Q ((s.lock l).locked && (s.lock l).cpu = some c) s := Iff.rfl

theorem wp_panicIf {p : Prop} [Decidable p] {msg : String} {Q : Unit → Sys → Prop} :
    wp (panicIf p msg) Q (fun _ => False) s ↔ ¬p ∧ Q () s := by
  by_cases hp : p <;> simp [panicIf,when,hp]

theorem wp_await {p : Prop} [Decidable p] {Q : Unit → Sys → Prop} :
    wp (await p) Q (fun _ => False) s ↔ p ∧ Q () s := by
  by_cases hp : p <;> simp [await,when,hp]

theorem wp_push_off {Q : Unit → Sys → Prop} :
    wp (push_off c) Q E s ↔ Q () (s.setHart c (s.cpu c).push) := by
  by_cases h0 : (s.cpu c).noff = 0
  · simp [push_off,intr_off,when,h0,Hart.push]
  · simp [push_off,intr_off,when,h0,Hart.push]

theorem wp_pop_off {Q : Unit → Sys → Prop} : wp (pop_off c) Q (fun _ => False) s ↔
    (s.cpu c).sie = false ∧ 1 ≤ (s.cpu c).noff ∧ Q () (s.setHart c (s.cpu c).pop) := by
  simp only [pop_off,wp_bind,wp_intr_get,wp_hart,wp_panicIf,wp_setHart,
    Bool.not_eq_true,Int32.not_lt]
  refine and_congr_right fun hsie => and_congr_right fun _ => ?_
  by_cases h0 : (s.cpu c).noff-1 = 0 ∧ (s.cpu c).intena = true
  · simp [when,h0,intr_on,Hart.pop]
  · have hoff : (decide ((s.cpu c).noff-1 = 0) && (s.cpu c).intena) = false := by simpa using h0
    simp [when,h0,Hart.pop,hoff,hsie]

theorem wp_myproc {Q : Option ℕ → Sys → Prop} : wp (myproc c) Q (fun _ => False) s ↔
    1 ≤ (s.cpu c).noff+1 ∧ Q (s.cpu c).proc (s.setHart c (s.cpu c).push.pop) := by
  simp only [myproc,wp_bind,wp_push_off,wp_hart,wp_pop_off,setHart_self,setHart_setHart,wp_pure]
  exact ⟨fun h => h.2,fun h => ⟨rfl,h⟩⟩

theorem Hart.pop_push (h0 : h.noff ≠ 0) (hoff : h.sie = false) : h.push.pop = h := by
  obtain ⟨proc,noff,intena,sie⟩ := h
  simp_all [push,pop]

theorem holding_iff {lk : Spinlock} :
    (lk.locked && lk.cpu = some c) = true ↔ lk = ⟨true,some c⟩ := by
  obtain ⟨locked,cpu⟩ := lk
  simp

end Rules

section Steps

variable {s t : Sys} {a : Action} {c : Cpu} {l : Lock} {p : ℕ}

theorem step_eq_some : step s a = some t ↔ wp (exec a) (fun _ u => u = t) (fun _ => False) s := by
  unfold step wp
  split <;> simp_all

theorem step_acquire : step s (.acquire c l) = some t ↔
    (s.lock l).locked = false ∧ (s.setHart c (s.cpu c).push).setLock l ⟨true,some c⟩ = t := by
  simp only [step_eq_some,exec,acquire,wp_bind,wp_push_off,wp_holding,wp_panicIf,wp_get,wp_await,
    wp_set,setHart_lock]
  constructor
  · exact fun h => h.2
  · exact fun h => ⟨by simp [h.1],h⟩

theorem step_release : step s (.release c l) = some t ↔
    s.lock l = ⟨true,some c⟩ ∧ (s.cpu c).sie = false ∧ 1 ≤ (s.cpu c).noff ∧
      (s.setHart c (s.cpu c).pop).setLock l ⟨false,none⟩ = t := by
  simp only [step_eq_some,exec,release,wp_bind,wp_holding,wp_panicIf,wp_modify,wp_pop_off,
    holding_iff,not_not]
  rfl

theorem step_pushOff : step s (.pushOff c) = some t ↔ s.setHart c (s.cpu c).push = t := by
  rw [step_eq_some,exec,wp_push_off]

theorem step_popOff : step s (.popOff c) = some t ↔
    (s.cpu c).sie = false ∧ 1 ≤ (s.cpu c).noff ∧ s.setHart c (s.cpu c).pop = t := by
  rw [step_eq_some,exec,wp_pop_off]

theorem step_intr {b : Bool} :
    step s (if b then .intrOn c else .intrOff c) = some t ↔
      (s.cpu c).noff = 0 ∧ s.setHart c {s.cpu c with sie := b} = t := by
  cases b with
  | false => simp only [step_eq_some,exec,intr_off,wp_bind,wp_hart,wp_await,wp_setHart,Bool.false_eq_true,if_false]
  | true => simp only [step_eq_some,exec,intr_on,wp_bind,wp_hart,wp_await,wp_setHart,if_true]

theorem step_store {state : ProcState} : step s (.store c p state) = some t ↔
    s.lock (.proc p) = ⟨true,some c⟩ ∧ s.setState p state = t := by
  simp only [step_eq_some,exec,wp_bind,wp_holding,wp_await,wp_modify,holding_iff]

theorem step_alloc : step s (.alloc c p) = some t ↔ s.lock (.proc p) = ⟨true,some c⟩ ∧
    s.context p ≠ .running ∧ s.setContext p .forkret = t := by
  simp only [step_eq_some,exec,wp_bind,wp_holding,wp_await,wp_get,wp_set,holding_iff]

theorem step_sched (hoff : (s.cpu c).noff ≠ 0 → (s.cpu c).sie = false) :
    step s (.sched c) = some t ↔ ∃ p, (s.cpu c).proc = some p ∧
      s.lock (.proc p) = ⟨true,some c⟩ ∧ (s.cpu c).noff = 1 ∧ s.state p ≠ .RUNNING ∧
      (s.setContext p (.sched (s.cpu c).intena)).setHart c {s.cpu c with proc := none} = t := by
  rw [step_eq_some,exec,sched,wp_bind,wp_myproc]
  by_cases hone : (s.cpu c).noff = 1
  · have hsie : (s.cpu c).sie = false := hoff (by rw [hone]; decide)
    rw [setHart_eq_self (Hart.pop_push (by rw [hone]; decide) hsie)]
    cases hproc : (s.cpu c).proc with
    | none => simp
    | some p =>
      simp only [wp_bind,wp_holding,wp_panicIf,wp_hart,wp_get,wp_intr_get,wp_set,not_not,holding_iff]
      simp [hone,hsie]
  · have hnoff : (s.cpu c).push.pop.noff ≠ 1 := by simpa [Hart.push,Hart.pop] using hone
    cases hproc : (s.cpu c).proc with
    | none => simp
    | some p =>
      simp only [wp_bind,wp_holding,wp_panicIf,wp_hart,setHart_self]
      simp [hone,hnoff]

theorem step_switchTo : step s (.switchTo c p) = some t ↔
    (s.cpu c).proc = none ∧ (s.cpu c).noff = 1 ∧ s.lock (.proc p) = ⟨true,some c⟩ ∧
      s.state p = .RUNNABLE ∧ s.context p ≠ .running ∧
      ((s.setState p .RUNNING).setContext p .running).setHart c
        {s.cpu c with proc := some p,intena := (s.context p).restore (s.cpu c).intena} = t := by
  simp only [step_eq_some,exec,switchTo,wp_bind,wp_hart,wp_await,wp_holding,wp_get,wp_set,holding_iff,
    and_assoc]

end Steps

end Xv6.Spin
