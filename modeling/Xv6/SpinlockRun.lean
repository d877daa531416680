import Xv6.Spinlock
import Mathlib.Data.Set.Card

/-! Interrupts over whole runs. What the threads did is recorded beside the state: which
`push_off`s are not undone, how deep each thread is in critical sections, and whether interrupts
were on before it entered the outermost one. `noff` counts the first two and `intena` is the third,
for the thread that is on the CPU. -/
namespace Xv6.Spin

open Sched (Cpu Lock Tid ProcState)

structure Hist where
  pushes : Cpu → ℤ
  depth : Tid → ℤ
  before : Tid → Bool

namespace Hist

variable (h : Hist)

/-- Thread `t` enters a critical section; at depth 0 it is the outermost one. -/
def enter (t : Tid) (sie : Bool) : Hist := {h with
  depth := Function.update h.depth t (h.depth t+1)
  before := Function.update h.before t (if h.depth t = 0 then sie else h.before t)}

def leave (t : Tid) : Hist := {h with depth := Function.update h.depth t (h.depth t-1)}

def push (c : Cpu) (n : ℤ) : Hist := {h with pushes := Function.update h.pushes c (h.pushes c+n)}

/-- A new thread begins inside the critical section that `t` entered. -/
def fork (t : Tid) (p : ℕ) : Hist := {h with
  depth := Function.update h.depth (.proc p) 1
  before := Function.update h.before (.proc p) (h.before t)}

def pass (t t' : Tid) : Hist := {h with before := Function.update h.before t (h.before t')}

end Hist

/-- What a step adds. The lock of a process is handed over by the two switches, so neither thread
enters or leaves a critical section there; `scheduler`, which saves nothing, goes on with what the
process found that switched to it. -/
def record (s : Sys) (h : Hist) : Action → Hist
  | .acquire c _ => h.enter (s.tid c) (s.cpu c).sie
  | .release c _ => h.leave (s.tid c)
  | .pushOff c => (h.enter (s.tid c) (s.cpu c).sie).push c 1
  | .popOff c => (h.leave (s.tid c)).push c (-1)
  | .sched c => h.pass (.sched c) (s.tid c)
  | .switchTo c p => if s.context p = .forkret then h.fork (.sched c) p else h
  | _ => h

def recorded (x : Sys × Hist) (a : Action) : Option (Sys × Hist) :=
  (step x.1 a).map fun t => (t,record x.1 x.2 a)

def start (sie : Cpu → Bool) (state : ℕ → ProcState) : Sys × Hist :=
  (init sie state,⟨fun _ => 0,fun _ => 0,fun _ => false⟩)

def Sys.held (s : Sys) (c : Cpu) : Set Lock := {l | s.lock l = ⟨true,some c⟩}

section Noff

variable {n : Int32}

theorem toInt_add_one (h : n ≠ Int32.maxValue) : (n+1).toInt = n.toInt+1 := by
  have hne : n.toInt ≠ 2147483647 := fun heq => h (Int32.toInt_inj.mp heq)
  have hlt := n.toInt_lt
  have hle := n.le_toInt
  rw [Int32.toInt_add,show (1 : Int32).toInt = 1 from rfl,Int.bmod_eq_of_le (by omega) (by omega)]

theorem toInt_sub_one (h : 1 ≤ n) : (n-1).toInt = n.toInt-1 := by
  have hle : 1 ≤ n.toInt := Int32.le_iff_toInt_le.mp h
  have hlt := n.toInt_lt
  rw [Int32.toInt_sub,show (1 : Int32).toInt = 1 from rfl,Int.bmod_eq_of_le (by omega) (by omega)]

theorem eq_zero_iff : n = 0 ↔ n.toInt = 0 := Int32.toInt_inj.symm

end Noff

/-- The CPU's fields while it executes a thread at depth `d`, before whose outermost critical section
interrupts were as `b` says. -/
structure Nested (k : Hart) (d : ℤ) (b : Bool) : Prop where
  noff : k.noff.toInt = d
  nonneg : 0 ≤ d
  off : k.noff ≠ 0 → k.sie = false
  intena : k.noff ≠ 0 → k.intena = b

namespace Nested

variable {k : Hart} {d : ℤ} {b : Bool}

theorem push (h : Nested k d b) (hmax : k.noff ≠ Int32.maxValue) :
    Nested k.push (d+1) (if d = 0 then k.sie else b) where
  noff := by
    rw [← h.noff]
    exact toInt_add_one hmax
  nonneg := by
    have := h.nonneg
    omega
  off := fun _ => rfl
  intena := by
    intro _
    have hzero : k.noff = 0 ↔ d = 0 := by rw [eq_zero_iff,h.noff]
    by_cases hd : d = 0
    · rw [if_pos hd,Hart.push,if_pos (hzero.mpr hd)]
    · rw [if_neg hd,Hart.push,if_neg (fun h0 => hd (hzero.mp h0))]
      exact h.intena fun h0 => hd (hzero.mp h0)

theorem ne_zero (h : 1 ≤ k.noff) : k.noff ≠ 0 := by
  intro h0
  rw [h0] at h
  exact absurd h (by decide)

theorem pop (h : Nested k d b) (hpos : 1 ≤ k.noff) : Nested k.pop (d-1) b where
  noff := by
    rw [← h.noff]
    exact toInt_sub_one hpos
  nonneg := by
    have hle : 1 ≤ k.noff.toInt := Int32.le_iff_toInt_le.mp hpos
    have := h.noff
    omega
  off := by
    intro h0
    have hne : k.noff-1 ≠ 0 := h0
    simp [Hart.pop,hne]
  intena := fun _ => h.intena (ne_zero hpos)

theorem sie_pop (h : Nested k d b) (hpos : 1 ≤ k.noff) (h0 : k.pop.noff = 0) : k.pop.sie = b := by
  have hne : k.noff-1 = 0 := h0
  simp [Hart.pop,hne,h.intena (ne_zero hpos)]

end Nested

/-- `scheduler` stands at depth 1 while a process runs on its CPU, and so does a process that has
called `sched`, with its local `intena`. -/
structure Threads (s : Sys) (h : Hist) : Prop where
  nested : ∀ c, Nested (s.cpu c) (h.depth (s.tid c)) (h.before (s.tid c))
  idle : ∀ c p, (s.cpu c).proc = some p → h.depth (.sched c) = 1
  running : ∀ c p, (s.cpu c).proc = some p → s.context p = .running
  alone : ∀ c d p, (s.cpu c).proc = some p → (s.cpu d).proc = some p → c = d
  parked : ∀ p i, s.context p = .sched i → h.depth (.proc p) = 1 ∧ h.before (.proc p) = i

section Tid

variable {s : Sys} {c d : Cpu} {p : ℕ}

theorem tid_of_none (h : (s.cpu c).proc = none) : s.tid c = .sched c := by simp [Sys.tid,h]

theorem tid_of_some (h : (s.cpu c).proc = some p) : s.tid c = .proc p := by simp [Sys.tid,h]

theorem tid_eq_sched : s.tid c = .sched d ↔ c = d ∧ (s.cpu c).proc = none := by
  cases h : (s.cpu c).proc with
  | none => simp [tid_of_none h]
  | some p => simp [tid_of_some h]

theorem tid_eq_proc : s.tid c = .proc p ↔ (s.cpu c).proc = some p := by
  cases h : (s.cpu c).proc with
  | none => simp [tid_of_none h]
  | some q => simp [tid_of_some h]

@[simp] theorem setHart_of_ne {k : Hart} (hd : d ≠ c) : (s.setHart c k).cpu d = s.cpu d := by
  simp [Sys.setHart,hd]

theorem tid_setHart {k : Hart} (hk : k.proc = (s.cpu c).proc) (d : Cpu) :
    (s.setHart c k).tid d = s.tid d := by
  rcases eq_or_ne d c with rfl | hd
  · simp [Sys.tid,hk]
  · simp [Sys.tid,hd]

theorem proc_setHart {k : Hart} (hk : k.proc = (s.cpu c).proc) (d : Cpu) :
    ((s.setHart c k).cpu d).proc = (s.cpu d).proc := by
  rcases eq_or_ne d c with rfl | hd
  · simp [hk]
  · simp [hd]

theorem noff_setHart {k : Hart} (hk : k.noff = (s.cpu c).noff) (d : Cpu) :
    ((s.setHart c k).cpu d).noff = (s.cpu d).noff := by
  rcases eq_or_ne d c with rfl | hd
  · simp [hk]
  · simp [hd]

@[simp] theorem setContext_self {k : Context} : (s.setContext p k).context p = k :=
  Function.update_self ..

theorem setContext_of_ne {k : Context} {q : ℕ} (hq : q ≠ p) :
    (s.setContext p k).context q = s.context q := Function.update_of_ne hq ..

end Tid

namespace Threads

variable {s : Sys} {h h' : Hist} {c : Cpu} {p : ℕ}

theorem tid_inj (ht : Threads s h) {d : Cpu} (heq : s.tid c = s.tid d) : c = d := by
  cases hc : (s.cpu c).proc with
  | none =>
    rw [tid_of_none hc,eq_comm,tid_eq_sched] at heq
    exact heq.1.symm
  | some p =>
    rw [tid_of_some hc,eq_comm,tid_eq_proc] at heq
    exact ht.alone c d p hc heq

theorem turn (ht : Threads s h) {k : Hart} (hproc : k.proc = (s.cpu c).proc)
    (hk : Nested k (h'.depth (s.tid c)) (h'.before (s.tid c)))
    (hdepth : ∀ t, t ≠ s.tid c → h'.depth t = h.depth t)
    (hbefore : ∀ t, t ≠ s.tid c → h'.before t = h.before t) : Threads (s.setHart c k) h' where
  nested := by
    intro d
    rw [tid_setHart hproc]
    rcases eq_or_ne d c with rfl | hd
    · rwa [setHart_self]
    · have hne : s.tid d ≠ s.tid c := fun heq => hd (ht.tid_inj heq)
      rw [setHart_of_ne hd,hdepth _ hne,hbefore _ hne]
      exact ht.nested d
  idle := by
    intro d p hd
    rw [proc_setHart hproc] at hd
    rw [hdepth]
    · exact ht.idle d p hd
    · intro heq
      obtain ⟨rfl,hnone⟩ := tid_eq_sched.mp heq.symm
      rw [hd] at hnone
      cases hnone
  running := by
    intro d p hd
    rw [proc_setHart hproc] at hd
    exact ht.running d p hd
  alone := by
    intro d e p hd he
    rw [proc_setHart hproc] at hd he
    exact ht.alone d e p hd he
  parked := by
    intro p i hp
    have hne : Tid.proc p ≠ s.tid c := by
      intro heq
      have hrun := ht.running c p (tid_eq_proc.mp heq.symm)
      rw [setHart_context] at hp
      rw [hp] at hrun
      cases hrun
    rw [hdepth _ hne,hbefore _ hne]
    exact ht.parked p i hp

theorem congr (ht : Threads s h) {t : Sys} (hcpu : t.cpu = s.cpu) (hctx : t.context = s.context)
    (hdepth : h'.depth = h.depth) (hbefore : h'.before = h.before) : Threads t h' := by
  obtain ⟨cpu,lock,state,context⟩ := t
  obtain ⟨pushes,depth,before⟩ := h'
  cases hcpu
  cases hctx
  cases hdepth
  cases hbefore
  exact ⟨ht.nested,ht.idle,ht.running,ht.alone,ht.parked⟩

theorem enter (ht : Threads s h) (hmax : (s.cpu c).noff ≠ Int32.maxValue) :
    Threads (s.setHart c (s.cpu c).push) (h.enter (s.tid c) (s.cpu c).sie) := by
  refine ht.turn rfl ?_ (fun t hne => Function.update_of_ne hne ..)
    fun t hne => Function.update_of_ne hne ..
  simp only [Hist.enter,Function.update_self]
  exact (ht.nested c).push hmax

theorem leave (ht : Threads s h) (hpos : 1 ≤ (s.cpu c).noff) :
    Threads (s.setHart c (s.cpu c).pop) (h.leave (s.tid c)) := by
  refine ht.turn rfl ?_ (fun t hne => Function.update_of_ne hne ..) fun _ _ => rfl
  simp only [Hist.leave,Function.update_self]
  exact (ht.nested c).pop hpos

theorem intr (ht : Threads s h) (h0 : (s.cpu c).noff = 0) (b : Bool) :
    Threads (s.setHart c {s.cpu c with sie := b}) h := by
  have hc := ht.nested c
  exact ht.turn rfl ⟨hc.noff,hc.nonneg,fun hne => absurd h0 hne,fun hne => absurd h0 hne⟩
    (fun _ _ => rfl) fun _ _ => rfl

theorem alloc (ht : Threads s h) (hp : s.context p ≠ .running) :
    Threads (s.setContext p .forkret) h where
  nested := ht.nested
  idle := ht.idle
  running := by
    intro c q hq
    have hrun := ht.running c q hq
    have hne : q ≠ p := by
      rintro rfl
      exact hp hrun
    rwa [setContext_of_ne hne]
  alone := ht.alone
  parked := by
    intro q i hq
    rcases eq_or_ne q p with rfl | hne
    · rw [setContext_self] at hq
      cases hq
    · rw [setContext_of_ne hne] at hq
      exact ht.parked q i hq

/-- `sched`: the process keeps its `intena`, and `scheduler` gets the CPU's. -/
theorem sched (ht : Threads s h) (hp : (s.cpu c).proc = some p) (hone : (s.cpu c).noff = 1) :
    Threads ((s.setContext p (.sched (s.cpu c).intena)).setHart c {s.cpu c with proc := none})
      (h.pass (.sched c) (s.tid c)) := by
  have hc := ht.nested c
  have hne0 : (s.cpu c).noff ≠ 0 := by
    rw [hone]
    decide
  have hd1 : h.depth (.proc p) = 1 := by
    rw [← tid_of_some hp,← hc.noff,hone]
    rfl
  rw [tid_of_some hp] at hc ⊢
  constructor
  case nested =>
    intro d
    rcases eq_or_ne d c with rfl | hd
    · rw [tid_of_none (by simp),setHart_self]
      simp only [Hist.pass,Function.update_self]
      refine ⟨?_,?_,hc.off,hc.intena⟩
      · rw [ht.idle d p hp,hone]
        rfl
      · rw [ht.idle d p hp]
        decide
    · have htid : ((s.setContext p (.sched (s.cpu c).intena)).setHart c
          {s.cpu c with proc := none}).tid d = s.tid d := by simp [Sys.tid,hd,Sys.setContext]
      have hne : s.tid d ≠ .sched c := fun heq => hd (tid_eq_sched.mp heq).1
      rw [htid,setHart_of_ne hd]
      simp only [Hist.pass,Function.update_of_ne hne]
      exact ht.nested d
  case idle =>
    intro d q hq
    rcases eq_or_ne d c with rfl | hd
    · simp at hq
    · rw [setHart_of_ne hd] at hq
      exact ht.idle d q hq
  case running =>
    intro d q hq
    rcases eq_or_ne d c with rfl | hd
    · simp at hq
    · rw [setHart_of_ne hd] at hq
      have hqp : q ≠ p := by
        rintro rfl
        exact hd (ht.alone d c q hq hp)
      rw [setHart_context,setContext_of_ne hqp]
      exact ht.running d q hq
  case alone =>
    intro d e q hq hq'
    rcases eq_or_ne d c with rfl | hd
    · simp at hq
    · rcases eq_or_ne e c with rfl | he
      · simp at hq'
      · rw [setHart_of_ne hd] at hq
        rw [setHart_of_ne he] at hq'
        exact ht.alone d e q hq hq'
  case parked =>
    intro q i hq
    simp only [Hist.pass,Function.update_of_ne (show Tid.proc q ≠ .sched c from nofun)]
    rw [setHart_context] at hq
    rcases eq_or_ne q p with rfl | hqp
    · rw [setContext_self] at hq
      cases hq
      exact ⟨hd1,(hc.intena hne0).symm⟩
    · rw [setContext_of_ne hqp] at hq
      exact ht.parked q i hq

/-- What a process finds when it is switched to: its own record, or that of `scheduler`. -/
theorem switched (ht : Threads s h) (hnone : (s.cpu c).proc = none) (hone : (s.cpu c).noff = 1)
    (hp : s.context p ≠ .running) :
    Nested {s.cpu c with proc := some p,intena := (s.context p).restore (s.cpu c).intena}
      ((record s h (.switchTo c p)).depth (.proc p)) ((record s h (.switchTo c p)).before (.proc p)) := by
  have hc := ht.nested c
  rw [tid_of_none hnone] at hc
  have hne0 : (s.cpu c).noff ≠ 0 := by
    rw [hone]
    decide
  have hnoff : (s.cpu c).noff.toInt = 1 := by
    rw [hone]
    rfl
  cases hk : s.context p with
  | running => exact absurd hk hp
  | forkret =>
    rw [record,if_pos hk]
    simp only [Hist.fork,Function.update_self,Context.restore]
    exact ⟨hnoff,by decide,hc.off,fun _ => hc.intena hne0⟩
  | sched i =>
    obtain ⟨hd,hb⟩ := ht.parked p i hk
    rw [record,if_neg (by simp [hk]),hd,hb]
    exact ⟨hnoff,by decide,hc.off,fun _ => rfl⟩

theorem record_switchTo {t : Tid} (hne : t ≠ .proc p) :
    (record s h (.switchTo c p)).depth t = h.depth t ∧
      (record s h (.switchTo c p)).before t = h.before t := by
  rw [record]
  split
  · exact ⟨Function.update_of_ne hne ..,Function.update_of_ne hne ..⟩
  · exact ⟨rfl,rfl⟩

theorem switchTo (ht : Threads s h) (hnone : (s.cpu c).proc = none) (hone : (s.cpu c).noff = 1)
    (hp : s.context p ≠ .running) :
    Threads (((s.setState p .RUNNING).setContext p .running).setHart c
      {s.cpu c with proc := some p,intena := (s.context p).restore (s.cpu c).intena})
      (record s h (.switchTo c p)) := by
  have hoff : ∀ d, (s.cpu d).proc ≠ some p := fun d hd => hp (ht.running d p hd)
  constructor
  case nested =>
    intro d
    rcases eq_or_ne d c with rfl | hd
    · rw [tid_of_some (p := p) (by simp),setHart_self]
      exact ht.switched hnone hone hp
    · have htid : (((s.setState p .RUNNING).setContext p .running).setHart c
          {s.cpu c with proc := some p,intena := (s.context p).restore (s.cpu c).intena}).tid d =
            s.tid d := by simp [Sys.tid,hd,Sys.setContext,Sys.setState]
      have hne : s.tid d ≠ .proc p := fun heq => hoff d (tid_eq_proc.mp heq)
      rw [htid,setHart_of_ne hd,(record_switchTo hne).1,(record_switchTo hne).2]
      exact ht.nested d
  case idle =>
    intro d q hq
    rw [(record_switchTo (show Tid.sched d ≠ .proc p from nofun)).1]
    rcases eq_or_ne d c with rfl | hd
    · have hc := ht.nested d
      rw [tid_of_none hnone] at hc
      rw [← hc.noff,hone]
      rfl
    · rw [setHart_of_ne hd] at hq
      exact ht.idle d q hq
  case running =>
    intro d q hq
    rw [setHart_context]
    rcases eq_or_ne q p with rfl | hqp
    · exact setContext_self
    · rw [setContext_of_ne hqp]
      rcases eq_or_ne d c with rfl | hd
      · rw [setHart_self] at hq
        exact absurd (Option.some.inj hq).symm hqp
      · rw [setHart_of_ne hd] at hq
        exact ht.running d q hq
  case alone =>
    intro d e q hq hq'
    rcases eq_or_ne d c with rfl | hd
    · rw [setHart_self] at hq
      cases hq
      by_contra hne
      rw [setHart_of_ne (Ne.symm hne)] at hq'
      exact hoff e hq'
    · rw [setHart_of_ne hd] at hq
      rcases eq_or_ne e c with rfl | he
      · rw [setHart_self] at hq'
        cases hq'
        exact absurd hq (hoff d)
      · rw [setHart_of_ne he] at hq'
        exact ht.alone d e q hq hq'
  case parked =>
    intro q i hq
    rw [setHart_context] at hq
    have hqp : q ≠ p := by
      rintro rfl
      rw [setContext_self] at hq
      cases hq
    have hne : Tid.proc q ≠ .proc p := fun heq => hqp (Tid.proc.inj heq)
    rw [setContext_of_ne hqp] at hq
    rw [(record_switchTo hne).1,(record_switchTo hne).2]
    exact ht.parked q i hq

end Threads

/-- `noff` counts the locks that the CPU holds and the `push_off`s that are not undone. -/
structure Count (s : Sys) (h : Hist) : Prop where
  finite : ∀ c, (s.held c).Finite
  noff : ∀ c, (s.cpu c).noff.toInt = (s.held c).ncard+h.pushes c

section Held

variable {s : Sys} {c d : Cpu} {l : Lock}

theorem held_acquire :
    (s.setLock l ⟨true,some c⟩).held c = insert l (s.held c) := by
  ext x
  rcases eq_or_ne x l with rfl | hx
  · simp [Sys.held,Sys.setLock]
  · simp [Sys.held,Sys.setLock,hx]

theorem held_release : (s.setLock l ⟨false,none⟩).held c = s.held c \ {l} := by
  ext x
  rcases eq_or_ne x l with rfl | hx
  · simp [Sys.held,Sys.setLock]
  · simp [Sys.held,Sys.setLock,hx]

theorem held_of_ne {lk : Spinlock} (hold : s.lock l ≠ ⟨true,some d⟩)
    (hnew : lk ≠ ⟨true,some d⟩) : (s.setLock l lk).held d = s.held d := by
  ext x
  rcases eq_or_ne x l with rfl | hx
  · simp [Sys.held,Sys.setLock,hold,hnew]
  · simp [Sys.held,Sys.setLock,hx]

end Held

namespace Count

variable {s : Sys} {h h' : Hist} {c : Cpu} {l : Lock}

theorem turn (hn : Count s h) {k : Hart} {n : ℤ} (hk : k.noff.toInt = (s.cpu c).noff.toInt+n)
    (hpush : h'.pushes = Function.update h.pushes c (h.pushes c+n)) : Count (s.setHart c k) h' where
  finite := hn.finite
  noff := by
    intro d
    change _ = ((s.held d).ncard : ℤ)+_
    rcases eq_or_ne d c with rfl | hd
    · rw [setHart_self,hk,hn.noff,hpush,Function.update_self]
      ring
    · rw [setHart_of_ne hd,hn.noff,hpush,Function.update_of_ne hd]

theorem acquire (hn : Count s h) {k : Hart} (hl : (s.lock l).locked = false)
    (hk : k.noff.toInt = (s.cpu c).noff.toInt+1) (hpush : h'.pushes = h.pushes) :
    Count ((s.setHart c k).setLock l ⟨true,some c⟩) h' := by
  have hfree : ∀ d, s.lock l ≠ ⟨true,some d⟩ := by
    intro d heq
    rw [heq] at hl
    cases hl
  have hheld : ∀ d, ((s.setHart c k).setLock l ⟨true,some c⟩).held d =
      if d = c then insert l (s.held c) else s.held d := by
    intro d
    rcases eq_or_ne d c with rfl | hd
    · rw [if_pos rfl]
      exact held_acquire
    · rw [if_neg hd]
      refine held_of_ne (s := s.setHart c k) (hfree d) ?_
      simp [hd.symm]
  constructor
  case finite =>
    intro d
    rw [hheld]
    split
    · exact (hn.finite c).insert l
    · exact hn.finite d
  case noff =>
    intro d
    rw [hheld,hpush]
    change ((s.setHart c k).cpu d).noff.toInt = _
    rcases eq_or_ne d c with rfl | hd
    · have hmem : l ∉ s.held d := hfree d
      rw [setHart_self,if_pos rfl,hk,hn.noff,Set.ncard_insert_of_notMem hmem (hn.finite d)]
      push_cast
      ring
    · rw [setHart_of_ne hd,if_neg hd,hn.noff]

theorem release (hn : Count s h) {k : Hart} (hl : s.lock l = ⟨true,some c⟩)
    (hk : k.noff.toInt = (s.cpu c).noff.toInt-1) (hpush : h'.pushes = h.pushes) :
    Count ((s.setHart c k).setLock l ⟨false,none⟩) h' := by
  have hheld : ∀ d, ((s.setHart c k).setLock l ⟨false,none⟩).held d =
      if d = c then s.held c \ {l} else s.held d := by
    intro d
    rcases eq_or_ne d c with rfl | hd
    · rw [if_pos rfl]
      exact held_release
    · rw [if_neg hd]
      refine held_of_ne (s := s.setHart c k) ?_ (by simp)
      rw [setHart_lock,hl]
      simp [hd.symm]
  constructor
  case finite =>
    intro d
    rw [hheld]
    split
    · exact (hn.finite c).sdiff
    · exact hn.finite d
  case noff =>
    intro d
    rw [hheld,hpush]
    change ((s.setHart c k).cpu d).noff.toInt = _
    rcases eq_or_ne d c with rfl | hd
    · have hmem : l ∈ s.held d := hl
      rw [setHart_self,if_pos rfl,hk,hn.noff,← Set.ncard_sdiff_singleton_add_one hmem (hn.finite d)]
      push_cast
      ring
    · rw [setHart_of_ne hd,if_neg hd,hn.noff]

theorem keep (hn : Count s h) {t : Sys} (hlock : t.lock = s.lock)
    (hnoff : ∀ d, (t.cpu d).noff = (s.cpu d).noff) (hpush : h'.pushes = h.pushes) : Count t h' where
  finite := by
    intro d
    rw [Sys.held,hlock]
    exact hn.finite d
  noff := by
    intro d
    rw [Sys.held,hlock,hnoff,hpush]
    exact hn.noff d

end Count

structure Inv (x : Sys × Hist) : Prop where
  threads : Threads x.1 x.2
  count : Count x.1 x.2

def Action.enters : Action → Option Cpu
  | .acquire c _ | .pushOff c => some c
  | _ => none

/-- `noff`, an `int`, does not overflow: fewer than 2^31-1 locks are held and `push_off`s not undone
where one more is added. -/
def Shallow (x : Sys × Hist) (a : Action) : Prop :=
  ∀ c ∈ a.enters, (x.1.cpu c).noff ≠ Int32.maxValue

instance (x : Sys × Hist) (a : Action) : Decidable (Shallow x a) :=
  inferInstanceAs (Decidable (∀ c ∈ a.enters, _))

section Inv

variable {x y : Sys × Hist} {a : Action} {c : Cpu}

theorem inv_start (sie : Cpu → Bool) (state : ℕ → ProcState) : Inv (start sie state) where
  threads := {
    nested := fun c => ⟨rfl,le_rfl,fun h => absurd rfl h,fun h => absurd rfl h⟩
    idle := nofun
    running := nofun
    alone := nofun
    parked := nofun }
  count := by
    have hheld : ∀ c, (init sie state).held c = ∅ := by
      intro c
      ext l
      simp [Sys.held,init]
    refine ⟨fun c => ?_,fun c => ?_⟩
    · change ((init sie state).held c).Finite
      rw [hheld]
      exact Set.finite_empty
    · change ((init sie state).cpu c).noff.toInt = ((init sie state).held c).ncard+0
      rw [hheld,Set.ncard_empty]
      rfl

theorem Inv.off (hi : Inv x) (c : Cpu) : (x.1.cpu c).noff ≠ 0 → (x.1.cpu c).sie = false :=
  (hi.threads.nested c).off

theorem inv_step (hi : Inv x) (hshallow : Shallow x a) (hstep : recorded x a = some y) : Inv y := by
  obtain ⟨s,h⟩ := x
  obtain ⟨ht,hn⟩ := hi
  obtain ⟨t,hst,rfl⟩ := Option.map_eq_some_iff.mp hstep
  cases a with
  | acquire c l =>
    obtain ⟨hl,rfl⟩ := step_acquire.mp hst
    have hmax := hshallow c rfl
    exact ⟨(ht.enter hmax).congr rfl rfl rfl rfl,hn.acquire hl (toInt_add_one hmax) rfl⟩
  | release c l =>
    obtain ⟨hl,-,hpos,rfl⟩ := step_release.mp hst
    exact ⟨(ht.leave hpos).congr rfl rfl rfl rfl,hn.release hl (toInt_sub_one hpos) rfl⟩
  | pushOff c =>
    obtain rfl := step_pushOff.mp hst
    have hmax := hshallow c rfl
    exact ⟨(ht.enter hmax).congr rfl rfl rfl rfl,hn.turn (toInt_add_one hmax) rfl⟩
  | popOff c =>
    obtain ⟨-,hpos,rfl⟩ := step_popOff.mp hst
    exact ⟨(ht.leave hpos).congr rfl rfl rfl rfl,hn.turn (toInt_sub_one hpos) rfl⟩
  | intrOn c =>
    obtain ⟨h0,rfl⟩ := (step_intr (b := true)).mp hst
    exact ⟨ht.intr h0 true,hn.keep rfl (noff_setHart rfl) rfl⟩
  | intrOff c =>
    obtain ⟨h0,rfl⟩ := (step_intr (b := false)).mp hst
    exact ⟨ht.intr h0 false,hn.keep rfl (noff_setHart rfl) rfl⟩
  | store c p state =>
    obtain ⟨-,rfl⟩ := step_store.mp hst
    exact ⟨ht.congr rfl rfl rfl rfl,hn.keep rfl (fun _ => rfl) rfl⟩
  | alloc c p =>
    obtain ⟨-,hp,rfl⟩ := step_alloc.mp hst
    exact ⟨ht.alloc hp,hn.keep rfl (fun _ => rfl) rfl⟩
  | sched c =>
    obtain ⟨p,hp,-,hone,-,rfl⟩ := (step_sched (ht.nested c).off).mp hst
    exact ⟨ht.sched hp hone,hn.keep rfl (noff_setHart rfl) rfl⟩
  | switchTo c p =>
    obtain ⟨hnone,hone,-,-,hp,rfl⟩ := step_switchTo.mp hst
    refine ⟨ht.switchTo hnone hone hp,hn.keep rfl (noff_setHart rfl) ?_⟩
    rw [record]
    split <;> rfl

theorem Nested.push_ne_zero {k : Hart} {d : ℤ} {b : Bool} (h : Nested k d b) : k.push.noff ≠ 0 := by
  intro h0
  have hzero : (k.noff+1).toInt = 0 := eq_zero_iff.mp h0
  by_cases hmax : k.noff = Int32.maxValue
  · rw [hmax] at hzero
    exact absurd hzero (by decide)
  · have hnoff := h.noff
    have hnonneg := h.nonneg
    rw [toInt_add_one hmax] at hzero
    omega

/-- Where `noff` returns to 0, interrupts are as they were before the thread's outermost critical
section. -/
theorem Inv.restored (hi : Inv x) (hstep : recorded x a = some y) (hne : (x.1.cpu c).noff ≠ 0)
    (h0 : (y.1.cpu c).noff = 0) : (y.1.cpu c).sie = x.2.before (x.1.tid c) := by
  obtain ⟨s,h⟩ := x
  obtain ⟨t,hst,rfl⟩ := Option.map_eq_some_iff.mp hstep
  have hc := hi.threads.nested c
  have hsame : (t.cpu c).noff ≠ (s.cpu c).noff := fun heq => hne (heq.symm.trans h0)
  have hother : ∀ {d : Cpu} {k : Hart}, t.cpu = (s.setHart d k).cpu → d = c := by
    intro d k ht
    by_contra hd
    rw [ht,setHart_of_ne (Ne.symm hd)] at hsame
    exact hsame rfl
  have hpush : ∀ {d : Cpu}, t.cpu = (s.setHart d (s.cpu d).push).cpu → False := by
    intro d ht
    obtain rfl := hother ht
    rw [ht,setHart_self] at h0
    exact hc.push_ne_zero h0
  have hpop : ∀ {d : Cpu}, 1 ≤ (s.cpu d).noff → t.cpu = (s.setHart d (s.cpu d).pop).cpu →
      (t.cpu c).sie = h.before (s.tid c) := by
    intro d hpos ht
    obtain rfl := hother ht
    rw [ht,setHart_self] at h0 ⊢
    exact hc.sie_pop hpos h0
  cases a with
  | acquire d l =>
    obtain ⟨-,rfl⟩ := step_acquire.mp hst
    exact (hpush rfl).elim
  | release d l =>
    obtain ⟨-,-,hpos,rfl⟩ := step_release.mp hst
    exact hpop hpos rfl
  | pushOff d =>
    obtain rfl := step_pushOff.mp hst
    exact (hpush rfl).elim
  | popOff d =>
    obtain ⟨-,hpos,rfl⟩ := step_popOff.mp hst
    exact hpop hpos rfl
  | intrOn d =>
    obtain ⟨-,rfl⟩ := (step_intr (b := true)).mp hst
    exact (hsame (noff_setHart (by rfl) c)).elim
  | intrOff d =>
    obtain ⟨-,rfl⟩ := (step_intr (b := false)).mp hst
    exact (hsame (noff_setHart (by rfl) c)).elim
  | store d p state =>
    obtain ⟨-,rfl⟩ := step_store.mp hst
    exact absurd rfl hsame
  | alloc d p =>
    obtain ⟨-,-,rfl⟩ := step_alloc.mp hst
    exact absurd rfl hsame
  | sched d =>
    obtain ⟨p,-,-,-,-,rfl⟩ := (step_sched (hi.off d)).mp hst
    exact (hsame (noff_setHart (by rfl) c)).elim
  | switchTo d p =>
    obtain ⟨-,-,-,-,-,rfl⟩ := step_switchTo.mp hst
    exact (hsame (noff_setHart (by rfl) c)).elim

structure Returns (s : Sys) (h : Hist) (c : Cpu) : Prop where
  acquire : ∀ l, (s.lock l).locked = false → (step s (.acquire c l)).isSome
  release : ∀ l, s.lock l = ⟨true,some c⟩ → (step s (.release c l)).isSome
  pushOff : (step s (.pushOff c)).isSome
  popOff : 0 < h.pushes c → (step s (.popOff c)).isSome
  sched : ∀ p, (s.cpu c).proc = some p → s.lock (.proc p) = ⟨true,some c⟩ → (s.cpu c).noff = 1 →
    s.state p ≠ .RUNNING → (step s (.sched c)).isSome

theorem Inv.returns (hi : Inv x) (hpush : 0 ≤ x.2.pushes c) : Returns x.1 x.2 c := by
  obtain ⟨s,h⟩ := x
  have hnoff := hi.count.noff c
  have hready : 1 ≤ (s.cpu c).noff.toInt → 1 ≤ (s.cpu c).noff ∧ (s.cpu c).sie = false := by
    intro hpos
    refine ⟨Int32.le_iff_toInt_le.mpr hpos,hi.off c fun h0 => ?_⟩
    rw [eq_zero_iff.mp h0] at hpos
    omega
  constructor
  case acquire => exact fun l hl => Option.isSome_iff_exists.mpr ⟨_,step_acquire.mpr ⟨hl,rfl⟩⟩
  case release =>
    intro l hl
    have hcard : 0 < (s.held c).ncard := (Set.ncard_pos (hi.count.finite c)).mpr ⟨l,hl⟩
    simp only at hnoff hpush
    obtain ⟨hpos,hoff⟩ := hready (by omega)
    exact Option.isSome_iff_exists.mpr ⟨_,step_release.mpr ⟨hl,hoff,hpos,rfl⟩⟩
  case pushOff => exact Option.isSome_iff_exists.mpr ⟨_,step_pushOff.mpr rfl⟩
  case popOff =>
    intro hlt
    simp only at hnoff hlt
    obtain ⟨hpos,hoff⟩ := hready (by omega)
    exact Option.isSome_iff_exists.mpr ⟨_,step_popOff.mpr ⟨hoff,hpos,rfl⟩⟩
  case sched =>
    intro p hp hl hone hst
    exact Option.isSome_iff_exists.mpr ⟨_,(step_sched (hi.off c)).mpr ⟨p,hp,hl,hone,hst,rfl⟩⟩

end Inv

/-- Over every run of calls on all CPUs, in any order and with any locks held, in which `noff` does
not overflow. Interrupts are off where `noff` is positive; `noff` counts the locks held and the
`push_off`s not undone, and what the thread on the CPU has entered; where it returns to 0, interrupts
are as the thread found them before its outermost critical section, whatever other threads ran
while it was in `sched`; the `intena` that it keeps there is what it found; and calls that keep to the
rules return. -/
theorem interrupts_survive {sie : Cpu → Bool} {state : ℕ → ProcState} {as : List Action}
    {x : Sys × Hist} (hrun : Machine.run recorded (start sie state) as = some x)
    (hshallow : Machine.Along recorded Shallow (start sie state) as) :
    (∀ c, 0 < (x.1.cpu c).noff → (x.1.cpu c).sie = false) ∧
    (∀ c, (x.1.cpu c).noff.toInt = (x.1.held c).ncard+x.2.pushes c ∧
      (x.1.cpu c).noff.toInt = x.2.depth (x.1.tid c)) ∧
    (∀ a y c, recorded x a = some y → (x.1.cpu c).noff ≠ 0 → (y.1.cpu c).noff = 0 →
      (y.1.cpu c).sie = x.2.before (x.1.tid c)) ∧
    (∀ p i, x.1.context p = .sched i → i = x.2.before (.proc p)) ∧
    ∀ c, 0 ≤ x.2.pushes c → Returns x.1 x.2 c := by
  have hi : Inv x := Machine.run_invariant_along (fun _ _ _ hi ha hst => inv_step hi ha hst)
    (inv_start sie state) hshallow hrun
  refine ⟨fun c hpos => ?_,fun c => ⟨hi.count.noff c,(hi.threads.nested c).noff⟩,
    fun a y c => hi.restored,fun p i hp => (hi.threads.parked p i hp).2.symm,fun c => hi.returns⟩
  refine hi.off c fun h0 => ?_
  rw [h0] at hpos
  exact absurd hpos (by decide)

/-- Process 0 takes the lock of a condition and its own, lets the first go before the second, and
sleeps. `scheduler` turns interrupts on, and the process is woken and switched to. -/
def sleepRound : List Action :=
  [.acquire 0 (.proc 0),.switchTo 0 0,.release 0 (.proc 0),.acquire 0 (.cond 0),.acquire 0 (.proc 0),
    .release 0 (.cond 0),.store 0 0 .SLEEPING,.sched 0,.release 0 (.proc 0),.intrOn 0,
    .acquire 0 (.proc 0),.store 0 0 .RUNNABLE,.switchTo 0 0]

/-- It lets its lock go and has interrupts on, as before it took the first of the two. -/
theorem interrupts_survive_sleepRound :
    ∃ x, Machine.run recorded (start (fun _ => true) fun _ => .RUNNABLE) sleepRound = some x ∧
      x.1.tid 0 = .proc 0 ∧ x.2.before (.proc 0) = true ∧
      ∀ y, recorded x (.release 0 (.proc 0)) = some y → (y.1.cpu 0).noff = 0 →
        (y.1.cpu 0).sie = true := by
  have hend : (Machine.run recorded (start (fun _ => true) fun _ => .RUNNABLE) sleepRound).any
      (fun x => x.1.tid 0 = .proc 0 ∧ x.2.before (.proc 0) = true ∧ (x.1.cpu 0).noff ≠ 0) = true := by
    decide +kernel
  obtain ⟨x,hx,htid,hbefore,hne⟩ := Machine.exists_run_of_any hend
  refine ⟨x,hx,htid,hbefore,fun y hy h0 => ?_⟩
  have hshallow : Machine.Along recorded Shallow (start (fun _ => true) fun _ => .RUNNABLE)
      sleepRound := by decide +kernel
  rw [(interrupts_survive hx hshallow).2.2.1 _ y 0 hy hne h0,htid,hbefore]

/-- `scheduler` on CPU 0, with interrupts on, takes the lock of process 0 and switches to it. The
process lets the lock go, returns to user space, is interrupted there, and yields. `scheduler` lets
the lock go. -/
def round : List Action :=
  [.acquire 0 (.proc 0),.switchTo 0 0,.release 0 (.proc 0),.intrOff 0,.acquire 0 (.proc 0),
    .store 0 0 .RUNNABLE,.sched 0,.release 0 (.proc 0)]

theorem run_pushOff (c : Cpu) (n : ℕ) (x : Sys × Hist) :
    ∃ y, Machine.run recorded x (List.replicate n (.pushOff c)) = some y ∧ y.1.lock = x.1.lock ∧
      (y.1.cpu c).noff = (x.1.cpu c).noff+.ofNat n ∧ y.2.pushes c = x.2.pushes c+n := by
  induction n generalizing x with
  | zero => exact ⟨x,rfl,rfl,by simp,by simp⟩
  | succ n ih =>
    have hstep : recorded x (.pushOff c) =
        some (x.1.setHart c (x.1.cpu c).push,record x.1 x.2 (.pushOff c)) := by
      rw [recorded,step_pushOff.mpr rfl,Option.map_some]
    obtain ⟨y,hy,hlock,hnoff,hpush⟩ := ih (x.1.setHart c (x.1.cpu c).push,record x.1 x.2 (.pushOff c))
    refine ⟨y,Machine.run_cons.mpr ⟨_,hstep,hy⟩,hlock,?_,?_⟩
    · rw [hnoff,setHart_self,Hart.push,Int32.ofNat_add,Int32.add_assoc,Int32.add_comm (.ofNat n)]
      rfl
    · have hrecord : (record x.1 x.2 (.pushOff c)).pushes c = x.2.pushes c+1 := by
        simp [record,Hist.push,Hist.enter]
      rw [hpush,hrecord]
      push_cast
      ring

/-- `scheduler` entered its critical section with interrupts on, and leaves it with interrupts off,
as the process had them that switched to it. And 2^31 calls of `push_off` take `noff` below 0. -/
theorem interrupts_not_kept :
    (∃ t, Machine.run step (init (fun _ => true) fun _ => .RUNNABLE) round = some t ∧
      t.cpu 0 = {proc := none,noff := 0,intena := false,sie := false}) ∧
    ∃ x, Machine.run recorded (start (fun _ => true) fun _ => .RUNNABLE)
        (List.replicate (2^31) (.pushOff 0)) = some x ∧
      x.1.held 0 = ∅ ∧ x.2.pushes 0 = 2^31 ∧ (x.1.cpu 0).noff.toInt = -2^31 := by
  constructor
  · have hend : (Machine.run step (init (fun _ => true) fun _ => .RUNNABLE) round).any
        (fun t => t.cpu 0 = {proc := none,noff := 0,intena := false,sie := false}) = true := by
      decide +kernel
    exact Machine.exists_run_of_any hend
  · obtain ⟨x,hx,hlock,hnoff,hpush⟩ := run_pushOff 0 (2^31) (start (fun _ => true) fun _ => .RUNNABLE)
    refine ⟨x,hx,?_,?_,?_⟩
    · ext l
      simp [Sys.held,hlock,start,init]
    · rw [hpush]
      rfl
    · rw [hnoff]
      decide

end Xv6.Spin
