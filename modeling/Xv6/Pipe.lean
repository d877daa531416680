import Xv6.Machine
import Xv6.Ring
import Xv6.UserMemory

/-! Pipes of `kernel/pipe.c`. `pipewrite` and `piperead` hold `pi->lock` except while they sleep,
so a call is a sequence of atomic segments that end at a `sleep` or at the return; the machine
below interleaves the segments of any number of calls. -/
namespace Xv6.Pipes

open Bytes Vm

def PIPESIZE : ℕ := 512

instance : NeZero PIPESIZE := ⟨by decide⟩

structure Pipe extends Ring.Buf UInt8 32 PIPESIZE where
  readopen : Bool
  writeopen : Bool

def Pipe.store (pi : Pipe) (ch : UInt8) : Pipe := {pi with toBuf := pi.toBuf.put ch}

def Pipe.advance (pi : Pipe) : Pipe := {pi with toBuf := pi.toBuf.drop}

/-- What a segment did: bytes moved into and out of `data[]`, and the value returned. -/
inductive Event
  | stored (ch : UInt8)
  | taken (ch : UInt8)
  | ret (p : ℕ) (r : ℤ)
deriving DecidableEq

/-- How the loop of `pipewrite` is left: by the return of -1, at the `sleep` on a full pipe, or
at its end after `i` bytes. -/
inductive Stop
  | fail
  | full (i : ℕ)
  | done (i : ℕ)
deriving DecidableEq

def copyinByte (mem : Mem) (pagetable addr : ℕ) : Option UInt8 :=
  match copyin mem pagetable (fun _ => 0) 0 (addr%2^64) 1 with
  | (ch,true) => some (ch 0)
  | (_,false) => none

/-- The loop of `pipewrite` with `rest = n - i` bytes to go. -/
def pipewriteLoop (mem : Mem) (pagetable addr : ℕ) (killed : Bool) :
    (rest i : ℕ) → Pipe → Pipe × List Event × Stop
  | 0, i, pi => (pi,[],.done i)
  | rest+1, i, pi =>
    if pi.readopen = false ∨ killed then (pi,[],.fail)
    else if pi.nwrite = pi.nread+BitVec.ofNat 32 PIPESIZE then (pi,[],.full i)
    else match copyinByte mem pagetable (addr+i) with
      | none => (pi,[],.done i)
      | some ch =>
        let (pi',ev,stop) := pipewriteLoop mem pagetable addr killed rest (i+1) (pi.store ch)
        (pi',.stored ch::ev,stop)

/-- The loop of `piperead` that copies, with `rest = n - i` bytes to go. A byte whose `copyout`
fails has left the pipe already. -/
def pipereadLoop (pagetable addr : ℕ) :
    (rest i : ℕ) → Mem → Pipe → Mem × Pipe × List Event × ℕ
  | 0, i, mem, pi => (mem,pi,[],i)
  | rest+1, i, mem, pi =>
    if pi.nread = pi.nwrite then (mem,pi,[],i)
    else
      let ch := pi.front
      match copyout mem pagetable ((addr+i)%2^64) (fun _ => ch) 1 with
      | (mem',false) => (mem',pi.advance,[.taken ch],i)
      | (mem',true) =>
        let (mem'',pi',ev,i') := pipereadLoop pagetable addr rest (i+1) mem' pi.advance
        (mem'',pi',.taken ch::ev,i')

/-- Where a process is: outside the pipe code, in `pipewrite` with `i` bytes written, or in
`piperead` before its copy loop. -/
inductive Call
  | idle
  | write (pagetable addr : ℕ) (n : ℤ) (i : ℕ)
  | read (pagetable addr : ℕ) (n : ℤ)
deriving DecidableEq

/-- A writer sleeps on `&pi->nwrite` only and a reader on `&pi->nread` only. -/
structure Proc where
  call : Call := .idle
  asleep : Bool := false
  killed : Bool := false
deriving DecidableEq

def Call.isRead : Call → Bool
  | .read .. => true
  | _ => false

def Call.isWrite : Call → Bool
  | .write .. => true
  | _ => false

structure Sys where
  mem : Mem
  pipe : Pipe
  procs : ℕ → Proc
  trace : List Event

/-- `wakeup` on the channel of the calls of one kind. -/
def wakeup (kind : Call → Bool) (procs : ℕ → Proc) : ℕ → Proc :=
  fun q => if kind (procs q).call then {procs q with asleep := false} else procs q

def leave (procs : ℕ → Proc) (p : ℕ) : ℕ → Proc :=
  Function.update procs p {procs p with call := .idle,asleep := false}

def sleep (procs : ℕ → Proc) (p : ℕ) (call : Call) : ℕ → Proc :=
  Function.update procs p {procs p with call := call,asleep := true}

/-- `pipewrite` of process `p` from the head of its loop to the next `sleep` or to the return. -/
def pipewrite (s : Sys) (p pagetable addr : ℕ) (n : ℤ) (i : ℕ) : Sys :=
  let (pi,ev,stop) :=
    pipewriteLoop s.mem pagetable addr (s.procs p).killed (n-i).toNat i s.pipe
  match stop with
  | .fail => {s with pipe := pi,procs := leave s.procs p,trace := s.trace++ev++[.ret p (-1)]}
  | .full i => {s with
      pipe := pi
      procs := sleep (wakeup Call.isRead s.procs) p (.write pagetable addr n i)
      trace := s.trace++ev}
  | .done i => {s with
      pipe := pi
      procs := leave (wakeup Call.isRead s.procs) p
      trace := s.trace++ev++[.ret p i]}

/-- `piperead` of process `p` from the test of its first loop to the next `sleep` or to the
return. -/
def piperead (s : Sys) (p pagetable addr : ℕ) (n : ℤ) : Sys :=
  if s.pipe.nread = s.pipe.nwrite ∧ s.pipe.writeopen then
    if (s.procs p).killed then {s with procs := leave s.procs p,trace := s.trace++[.ret p (-1)]}
    else {s with procs := sleep s.procs p (.read pagetable addr n)}
  else
    let (mem,pi,ev,i) := pipereadLoop pagetable addr n.toNat 0 s.mem s.pipe
    {s with
      mem := mem
      pipe := pi
      procs := leave (wakeup Call.isWrite s.procs) p
      trace := s.trace++ev++[.ret p i]}

/-- `pipeclose`; with both ends closed the pipe is freed. -/
def pipeclose (s : Sys) (writable : Bool) : Sys :=
  if writable then {s with
    pipe := {s.pipe with writeopen := false},procs := wakeup Call.isRead s.procs}
  else {s with
    pipe := {s.pipe with readopen := false},procs := wakeup Call.isWrite s.procs}

def kill (s : Sys) (p : ℕ) : Sys :=
  {s with procs := Function.update s.procs p {s.procs p with killed := true,asleep := false}}

/-- `user` is any change of memory by code outside the pipe; `resume` continues a call that was
woken up. -/
inductive Action
  | user (mem : Mem)
  | write (p pagetable addr : ℕ) (n : ℤ)
  | read (p pagetable addr : ℕ) (n : ℤ)
  | resume (p : ℕ)
  | kill (p : ℕ)
  | close (writable : Bool)

/-- One segment. The callers keep an end open while they use it; the machine lets an end be
closed at any time, but nothing runs on a pipe that was freed. -/
def step (s : Sys) (a : Action) : Option Sys :=
  if s.pipe.readopen = false ∧ s.pipe.writeopen = false then none
  else match a with
    | .user mem => some {s with mem := mem}
    | .write p pagetable addr n =>
      if (s.procs p).call = .idle then some (pipewrite s p pagetable addr n 0) else none
    | .read p pagetable addr n =>
      if (s.procs p).call = .idle then some (piperead s p pagetable addr n) else none
    | .resume p =>
      if (s.procs p).asleep then none
      else match (s.procs p).call with
        | .idle => none
        | .write pagetable addr n i => some (pipewrite s p pagetable addr n i)
        | .read pagetable addr n => some (piperead s p pagetable addr n)
    | .kill p => some (kill s p)
    | .close writable => some (pipeclose s writable)

/-- A pipe as `pipealloc` leaves it, in a page with any contents. -/
def pipealloc (data : Fin PIPESIZE → UInt8) : Pipe where
  data := data
  nread := 0
  nwrite := 0
  readopen := true
  writeopen := true

def init (mem : Mem) (data : Fin PIPESIZE → UInt8) : Sys where
  mem := mem
  pipe := pipealloc data
  procs := fun _ => {}
  trace := []

def storedOf (trace : List Event) : List UInt8 :=
  trace.filterMap fun | .stored ch => some ch | _ => none

def takenOf (trace : List Event) : List UInt8 :=
  trace.filterMap fun | .taken ch => some ch | _ => none

@[simp] theorem storedOf_append (t u : List Event) : storedOf (t++u) = storedOf t++storedOf u :=
  List.filterMap_append
@[simp] theorem takenOf_append (t u : List Event) : takenOf (t++u) = takenOf t++takenOf u :=
  List.filterMap_append
@[simp] theorem storedOf_nil : storedOf [] = [] := rfl
@[simp] theorem takenOf_nil : takenOf [] = [] := rfl
@[simp] theorem storedOf_stored (ch : UInt8) (t : List Event) :
    storedOf (.stored ch::t) = ch::storedOf t := rfl
@[simp] theorem storedOf_taken (ch : UInt8) (t : List Event) :
    storedOf (.taken ch::t) = storedOf t := rfl
@[simp] theorem storedOf_ret (p : ℕ) (r : ℤ) (t : List Event) :
    storedOf (.ret p r::t) = storedOf t := rfl
@[simp] theorem takenOf_stored (ch : UInt8) (t : List Event) :
    takenOf (.stored ch::t) = takenOf t := rfl
@[simp] theorem takenOf_taken (ch : UInt8) (t : List Event) :
    takenOf (.taken ch::t) = ch::takenOf t := rfl
@[simp] theorem takenOf_ret (p : ℕ) (r : ℤ) (t : List Event) :
    takenOf (.ret p r::t) = takenOf t := rfl

/-- The events of a segment turn the queue of `pi` into that of `pi'`. -/
def Moves (pi : Pipe) (ev : List Event) (pi' : Pipe) : Prop :=
  pi'.count ≤ PIPESIZE ∧ pi.contents++storedOf ev = takenOf ev++pi'.contents

namespace Moves

variable {pi pi' pi'' : Pipe} {ev ev' : List Event} {ch : UInt8}

theorem refl (h : pi.count ≤ PIPESIZE) : Moves pi [] pi := ⟨h,by simp⟩

theorem trans (h : Moves pi ev pi') (h' : Moves pi' ev' pi'') : Moves pi (ev++ev') pi'' := by
  refine ⟨h'.1,?_⟩
  rw [storedOf_append,takenOf_append,← List.append_assoc,h.2,List.append_assoc,h'.2,
    List.append_assoc]

theorem store (hpi : pi.count ≤ PIPESIZE)
    (hfull : pi.nwrite ≠ pi.nread+BitVec.ofNat 32 PIPESIZE) :
    Moves pi [.stored ch] (pi.store ch) := by
  have hne : pi.count ≠ PIPESIZE :=
    fun h => hfull ((Ring.Buf.count_eq_iff (by decide) pi.toBuf).mp h)
  have hlt : pi.count < PIPESIZE := by omega
  have hcount : (pi.store ch).count = pi.count+1 :=
    Ring.Buf.count_put (lt_of_le_of_lt (Nat.succ_le_of_lt hlt) (by decide))
  refine ⟨by omega,?_⟩
  exact (Ring.Buf.contents_put (by decide) (by decide) hlt).symm

theorem take (hpi : pi.count ≤ PIPESIZE) (hne : pi.nread ≠ pi.nwrite) :
    Moves pi [.taken pi.front] pi.advance := by
  have h0 : pi.count ≠ 0 := fun h => hne ((Ring.Buf.count_eq_zero_iff pi.toBuf).mp h)
  have hcount : pi.advance.count = pi.count-1 := Ring.Buf.count_drop h0
  refine ⟨by omega,?_⟩
  change pi.contents++[] = pi.front::pi.toBuf.drop.contents
  rw [List.append_nil,← Ring.Buf.contents_drop h0]

end Moves

theorem pipewriteLoop_moves {mem : Mem} {pagetable addr : ℕ} {killed : Bool} {rest i : ℕ}
    {pi : Pipe} (hpi : pi.count ≤ PIPESIZE) :
    let r := pipewriteLoop mem pagetable addr killed rest i pi
    Moves pi r.2.1 r.1 := by
  induction rest generalizing i pi with
  | zero => exact Moves.refl hpi
  | succ rest ih =>
    simp only [pipewriteLoop]
    split
    · exact Moves.refl hpi
    · split
      · exact Moves.refl hpi
      · rename_i hfull
        split
        · exact Moves.refl hpi
        · rename_i ch _
          have hstore : Moves pi [.stored ch] (pi.store ch) := Moves.store hpi hfull
          exact hstore.trans (ih hstore.1)

theorem pipereadLoop_moves {pagetable addr rest i : ℕ} {mem : Mem} {pi : Pipe}
    (hpi : pi.count ≤ PIPESIZE) :
    let r := pipereadLoop pagetable addr rest i mem pi
    Moves pi r.2.2.1 r.2.1 := by
  induction rest generalizing i mem pi with
  | zero => exact Moves.refl hpi
  | succ rest ih =>
    simp only [pipereadLoop]
    split
    · exact Moves.refl hpi
    · rename_i hne
      have htake := Moves.take hpi hne
      split
      · exact htake
      · exact htake.trans (ih htake.1)

/-- The bytes stored are those taken out and then those still buffered, and the counters are at
most `PIPESIZE` apart. -/
def Fifo (s : Sys) : Prop :=
  s.pipe.count ≤ PIPESIZE ∧ storedOf s.trace = takenOf s.trace++s.pipe.contents

namespace Fifo

variable {s : Sys}

theorem extend (h : Fifo s) {t : Sys} {ev : List Event} (hmoves : Moves s.pipe ev t.pipe)
    (htrace : t.trace = s.trace++ev) : Fifo t := by
  refine ⟨hmoves.1,?_⟩
  rw [htrace,storedOf_append,takenOf_append,h.2,List.append_assoc,hmoves.2,List.append_assoc]

theorem extend_ret (h : Fifo s) {t : Sys} {ev : List Event} {p : ℕ} {r : ℤ}
    (hmoves : Moves s.pipe ev t.pipe) (htrace : t.trace = s.trace++ev++[.ret p r]) :
    Fifo t := by
  have hret : Moves t.pipe [.ret p r] t.pipe := ⟨hmoves.1,by simp⟩
  exact h.extend (hmoves.trans hret) (by rw [htrace,List.append_assoc])

theorem pipewrite (h : Fifo s) (p pagetable addr : ℕ) (n : ℤ) (i : ℕ) :
    Fifo (pipewrite s p pagetable addr n i) := by
  have hmoves := @pipewriteLoop_moves s.mem pagetable addr (s.procs p).killed (n-i).toNat i
    s.pipe h.1
  simp only [Pipes.pipewrite]
  split
  · exact h.extend_ret hmoves rfl
  · exact h.extend hmoves rfl
  · exact h.extend_ret hmoves rfl

theorem piperead (h : Fifo s) (p pagetable addr : ℕ) (n : ℤ) :
    Fifo (piperead s p pagetable addr n) := by
  simp only [Pipes.piperead]
  split
  · split
    · exact h.extend_ret (Moves.refl h.1) (by rw [List.append_nil])
    · exact h
  · exact h.extend_ret (pipereadLoop_moves h.1) rfl

theorem step (h : Fifo s) {a : Action} {t : Sys} (ht : step s a = some t) : Fifo t := by
  simp only [Pipes.step] at ht
  split at ht
  · cases ht
  cases a with
  | user mem =>
    cases ht
    exact h
  | write p pagetable addr n =>
    obtain ⟨-,ht⟩ := Option.ite_none_right_eq_some.mp ht
    cases ht
    exact h.pipewrite ..
  | read p pagetable addr n =>
    obtain ⟨-,ht⟩ := Option.ite_none_right_eq_some.mp ht
    cases ht
    exact h.piperead ..
  | resume p =>
    obtain ⟨-,ht⟩ := Option.ite_none_left_eq_some.mp ht
    cases hcall : (s.procs p).call with
    | idle => simp [hcall] at ht
    | write pagetable addr n i =>
      simp only [hcall,Option.some.injEq] at ht
      exact ht ▸ h.pipewrite ..
    | read pagetable addr n =>
      simp only [hcall,Option.some.injEq] at ht
      exact ht ▸ h.piperead ..
  | kill p =>
    cases ht
    exact h
  | close writable =>
    cases ht
    cases writable <;> exact h

theorem init (mem : Mem) (data : Fin PIPESIZE → UInt8) : Fifo (init mem data) := by
  refine ⟨by simp [Pipes.init,pipealloc,Ring.Buf.count],?_⟩
  exact (Ring.Buf.contents_of_empty rfl).symm

end Fifo

/-- Over any run of segments the pipe is a bounded queue: the counters stay at most `PIPESIZE`
apart modulo `2^32`, and what was stored is what was taken out followed by what is buffered. -/
theorem run_fifo {mem : Mem} {data : Fin PIPESIZE → UInt8} {as : List Action} {s : Sys}
    (h : Machine.run step (init mem data) as = some s) :
    (s.pipe.nwrite-s.pipe.nread).toNat ≤ PIPESIZE ∧
      storedOf s.trace = takenOf s.trace++s.pipe.contents :=
  Machine.run_invariant (fun _ _ _ (hs : Fifo _) ht => hs.step ht) (Fifo.init mem data) h

/-- A reader sleeps on the empty pipe; a writer of the byte at the end of the page wakes it. -/
def handOver : List Action := [.read 1 4096 0 2,.write 2 4096 4095 1,.resume 1]

theorem run_fifo_handOver :
    (Machine.run step (init onePage fun _ => 0) handOver).map (fun s => takenOf s.trace) =
        some [65] ∧
      ∀ s, Machine.run step (init onePage fun _ => 0) handOver = some s →
        (s.pipe.nwrite-s.pipe.nread).toNat ≤ PIPESIZE ∧
          storedOf s.trace = takenOf s.trace++s.pipe.contents :=
  ⟨by decide +kernel,fun _ h => run_fifo h⟩

end Xv6.Pipes
