import Xv6.FileRead
import Xv6.Machine
import Xv6.Ring

/-! The input side of kernel/console.c: the buffer with its read, write and edit index,
`consoleintr` and any number of calls of `consoleread`. A call runs with the lock held from its
start, or from the end of a sleep, to its next sleep or its return; the runs of the system
interleave these stretches with the interrupts in any order. A log of what happens is compared
with an editor of lines that knows nothing of indices. -/
namespace Xv6.Console

open FileRead (INPUT_BUF_SIZE ctrlD)
open Bytes (newline)

def ctrlP : UInt8 := 16

def ctrlU : UInt8 := 21

def ctrlH : UInt8 := 8

def delete : UInt8 := 127

def carriageReturn : UInt8 := 13

instance : NeZero INPUT_BUF_SIZE := ⟨by decide⟩

/-- `cons`: `nread` is the read index `r`, `nwrite` the edit index `e`. -/
structure Cons extends Ring.Buf UInt8 32 INPUT_BUF_SIZE where
  w : BitVec 32

def erase (c : Cons) : Cons := {c with toBuf := c.unput}

/-- The loop of control-U. Each round brings `e` closer to `w`, so `e-w` rounds are all of them. -/
def killLine : ℕ → Cons → Cons
  | 0, c => c
  | k+1, c => if c.nwrite ≠ c.w ∧ c.last ≠ newline then killLine k (erase c) else c

def store (c : Cons) (x : UInt8) : Cons :=
  let x := if x = carriageReturn then newline else x
  let c := {c with toBuf := c.put x}
  if x = newline ∨ x = ctrlD ∨ c.count = INPUT_BUF_SIZE then {c with w := c.nwrite} else c

def consoleintr (c : Cons) (x : UInt8) : Cons :=
  if x = ctrlP then c
  else if x = ctrlU then killLine (c.nwrite-c.w).toNat c
  else if x = ctrlH ∨ x = delete then if c.nwrite ≠ c.w then erase c else c
  else if x ≠ 0 ∧ c.count < INPUT_BUF_SIZE then store c x
  else c

/-- What can be seen of the console: a character arrives; process `p` calls `consoleread`, gets a
byte, consumes a control-D, meets one and puts it back, returns. -/
inductive Event
  | typed (x : UInt8)
  | called (p : ℕ) (n : Int32)
  | took (p : ℕ) (x : UInt8)
  | ate (p : ℕ)
  | left (p : ℕ)
  | ret (p : ℕ) (r : ℤ)
  deriving DecidableEq

/-- The loop of `consoleread` with `n` bytes to go, after `i`, up to a sleep or the return. The
last part of the result is the call that sleeps. -/
def readLoop (p : ℕ) (killed : Bool) : (n i : ℕ) → Cons → Cons × List Event × Option (ℕ × ℕ)
  | 0, i, c => (c,[.ret p i],none)
  | n+1, i, c =>
    if c.nread = c.w then
      if killed then (c,[.ret p (-1)],none) else (c,[],some (n+1,i))
    else
      let x := c.front
      let c := {c with toBuf := c.drop}
      if x = ctrlD then
        -- saved for the next call unless it is the first
        if 0 < i then ({c with nread := c.nread-1},[.left p,.ret p i],none)
        else (c,[.ate p,.ret p i],none)
      else if x = newline then (c,[.took p x,.ret p (i+1 : ℕ)],none)
      else
        let r := readLoop p killed n (i+1) c
        (r.1,.took p x::r.2.1,r.2.2)

def view (c : Cons) : FileRead.Console where
  buf k := c.data (Fin.ofNat INPUT_BUF_SIZE k)
  r := ⟨c.nread⟩
  w := ⟨c.w⟩

theorem view_front (c : Cons) : (view c).buf ((view c).r.toNat%INPUT_BUF_SIZE) = c.front := by
  change c.data (Fin.ofNat INPUT_BUF_SIZE (c.nread.toNat%INPUT_BUF_SIZE)) =
    c.data (Fin.ofNat INPUT_BUF_SIZE c.nread.toNat)
  congr 1
  apply Fin.ext
  change c.nread.toNat%INPUT_BUF_SIZE%INPUT_BUF_SIZE = c.nread.toNat%INPUT_BUF_SIZE
  exact Nat.mod_mod _ _

def outcome (p : ℕ) (ev : List Event) : Option (ℕ × ℕ) → FileRead.Outcome → Prop
  | some _, o => o = .asleep
  | none, o => ∃ v, ev.getLast? = some (.ret p v) ∧ o = .ret v

/-- Up to the next sleep the loop is the one of `fileread`, while its copies succeed: `I` says that
the destination is mapped. -/
theorem readLoop_eq {I : FileRead.User → Prop} {pagetable dst p n i : ℕ} {killed : Bool} {c d : Cons}
    {u : FileRead.User} (hI : ∀ v, I v → ∀ j < i+n, ∀ x,
      (FileRead.copyout pagetable v ((dst+j)%2^64) (fun _ => x) 1).2 = true ∧
      I (FileRead.copyout pagetable v ((dst+j)%2^64) (fun _ => x) 1).1) (hu : I u) :
    let r := readLoop p killed n i c
    let r' := FileRead.consolereadLoop pagetable dst n i u (view c)
      (if killed then [(true,view d)] else [])
    outcome p r.2.1 r.2.2 r'.1 ∧ r'.2.2 = view r.1 := by
  induction n generalizing i c u with
  | zero => exact ⟨⟨i,rfl,rfl⟩,rfl⟩
  | succ n ih =>
    have hne : (view c).r ≠ (view c).w ↔ c.nread ≠ c.w := by
      simp [view,← UInt32.toBitVec_inj]
    rw [readLoop,FileRead.consolereadLoop]
    by_cases hempty : c.nread = c.w
    · cases killed <;> simp [FileRead.wait,hne,hempty,outcome]
    have hready : FileRead.wait (fun k => decide (k.r ≠ k.w)) (view c)
        (if killed then [(true,view d)] else []) =
        .ready (view c) (if killed then [(true,view d)] else []) := by
      cases killed <;> simp [FileRead.wait,hne,hempty]
    simp only [hready,if_neg hempty,view_front]
    by_cases hD : c.front = ctrlD
    · simp only [if_pos hD]
      by_cases hi : 0 < i
      · simp only [if_pos hi]
        refine ⟨⟨i,rfl,rfl⟩,?_⟩
        simp [view,Ring.Buf.drop]
      · simp only [if_neg hi]
        exact ⟨⟨i,rfl,rfl⟩,rfl⟩
    simp only [if_neg hD]
    obtain ⟨hok,hnext⟩ := hI u hu i (by omega) c.front
    rcases hcopy : FileRead.copyout pagetable u ((dst+i)%2^64) (fun _ => c.front) 1 with ⟨v,ok⟩
    rw [hcopy] at hok hnext
    obtain rfl : ok = true := hok
    by_cases hnl : c.front = newline
    · simp only [if_pos hnl]
      exact ⟨⟨_,rfl,rfl⟩,rfl⟩
    · simp only [if_neg hnl]
      obtain ⟨hout,hend⟩ := ih (c := {c with toBuf := c.drop}) (i := i+1)
        (fun v hv j hj x => hI v hv j (by omega) x) hnext
      refine ⟨?_,hend⟩
      revert hout
      cases (readLoop p killed n (i+1) {c with toBuf := c.drop}).2.2 with
      | some _ => exact id
      | none =>
        rintro ⟨w,hlast,ho⟩
        refine ⟨w,?_,ho⟩
        rw [List.getLast?_cons,hlast]
        rfl

/-- The console, the calls that sleep (bytes to go, bytes copied) and the log. -/
structure System where
  cons : Cons
  calls : ℕ → Option (ℕ × ℕ)
  log : List Event

def init (data : Fin INPUT_BUF_SIZE → UInt8) (k : BitVec 32) : System :=
  ⟨⟨⟨data,k,k⟩,k⟩,fun _ => none,[]⟩

def resume (s : System) (p : ℕ) (killed : Bool) (n i : ℕ) : System :=
  let r := readLoop p killed n i s.cons
  ⟨r.1,Function.update s.calls p r.2.2,s.log++r.2.1⟩

inductive Action
  | intr (x : UInt8)
  | read (p : ℕ) (n : Int32) (killed : Bool)
  | wake (p : ℕ) (killed : Bool)

def step (s : System) : Action → Option System
  | .intr x => some {s with cons := consoleintr s.cons x, log := s.log++[.typed x]}
  | .read p n killed =>
    if s.calls p = none then
      some (resume {s with log := s.log++[.called p n]} p killed n.toInt.toNat 0)
    else none
  | .wake p killed =>
    match s.calls p with
    | none => none
    | some (n,i) => some (resume s p killed n i)

/-- All bytes ever committed, how many of them have been consumed, and the line being typed. -/
structure Editor where
  committed : List UInt8
  taken : ℕ
  pending : List UInt8

namespace Editor

def unread (d : Editor) : List UInt8 := d.committed.drop d.taken

def size (d : Editor) : ℕ := d.unread.length+d.pending.length

/-- A character is added to the line, which is committed if it is complete or the buffer full. -/
def add (d : Editor) (x : UInt8) : Editor :=
  if x = newline ∨ x = ctrlD ∨ d.size+1 = INPUT_BUF_SIZE then
    ⟨d.committed++(d.pending++[x]),d.taken,[]⟩
  else {d with pending := d.pending++[x]}

def type (d : Editor) (x : UInt8) : Editor :=
  if x = 0 ∨ x = ctrlP then d
  else if x = ctrlU then {d with pending := []}
  else if x = ctrlH ∨ x = delete then {d with pending := d.pending.dropLast}
  else if d.size < INPUT_BUF_SIZE then d.add (if x = carriageReturn then newline else x)
  else d

/-- Bytes are handed out in the order in which they were committed; a control-D is only consumed
as such, or met and left in its place. -/
def edit (d : Editor) : Event → Option Editor
  | .typed x => some (d.type x)
  | .took _ x => if d.unread.head? = some x ∧ x ≠ ctrlD then some {d with taken := d.taken+1} else none
  | .ate _ => if d.unread.head? = some ctrlD then some {d with taken := d.taken+1} else none
  | .left _ => if d.unread.head? = some ctrlD then some d else none
  | .called _ _ => some d
  | .ret _ _ => some d

def empty : Editor := ⟨[],0,[]⟩

end Editor

/-- Where a process is: in no call, in a call with bytes to go and bytes copied, or at the end of
one. -/
inductive Reader
  | idle
  | reading (n i : ℕ)
  | done (r : ℤ)
  deriving DecidableEq

/-- The life of a call: it takes bytes until it has as many as it wants or one is a newline; a
control-D that comes first makes it return 0, one that comes later what it has. A call that has
not got its bytes can also return -1 (killed). -/
def Reader.advance : Reader → Event → Option Reader
  | .idle, .called _ n => some (.reading n.toInt.toNat 0)
  | .reading (n+1) i, .took _ x =>
    some (if x = newline then .done (i+1 : ℕ) else .reading n (i+1))
  | .reading (_+1) 0, .ate _ => some (.done 0)
  | .reading (_+1) (i+1), .left _ => some (.done (i+1 : ℕ))
  | .reading 0 i, .ret _ r => if r = i then some .idle else none
  | .reading (_+1) _, .ret _ r => if r = -1 then some .idle else none
  | .done k, .ret _ r => if r = k then some .idle else none
  | _, _ => none

def Event.process : Event → Option ℕ
  | .typed _ => none
  | .called p _ => some p
  | .took p _ => some p
  | .ate p => some p
  | .left p => some p
  | .ret p _ => some p

def track (readers : ℕ → Reader) (e : Event) : Option (ℕ → Reader) :=
  match e.process with
  | none => some readers
  | some p => ((readers p).advance e).map (Function.update readers p)

def Event.consumed : Event → Option UInt8
  | .took _ x => some x
  | .ate _ => some ctrlD
  | _ => none

end Xv6.Console
