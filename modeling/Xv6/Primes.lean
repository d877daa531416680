import Mathlib.Tactic
import Xv6.Sieve

/-! `user/primes.c`: the processes of the sieve, their pipes and descriptors, under every
interleaving of their system calls. Process `k` is the `k`-th one created, and it reads the pipe
that process `k-1` made. -/
namespace Xv6
namespace Primes

open Sieve

/-- The next system call of a process, with the number it is about to handle. -/
inductive Pc
  | pipe
  | fork
  | genClose
  | gen (i : ℕ)
  | genCloseWrite
  | childClose (first : Bool)
  | readPrime (first : Bool)
  | print (text : List Char)
  | loopRead
  | pipeNext (num : ℕ)
  | forkNext (num : ℕ)
  | closeRead (num : ℕ)
  | writeFirst (num : ℕ)
  | passRead
  | passWrite (num : ℕ)
  | eofClose
  | eofCloseExit
  | eofCloseWrite
  | eofCloseRead
  | wait
  | exit
  | done
  deriving DecidableEq

/-- `p x` is the pipe of `p[x][0]` and `p[x][1]`; `r` and `w` are the pipes whose read and write
ends the process has open. -/
structure Proc where
  pc : Pc
  dividend : ℕ
  prime : ℕ
  p : ℕ → ℕ
  r : Finset ℕ
  w : Finset ℕ
  child : Option ℕ

structure State where
  /-- Processes created. -/
  n : ℕ
  procs : ℕ → Proc
  /-- Pipes created. -/
  pipes : ℕ
  queue : ℕ → List ℕ
  /-- The characters on the console. -/
  out : List Char

namespace State

def set (s : State) (i : ℕ) (c : Proc) : State := {s with procs := Function.update s.procs i c}

def setQueue (s : State) (q : ℕ) (l : List ℕ) : State :=
  {s with queue := Function.update s.queue q l}

def hasReader (s : State) (q : ℕ) : Bool := decide (∃ j < s.n, q ∈ (s.procs j).r)

def hasWriter (s : State) (q : ℕ) : Bool := decide (∃ j < s.n, q ∈ (s.procs j).w)

end State

inductive Read
  | got (num : ℕ)
  | eof

/-- `read(p[x][0], &num, 4)` of process `i` from pipe `q`; `none`: the process sleeps, or the
descriptor is closed. -/
def read (s : State) (i q : ℕ) : Option (Read × State) :=
  if q ∉ (s.procs i).r then none
  else match s.queue q with
    | num::l => some (.got num,s.setQueue q l)
    | [] => if s.hasWriter q then none else some (.eof,s)

/-- `write(p[x][1], &num, 4)` of process `i` to pipe `q`, which holds `cap` numbers. -/
def write (cap : ℕ) (s : State) (i q num : ℕ) : Option State :=
  if q ∉ (s.procs i).w then none
  else if s.hasReader q = false then some s
  else if cap ≤ (s.queue q).length then none
  else some (s.setQueue q (s.queue q++[num]))

def mod : ℕ := 2

/-- `printf("prime %d\n", prime)`, which writes its characters one by one. -/
def line (prime : ℕ) : List Char := "prime ".toList++(toString prime).toList++['\n']

namespace Proc

def goto (c : Proc) (pc : Pc) : Proc := {c with pc := pc}

/-- The pipe the process reads: `p[(dividend - 1) % mod]`. -/
def source (c : Proc) : ℕ := c.p ((c.dividend-1)%mod)

def target (c : Proc) : ℕ := c.p (c.dividend%mod)

end Proc

def makePipe (s : State) (i : ℕ) (pc : Pc) : State :=
  let c := s.procs i
  {s.set i {c with
      pc := pc
      p := Function.update c.p (c.dividend%mod) s.pipes
      r := insert s.pipes c.r
      w := insert s.pipes c.w} with
    pipes := s.pipes+1}

def doFork (s : State) (i : ℕ) (parent child : Pc) : State :=
  let c := s.procs i
  {(s.set i {c with pc := parent, child := some s.n}).set s.n {c with pc := child, child := none} with
    n := s.n+1}

/-- The next system call of process `i`; `none` if it sleeps or is done. -/
def step (N cap : ℕ) (s : State) (i : ℕ) : Option State :=
  if s.n ≤ i then none
  else
    let c := s.procs i
    match c.pc with
    | .pipe => some (makePipe s i .fork)
    | .fork => some (doFork s i .genClose (.childClose true))
    | .genClose => some (s.set i {c with pc := .gen 2, r := c.r.erase c.target})
    | .gen j =>
      if j ≤ N then (write cap s i c.target j).map fun t => t.set i (c.goto (.gen (j+1)))
      else some (s.set i (c.goto .genCloseWrite))
    | .genCloseWrite => some (s.set i {c with pc := .wait, w := c.w.erase c.target})
    | .childClose first => some (s.set i {c with
        pc := .readPrime first
        dividend := c.dividend+1
        w := c.w.erase c.target})
    | .readPrime first => (read s i c.source).map fun r => match r with
      | (.got num,t) => t.set i {c with pc := .print (line num), prime := num}
      | (.eof,t) => t.set i (c.goto (if first then .print (line c.prime) else .eofCloseExit))
    | .print [] => some (s.set i (c.goto .loopRead))
    | .print (x::text) => some {s.set i (c.goto (.print text)) with out := s.out++[x]}
    | .loopRead => (read s i c.source).map fun r => match r with
      | (.got num,t) => t.set i (c.goto (if num%c.prime ≠ 0 then .pipeNext num else .loopRead))
      | (.eof,t) => t.set i (c.goto .eofClose)
    | .pipeNext num => some (makePipe s i (.forkNext num))
    | .forkNext num => some (doFork s i (.closeRead num) (.childClose false))
    | .closeRead num => some (s.set i {c with pc := .writeFirst num, r := c.r.erase c.target})
    | .writeFirst num => (write cap s i c.target num).map fun t => t.set i (c.goto .passRead)
    | .passRead => (read s i c.source).map fun r => match r with
      | (.got num,t) => t.set i (c.goto (if num%c.prime ≠ 0 then .passWrite num else .passRead))
      | (.eof,t) => t.set i (c.goto .eofCloseWrite)
    | .passWrite num => (write cap s i c.target num).map fun t => t.set i (c.goto .passRead)
    | .eofClose => some (s.set i {c with pc := .wait, r := c.r.erase c.source})
    | .eofCloseExit => some (s.set i {c with pc := .exit, r := c.r.erase c.source})
    | .eofCloseWrite => some (s.set i {c with pc := .eofCloseRead, w := c.w.erase c.target})
    | .eofCloseRead => some (s.set i {c with pc := .wait, r := c.r.erase c.source})
    | .wait =>
      if c.child.all (fun j => (s.procs j).pc = .done) then
        some (s.set i (c.goto .exit))
      else none
    | .exit => some (s.set i {c with pc := .done, r := ∅, w := ∅})
    | .done => none

def initial : State where
  n := 1
  procs _ := ⟨.pipe,0,0,fun _ => 0,∅,∅,none⟩
  pipes := 0
  queue _ := []
  out := []

def numbers (N : ℕ) : List ℕ := List.range' 2 (N-1)

def lines (l : List ℕ) : List Char := (sieve l).flatMap line

def genRest (N : ℕ) : Pc → List ℕ
  | .pipe | .fork | .genClose => numbers N
  | .gen i => List.range' i (N+1-i)
  | _ => []

/-- What a stage has still to write when `fut` is what it has still to read. -/
def sendRest (prime : ℕ) (fut : List ℕ) : Pc → List ℕ
  | .closeRead num | .writeFirst num | .passWrite num => num::sift prime fut
  | .passRead => sift prime fut
  | _ => []

def sendOf (N : ℕ) : ℕ → Proc → List ℕ → List ℕ
  | 0,c,_ => genRest N c.pc
  | _+1,c,fut => sendRest c.prime fut c.pc

def fut (N : ℕ) (s : State) : ℕ → List ℕ
  | 0 => []
  | k+1 => s.queue k++sendOf N k (s.procs k) (fut N s k)

def lastRest (prime : ℕ) (fut : List ℕ) : Pc → List Char
  | .childClose _ | .readPrime _ => lines fut
  | .print text => text++lines (sift prime fut)
  | .loopRead => lines (sift prime fut)
  | .pipeNext num | .forkNext num => lines (num::sift prime fut)
  | _ => []

def restOf (N : ℕ) : ℕ → Proc → List ℕ → List Char
  | 0,c,_ => lines (genRest N c.pc)
  | _+1,c,fut => lastRest c.prime fut c.pc

@[simp] def mainPc : Pc → Prop
  | .pipe | .fork | .genClose | .gen _ | .genCloseWrite | .wait | .exit | .done => True
  | _ => False

@[simp] def workerPc : Pc → Prop
  | .pipe | .fork | .genClose | .gen _ | .genCloseWrite => False
  | _ => True

@[simp] def unforkedPc : Pc → Prop
  | .genClose | .gen _ | .genCloseWrite | .closeRead _ | .writeFirst _ | .passRead | .passWrite _
  | .eofCloseWrite | .eofCloseRead => False
  | _ => True

@[simp] def forkedPc : Pc → Prop
  | .pipe | .fork | .childClose _ | .readPrime _ | .print _ | .loopRead | .pipeNext _ | .forkNext _
  | .eofClose | .eofCloseExit => False
  | _ => True

@[simp] def holdsWrite : Pc → Prop
  | .fork | .genClose | .gen _ | .genCloseWrite | .forkNext _ | .closeRead _ | .writeFirst _
  | .passRead | .passWrite _ | .eofCloseWrite => True
  | _ => False

@[simp] def holdsRead : Pc → Prop
  | .wait | .exit | .done => False
  | _ => True

@[simp] def atEof : Pc → Prop
  | .eofClose | .eofCloseExit | .eofCloseWrite | .eofCloseRead | .wait | .exit | .done => True
  | _ => False

@[simp] def reading : Pc → Prop
  | .readPrime _ | .loopRead | .passRead => True
  | _ => False

@[simp] def inherits : Pc → Prop
  | .childClose _ => True
  | _ => False

/-- Before the first number, whose `read` the first stage does not check. -/
@[simp] def unchecked : Pc → Prop
  | .childClose true | .readPrime true => True
  | _ => False

/-- The numbers the process has read and kept, which its child does not get. -/
@[simp] def taken : Pc → ℕ
  | .print _ | .loopRead => 1
  | .pipeNext _ | .forkNext _ => 2
  | _ => 0

/-- The calls the process can still make before its next `read`, or before its end. -/
@[simp] def weight (N : ℕ) : Pc → ℕ
  | .pipe => N+9
  | .fork => N+8
  | .genClose => N+7
  | .gen j => N+1-j+4
  | .childClose _ => 12
  | .readPrime _ => 11
  | .print _ | .pipeNext _ => 9
  | .loopRead | .forkNext _ => 8
  | .closeRead _ => 7
  | .writeFirst _ | .passWrite _ => 6
  | .passRead => 5
  | .eofCloseWrite => 4
  | .genCloseWrite | .eofClose | .eofCloseExit | .eofCloseRead => 3
  | .wait => 2
  | .exit => 1
  | .done => 0

def cost (N : ℕ) (s : State) (k : ℕ) : ℕ := weight N (s.procs k).pc+2*(fut N s k).length

def total (N : ℕ) (s : State) : ℕ :=
  ∑ k ∈ Finset.range s.n, cost N s k+((lines (numbers N)).length-s.out.length)

def Shrinks (N : ℕ) (s t : State) : Prop := s.n < t.n ∨ t.n = s.n ∧ total N t < total N s

structure Ok (N : ℕ) (s : State) (k : ℕ) : Prop where
  main : k = 0 → mainPc (s.procs k).pc
  worker : k ≠ 0 → workerPc (s.procs k).pc
  last : k+1 = s.n → unforkedPc (s.procs k).pc
  inner : k+1 < s.n → forkedPc (s.procs k).pc
  child : (s.procs k).child = if k+1 < s.n then some (k+1) else none
  dividend : (inherits (s.procs k).pc → (s.procs k).dividend+1 = k) ∧
    (¬ inherits (s.procs k).pc → (s.procs k).dividend = k)
  input : k ≠ 0 → (s.procs k).p ((k-1)%mod) = k-1
  output : holdsWrite (s.procs k).pc → (s.procs k).p (k%mod) = k
  writes : ∀ q, q ∈ (s.procs k).w ↔
    q = k ∧ holdsWrite (s.procs k).pc ∨ q+1 = k ∧ inherits (s.procs k).pc
  reads : k ≠ 0 → holdsRead (s.procs k).pc → k-1 ∈ (s.procs k).r
  eof : k ≠ 0 → atEof (s.procs k).pc → fut N s k = []
  first : unchecked (s.procs k).pc → fut N s k ≠ []
  own : k+1 = s.n → holdsWrite (s.procs k).pc → k ∈ (s.procs k).r
  room : k ≠ 0 → k+taken (s.procs k).pc+(fut N s k).length ≤ N

structure Inv (N : ℕ) (s : State) : Prop where
  pos : 0 < s.n
  made : (holdsWrite (s.procs (s.n-1)).pc → s.pipes = s.n) ∧
    (¬ holdsWrite (s.procs (s.n-1)).pc → s.pipes+1 = s.n)
  empty : ∀ q, s.n ≤ q+1 → s.queue q = []
  ok : ∀ k < s.n, Ok N s k
  printed : s.out++restOf N (s.n-1) (s.procs (s.n-1)) (fut N s (s.n-1)) = lines (numbers N)

theorem inv_initial (N : ℕ) : Inv N initial := by
  refine ⟨by decide,⟨False.elim,fun _ => rfl⟩,fun _ _ => rfl,fun k hk => ?_,?_⟩
  · obtain rfl : k = 0 := by
      change k < 1 at hk
      omega
    refine ⟨fun _ => trivial,fun h => absurd rfl h,fun _ => trivial,fun h => ?_,rfl,⟨False.elim,fun _ => rfl⟩,
      fun h => absurd rfl h,False.elim,fun q => ?_,fun h => absurd rfl h,fun h => absurd rfl h,False.elim,
      fun _ => False.elim,fun h => absurd rfl h⟩
    · change 0+1 < 1 at h
      omega
    · simp [initial,holdsWrite,inherits]
  · rfl

end Primes
end Xv6
