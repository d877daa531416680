import Xv6.Machine
import Xv6.Links
import Xv6.Param

/-! The buffer cache of `kernel/bio.c`. `bcache.lock` is held for the whole of each critical
section, so a section is one step; between the sections of one call other processes run. -/
namespace Xv6.Bio

instance : NeZero NPROC := ⟨by decide⟩

/-- `struct buf` without its links. The lock is the process that holds it. -/
structure Buf (β : Type) where
  valid : Bool
  dev : ℕ
  blockno : ℕ
  lock : Option (Fin NPROC)
  refcnt : BitVec 32
  data : β

/-- The links `next` and `prev` of the nodes `0..NBUF-1` and of `bcache.head`. -/
structure List2 where
  next : ℕ → ℕ
  prev : ℕ → ℕ

def head : ℕ := NBUF

namespace List2

def push (l : List2) (b : ℕ) : List2 :=
  let next := Function.update l.next b (l.next head)
  let prev := Function.update l.prev b head
  let prev := Function.update prev (next head) b
  let next := Function.update next head b
  ⟨next,prev⟩

def moveToFront (l : List2) (b : ℕ) : List2 :=
  let prev := Function.update l.prev (l.next b) (l.prev b)
  let next := Function.update l.next (prev b) (l.next b)
  push ⟨next,prev⟩ b

def binit : List2 := (List.range NBUF).foldl push ⟨fun _ => head,fun _ => head⟩

end List2

/-- A loop of `bget`: from `b` along `link` up to the head. -/
def scan (link : ℕ → ℕ) (test : ℕ → Bool) : (rounds b : ℕ) → Option ℕ
  | 0, _ => none
  | rounds+1, b =>
    if b = head then none else if test b then some b else scan link test rounds (link b)

/-- Where a process stands in the cache; the number is the block it asked for. -/
inductive Op
  | idle
  /-- In `bget`, before `acquiresleep(&b->lock)`. -/
  | locking (b blockno : ℕ)
  /-- In `bread`, in `virtio_disk_rw(b, 0)`. -/
  | reading (b blockno : ℕ)
  /-- In `bwrite`, in `virtio_disk_rw(b, 1)`. -/
  | writing (b blockno : ℕ)
  /-- In `brelse`, between the two locks. -/
  | releasing (b : ℕ)
deriving DecidableEq

/-- What happened to a block or, for `release`, to a buffer whose `refcnt` a `brelse` took to 0. -/
inductive Event (β : Type)
  | bread (blockno : ℕ) (x : β)
  | store (blockno : ℕ) (x : β)
  | bwrite (blockno : ℕ) (x : β)
  | evict (blockno : ℕ)
  | release (b : ℕ)
deriving DecidableEq

/-- The cache, the processes and the disk. `pins` counts the calls of `bpin` that `bunpin` has not
undone; `hist` is the record, newest first. -/
structure Sys (β : Type) where
  bufs : ℕ → Buf β
  links : List2
  procs : Fin NPROC → Op
  disk : ℕ → β
  pins : ℕ → ℕ
  hist : List (Event β)
  panic : Option String

variable {β : Type}

inductive Action (β : Type)
  | bread (p : Fin NPROC) (blockno : ℕ)
  | acquiresleep (p : Fin NPROC)
  | diskRead (p : Fin NPROC)
  | store (p : Fin NPROC) (b : ℕ) (x : β)
  | bwrite (p : Fin NPROC) (b : ℕ)
  | diskWrite (p : Fin NPROC)
  | brelse (p : Fin NPROC) (b : ℕ)
  | brelseEnd (p : Fin NPROC)
  | bpin (p : Fin NPROC) (b : ℕ)
  | bunpin (p : Fin NPROC) (b : ℕ)

namespace Sys

def setBuf (s : Sys β) (b : ℕ) (x : Buf β) : Sys β := {s with bufs := Function.update s.bufs b x}

def setOp (s : Sys β) (p : Fin NPROC) (o : Op) : Sys β :=
  {s with procs := Function.update s.procs p o}

def log (s : Sys β) (e : Event β) : Sys β := {s with hist := e::s.hist}

def lookup (s : Sys β) (dev blockno : ℕ) : Option ℕ :=
  scan s.links.next (fun b => (s.bufs b).dev == dev && (s.bufs b).blockno == blockno) (NBUF+1)
    (s.links.next head)

def victim (s : Sys β) : Option ℕ :=
  scan s.links.prev (fun b => (s.bufs b).refcnt == 0) (NBUF+1) (s.links.prev head)

def bget (s : Sys β) (p : Fin NPROC) (dev blockno : ℕ) : Sys β :=
  match s.lookup dev blockno with
  | some b =>
    (s.setBuf b {s.bufs b with refcnt := (s.bufs b).refcnt+1}).setOp p (.locking b blockno)
  | none =>
    match s.victim with
    | some b =>
      let old := s.bufs b
      let s := if old.dev = ROOTDEV then s.log (.evict old.blockno) else s
      (s.setBuf b {old with dev := dev, blockno := blockno, valid := false, refcnt := 1}).setOp p
        (.locking b blockno)
    | none => {s with panic := some "bget: no buffers"}

/-- `acquiresleep(&b->lock)` succeeds; a valid buffer is returned by `bread` at once. -/
def acquire (s : Sys β) (p : Fin NPROC) (b blockno : ℕ) : Sys β :=
  let s := s.setBuf b {s.bufs b with lock := some p}
  if (s.bufs b).valid then (s.setOp p .idle).log (.bread blockno (s.bufs b).data)
  else s.setOp p (.reading b blockno)

/-- The read from the disk is done and `bread` returns. -/
def finishRead (s : Sys β) (p : Fin NPROC) (b blockno : ℕ) : Sys β :=
  ((s.setBuf b {s.bufs b with data := s.disk blockno, valid := true}).setOp p .idle).log
    (.bread blockno (s.disk blockno))

def finishRelease (s : Sys β) (p : Fin NPROC) (b : ℕ) : Sys β :=
  let refcnt := (s.bufs b).refcnt-1
  let s := (s.setBuf b {s.bufs b with refcnt := refcnt}).setOp p .idle
  if refcnt = 0 then {s with links := s.links.moveToFront b}.log (.release b) else s

end Sys

open Sys

/-- One step of a process. A buffer's data is touched under its lock. -/
def step (s : Sys β) (a : Action β) : Option (Sys β) :=
  if s.panic.isSome then none
  else match a with
  | .bread p blockno => if s.procs p = .idle then some (s.bget p ROOTDEV blockno) else none
  | .acquiresleep p =>
    match s.procs p with
    | .locking b blockno => if (s.bufs b).lock = none then some (s.acquire p b blockno) else none
    | _ => none
  | .diskRead p =>
    match s.procs p with
    | .reading b blockno => some (s.finishRead p b blockno)
    | _ => none
  | .store p b x =>
    if b < NBUF ∧ s.procs p = .idle ∧ (s.bufs b).lock = some p then
      some ((s.setBuf b {s.bufs b with data := x}).log (.store (s.bufs b).blockno x))
    else none
  | .bwrite p b =>
    if b < NBUF ∧ s.procs p = .idle then
      some (if (s.bufs b).lock = some p then s.setOp p (.writing b (s.bufs b).blockno)
        else {s with panic := some "bwrite"})
    else none
  | .diskWrite p =>
    match s.procs p with
    | .writing b blockno =>
      some ({s.setOp p .idle with disk := Function.update s.disk blockno (s.bufs b).data}.log
        (.bwrite blockno (s.bufs b).data))
    | _ => none
  | .brelse p b =>
    if b < NBUF ∧ s.procs p = .idle then
      some (if (s.bufs b).lock = some p then
          (s.setBuf b {s.bufs b with lock := none}).setOp p (.releasing b)
        else {s with panic := some "brelse"})
    else none
  | .brelseEnd p =>
    match s.procs p with
    | .releasing b => some (s.finishRelease p b)
    | _ => none
  | .bpin p b =>
    if b < NBUF ∧ s.procs p = .idle then
      some {s.setBuf b {s.bufs b with refcnt := (s.bufs b).refcnt+1} with
        pins := Function.update s.pins b (s.pins b+1)}
    else none
  | .bunpin p b =>
    if b < NBUF ∧ s.procs p = .idle then
      some {s.setBuf b {s.bufs b with refcnt := (s.bufs b).refcnt-1} with
        pins := Function.update s.pins b (s.pins b-1)}
    else none

def init (disk : ℕ → β) (zero : β) : Sys β where
  bufs _ := ⟨false,0,0,none,0,zero⟩
  links := List2.binit
  procs _ := .idle
  disk := disk
  pins _ := 0
  hist := []
  panic := none

end Xv6.Bio
