import Xv6.Bytes
import Xv6.Machine
import Xv6.Param

/-! The write-ahead log of `kernel/log.c` over the buffer cache of `kernel/bio.c`.
Any number of processes run operations concurrently; a step is one critical section of
`log.lock`, one buffer access under its sleep-lock, or one `bwrite`. A crash drops
everything but the disk, and `recover_from_log` may itself be cut between two writes. -/
namespace Xv6
namespace Log

open Bytes

abbrev Block := Mem
abbrev Disk := ℕ → Block

/-- The header block at `log.start` and the rest of the `log.size` blocks from it on. -/
def inLog (sb : Superblock) (b : ℕ) : Prop :=
  b = sb.logstart ∨ sb.logstart < b ∧ b < sb.logstart+sb.nlog

instance (sb : Superblock) (b : ℕ) : Decidable (inLog sb b) := by
  unfold inLog
  infer_instance

/-- The stores `hb->block[i] = log.lh.block[i]` of `write_head`, from entry `i` on. -/
def writeEntries (d : Block) : ℕ → List ℕ → Block
  | _, [] => d
  | i, b::bs => writeEntries (writeLE d (4+4*i) 4 b) (i+1) bs

/-- `struct logheader`: the count, then the block numbers. Stale entries are kept. -/
def encodeHead (lh : List ℕ) (d : Block) : Block :=
  writeEntries (writeLE d 0 4 lh.length) 0 lh

/-- The count is an `int`, so a negative one makes the loop of `read_head` read nothing. -/
def decodeHead (d : Block) : List ℕ :=
  let n := readLE d 0 4
  (List.range (if n < 2^31 then n else 0)).map fun i => readLE d (4+4*i) 4

theorem readLE_writeEntries {d : Block} {i : ℕ} {bs : List ℕ} {a k : ℕ} (h : a+k ≤ 4+4*i) :
    readLE (writeEntries d i bs) a k = readLE d a k := by
  induction bs generalizing d i with
  | nil => rfl
  | cons b bs ih =>
    rw [writeEntries,ih (by omega)]
    exact readLE_writeLE_disjoint (by omega)

theorem readLE_writeEntries_get {d : Block} {i j : ℕ} {bs : List ℕ} (hj : j < bs.length) :
    readLE (writeEntries d i bs) (4+4*(i+j)) 4 = bs[j] % 2^32 := by
  induction bs generalizing d i j with
  | nil => simp at hj
  | cons b bs ih =>
    cases j with
    | zero =>
      rw [writeEntries,readLE_writeEntries (by omega)]
      simp
    | succ j =>
      have hh := ih (d:=writeLE d (4+4*i) 4 b) (i:=i+1) (j:=j) (by simpa using hj)
      rw [show i+1+j = i+(j+1) by omega] at hh
      simpa [writeEntries] using hh

/-- What `write_head` puts on the disk is what `read_head` finds there. -/
theorem decodeHead_encodeHead {lh : List ℕ} (d : Block) (hlen : lh.length < 2^31)
    (hb : ∀ b ∈ lh, b < 2^32) : decodeHead (encodeHead lh d) = lh := by
  have hn : readLE (encodeHead lh d) 0 4 = lh.length := by
    rw [encodeHead,readLE_writeEntries (by omega),readLE_writeLE]
    exact Nat.mod_eq_of_lt (by omega)
  have hd : decodeHead (encodeHead lh d) =
      (List.range lh.length).map fun i => readLE (encodeHead lh d) (4+4*i) 4 := by
    simp only [decodeHead,hn,if_pos hlen]
  rw [hd]
  apply List.ext_getElem
  · simp
  · intro i h₁ h₂
    have hi := readLE_writeEntries_get (d:=writeLE d 0 4 lh.length) (i:=0) h₂
    rw [Nat.mod_eq_of_lt (hb _ (List.getElem_mem h₂)),Nat.zero_add] at hi
    simpa [encodeHead] using hi

/-- Progress of the process that runs `commit`. `writeLog t` has copied `t` blocks to the
log and `install t` has written `t` blocks home. -/
inductive Phase
  | writeLog (tail : ℕ) | install (tail : ℕ) | finish
  deriving DecidableEq,Repr

/-- A process is outside `begin_op`/`end_op` or retesting in `begin_op` (`idle`), asleep in
`begin_op`, inside operation number `id`, or in the commit that its `end_op` started. -/
inductive Status
  | idle | waiting | op (id : ℕ) | commit (phase : Phase)
  deriving DecidableEq,Repr

/-- `booting` is before `read_head` and `recovering t` has installed `t` blocks. -/
inductive Mode
  | running | panicked (msg : String) | booting | recovering (tail : ℕ)
  deriving DecidableEq,Repr

/-- One logged block update: the operation, the block and the bytes it left there. -/
structure Update where
  op : ℕ
  blockno : ℕ
  data : Block

structure State where
  mode : Mode
  disk : Disk
  /-- Cached data of each block, `none` when no buffer holds it. -/
  cache : ℕ → Option Block
  /-- Holder of the sleep-lock of the block's buffer. -/
  holder : ℕ → Option ℕ
  /-- Pins set by `bpin` and not yet taken back by `bunpin`. -/
  pin : ℕ → ℕ
  /-- Buffers changed since their last `log_write`. -/
  dirty : List ℕ
  /-- `log.lh.block[0..n)`. -/
  lh : List ℕ
  outstanding : ℕ
  committing : Bool
  status : ℕ → Status
  /-- The rest records history since the last boot and is read by no step. `base` is the
  disk at boot, `closed` the groups that `end_op` handed to `commit`, `cur` the open one. -/
  nextOp : ℕ
  base : Disk
  closed : List (List Update)
  cur : List Update
  /-- Operations that called `end_op`. -/
  ended : List ℕ
  /-- Operations that had ended when some `commit` returned, and the groups returned. -/
  durable : List ℕ
  returned : ℕ

def bread (s : State) (b : ℕ) : Block := (s.cache b).getD (s.disk b)

def bwrite (s : State) (b : ℕ) (d : Block) : State :=
  { s with disk := Function.update s.disk b d, cache := Function.update s.cache b (some d) }

def wakeup (st : ℕ → Status) : ℕ → Status := fun p =>
  if st p = .waiting then .idle else st p

def setStatus (s : State) (p : ℕ) (x : Status) : State :=
  { s with status := Function.update s.status p x }

def beginOp (s : State) (p : ℕ) : State :=
  if s.committing then setStatus s p .waiting
  else if s.lh.length + (s.outstanding+1)*MAXOPBLOCKS > LOGSIZE then setStatus s p .waiting
  else { setStatus s p (.op s.nextOp) with
    outstanding := s.outstanding+1
    nextOp := s.nextOp+1 }

/-- `log_write` with absorption: a block is recorded and pinned once. -/
def logWrite (sb : Superblock) (s : State) (o b : ℕ) : State :=
  if s.lh.length ≥ LOGSIZE ∨ s.lh.length ≥ sb.nlog-1 then
    { s with mode := .panicked "too big a transaction" }
  else if s.outstanding < 1 then
    { s with mode := .panicked "log_write outside of trans" }
  else { s with
    lh := if b ∈ s.lh then s.lh else s.lh++[b]
    pin := if b ∈ s.lh then s.pin else Function.update s.pin b (s.pin b+1)
    dirty := s.dirty.filter (· ≠ b)
    cur := s.cur++[⟨o,b,bread s b⟩] }

/-- The critical section of `end_op`; the last operation goes on to commit. -/
def endOp (s : State) (p o : ℕ) : State :=
  let s := { s with outstanding := s.outstanding-1, ended := s.ended++[o] }
  if s.committing then { s with mode := .panicked "log.committing" }
  else if s.outstanding = 0 then
    { setStatus s p (.commit (if s.lh = [] then .finish else .writeLog 0)) with
      committing := true
      closed := s.closed++[s.cur]
      cur := [] }
  else { s with status := Function.update (wakeup s.status) p .idle }

/-- One `bwrite` of `write_log`, or the `write_head` that commits when all are copied. -/
def writeLogStep (sb : Superblock) (s : State) (p tail : ℕ) : Option State :=
  match s.lh[tail]? with
  | some b =>
    let lbuf := sb.logstart+tail+1
    if s.holder lbuf = none ∧ s.holder b = none then
      some (setStatus (bwrite { s with cache := Function.update s.cache b (some (bread s b)) }
        lbuf (bread s b)) p (.commit (.writeLog (tail+1))))
    else none
  | none =>
    if s.holder sb.logstart = none then
      some (setStatus (bwrite s sb.logstart (encodeHead s.lh (bread s sb.logstart))) p
        (.commit (.install 0)))
    else none

/-- One turn of `install_trans(0)`, or the `write_head` that erases the transaction. -/
def installStep (sb : Superblock) (s : State) (p tail : ℕ) : Option State :=
  match s.lh[tail]? with
  | some b =>
    let lbuf := sb.logstart+tail+1
    if s.holder lbuf = none ∧ s.holder b = none then
      some (setStatus { bwrite { s with cache := Function.update s.cache lbuf (some (bread s lbuf)) }
        b (bread s lbuf) with pin := Function.update s.pin b (s.pin b-1) } p
        (.commit (.install (tail+1))))
    else none
  | none =>
    if s.holder sb.logstart = none then
      some (setStatus { bwrite s sb.logstart (encodeHead [] (bread s sb.logstart)) with lh := [] } p
        (.commit .finish))
    else none

def finishStep (s : State) (p : ℕ) : State :=
  { s with
    committing := false
    status := Function.update (wakeup s.status) p .idle
    durable := s.ended
    returned := s.closed.length }

def commitStep (sb : Superblock) (s : State) (p : ℕ) : Phase → Option State
  | .writeLog t => writeLogStep sb s p t
  | .install t => installStep sb s p t
  | .finish => some (finishStep s p)

def crash (s : State) : State :=
  { s with
    mode := .booting
    cache := fun _ => none
    holder := fun _ => none
    pin := fun _ => 0
    dirty := []
    lh := []
    outstanding := 0
    committing := false
    status := fun _ => .idle }

def readHead (sb : Superblock) (s : State) : State :=
  { s with
    mode := .recovering 0
    lh := decodeHead (bread s sb.logstart)
    cache := Function.update s.cache sb.logstart (some (bread s sb.logstart)) }

/-- One turn of `install_trans(1)`, or the final `write_head`; then a new history starts. -/
def recoverStep (sb : Superblock) (s : State) (tail : ℕ) : State :=
  match s.lh[tail]? with
  | some b =>
    let lbuf := sb.logstart+tail+1
    { bwrite { s with cache := Function.update s.cache lbuf (some (bread s lbuf)) }
        b (bread s lbuf) with mode := .recovering (tail+1) }
  | none =>
    let t := bwrite s sb.logstart (encodeHead [] (bread s sb.logstart))
    { t with
      mode := .running
      lh := []
      base := t.disk
      closed := []
      cur := []
      ended := []
      durable := []
      returned := 0 }

inductive Action
  | beginOp (p : ℕ) | bread (p b : ℕ) | modify (p b : ℕ) (d : Block) | logWrite (p b : ℕ)
  | brelse (p b : ℕ) | evict (b : ℕ) | endOp (p : ℕ) | commit (p : ℕ) | crash | recover

/-- An action is disabled where the code would sleep, and where it would break the
protocol of an operation: a buffer is changed only under its lock, outside the log area
and inside an operation, and is logged before it is released. -/
def step (sb : Superblock) (s : State) : Action → Option State
  | .beginOp p =>
    if s.mode = .running ∧ s.status p = .idle then some (beginOp s p) else none
  | .bread p b =>
    if s.mode = .running ∧ s.holder b = none then
      some { s with
        holder := Function.update s.holder b (some p)
        cache := Function.update s.cache b (some (bread s b)) }
    else none
  | .modify p b d =>
    match s.status p with
    | .op _ =>
      if s.mode = .running ∧ s.holder b = some p ∧ ¬ inLog sb b ∧ b < 2^32 then
        some { s with cache := Function.update s.cache b (some d), dirty := b::s.dirty }
      else none
    | _ => none
  | .logWrite p b =>
    match s.status p with
    | .op o =>
      if s.mode = .running ∧ s.holder b = some p ∧ ¬ inLog sb b ∧ b < 2^32 then
        some (logWrite sb s o b)
      else none
    | _ => none
  | .brelse p b =>
    if s.mode = .running ∧ s.holder b = some p ∧ b ∉ s.dirty then
      some { s with holder := Function.update s.holder b none }
    else none
  | .evict b =>
    if s.mode = .running ∧ s.holder b = none ∧ s.pin b = 0 then
      some { s with cache := Function.update s.cache b none }
    else none
  | .endOp p =>
    match s.status p with
    | .op o =>
      if s.mode = .running ∧ ∀ b ∈ s.dirty, s.holder b ≠ some p then some (endOp s p o) else none
    | _ => none
  | .commit p =>
    match s.status p with
    | .commit ph => if s.mode = .running then commitStep sb s p ph else none
    | _ => none
  | .crash => some (crash s)
  | .recover =>
    match s.mode with
    | .booting => some (readHead sb s)
    | .recovering t => some (recoverStep sb s t)
    | _ => none

/-- Everything an enabled action can do, with what its guards say about the state. -/
inductive Trans (sb : Superblock) (s : State) : Action → State → Prop
  | wait {p : ℕ} (hm : s.mode = .running) (hp : s.status p = .idle) :
      Trans sb s (.beginOp p) (setStatus s p .waiting)
  | enter {p : ℕ} (hm : s.mode = .running) (hp : s.status p = .idle)
      (hc : s.committing = false)
      (hfit : s.lh.length + (s.outstanding+1)*MAXOPBLOCKS ≤ LOGSIZE) :
      Trans sb s (.beginOp p) { setStatus s p (.op s.nextOp) with
        outstanding := s.outstanding+1, nextOp := s.nextOp+1 }
  | bread {p b : ℕ} (hm : s.mode = .running) (hb : s.holder b = none) :
      Trans sb s (.bread p b) { s with
        holder := Function.update s.holder b (some p)
        cache := Function.update s.cache b (some (bread s b)) }
  | modify {p b o : ℕ} {d : Block} (hm : s.mode = .running) (ho : s.status p = .op o)
      (hb : s.holder b = some p) (hout : ¬ inLog sb b) :
      Trans sb s (.modify p b d)
        { s with cache := Function.update s.cache b (some d), dirty := b::s.dirty }
  | overflow {p b o : ℕ} (hm : s.mode = .running) (ho : s.status p = .op o)
      (hfull : s.lh.length ≥ LOGSIZE ∨ s.lh.length ≥ sb.nlog-1) :
      Trans sb s (.logWrite p b) { s with mode := .panicked "too big a transaction" }
  | outsideTrans {p b o : ℕ} (hm : s.mode = .running) (ho : s.status p = .op o)
      (hfit : s.lh.length < LOGSIZE ∧ s.lh.length < sb.nlog-1) :
      Trans sb s (.logWrite p b) { s with mode := .panicked "log_write outside of trans" }
  | record {p b o : ℕ} (hm : s.mode = .running) (ho : s.status p = .op o)
      (hout : ¬ inLog sb b) (hb : b < 2^32)
      (hfit : s.lh.length < LOGSIZE ∧ s.lh.length < sb.nlog-1) :
      Trans sb s (.logWrite p b) { s with
        lh := if b ∈ s.lh then s.lh else s.lh++[b]
        pin := if b ∈ s.lh then s.pin else Function.update s.pin b (s.pin b+1)
        dirty := s.dirty.filter (· ≠ b)
        cur := s.cur++[⟨o,b,Log.bread s b⟩] }
  | brelse {p b : ℕ} (hm : s.mode = .running) (hb : b ∉ s.dirty) :
      Trans sb s (.brelse p b) { s with holder := Function.update s.holder b none }
  | evict {b : ℕ} (hm : s.mode = .running) (hb : s.holder b = none) (hpin : s.pin b = 0) :
      Trans sb s (.evict b) { s with cache := Function.update s.cache b none }
  | endOp {p o : ℕ} (hm : s.mode = .running) (ho : s.status p = .op o)
      (hd : ∀ b ∈ s.dirty, s.holder b ≠ some p) : Trans sb s (.endOp p) (endOp s p o)
  | writeLog {p tail : ℕ} {t : State} (hm : s.mode = .running)
      (hp : s.status p = .commit (.writeLog tail)) (ht : writeLogStep sb s p tail = some t) :
      Trans sb s (.commit p) t
  | install {p tail : ℕ} {t : State} (hm : s.mode = .running)
      (hp : s.status p = .commit (.install tail)) (ht : installStep sb s p tail = some t) :
      Trans sb s (.commit p) t
  | finish {p : ℕ} (hm : s.mode = .running) (hp : s.status p = .commit .finish) :
      Trans sb s (.commit p) (finishStep s p)
  | crash : Trans sb s .crash (crash s)
  | readHead (hm : s.mode = .booting) : Trans sb s .recover (readHead sb s)
  | recover {tail : ℕ} (hm : s.mode = .recovering tail) :
      Trans sb s .recover (recoverStep sb s tail)

theorem trans_beginOp {sb : Superblock} {s : State} {p : ℕ} (hm : s.mode = .running)
    (hp : s.status p = .idle) : Trans sb s (.beginOp p) (beginOp s p) := by
  unfold beginOp
  split
  · exact .wait hm hp
  · rename_i hc
    split
    · exact .wait hm hp
    · exact .enter hm hp (by simpa using hc) (by omega)

theorem trans_logWrite {sb : Superblock} {s : State} {p b o : ℕ} (hm : s.mode = .running)
    (ho : s.status p = .op o) (hout : ¬ inLog sb b) (hb : b < 2^32) :
    Trans sb s (.logWrite p b) (logWrite sb s o b) := by
  unfold logWrite
  split
  · rename_i hfull
    exact .overflow hm ho hfull
  · split
    · exact .outsideTrans hm ho (by omega)
    · exact .record hm ho hout hb (by omega)

theorem step_trans {sb : Superblock} {s t : State} {a : Action} (h : step sb s a = some t) :
    Trans sb s a t := by
  cases a with
  | beginOp p =>
    simp only [step] at h
    split at h <;> cases h
    rename_i hg
    exact trans_beginOp hg.1 hg.2
  | bread p b =>
    simp only [step] at h
    split at h <;> cases h
    rename_i hg
    exact .bread hg.1 hg.2
  | modify p b d =>
    simp only [step] at h
    split at h
    · rename_i o ho
      split at h <;> cases h
      rename_i hg
      exact .modify hg.1 ho hg.2.1 hg.2.2.1
    · cases h
  | logWrite p b =>
    simp only [step] at h
    split at h
    · rename_i o ho
      split at h <;> cases h
      rename_i hg
      exact trans_logWrite hg.1 ho hg.2.2.1 hg.2.2.2
    · cases h
  | brelse p b =>
    simp only [step] at h
    split at h <;> cases h
    rename_i hg
    exact .brelse hg.1 hg.2.2
  | evict b =>
    simp only [step] at h
    split at h <;> cases h
    rename_i hg
    exact .evict hg.1 hg.2.1 hg.2.2
  | endOp p =>
    simp only [step] at h
    split at h
    · rename_i o ho
      split at h <;> cases h
      rename_i hg
      exact .endOp hg.1 ho hg.2
    · cases h
  | commit p =>
    simp only [step] at h
    split at h
    · rename_i ph hph
      split at h
      · rename_i hm
        cases ph with
        | writeLog tail => exact .writeLog hm hph h
        | install tail => exact .install hm hph h
        | finish =>
          cases h
          exact .finish hm hph
      · cases h
    · cases h
  | crash =>
    cases h
    exact .crash
  | recover =>
    simp only [step] at h
    split at h <;> cases h
    · rename_i hm
      exact .readHead hm
    · rename_i tail hm
      exact .recover hm

def boot (disk : Disk) : State where
  mode := .running
  disk := disk
  cache := fun _ => none
  holder := fun _ => none
  pin := fun _ => 0
  dirty := []
  lh := []
  outstanding := 0
  committing := false
  status := fun _ => .idle
  nextOp := 0
  base := disk
  closed := []
  cur := []
  ended := []
  durable := []
  returned := 0

end Log
end Xv6
