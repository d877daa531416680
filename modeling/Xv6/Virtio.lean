import Xv6.Machine
import Xv6.Ring
import Xv6.Param

/-! The disk driver of `kernel/virtio_disk.c` and the device behind it. A call of
`virtio_disk_rw` is cut where it sleeps and where the device can see a store of its critical
section; `virtio_disk_intr` is cut at every turn of its loop. The device works in between. -/
namespace Xv6.Virtio

def NUM : ℕ := 8

instance : NeZero NUM := ⟨by decide⟩

def VRING_DESC_F_NEXT : ℕ := 1
def VRING_DESC_F_WRITE : ℕ := 2
def VIRTIO_BLK_T_IN : ℕ := 0
def VIRTIO_BLK_T_OUT : ℕ := 1

/-- What the address of a descriptor points to: a request header, the data of a buffer or a
status byte. -/
inductive Addr
  | null
  | ops (i : ℕ)
  | data (b : ℕ)
  | status (i : ℕ)
deriving DecidableEq

structure Desc where
  addr : Addr := .null
  len : ℕ := 0
  flags : ℕ := 0
  next : ℕ := 0
deriving DecidableEq

structure BlkReq where
  type : ℕ
  reserved : ℕ
  sector : ℕ
deriving DecidableEq

structure Info where
  b : Option ℕ
  status : ℕ
deriving DecidableEq

/-- The part of `struct buf` that the driver and the device use. -/
structure Buf (β : Type) where
  blockno : ℕ
  disk : Bool
  data : β

/-- The memory of the driver. `avail.nwrite` is `disk.avail->idx`, `used.nwrite` is
`disk.used->idx` and `used.nread` is `disk.used_idx`; how far the device has read the avail ring
is known to the device only. -/
structure Disk (β : Type) where
  desc : ℕ → Desc
  avail : Ring.Buf ℕ 16 NUM
  used : Ring.Buf ℕ 16 NUM
  free : ℕ → Bool
  info : ℕ → Info
  ops : ℕ → BlkReq
  bufs : ℕ → Buf β

variable {β : Type}

def allocDesc (d : Disk β) : Option (ℕ × Disk β) :=
  ((List.range NUM).find? d.free).map fun i => (i,{d with free := Function.update d.free i false})

/-- `free_desc`; an error is the message of its panic. -/
def freeDesc (d : Disk β) (i : ℕ) : Except String (Disk β) :=
  if NUM ≤ i then .error "free_desc 1"
  else if d.free i then .error "free_desc 2"
  else .ok {d with desc := Function.update d.desc i {}, free := Function.update d.free i true}

def freeChain : (rounds : ℕ) → Disk β → ℕ → Except String (Disk β)
  | 0, _, _ => .error "free_chain"
  | rounds+1, d, i => do
    let flag := (d.desc i).flags
    let nxt := (d.desc i).next
    let d ← freeDesc d i
    if flag &&& VRING_DESC_F_NEXT ≠ 0 then freeChain rounds d nxt else return d

/-- `alloc3_desc`: what was allocated goes back if three cannot be had. -/
def alloc3Desc (d : Disk β) : Except String (Option (ℕ × ℕ × ℕ) × Disk β) :=
  match allocDesc d with
  | none => .ok (none,d)
  | some (i,d₁) =>
    match allocDesc d₁ with
    | none => do
      let d ← freeDesc d₁ i
      return (none,d)
    | some (j,d₂) =>
      match allocDesc d₂ with
      | none => do
        let d ← freeDesc d₂ i
        let d ← freeDesc d j
        return (none,d)
      | some (k,d₃) => .ok (some (i,j,k),d₃)

/-- `virtio_disk_rw` from the allocation of its descriptors to the store to the avail ring. -/
def format (d : Disk β) (b : ℕ) (write : Bool) (i j k : ℕ) : Disk β :=
  {d with
    ops := Function.update d.ops i
      ⟨if write then VIRTIO_BLK_T_OUT else VIRTIO_BLK_T_IN,0,(d.bufs b).blockno*(BSIZE/512)⟩
    desc := Function.update (Function.update (Function.update d.desc
      i ⟨.ops i,16,VRING_DESC_F_NEXT,j⟩)
      j ⟨.data b,BSIZE,(if write then 0 else VRING_DESC_F_WRITE) ||| VRING_DESC_F_NEXT,k⟩)
      k ⟨.status i,1,VRING_DESC_F_WRITE,0⟩
    info := Function.update d.info i ⟨some b,0xff⟩
    bufs := Function.update d.bufs b {d.bufs b with disk := true}}

structure Chain where
  n : ℕ
  b : ℕ
  i : ℕ
  j : ℕ
  k : ℕ
deriving DecidableEq

inductive Call
  | idle
  /-- In the loop around `alloc3_desc`. -/
  | alloc (b : ℕ) (write : Bool)
  /-- Before the store to `disk.avail->ring[]`, `vdisk_lock` held. -/
  | slot (c : Chain)
  /-- Before `disk.avail->idx += 1`, `vdisk_lock` held. -/
  | publish (c : Chain)
  /-- In the loop around `sleep(b, &disk.vdisk_lock)`. -/
  | wait (c : Chain)
deriving DecidableEq

inductive Owner
  | proc (p : ℕ)
  | intr
deriving DecidableEq

/-- What happened to the request numbered `n` with the chain head `h`. -/
inductive Event
  | submit (n h b : ℕ)
  | publish (n h : ℕ)
  | take (n h : ℕ)
  | perform (n h : ℕ)
  | post (n h : ℕ)
  /-- `virtio_disk_intr` cleared `b->disk`. -/
  | clear (n h b : ℕ)
  | ret (n : ℕ)
deriving DecidableEq

/-- Driver, device and callers. `number` and `trace` are for the record only: the number of the
last request submitted under each head, and what was done so far. -/
structure Sys (β : Type) extends Disk β where
  lock : Option Owner
  /-- Who has `b->lock`. -/
  holder : ℕ → Option ℕ
  calls : ℕ → Call
  /-- Chain heads that the device has taken from the avail ring. -/
  taken : List ℕ
  /-- Chain heads that the device has performed and not posted yet. -/
  performed : List ℕ
  sectors : ℕ → β
  number : ℕ → ℕ
  requests : ℕ
  trace : List Event
  panic : Option String

inductive Action
  | acquiresleep (p b : ℕ)
  | releasesleep (p b : ℕ)
  | virtioDiskRw (p b : ℕ) (write : Bool)
  | alloc (p : ℕ)
  | slot (p : ℕ)
  | publish (p : ℕ)
  | resume (p : ℕ)
  | virtioDiskIntr
  | intrLoop
  | take
  | perform (h : ℕ)
  | post (h : ℕ)
deriving DecidableEq

namespace Sys

def setCall (s : Sys β) (p : ℕ) (c : Call) : Sys β := {s with calls := Function.update s.calls p c}

/-- One attempt at `alloc3_desc`; on success the request is formatted under the lock. -/
def alloc (s : Sys β) (p b : ℕ) (write : Bool) : Sys β :=
  match alloc3Desc s.toDisk with
  | .error e => {s with panic := some e}
  | .ok (none,d) => {s with toDisk := d}
  | .ok (some (i,j,k),d) =>
    {s with
      toDisk := format d b write i j k
      calls := Function.update s.calls p (.slot ⟨s.requests,b,i,j,k⟩)
      lock := some (.proc p)
      number := Function.update s.number i s.requests
      requests := s.requests+1
      trace := s.trace++[.submit s.requests i b]}

/-- A sleeper on `b` goes on: it sleeps again, or frees its chain and returns. -/
def resume (s : Sys β) (p : ℕ) (c : Chain) : Sys β :=
  if (s.bufs c.b).disk then s
  else
    match freeChain (NUM+1)
      {s.toDisk with info := Function.update s.info c.i {s.info c.i with b := none}} c.i with
    | .error e => {s with panic := some e}
    | .ok d => {s with
        toDisk := d, calls := Function.update s.calls p .idle, trace := s.trace++[.ret c.n]}

/-- One test of the loop of `virtio_disk_intr` and what follows it. -/
def intrLoop (s : Sys β) : Sys β :=
  if s.used.nread = s.used.nwrite then {s with lock := none}
  else if (s.info s.used.front).status ≠ 0 then {s with panic := some "virtio_disk_intr status"}
  else
    match (s.info s.used.front).b with
    | none => {s with panic := some "null dereference"}
    | some b => {s with
        bufs := Function.update s.bufs b {s.bufs b with disk := false}
        used := s.used.drop
        trace := s.trace++[.clear (s.number s.used.front) s.used.front b]}

/-- The device walks the chain of `h`, moves the data and writes the status. A chain that is not
a request would be a fault. -/
def perform (s : Sys β) (h : ℕ) : Sys β :=
  let d₀ := s.desc h
  let d₁ := s.desc d₀.next
  let d₂ := s.desc d₁.next
  match d₀.addr,d₁.addr,d₂.addr with
  | .ops i,.data b,.status k =>
    let s : Sys β := {s with
      taken := s.taken.erase h
      performed := s.performed++[h]
      info := Function.update s.info k {s.info k with status := 0}
      trace := s.trace++[.perform (s.number h) h]}
    if (s.ops i).type = VIRTIO_BLK_T_OUT then
      {s with sectors := Function.update s.sectors (s.ops i).sector (s.bufs b).data}
    else {s with bufs := Function.update s.bufs b {s.bufs b with data := s.sectors (s.ops i).sector}}
  | _,_,_ => {s with panic := some "bad chain"}

end Sys

open Sys

/-- One step. A process may start a request for a buffer only while it has the lock of the
buffer, as `bread` and `bwrite` do. -/
def step (s : Sys β) (a : Action) : Option (Sys β) :=
  if s.panic.isSome then none
  else match a with
  | .acquiresleep p b =>
    if s.holder b = none then some {s with holder := Function.update s.holder b (some p)} else none
  | .releasesleep p b =>
    if s.holder b = some p ∧ s.calls p = .idle then
      some {s with holder := Function.update s.holder b none}
    else none
  | .virtioDiskRw p b write =>
    if s.holder b = some p ∧ s.calls p = .idle then some (s.setCall p (.alloc b write)) else none
  | .alloc p =>
    match s.calls p,s.lock with
    | .alloc b write,none => some (s.alloc p b write)
    | _,_ => none
  | .slot p =>
    match s.calls p with
    | .slot c => some {s.setCall p (.publish c) with avail := s.avail.stage c.i}
    | _ => none
  | .publish p =>
    match s.calls p with
    | .publish c => some {s.setCall p (.wait c) with
        avail := s.avail.publish, lock := none, trace := s.trace++[.publish c.n c.i]}
    | _ => none
  | .resume p =>
    match s.calls p,s.lock with
    | .wait c,none => some (s.resume p c)
    | _,_ => none
  | .virtioDiskIntr => if s.lock = none then some {s with lock := some .intr} else none
  | .intrLoop => if s.lock = some .intr then some s.intrLoop else none
  | .take =>
    if s.avail.nread = s.avail.nwrite then none
    else some {s with
      avail := s.avail.drop
      taken := s.taken++[s.avail.front]
      trace := s.trace++[.take (s.number s.avail.front) s.avail.front]}
  | .perform h => if h ∈ s.taken then some (s.perform h) else none
  | .post h =>
    if h ∈ s.performed then some {s with
      performed := s.performed.erase h
      used := s.used.put h
      trace := s.trace++[.post (s.number h) h]}
    else none

def init (blockno : ℕ → ℕ) (data sectors : ℕ → β) : Sys β where
  desc _ := {}
  avail := ⟨fun _ => 0,0,0⟩
  used := ⟨fun _ => 0,0,0⟩
  free _ := true
  info _ := ⟨none,0⟩
  ops _ := ⟨0,0,0⟩
  bufs b := ⟨blockno b,false,data b⟩
  lock := none
  holder _ := none
  calls _ := .idle
  taken := []
  performed := []
  sectors := sectors
  number _ := 0
  requests := 0
  trace := []
  panic := none

end Xv6.Virtio
