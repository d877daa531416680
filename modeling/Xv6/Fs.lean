import Xv6.Command
import Xv6.Layout
import Xv6.UserMemory

/-! The block and inode layers of `kernel/fs.c`. A system call is one command: no other call
runs between its steps. The block store holds what `bread` returns; the home blocks on disk
change when `end_op` commits. -/
namespace Xv6

open Bytes Command

structure Inode where
  dev : ℕ
  inum : ℕ
  ref : ℤ
  locked : Bool
  valid : Bool
  /-- Copy of the disk inode. -/
  d : Dinode

/-- The calls of `panic` in `fs.c`, `log.c` and `sysfile.c`. -/
inductive FsPanic
  | tooBigTransaction
  | logWriteOutsideOfTrans
  | freeingFreeBlock
  | igetNoInodes
  | ilock
  | ilockNoType
  | iunlock
  | bmapOutOfRange
  | dirlookupNotDir
  | dirlookupRead
  | dirlinkRead
  | isdiremptyReadi
  | unlinkNlink
  | unlinkWritei
  /-- Not a panic: a sleep that nothing ends while the call runs alone. -/
  | blocked
  deriving DecidableEq

structure Fs where
  /-- Block contents as the buffer cache shows them. -/
  blk : ℕ → Block
  /-- Home blocks on disk. -/
  disk : ℕ → Block
  /-- `log.lh.block[0..log.lh.n)`. -/
  lh : List ℕ
  outstanding : ℕ
  itable : ℕ → Inode

abbrev FsM := Cmd FsPanic Fs

namespace Fs

variable (sb : Geometry)

def beginOp : FsM Unit := do
  let s ← get
  if LOGSIZE < s.lh.length+(s.outstanding+1)*MAXOPBLOCKS then throw .blocked
  else set {s with outstanding := s.outstanding+1}

/-- The last `end_op` commits: every logged block reaches its home. -/
def endOp : FsM Unit := do
  let s ← get
  if s.outstanding-1 = 0 then
    set {s with
      outstanding := 0
      disk := fun b => if b ∈ s.lh then s.blk b else s.disk b
      lh := []}
  else set {s with outstanding := s.outstanding-1}

def store (s : Fs) (b : ℕ) (data : Block) : Fs := {s with blk := Function.update s.blk b data}

def recordBlock (lh : List ℕ) (b : ℕ) : List ℕ := if b ∈ lh then lh else lh++[b]

def logWrite (b : ℕ) (data : Block) : FsM Unit := do
  let s ← get
  if LOGSIZE ≤ s.lh.length ∨ sb.nlog ≤ s.lh.length+1 then throw .tooBigTransaction
  else if s.outstanding < 1 then throw .logWriteOutsideOfTrans
  else set {s.store b data with lh := recordBlock s.lh b}

def bread (b : ℕ) : FsM Block := do
  return (← get).blk b

def bzero (bno : ℕ) : FsM Unit := logWrite sb bno fun _ => 0

/-- The test of `balloc` and `bfree` on the bit of block `b`. -/
def isFree (blk : ℕ → Block) (b : ℕ) : Bool :=
  blk (BBLOCK b sb) (b%BPB/8) &&& bitMask (b%BPB%8) = 0

/-- Allocate a zeroed disk block; 0 if out of disk space. The two loops of the source visit the
blocks below `sb.size` in order. -/
def balloc : FsM ℕ := do
  let s ← get
  match (List.range sb.size).find? (isFree sb s.blk) with
  | none => return 0
  | some b => do
    logWrite sb (BBLOCK b sb) (setBit (s.blk (BBLOCK b sb)) (b%BPB))
    bzero sb b
    return b

def bfree (b : ℕ) : FsM Unit := do
  let s ← get
  if isFree sb s.blk b then throw .freeingFreeBlock
  else logWrite sb (BBLOCK b sb) (clearBit (s.blk (BBLOCK b sb)) (b%BPB))

def setInode (s : Fs) (ip : ℕ) (n : Inode) : Fs := {s with itable := Function.update s.itable ip n}

def assign (ip : ℕ) (f : Inode → Inode) : FsM Unit :=
  modify fun s => s.setInode ip (f (s.itable ip))

def assignDisk (ip : ℕ) (f : Dinode → Dinode) : FsM Unit :=
  assign ip fun n => {n with d := f n.d}

def iupdate (ip : ℕ) : FsM Unit := do
  let s ← get
  let n := s.itable ip
  logWrite sb (IBLOCK n.inum sb) (Dinode.encode (s.blk (IBLOCK n.inum sb)) (n.inum%IPB) n.d)

/-- Assign fields of `*ip` that live on disk and write them back. -/
def updateDisk (ip : ℕ) (f : Dinode → Dinode) : FsM Unit := do
  assignDisk ip f
  iupdate sb ip

/-- The table entry for an inode, which is neither locked nor read from disk. -/
def iget (dev inum : ℕ) : FsM ℕ := do
  let s ← get
  match (List.range NINODE).find? fun k =>
      0 < (s.itable k).ref ∧ (s.itable k).dev = dev ∧ (s.itable k).inum = inum with
  | some ip => do
    assign ip fun n => {n with ref := n.ref+1}
    return ip
  | none =>
    match (List.range NINODE).find? fun k => (s.itable k).ref = 0 with
    | none => throw .igetNoInodes
    | some ip => do
      assign ip fun n => {n with dev := dev, inum := inum, ref := 1, valid := false}
      return ip

def ialloc (dev : ℕ) (type : Int16) : FsM (Option ℕ) := do
  let s ← get
  match (List.range' 1 (sb.ninodes-1)).find? fun i => (dinodeOf sb s.blk i).type = 0 with
  | none => return none
  | some inum => do
    logWrite sb (IBLOCK inum sb)
      (Dinode.encode (s.blk (IBLOCK inum sb)) (inum%IPB) {Dinode.zero with type := type})
    return some (← iget dev inum)

def idup (ip : ℕ) : FsM ℕ := do
  assign ip fun n => {n with ref := n.ref+1}
  return ip

def ilock (ip : ℕ) : FsM Unit := do
  let s ← get
  let n := s.itable ip
  if n.ref < 1 then throw .ilock
  else if n.locked then throw .blocked
  else if n.valid then set (s.setInode ip {n with locked := true})
  else do
    let d := dinodeOf sb s.blk n.inum
    set (s.setInode ip {n with locked := true, valid := true, d := d})
    if d.type = 0 then throw .ilockNoType else pure ()

def iunlock (ip : ℕ) : FsM Unit := do
  let n := (← get).itable ip
  if n.locked = false ∨ n.ref < 1 then throw .iunlock
  else assign ip fun n => {n with locked := false}

def indirect : Fin (NDIRECT+1) := ⟨NDIRECT,by decide⟩

def setAddr (ip : ℕ) (k : Fin (NDIRECT+1)) (addr : ℕ) : FsM Unit :=
  assignDisk ip fun d => {d with addrs := Function.update d.addrs k (UInt32.ofNat addr)}

/-- `ip->addrs[k]`, allocated if it is zero; 0 if out of disk space. -/
def bmapAddr (ip : ℕ) (k : Fin (NDIRECT+1)) : FsM ℕ := do
  let addr := (((← get).itable ip).d.addrs k).toNat
  if addr = 0 then do
    let addr ← balloc sb
    if addr = 0 then return 0
    else do
      setAddr ip k addr
      return addr
  else return addr

/-- Entry `bn` of the indirect block `ind`, allocated if it is zero. -/
def bmapEntry (ind bn : ℕ) : FsM ℕ := do
  let data ← bread ind
  let addr := entryOf data bn
  if addr = 0 then do
    let addr ← balloc sb
    when (addr ≠ 0) do
      -- the buffer of the indirect block has been held all along
      let data ← bread ind
      logWrite sb ind (setEntry data bn addr)
    return addr
  else return addr

/-- The disk block address of the `bn`th block of the inode, allocated if there is none;
0 if out of disk space. -/
def bmap (ip bn : ℕ) : FsM ℕ :=
  if h : bn < NDIRECT then bmapAddr sb ip ⟨bn,Nat.lt_succ_of_lt h⟩
  else if bn-NDIRECT < NINDIRECT then do
    let ind ← bmapAddr sb ip indirect
    if ind = 0 then return 0 else bmapEntry sb ind (bn-NDIRECT)
  else throw .bmapOutOfRange

def itruncDirect (ip i : ℕ) : FsM Unit :=
  if h : i < NDIRECT then do
    let k : Fin (NDIRECT+1) := ⟨i,Nat.lt_succ_of_lt h⟩
    let addr := (((← get).itable ip).d.addrs k).toNat
    when (addr ≠ 0) do
      bfree sb addr
      setAddr ip k 0
  else pure ()

def itrunc (ip : ℕ) : FsM Unit := do
  forUp (itruncDirect sb ip) 0 NDIRECT
  let ind := (((← get).itable ip).d.addrs indirect).toNat
  when (ind ≠ 0) do
    let data ← bread ind
    forUp (fun j => when (entryOf data j ≠ 0) (bfree sb (entryOf data j))) 0 NINDIRECT
    bfree sb ind
    setAddr ip indirect 0
  assignDisk ip fun d => {d with size := 0}
  iupdate sb ip

/-- Drop a reference; the last one to an inode without links frees the inode and its content. -/
def iput (ip : ℕ) : FsM Unit := do
  let n := (← get).itable ip
  when (n.ref = 1 ∧ n.valid = true ∧ n.d.nlink = 0) do
    if n.locked then throw .blocked
    else do
      itrunc sb ip
      updateDisk sb ip fun d => {d with type := 0}
      assign ip fun n => {n with valid := false}
  assign ip fun n => {n with ref := n.ref-1}

def iunlockput (ip : ℕ) : FsM Unit := do
  iunlock ip
  iput sb ip

section Transfer

variable (pagetable : ℕ)

/-- The loop of `readi`: the total, or -1, and memory after the copies. -/
def readiLoop (ip : ℕ) (userDst : Bool) (n : ℕ) : ℕ → Mem → ℕ → ℕ → ℕ → FsM (ℤ × Mem)
  | 0, mem, _, _, tot => return (tot,mem)
  | fuel+1, mem, dst, off, tot =>
    if tot < n then do
      let addr ← bmap sb ip (off/BSIZE)
      if addr = 0 then return (tot,mem)
      else do
        let data ← bread addr
        let m := min (n-tot) (BSIZE-off%BSIZE)
        let r := Vm.eitherCopyout mem pagetable userDst dst (fun i => data (off%BSIZE+i)) m
        if r.2 = false then return (-1,r.1)
        else readiLoop ip userDst n fuel r.1 (dst+m) (off+m) (tot+m)
    else return (tot,mem)

def readi (mem : Mem) (ip : ℕ) (userDst : Bool) (dst : ℕ) (off n : UInt32) : FsM (ℤ × Mem) := do
  let size := ((← get).itable ip).d.size
  if size < off ∨ off+n < off then return (0,mem)
  else do
    let n := if size < off+n then size-off else n
    readiLoop sb pagetable ip userDst n.toNat n.toNat mem dst off.toNat 0

/-- The loop of `writei`: the number of bytes written. A copy that fails leaves what it stored
in the buffer, which is released without `log_write`. -/
def writeiLoop (mem : Mem) (ip : ℕ) (userSrc : Bool) (n : ℕ) : ℕ → ℕ → ℕ → ℕ → FsM ℕ
  | 0, _, _, tot => return tot
  | fuel+1, src, off, tot =>
    if tot < n then do
      let addr ← bmap sb ip (off/BSIZE)
      if addr = 0 then return tot
      else do
        let data ← bread addr
        let m := min (n-tot) (BSIZE-off%BSIZE)
        let r := Vm.eitherCopyin mem pagetable data (off%BSIZE) userSrc src m
        if r.2 = false then do
          modify fun s => s.store addr r.1
          return tot
        else do
          logWrite sb addr r.1
          writeiLoop mem ip userSrc n fuel (src+m) (off+m) (tot+m)
    else return tot

def writei (mem : Mem) (ip : ℕ) (userSrc : Bool) (src : ℕ) (off n : UInt32) : FsM ℤ := do
  let size := ((← get).itable ip).d.size
  if size < off ∨ off+n < off then return -1
  else if MAXFILE*BSIZE < (off+n).toNat then return -1
  else do
    let tot ← writeiLoop sb pagetable mem ip userSrc n.toNat n.toNat src off.toNat 0
    let off := UInt32.ofNat (off.toNat+tot)
    assignDisk ip fun d => if d.size < off then {d with size := off} else d
    iupdate sb ip
    return tot

end Transfer
end Fs
end Xv6
