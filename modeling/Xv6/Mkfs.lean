import Xv6.Dir
import Xv6.RootImage

/-! `mkfs/mkfs.c`: the host program that builds a file-system image. -/
namespace Xv6
namespace Mkfs

open Bytes Command

structure State where
  /-- The image file, sector by sector. -/
  img : ℕ → Block
  freeinode : ℕ
  freeblock : ℕ

/-- A failed `assert`, or `die` after a system call that failed. -/
inductive Stop
  | assertion
  | die
  deriving DecidableEq

abbrev MkfsM := Cmd Stop State

def assert (p : Prop) [Decidable p] : MkfsM Unit := if p then pure () else throw .assertion

def wsect (sec : ℕ) (buf : Block) : MkfsM Unit :=
  modify fun s => {s with img := Function.update s.img sec buf}

/-- The image file has `FSSIZE` sectors; a read behind them is short. -/
def rsect (sec : ℕ) : MkfsM Block := do
  let s ← get
  if sec < FSSIZE then return s.img sec else throw .die

def winode (inum : ℕ) (din : Dinode) : MkfsM Unit := do
  let buf ← rsect (IBLOCK inum geometry)
  wsect (IBLOCK inum geometry) (Dinode.encode buf (inum%IPB) din)

def rinode (inum : ℕ) : MkfsM Dinode := do
  let buf ← rsect (IBLOCK inum geometry)
  return Dinode.decode buf (inum%IPB)

def ialloc (type : Int16) : MkfsM ℕ := do
  let s ← get
  set {s with freeinode := s.freeinode+1}
  winode s.freeinode {Dinode.zero with type := type,nlink := 1}
  return s.freeinode

def nextBlock : MkfsM ℕ := do
  let s ← get
  set {s with freeblock := s.freeblock+1}
  return s.freeblock

def balloc (used : ℕ) : MkfsM Unit := do
  assert (used < BSIZE*8)
  wsect superblock.bmapstart (marked used)

/-- `din.addrs[k]`, taken from the free blocks if it is zero, and the inode after that. -/
def addrOf (din : Dinode) (k : Fin (NDIRECT+1)) : MkfsM (ℕ × Dinode) := do
  if (din.addrs k).toNat = 0 then do
    let b ← nextBlock
    return (b,{din with addrs := Function.update din.addrs k (UInt32.ofNat b)})
  else return ((din.addrs k).toNat,din)

/-- The sector of file block `fbn`, and the inode after it has been allocated. -/
def sectorOf (din : Dinode) (fbn : ℕ) : MkfsM (ℕ × Dinode) := do
  if h : fbn < NDIRECT then addrOf din ⟨fbn,Nat.lt_succ_of_lt h⟩
  else do
    let (ind,din) ← addrOf din Fs.indirect
    let buf ← rsect ind
    if entryOf buf (fbn-NDIRECT) = 0 then do
      let b ← nextBlock
      wsect ind (setEntry buf (fbn-NDIRECT) b)
      return (b,din)
    else return (entryOf buf (fbn-NDIRECT),din)

/-- The loop of `iappend`; every round appends at least one byte. -/
def iappendLoop : ℕ → Dinode → ℕ → List UInt8 → MkfsM (ℕ × Dinode)
  | 0,din,off,_ => return (off,din)
  | fuel+1,din,off,p =>
    if p = [] then return (off,din)
    else do
      let fbn := off/BSIZE
      assert (fbn < MAXFILE)
      let (x,din) ← sectorOf din fbn
      let n1 := min p.length ((fbn+1)*BSIZE-off)
      let buf ← rsect x
      wsect x (blit buf (off-fbn*BSIZE) n1 fun i => p.getD i 0)
      iappendLoop fuel din (off+n1) (p.drop n1)

def iappend (inum : ℕ) (p : List UInt8) : MkfsM Unit := do
  let din ← rinode inum
  let (off,din) ← iappendLoop p.length din din.size.toNat p
  winode inum {din with size := UInt32.ofNat off}

def dirent (inum : ℕ) (name : List UInt8) : List UInt8 :=
  (List.range Dirent.bytes).map (Dirent.encode ⟨UInt16.ofNat inum,strncpy name DIRSIZ⟩)

/-- An input file: its name on the command line, which is a C string, and what the calls of `read`
return up to the end of the file. -/
structure Input where
  arg : List UInt8
  chunks : List (List UInt8)
  nul_free : (0 : UInt8) ∉ arg
  chunk_le : ∀ c ∈ chunks, c ≠ [] ∧ c.length ≤ BSIZE

def Input.bytes (f : Input) : List UInt8 := f.chunks.flatten

def basename (arg : List UInt8) : List UInt8 :=
  if [117,115,101,114,47].isPrefixOf arg then arg.drop 5 else arg

def shortname (arg : List UInt8) : List UInt8 :=
  if (basename arg).headD 0 = 95 then (basename arg).tail else basename arg

def appendChunks (inum : ℕ) : List (List UInt8) → MkfsM Unit
  | [] => pure ()
  | c::cs => do
    iappend inum c
    appendChunks inum cs

def addFile (rootino : ℕ) (f : Input) : MkfsM Unit := do
  assert (slash ∉ basename f.arg)
  let inum ← ialloc T_FILE
  iappend rootino (dirent inum (shortname f.arg))
  appendChunks inum f.chunks

def addFiles (rootino : ℕ) : List Input → MkfsM Unit
  | [] => pure ()
  | f::fs => do
    addFile rootino f
    addFiles rootino fs

def fixSize (rootino : ℕ) : MkfsM Unit := do
  let din ← rinode rootino
  winode rootino {din with size := UInt32.ofNat ((din.size.toNat/BSIZE+1)*BSIZE)}

def main (files : List Input) : MkfsM Unit := do
  wsect 1 (blit (fun _ => 0) 0 32 sbBlock)
  let rootino ← ialloc T_DIR
  assert (rootino = ROOTINO)
  iappend rootino (dirent rootino dot)
  iappend rootino (dirent rootino dotdot)
  addFiles rootino files
  fixSize rootino
  balloc (← get).freeblock

def start : State where
  img := fun _ _ => 0
  freeinode := 1
  freeblock := nmeta

/-- The image written for a list of input files, if `mkfs` gets to its end. -/
def image (files : List Input) : Option (ℕ → Block) :=
  match (main files).run start with
  | .ok (_,s) => some s.img
  | .error _ => none

end Mkfs
end Xv6
