import Mathlib.Tactic

/-! Constants of `kernel/param.h`, `kernel/fs.h`, `kernel/stat.h` and `kernel/fcntl.h`, and the
super block that `mkfs` writes. -/
namespace Xv6

def NPROC : ℕ := 64
def NCPU : ℕ := 8
def NOFILE : ℕ := 16
def NFILE : ℕ := 100
def NINODE : ℕ := 50
def NDEV : ℕ := 10
def ROOTDEV : ℕ := 1
def MAXARG : ℕ := 32
def MAXPATH : ℕ := 128
def ROOTINO : ℕ := 1

def MAXOPBLOCKS : ℕ := 10
def LOGSIZE : ℕ := MAXOPBLOCKS*3
def NBUF : ℕ := MAXOPBLOCKS*3
def FSSIZE : ℕ := 2000
def BSIZE : ℕ := 1024
def FSMAGIC : ℕ := 0x10203040
/-- Inodes per block: `BSIZE / sizeof(struct dinode)`. -/
def IPB : ℕ := BSIZE/64
def BPB : ℕ := BSIZE*8
def NDIRECT : ℕ := 12
/-- Block numbers in an indirect block: `BSIZE / sizeof(uint)`. -/
def NINDIRECT : ℕ := BSIZE/4
def MAXFILE : ℕ := NDIRECT+NINDIRECT
def DIRSIZ : ℕ := 14

def T_DIR : Int16 := 1
def T_FILE : Int16 := 2
def T_DEVICE : Int16 := 3

def O_RDONLY : ℕ := 0x000
def O_WRONLY : ℕ := 0x001
def O_RDWR : ℕ := 0x002
def O_CREATE : ℕ := 0x200
def O_TRUNC : ℕ := 0x400

structure Superblock where
  magic : ℕ
  size : ℕ
  nblocks : ℕ
  ninodes : ℕ
  nlog : ℕ
  logstart : ℕ
  inodestart : ℕ
  bmapstart : ℕ
  deriving DecidableEq,Repr

namespace Mkfs

def NINODES : ℕ := 200
def nbitmap : ℕ := FSSIZE/(BSIZE*8)+1
def ninodeblocks : ℕ := NINODES/IPB+1
def nlog : ℕ := LOGSIZE
def nmeta : ℕ := 2+nlog+ninodeblocks+nbitmap

def superblock : Superblock where
  magic := FSMAGIC
  size := FSSIZE
  nblocks := FSSIZE-nmeta
  ninodes := NINODES
  nlog := nlog
  logstart := 2
  inodestart := 2+nlog
  bmapstart := 2+nlog+ninodeblocks

end Mkfs
end Xv6
