import Xv6.Fs

/-! Directories and path names of `kernel/fs.c`. A C string is the list of its bytes before the
NUL. -/
namespace Xv6

open Bytes Command

def strncmp : List UInt8 → List UInt8 → ℕ → ℤ
  | _, _, 0 => 0
  | p, q, n+1 =>
    if p.headD 0 ≠ 0 ∧ p.headD 0 = q.headD 0 then strncmp p.tail q.tail n
    else (p.headD 0).toNat-(q.headD 0).toNat

/-- The `n` bytes that `strncpy` stores: the string, filled up with NULs. -/
def strncpy (t : List UInt8) (n : ℕ) : List UInt8 := t.take n++List.replicate (n-t.length) 0

def namecmp (s t : List UInt8) : ℤ := strncmp s t DIRSIZ

def slash : UInt8 := 47

def dot : List UInt8 := [46]

def dotdot : List UInt8 := [46,46]

/-- The first element of a path, cut to `DIRSIZ` bytes, and the path behind it; `none` if there
is no element. -/
def skipelem (path : List UInt8) : Option (List UInt8 × List UInt8) :=
  match path.dropWhile (· = slash) with
  | [] => none
  | c::cs =>
    some (((c::cs).takeWhile (· ≠ slash)).take DIRSIZ,
      ((c::cs).dropWhile (· ≠ slash)).dropWhile (· = slash))

structure Dirent where
  inum : UInt16
  /-- The bytes of `name[DIRSIZ]`. -/
  name : List UInt8
  deriving DecidableEq

namespace Dirent

def bytes : ℕ := 2+DIRSIZ

def decode (mem : Mem) : Dirent :=
  ⟨UInt16.ofNat (readLE mem 0 2),(List.range DIRSIZ).map fun i => mem (2+i)⟩

def encode (de : Dirent) : Mem := fun i =>
  if i < 2 then leByte de.inum.toNat i else de.name.getD (i-2) 0

def zero : Dirent := ⟨0,List.replicate DIRSIZ 0⟩

end Dirent

namespace Fs

variable (sb : Geometry)

/-- `readi(dp, 0, &de, off, sizeof(de)) != sizeof(de)` and then `panic`, or the entry read. -/
def readDirent (e : FsPanic) (dp off : ℕ) : FsM Dirent := do
  let r ← readi sb 0 (fun _ => 0) dp false 0 (UInt32.ofNat off) (UInt32.ofNat Dirent.bytes)
  if r.1 ≠ Dirent.bytes then throw e else return Dirent.decode r.2

def writeDirent (dp off : ℕ) (de : Dirent) : FsM ℤ :=
  writei sb 0 de.encode dp false 0 (UInt32.ofNat off) (UInt32.ofNat Dirent.bytes)

/-- Rounds after which a loop over the entries has passed the end of the directory. -/
def rounds (d : Dinode) : ℕ := d.size.toNat/Dirent.bytes+1

def dirlookupLoop (dp : ℕ) (name : List UInt8) : ℕ → ℕ → FsM (Option (ℕ × ℕ))
  | 0, _ => return none
  | fuel+1, off => do
    let n := (← get).itable dp
    if off < n.d.size.toNat then do
      let de ← readDirent sb .dirlookupRead dp off
      if de.inum = 0 then dirlookupLoop dp name fuel (off+Dirent.bytes)
      else if namecmp name de.name = 0 then do
        let ip ← iget n.dev de.inum.toNat
        return some (ip,off)
      else dirlookupLoop dp name fuel (off+Dirent.bytes)
    else return none

def dirlookup (dp : ℕ) (name : List UInt8) : FsM (Option (ℕ × ℕ)) := do
  let n := (← get).itable dp
  if n.d.type ≠ T_DIR then throw .dirlookupNotDir
  else dirlookupLoop sb dp name (rounds n.d) 0

def emptyDirentLoop (dp : ℕ) : ℕ → ℕ → FsM ℕ
  | 0, off => return off
  | fuel+1, off => do
    let n := (← get).itable dp
    if off < n.d.size.toNat then do
      let de ← readDirent sb .dirlinkRead dp off
      if de.inum = 0 then return off else emptyDirentLoop dp fuel (off+Dirent.bytes)
    else return off

def dirlink (dp : ℕ) (name : List UInt8) (inum : ℕ) : FsM ℤ := do
  match ← dirlookup sb dp name with
  | some (ip,_) => do
    iput sb ip
    return -1
  | none => do
    let off ← emptyDirentLoop sb dp (rounds ((← get).itable dp).d) 0
    let r ← writeDirent sb dp off ⟨UInt16.ofNat inum,strncpy name DIRSIZ⟩
    if r ≠ Dirent.bytes then return -1 else return 0

/-- The loop of `namex` at inode `ip`: the inode found, and for `nameiparent` the last element. -/
def namexLoop (nameiparent : Bool) : ℕ → ℕ → List UInt8 → FsM (Option (ℕ × List UInt8))
  | 0, _, _ => return none
  | fuel+1, ip, path =>
    match skipelem path with
    | none =>
      if nameiparent then do
        iput sb ip
        return none
      else return some (ip,[])
    | some (name,rest) => do
      ilock sb ip
      if ((← get).itable ip).d.type ≠ T_DIR then do
        iunlockput sb ip
        return none
      else if nameiparent = true ∧ rest = [] then do
        iunlock ip
        return some (ip,name)
      else do
        match ← dirlookup sb ip name with
        | none => do
          iunlockput sb ip
          return none
        | some (next,_) => do
          iunlockput sb ip
          namexLoop nameiparent fuel next rest

/-- Look up a path name, from the root or the working directory `cwd`. -/
def namex (cwd : ℕ) (path : List UInt8) (nameiparent : Bool) : FsM (Option (ℕ × List UInt8)) := do
  let ip ← if path.headD 0 = slash then iget ROOTDEV ROOTINO else idup cwd
  namexLoop sb nameiparent (path.length+1) ip path

def namei (cwd : ℕ) (path : List UInt8) : FsM (Option ℕ) := do
  match ← namex sb cwd path false with
  | none => return none
  | some (ip,_) => return some ip

def nameiparent (cwd : ℕ) (path : List UInt8) : FsM (Option (ℕ × List UInt8)) :=
  namex sb cwd path true

end Fs
end Xv6
