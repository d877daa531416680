import Xv6.Dir

/-! The system calls of `kernel/sysfile.c` that work on the file system alone. The caller's
working directory is an argument, and so is each path, as `argstr` has fetched it. -/
namespace Xv6
namespace Fs

open Bytes Command

variable (sb : Geometry)

def inOp {α : Type} (c : FsM α) : FsM α := do
  beginOp
  let r ← c
  endOp
  return r

def linkBad (ip : ℕ) : FsM ℤ := do
  ilock sb ip
  updateDisk sb ip fun d => {d with nlink := d.nlink-1}
  iunlockput sb ip
  return -1

/-- The end of `sys_link`: enter inode `ip` into directory `dp`. -/
def linkEntry (ip dp : ℕ) (name : List UInt8) : FsM ℤ := do
  ilock sb dp
  let s ← get
  if (s.itable dp).dev ≠ (s.itable ip).dev then do
    iunlockput sb dp
    linkBad sb ip
  else do
    let r ← dirlink sb dp name (s.itable ip).inum
    if r < 0 then do
      iunlockput sb dp
      linkBad sb ip
    else do
      iunlockput sb dp
      iput sb ip
      return 0

/-- Create the path `new` as a link to the same inode as `old`. -/
def link (cwd : ℕ) (old new : List UInt8) : FsM ℤ := do
  match ← namei sb cwd old with
  | none => return -1
  | some ip => do
    ilock sb ip
    if ((← get).itable ip).d.type = T_DIR then do
      iunlockput sb ip
      return -1
    else do
      updateDisk sb ip fun d => {d with nlink := d.nlink+1}
      iunlock ip
      match ← nameiparent sb cwd new with
      | none => linkBad sb ip
      | some (dp,name) => linkEntry sb ip dp name

def isdiremptyLoop (dp : ℕ) : ℕ → ℕ → FsM Bool
  | 0, _ => return true
  | fuel+1, off => do
    if off < ((← get).itable dp).d.size.toNat then do
      let de ← readDirent sb .isdiremptyReadi dp off
      if de.inum ≠ 0 then return false else isdiremptyLoop dp fuel (off+Dirent.bytes)
    else return true

def isdirempty (dp : ℕ) : FsM Bool := do
  isdiremptyLoop sb dp (rounds ((← get).itable dp).d) (2*Dirent.bytes)

/-- The end of `sys_unlink`, with `dp` and `ip` locked and the entry at `off`. -/
def unlinkEntry (dp ip off : ℕ) : FsM ℤ := do
  let r ← writeDirent sb dp off Dirent.zero
  if r ≠ Dirent.bytes then throw .unlinkWritei
  else do
    when (((← get).itable ip).d.type = T_DIR) do
      updateDisk sb dp fun d => {d with nlink := d.nlink-1}
    iunlockput sb dp
    updateDisk sb ip fun d => {d with nlink := d.nlink-1}
    iunlockput sb ip
    return 0

def unlink (cwd : ℕ) (path : List UInt8) : FsM ℤ := do
  match ← nameiparent sb cwd path with
  | none => return -1
  | some (dp,name) => do
    ilock sb dp
    if namecmp name dot = 0 ∨ namecmp name dotdot = 0 then do
      iunlockput sb dp
      return -1
    else do
      match ← dirlookup sb dp name with
      | none => do
        iunlockput sb dp
        return -1
      | some (ip,off) => do
        ilock sb ip
        let n := (← get).itable ip
        if n.d.nlink < 1 then throw .unlinkNlink
        else if n.d.type = T_DIR then do
          let empty ← isdirempty sb ip
          if empty then unlinkEntry sb dp ip off
          else do
            iunlockput sb ip
            iunlockput sb dp
            return -1
        else unlinkEntry sb dp ip off

/-- The entries "." and ".." of a new directory; `false` if one cannot be written. -/
def linkDots (dp ip : ℕ) : FsM Bool := do
  let s ← get
  let r ← dirlink sb ip dot (s.itable ip).inum
  if r < 0 then return false
  else do
    let r ← dirlink sb ip dotdot (s.itable dp).inum
    return !decide (r < 0)

def linkName (dp ip : ℕ) (name : List UInt8) : FsM Bool := do
  let r ← dirlink sb dp name ((← get).itable ip).inum
  return !decide (r < 0)

/-- All entries for the new inode `ip`; `false` if one cannot be written. -/
def linkNew (dp ip : ℕ) (name : List UInt8) (type : Int16) : FsM Bool :=
  if type = T_DIR then do
    let ok ← linkDots sb dp ip
    if ok then linkName sb dp ip name else return false
  else linkName sb dp ip name

/-- Fill the inode `ip` that `ialloc` has allocated and enter it into `dp`. -/
def createNew (dp ip : ℕ) (name : List UInt8) (type major minor : Int16) : FsM (Option ℕ) := do
  ilock sb ip
  updateDisk sb ip fun d => {d with major := major, minor := minor, nlink := 1}
  let ok ← linkNew sb dp ip name type
  if ok then do
    when (type = T_DIR) do
      updateDisk sb dp fun d => {d with nlink := d.nlink+1}
    iunlockput sb dp
    return some ip
  else do
    updateDisk sb ip fun d => {d with nlink := 0}
    iunlockput sb ip
    iunlockput sb dp
    return none

/-- The inode that a path names after the call, locked; `none` if it cannot be created. -/
def create (cwd : ℕ) (path : List UInt8) (type major minor : Int16) : FsM (Option ℕ) := do
  match ← nameiparent sb cwd path with
  | none => return none
  | some (dp,name) => do
    ilock sb dp
    match ← dirlookup sb dp name with
    | some (ip,_) => do
      iunlockput sb dp
      ilock sb ip
      let n := (← get).itable ip
      if type = T_FILE ∧ (n.d.type = T_FILE ∨ n.d.type = T_DEVICE) then return some ip
      else do
        iunlockput sb ip
        return none
    | none => do
      match ← ialloc sb ((← get).itable dp).dev type with
      | none => do
        iunlockput sb dp
        return none
      | some ip => createNew sb dp ip name type major minor

/-- `create` for a directory or a device: 0, or -1. -/
def make (cwd : ℕ) (path : List UInt8) (type major minor : Int16) : FsM ℤ := do
  match ← create sb cwd path type major minor with
  | none => return -1
  | some ip => do
    iunlockput sb ip
    return 0

/-- The inode of an existing path, locked; a directory can only be opened for reading. -/
def openExisting (cwd : ℕ) (path : List UInt8) (omode : ℕ) : FsM (Option ℕ) := do
  match ← namei sb cwd path with
  | none => return none
  | some ip => do
    ilock sb ip
    if ((← get).itable ip).d.type = T_DIR ∧ omode ≠ O_RDONLY then do
      iunlockput sb ip
      return none
    else return some ip

def checkDevice (ip : ℕ) : FsM (Option ℕ) := do
  let n := (← get).itable ip
  if n.d.type = T_DEVICE ∧ (n.d.major < 0 ∨ NDEV ≤ n.d.major.toInt) then do
    iunlockput sb ip
    return none
  else return some ip

/-- The inode that `sys_open` opens, locked; `none` if it may not be opened so. -/
def openInode (cwd : ℕ) (path : List UInt8) (omode : ℕ) : FsM (Option ℕ) :=
  if omode &&& O_CREATE ≠ 0 then do
    match ← create sb cwd path T_FILE 0 0 with
    | none => return none
    | some ip => checkDevice sb ip
  else do
    match ← openExisting sb cwd path omode with
    | none => return none
    | some ip => checkDevice sb ip

end Fs
end Xv6
