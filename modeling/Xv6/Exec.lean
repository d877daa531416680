import Xv6.Readi
import Xv6.Dir
import Xv6.Protection
import Xv6.ProcPages

/-! `exec` and `loadseg` of `kernel/exec.c` on physical memory, with the inode of the file seen as
its content, its lock and its references. -/
namespace Xv6.Exec

open Bytes Command Vm

structure FileData where
  size : UInt32
  data : Mem

/-- `readi` to kernel memory: the number of bytes stored, and the bytes. -/
def readi (f : FileData) (off n : UInt32) : ℕ × Mem :=
  (Fs.readCount f.size off n,fun i => f.data (off.toNat+i))

theorem readi_agrees {sb : Geometry} {s : Fs} {E : FsPanic → Prop} {pagetable ip dst : ℕ} {mem : Mem}
    (hsz : Fs.Sized s.blk (s.itable ip).d) (off n : UInt32) :
    let f : FileData := ⟨(s.itable ip).d.size,Fs.content s.blk (s.itable ip).d⟩
    wp (Fs.readi sb pagetable mem ip false dst off n) (fun r t => t = s ∧
      r.1 = (readi f off n).1 ∧ r.2 = blit mem dst (readi f off n).1 (readi f off n).2) E s :=
  Fs.wp_readi_kernel (hsz.readable off n)

def ELF_MAGIC : ℕ := 0x464C457F
def ELF_PROG_LOAD : ℕ := 1

def elfhdrSize : ℕ := 64

def proghdrSize : ℕ := 56

structure Elfhdr where
  magic : ℕ
  entry : ℕ
  phoff : ℕ
  phnum : ℕ

def Elfhdr.decode (b : Mem) : Elfhdr := ⟨readLE b 0 4,readLE b 24 8,readLE b 32 8,readLE b 56 2⟩

structure Proghdr where
  type : ℕ
  flags : ℕ
  off : ℕ
  vaddr : ℕ
  filesz : ℕ
  memsz : ℕ

def Proghdr.decode (b : Mem) : Proghdr :=
  ⟨readLE b 0 4,readLE b 4 4,readLE b 8 8,readLE b 16 8,readLE b 32 8,readLE b 40 8⟩

structure Proc where
  pagetable : ℕ
  sz : ℕ
  trapframe : ℕ
  name : List UInt8

/-- Memory, the process, the operations begun and not ended, and the references and the lock of the
file's inode. -/
structure Kernel where
  ram : Ram
  proc : Proc
  outstanding : ℤ
  ref : ℤ
  locked : Bool

inductive ExecPanic
  | vm (e : VmPanic)
  | ilock
  | iunlock
  | loadseg
  | uvmclear

abbrev KernelM := Cmd ExecPanic Kernel

def onRam (c : RamM α) : KernelM α := zoom Kernel.ram (fun k ram => {k with ram := ram}) .vm c

def beginOp : KernelM Unit := modify fun k => {k with outstanding := k.outstanding+1}

def endOp : KernelM Unit := modify fun k => {k with outstanding := k.outstanding-1}

/-- The reference that a successful `namei` returns. -/
def nameiFound : KernelM Unit := modify fun k => {k with ref := k.ref+1}

def ilock : KernelM Unit := do
  let k ← get
  if k.ref < 1 then throw .ilock
  else set {k with locked := true}

def iunlockput : KernelM Unit := do
  let k ← get
  if k.locked = false ∨ k.ref < 1 then throw .iunlock
  else set {k with locked := false, ref := k.ref-1}

def blitRam (a n : ℕ) (src : Mem) : KernelM Unit :=
  modify fun k => {k with ram := {k.ram with mem := blit k.ram.mem a n src}}

def loadsegLoop (f : FileData) (pagetable va offset sz : ℕ) : ℕ → ℕ → KernelM Bool
  | 0, _ => throw .loadseg
  | fuel+1, i =>
    if i < sz then do
      let pa := walkaddr (← get).ram.mem pagetable ((va+i)%2^64)
      if pa = 0 then throw .loadseg
      else do
        let n := if sz-i < PGSIZE then sz-i else PGSIZE
        let r := readi f (UInt32.ofNat (offset+i)) (UInt32.ofNat n)
        blitRam pa r.1 r.2
        if r.1 ≠ n then return false
        else loadsegLoop f pagetable va offset sz fuel ((i+PGSIZE)%2^32)
    else return true

/-- Load a segment into mapped pages; `false` stands for -1. -/
def loadseg (f : FileData) (pagetable va offset sz : ℕ) : KernelM Bool :=
  loadsegLoop f pagetable va offset sz (sz/PGSIZE+2) 0

def uvmclear (pagetable va : ℕ) : KernelM Unit := do
  match ← onRam (walk pagetable va false) with
  | none => throw .uvmclear
  | some pte => onRam (do setPte pte (readLE (← get).mem pte 8 &&& (2^64-1-PTE_U)))

def copyout (pagetable dstva : ℕ) (src : Mem) (len : ℕ) : KernelM Bool := do
  let k ← get
  let r := Vm.copyout k.ram.mem pagetable dstva src len
  set {k with ram := {k.ram with mem := r.1}}
  return r.2

section Code

variable [KernelImage] (f : FileData)

/-- The loop over the program headers; `n` are left. Returns whether all went well, and `sz`. -/
def loadLoop (pagetable : ℕ) : (n : ℕ) → UInt32 → ℕ → KernelM (Bool × ℕ)
  | 0, _, sz => return (true,sz)
  | n+1, off, sz =>
    let r := readi f off (UInt32.ofNat proghdrSize)
    if r.1 ≠ proghdrSize then return (false,sz)
    else
      let ph := Proghdr.decode r.2
      if ph.type ≠ ELF_PROG_LOAD then loadLoop pagetable n (off+UInt32.ofNat proghdrSize) sz
      else if ph.memsz < ph.filesz then return (false,sz)
      else if (ph.vaddr+ph.memsz)%2^64 < ph.vaddr then return (false,sz)
      else if ph.vaddr%PGSIZE ≠ 0 then return (false,sz)
      else do
        let sz1 ← onRam (uvmalloc pagetable sz ((ph.vaddr+ph.memsz)%2^64) (flags2perm ph.flags))
        if sz1 = 0 then return (false,sz)
        else if ← loadseg f pagetable ph.vaddr (ph.off%2^32) (ph.filesz%2^32) then
          loadLoop pagetable n (off+UInt32.ofNat proghdrSize) sz1
        else return (false,sz1)

def cstring (s : List UInt8) : Mem := fun i => s.getD i 0

def pointers (ustack : List ℕ) : Mem := fun i => leByte (ustack.getD (i/8) 0) (i%8)

/-- Decrement the stack pointer by `n` and align it. -/
def pushDown (sp n : ℕ) : ℕ :=
  let sp := (sp+2^64-n)%2^64
  sp-sp%16

/-- Push the argument strings: the stack pointer and `ustack`. -/
def pushArgs (pagetable stackbase : ℕ) : List (List UInt8) → ℕ → ℕ → List ℕ →
    KernelM (Option (ℕ × List ℕ))
  | [], _, sp, ustack => return some (sp,ustack)
  | s::argv, argc, sp, ustack =>
    if MAXARG ≤ argc then return none
    else if pushDown sp (s.length+1) < stackbase then return none
    else do
      if ← copyout pagetable (pushDown sp (s.length+1)) (cstring s) (s.length+1) then
        pushArgs pagetable stackbase argv (argc+1) (pushDown sp (s.length+1))
          (ustack++[pushDown sp (s.length+1)])
      else return none

/-- `bad`: `pagetable` if it has been made, `ip` as long as it is held. -/
def bad (pagetable : Option ℕ) (sz : ℕ) (ip : Bool) : KernelM ℤ := do
  match pagetable with
  | none => pure ()
  | some p => onRam (procFreepagetable p sz)
  when (ip = true) (do
    iunlockput
    endOp)
  return -1

def lastElement (path : List UInt8) : List UInt8 :=
  ((path.reverse.takeWhile (· ≠ slash)).reverse).take 15

/-- The offsets of `epc`, `sp` and `a1` in `struct trapframe`. -/
def epcOffset : ℕ := 24
def spOffset : ℕ := 48
def a1Offset : ℕ := 120

def setTrapframe (offset v : ℕ) : KernelM Unit :=
  modify fun k => {k with
    ram := {k.ram with mem := writeLE k.ram.mem (k.proc.trapframe+offset) 8 v}}

@[irreducible] def guardPage (sz : ℕ) : ℕ := sz-2*PGSIZE

@[irreducible] def stackbase (sz : ℕ) : ℕ := sz-PGSIZE

def execArgs (path : List UInt8) (argv : List (List UInt8)) (elf : Elfhdr) (oldsz pagetable sz : ℕ) :
    KernelM ℤ := do
  uvmclear pagetable (guardPage sz)
  match ← pushArgs pagetable (stackbase sz) argv 0 sz [] with
  | none => bad (some pagetable) sz false
  | some (sp0,ustack) =>
    let sp := pushDown sp0 ((argv.length+1)*8)
    if sp < stackbase sz then bad (some pagetable) sz false
    else do
      if ← copyout pagetable sp (pointers ustack) ((argv.length+1)*8) then do
        setTrapframe a1Offset sp
        let k ← get
        set {k with proc := ⟨pagetable,sz,k.proc.trapframe,lastElement path⟩}
        setTrapframe epcOffset elf.entry
        setTrapframe spOffset sp
        onRam (procFreepagetable k.proc.pagetable oldsz)
        return argv.length
      else bad (some pagetable) sz false

def execStack (path : List UInt8) (argv : List (List UInt8)) (elf : Elfhdr) (pagetable sz : ℕ) :
    KernelM ℤ := do
  iunlockput
  endOp
  let k ← get
  let sz := pgroundup sz
  let sz1 ← onRam (uvmalloc pagetable sz ((sz+2*PGSIZE)%2^64) PTE_W)
  if sz1 = 0 then bad (some pagetable) sz false
  else execArgs path argv elf k.proc.sz pagetable sz1

/-- `found`: the path lookup has returned the inode. -/
def exec (found : Bool) (path : List UInt8) (argv : List (List UInt8)) : KernelM ℤ := do
  beginOp
  if found = false then do
    endOp
    return -1
  else do
    nameiFound
    ilock
    let r := readi f 0 (UInt32.ofNat elfhdrSize)
    let elf := Elfhdr.decode r.2
    if r.1 ≠ elfhdrSize then bad none 0 true
    else if elf.magic ≠ ELF_MAGIC then bad none 0 true
    else do
      match ← onRam (procPagetable (← get).proc.trapframe) with
      | none => bad none 0 true
      | some pagetable => do
        let l ← loadLoop f pagetable elf.phnum (UInt32.ofNat elf.phoff) 0
        if l.1 then execStack path argv elf pagetable l.2
        else bad (some pagetable) l.2 true

end Code

end Xv6.Exec
