import Xv6.Command
import Xv6.CopyExact
import Xv6.PageTable

/-! The functions of `kernel/kalloc.c` and `kernel/vm.c` that build and take down page tables. The
free list is the list of its pages; its links, which lie in the pages themselves, are not read. -/
namespace Xv6.Vm

open Bytes Command

def KERNBASE : ℕ := 0x80000000
def PHYSTOP : ℕ := KERNBASE+128*1024*1024

class KernelImage where
  kend : ℕ
  le_kend : KERNBASE ≤ kend
  kend_le : kend ≤ PHYSTOP
  trampoline : ℕ
  trampoline_aligned : trampoline%PGSIZE = 0
  trampoline_lt : trampoline < kend

structure Ram where
  mem : Mem
  free : List ℕ

inductive VmPanic
  | kfree
  | walk
  | mappagesSize
  | mappagesRemap
  | uvmunmapNotAligned
  | uvmunmapWalk
  | uvmunmapNotMapped
  | uvmunmapNotLeaf
  | freewalkLeaf
  /-- Not a panic: a table with more than three levels. -/
  | freewalkDepth
  | uvmcopyPte
  | uvmcopyPresent
  | uvmclear
  | loadseg
  deriving DecidableEq

abbrev RamM := Cmd VmPanic Ram

def memsetPage (mem : Mem) (pa : ℕ) (c : UInt8) : Mem := blit mem pa PGSIZE fun _ => c

def zeroPage (pa : ℕ) : RamM Unit := modify fun s => {s with mem := memsetPage s.mem pa 0}

def setPte (pte v : ℕ) : RamM Unit := modify fun s => {s with mem := writeLE s.mem pte 8 v}

def kalloc : RamM (Option ℕ) := do
  let s ← get
  match s.free with
  | [] => return none
  | r::free => do
    set (Ram.mk (memsetPage s.mem r 5) free)
    return some r

section Allocator

variable [KernelImage]

def kfree (pa : ℕ) : RamM Unit :=
  if pa%PGSIZE ≠ 0 ∨ pa < KernelImage.kend ∨ PHYSTOP ≤ pa then throw .kfree
  else modify fun s => ⟨memsetPage s.mem pa 1,pa::s.free⟩

structure RamPage (pa : ℕ) : Prop where
  aligned : pa%PGSIZE = 0
  le : KernelImage.kend ≤ pa
  lt : pa < PHYSTOP

structure FreeOk (s : Ram) : Prop where
  nodup : s.free.Nodup
  ram : ∀ q ∈ s.free, RamPage q

end Allocator

def walkLoop (va : ℕ) (alloc : Bool) : ℕ → ℕ → RamM (Option ℕ)
  | 0, pagetable => return some (pagetable+8*PX 0 va)
  | level+1, pagetable => do
    let pte := pteAt (← get).mem pagetable (PX (level+1) va)
    if pte &&& PTE_V ≠ 0 then walkLoop va alloc level (PTE2PA pte)
    else if alloc = false then return none
    else match ← kalloc with
      | none => return none
      | some q => do
        zeroPage q
        setPte (pagetable+8*PX (level+1) va) (PA2PTE q ||| PTE_V)
        walkLoop va alloc level q

def walk (pagetable va : ℕ) (alloc : Bool) : RamM (Option ℕ) :=
  if MAXVA ≤ va then throw .walk else walkLoop va alloc 2 pagetable

/-- The loop of `mappages`. Every round but a last one moves on by a page, and `walk` panics at
`MAXVA`. -/
def mapLoop (pagetable last perm : ℕ) : ℕ → ℕ → ℕ → RamM Bool
  | 0, _, _ => throw .walk
  | fuel+1, a, pa => do
    match ← walk pagetable a true with
    | none => return false
    | some pte => do
      if readLE (← get).mem pte 8 &&& PTE_V ≠ 0 then throw .mappagesRemap
      else do
        setPte pte (PA2PTE pa ||| (perm ||| PTE_V))
        if a = last then return true
        else mapLoop pagetable last perm fuel ((a+PGSIZE)%2^64) ((pa+PGSIZE)%2^64)

/-- Map `[va, va+size)` to the physical addresses from `pa` on; `false` stands for -1. -/
def mappages (pagetable va size pa perm : ℕ) : RamM Bool :=
  if size = 0 then throw .mappagesSize
  else mapLoop pagetable (PGROUNDDOWN ((va+size-1)%2^64)) perm (MAXVA/PGSIZE+1) (PGROUNDDOWN va) pa

section Unmap

variable [KernelImage]

def unmapLoop (pagetable stop : ℕ) (doFree : Bool) : ℕ → ℕ → RamM Unit
  | 0, _ => return
  | n+1, a =>
    if a < stop then do
      match ← walk pagetable a false with
      | none => throw .uvmunmapWalk
      | some pte => do
        let v := readLE (← get).mem pte 8
        if v &&& PTE_V = 0 then throw .uvmunmapNotMapped
        else if PTE_FLAGS v = PTE_V then throw .uvmunmapNotLeaf
        else do
          when (doFree = true) (kfree (PTE2PA v))
          setPte pte 0
          unmapLoop pagetable stop doFree n (a+PGSIZE)
    else return

def uvmunmap (pagetable va npages : ℕ) (doFree : Bool) : RamM Unit :=
  if va%PGSIZE ≠ 0 then throw .uvmunmapNotAligned
  else unmapLoop pagetable ((va+npages*PGSIZE)%2^64) doFree npages va

/-- Free the page-table pages; the first argument bounds the depth of the recursion. -/
def freewalk : ℕ → ℕ → RamM Unit
  | 0, _ => throw .freewalkDepth
  | level+1, pagetable => do
    forUp (fun i => do
      let pte := pteAt (← get).mem pagetable i
      if pte &&& PTE_V ≠ 0 ∧ pte &&& PTE_RWX = 0 then do
        freewalk level (PTE2PA pte)
        setPte (pagetable+8*i) 0
      else if pte &&& PTE_V ≠ 0 then throw .freewalkLeaf
      else return) 0 512
    kfree pagetable

def pgroundup (sz : ℕ) : ℕ := (sz+PGSIZE-1)%2^64/PGSIZE*PGSIZE

/-- Shrink from `oldsz` to `newsz`; `npages` is an `int`. -/
def uvmdealloc (pagetable oldsz newsz : ℕ) : RamM ℕ :=
  if oldsz ≤ newsz then return oldsz
  else do
    when (pgroundup newsz < pgroundup oldsz) (uvmunmap pagetable (pgroundup newsz)
      (toUint64 (Int32.ofNat ((pgroundup oldsz-pgroundup newsz)/PGSIZE))) true)
    return newsz

/-- The loop of `uvmalloc`; a failure undoes the pages added so far. -/
def uvmallocLoop (pagetable oldsz newsz xperm : ℕ) : ℕ → ℕ → RamM Bool
  | 0, _ => return true
  | fuel+1, a =>
    if a < newsz then do
      match ← kalloc with
      | none => do
        let _ ← uvmdealloc pagetable a oldsz
        return false
      | some mem => do
        zeroPage mem
        if ← mappages pagetable a PGSIZE mem (PTE_R ||| PTE_U ||| xperm) then
          uvmallocLoop pagetable oldsz newsz xperm fuel ((a+PGSIZE)%2^64)
        else do
          kfree mem
          let _ ← uvmdealloc pagetable a oldsz
          return false
    else return true

def uvmalloc (pagetable oldsz newsz xperm : ℕ) : RamM ℕ :=
  if newsz < oldsz then return oldsz
  else do
    let ok ← uvmallocLoop pagetable (pgroundup oldsz) newsz xperm
      ((newsz-pgroundup oldsz)/PGSIZE+1) (pgroundup oldsz)
    return if ok then newsz else 0

def uvmfree (pagetable sz : ℕ) : RamM Unit := do
  when (0 < sz) (uvmunmap pagetable 0 (pgroundup sz/PGSIZE) true)
  freewalk 3 pagetable

/-- Grow or shrink a process by `n` bytes: what is returned, and `p->sz`. -/
def growproc (pagetable sz : ℕ) (n : Int32) : RamM (ℤ × ℕ) :=
  let newsz := ((sz+n.toInt)%2^64).toNat
  if 0 < n.toInt then do
    let r ← uvmalloc pagetable sz newsz PTE_W
    return if r = 0 then (-1,sz) else (0,r)
  else if n.toInt < 0 then do
    let r ← uvmdealloc pagetable sz newsz
    return (0,r)
  else return (0,sz)

end Unmap

end Xv6.Vm
