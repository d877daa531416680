import Xv6.Param
import Xv6.ProcPages

/-! `fork` with `allocproc` and `freeproc` of `kernel/proc.c`: a process with a copy of the parent's
memory, or no trace. -/
namespace Xv6
namespace Fork

open Bytes Command Vm

inductive ProcState
  | unused
  | used
  | sleeping
  | runnable
  | running
  | zombie
  deriving DecidableEq

structure Proc where
  state : ProcState
  pid : ℤ
  pagetable : ℕ
  sz : ℕ
  trapframe : ℕ
  ofile : ℕ → Option ℕ
  cwd : ℕ
  parent : Option ℕ

/-- Memory, the process table, the reference counts of open files and inodes, and `nextpid`. -/
structure Kernel where
  ram : Ram
  procs : ℕ → Proc
  fileRef : ℕ → ℤ
  inodeRef : ℕ → ℤ
  nextpid : ℤ

inductive ForkPanic
  | vm (e : VmPanic)
  | filedup

abbrev KernelM := Cmd ForkPanic Kernel

def onRam (c : RamM α) : KernelM α := zoom Kernel.ram (fun k ram => {k with ram := ram}) .vm c

def setProc (i : ℕ) (f : Proc → Proc) : KernelM Unit :=
  modify fun k => {k with procs := Function.update k.procs i (f (k.procs i))}

def filedup (f : ℕ) : KernelM Unit := do
  let k ← get
  if k.fileRef f < 1 then throw .filedup
  else set {k with fileRef := Function.update k.fileRef f (k.fileRef f+1)}

def idup (ip : ℕ) : KernelM Unit :=
  modify fun k => {k with inodeRef := Function.update k.inodeRef ip (k.inodeRef ip+1)}

def trapframeSize : ℕ := 288
def a0Offset : ℕ := 112

/-- `*(np->trapframe) = *(p->trapframe)` and `np->trapframe->a0 = 0`. -/
def copyTrapframe (dst src : ℕ) : RamM Unit := modify fun s =>
  {s with mem := writeLE (blit s.mem dst trapframeSize fun x => s.mem (src+x)) (dst+a0Offset) 8 0}

section Code

variable [KernelImage]

def freeproc (i : ℕ) : KernelM Unit := do
  let p := (← get).procs i
  when (p.trapframe ≠ 0) (onRam (kfree p.trapframe))
  when (p.pagetable ≠ 0) (onRam (procFreepagetable p.pagetable p.sz))
  setProc i fun p => {p with
    state := .unused, pid := 0, pagetable := 0, sz := 0, trapframe := 0, parent := none}

def allocproc : KernelM (Option ℕ) := do
  let k ← get
  match (List.range NPROC).find? fun i => (k.procs i).state = .unused with
  | none => return none
  | some i => do
    set {k with nextpid := k.nextpid+1}
    setProc i fun p => {p with pid := k.nextpid, state := .used}
    match ← onRam kalloc with
    | none => do
      setProc i fun p => {p with trapframe := 0}
      freeproc i
      return none
    | some tf => do
      setProc i fun p => {p with trapframe := tf}
      match ← onRam (procPagetable tf) with
      | none => do
        setProc i fun p => {p with pagetable := 0}
        freeproc i
        return none
      | some pt => do
        setProc i fun p => {p with pagetable := pt}
        return some i

def dupFile (np : ℕ) (p : Proc) (i : ℕ) : KernelM Unit :=
  match p.ofile i with
  | none => return
  | some f => do
    filedup f
    setProc np fun c => {c with ofile := Function.update c.ofile i (some f)}

def fork (p : ℕ) : KernelM ℤ := do
  match ← allocproc with
  | none => return -1
  | some np => do
    let k ← get
    if ← onRam (uvmcopy (k.procs p).pagetable (k.procs np).pagetable (k.procs p).sz) then do
      setProc np fun c => {c with sz := (k.procs p).sz}
      onRam (copyTrapframe (k.procs np).trapframe (k.procs p).trapframe)
      forUp (dupFile np (k.procs p)) 0 NOFILE
      idup (k.procs p).cwd
      setProc np fun c => {c with cwd := (k.procs p).cwd, parent := some p, state := .runnable}
      return (k.procs np).pid
    else do
      freeproc np
      return -1

end Code

section Proofs

variable {E : ForkPanic → Prop} {k t : Kernel} {s : Ram} {i p : ℕ} {S N : Finset ℕ}

theorem wp_onRam {c : RamM α} {Q : α → Kernel → Prop} :
    wp (onRam c) Q E k ↔ wp c (fun a ram => Q a {k with ram := ram}) (fun e => E (.vm e)) k.ram :=
  wp_zoom

theorem wp_setProc {f : Proc → Proc} {Q : Unit → Kernel → Prop} :
    wp (setProc i f) Q E k ↔
      Q () {k with procs := Function.update k.procs i (f (k.procs i))} := Iff.rfl

def Blank (c : Proc) : Prop :=
  c.state = .unused ∧ c.pid = 0 ∧ c.pagetable = 0 ∧ c.sz = 0 ∧ c.trapframe = 0 ∧ c.parent = none ∧
    c.ofile = fun _ => none

def cleared (c : Proc) : Proc :=
  {c with state := .unused, pid := 0, pagetable := 0, sz := 0, trapframe := 0, parent := none}

theorem update_cleared (hb : Blank (k.procs i)) {c : Proc}
    (hc : cleared c = cleared (k.procs i)) :
    Function.update k.procs i (cleared c) = k.procs := by
  obtain ⟨h1,h2,h3,h4,h5,h6,-⟩ := hb
  rw [hc,Function.update_eq_iff]
  refine ⟨?_,fun _ _ => rfl⟩
  cases hk : k.procs i
  rw [hk] at h1 h2 h3 h4 h5 h6
  simp only at h1 h2 h3 h4 h5 h6
  simp only [cleared,h1,h2,h3,h4,h5,h6]

/-- How many of the first `n` descriptors refer to `f`. -/
def descriptorsOf (p : Proc) (f n : ℕ) : ℕ := ((List.range n).filter fun i => p.ofile i = some f).length

theorem descriptorsOf_succ (c : Proc) (f n : ℕ) : descriptorsOf c f (n+1) =
    descriptorsOf c f n+if c.ofile n = some f then 1 else 0 := by
  rw [descriptorsOf,List.range_succ,List.filter_append,List.length_append,descriptorsOf]
  congr 1
  by_cases h : c.ofile n = some f <;> simp [h]

def firstFiles (c : Proc) (n : ℕ) : ℕ → Option ℕ := fun i => if i < n then c.ofile i else none

theorem firstFiles_zero (c : Proc) : firstFiles c 0 = fun _ => none := rfl

theorem firstFiles_succ (c : Proc) (n : ℕ) :
    firstFiles c (n+1) = Function.update (firstFiles c n) n (c.ofile n) := by
  funext i
  rcases lt_trichotomy i n with hlt | rfl | hgt
  · rw [Function.update_of_ne (by omega),firstFiles,firstFiles,if_pos hlt,if_pos (by omega)]
  · rw [Function.update_self,firstFiles,if_pos (by omega)]
  · rw [Function.update_of_ne (by omega),firstFiles,firstFiles,if_neg (by omega),if_neg (by omega)]

theorem firstFiles_none {c : Proc} {n : ℕ} (h : c.ofile n = none) :
    firstFiles c (n+1) = firstFiles c n := by
  rw [firstFiles_succ,h,Function.update_eq_self_iff]
  simp [firstFiles]

theorem firstFiles_all {c : Proc} {n : ℕ} (h : ∀ i, n ≤ i → c.ofile i = none) :
    firstFiles c n = c.ofile := by
  funext i
  rw [firstFiles]
  split
  · rfl
  case isFalse hge => exact (h i (by omega)).symm

def withFiles (c : Proc) (ofile : ℕ → Option ℕ) : Proc := {c with ofile := ofile}

theorem copyTrapframe_outside {mem src : Mem} {tf : ℕ} (htf : tf%PGSIZE = 0) :
    Outside {tf} mem (writeLE (blit mem tf trapframeSize src) (tf+a0Offset) 8 0) := by
  intro a ha
  rw [Finset.mem_singleton] at ha
  have hfar : a < tf ∨ tf+PGSIZE ≤ a := by
    unfold PGROUNDDOWN PGSIZE at *
    omega
  have hsize : a0Offset+8 ≤ trapframeSize ∧ trapframeSize ≤ PGSIZE := by decide
  rw [writeLE_outside (by omega)]
  exact blit_outside (by omega)

/-- No store to a user byte of `p` changes a user byte of `q`. -/
def Hidden (mem : Mem) (p q top : ℕ) : Prop :=
  ∀ va < top, ∀ va' < top, ∀ v,
    byteAt (Function.update mem (frameOf mem p va+va%PGSIZE) v) q va' = byteAt mem q va'

theorem hidden_of_space [KernelImage] {q top : ℕ} {N' : Finset ℕ} (h : Space s q top N)
    (hp : Space s p top N') (hN : ∀ va < top, frameOf s.mem p va ∉ N)
    (hfr : ∀ va va', va < top → va' < top → frameOf s.mem q va ≠ frameOf s.mem p va') :
    Hidden s.mem p q top := by
  intro va hva va' hva' v
  have hpage : PGROUNDDOWN (frameOf s.mem p va+va%PGSIZE) = frameOf s.mem p va :=
    PGROUNDDOWN_page (hp.frame_ram va hva).aligned (Nat.mod_lt _ (by decide))
  have hout : Outside {frameOf s.mem p va} s.mem
      (Function.update s.mem (frameOf s.mem p va+va%PGSIZE) v) := by
    intro a ha
    refine Function.update_of_ne ?_ _ _
    rintro rfl
    exact ha (Finset.mem_singleton.mpr hpage)
  exact (h.store hout (hN va hva) fun x hx => hfr x va hx hva).2.2 va' hva'

theorem wp_dupFiles {np : ℕ} {c : Proc} (hfiles : ∀ i < NOFILE, ∀ f, c.ofile i = some f →
      1 ≤ k.fileRef f) (hnone : ∀ i, NOFILE ≤ i → c.ofile i = none)
    (hblank : (k.procs np).ofile = fun _ => none) :
    wp (forUp (dupFile np c) 0 NOFILE) (fun _ t => t.ram = k.ram ∧ t.inodeRef = k.inodeRef ∧
      (∀ f, t.fileRef f = k.fileRef f+descriptorsOf c f NOFILE) ∧
      t.procs = Function.update k.procs np (withFiles (k.procs np) c.ofile)) E k := by
  let inv (n : ℕ) (t : Kernel) : Prop := t.ram = k.ram ∧ t.inodeRef = k.inodeRef ∧
    (∀ f, t.fileRef f = k.fileRef f+descriptorsOf c f n) ∧
    t.procs = Function.update k.procs np (withFiles (k.procs np) (firstFiles c n))
  refine wp_conseq (wp_forUp inv ?_ ?_) ?_
  · rintro j t - hj ⟨hram,hino,href,hprocs⟩
    rw [Nat.zero_add] at hj
    unfold dupFile
    cases hc : c.ofile j with
    | none =>
      refine ⟨hram,hino,fun f => ?_,by rw [hprocs,firstFiles_none hc]⟩
      rw [href f,descriptorsOf_succ,hc]
      simp
    | some f =>
      have hone := hfiles j hj f hc
      have hcount : (0 : ℤ) ≤ descriptorsOf c f j := Int.natCast_nonneg _
      simp only [wp_bind,filedup,wp_get]
      rw [if_neg (by rw [href f]; omega),wp_set,wp_setProc]
      refine ⟨hram,hino,fun g => ?_,?_⟩
      · change Function.update t.fileRef f (t.fileRef f+1) g = _
        rw [descriptorsOf_succ]
        by_cases hg : g = f
        · subst hg
          rw [Function.update_self,href g,if_pos hc]
          omega
        · rw [Function.update_of_ne hg,href g,if_neg (by rw [hc]; simpa using Ne.symm hg)]
          omega
      · simp only [hprocs,Function.update_self,Function.update_idem,firstFiles_succ,hc]
        rfl
  · refine ⟨rfl,rfl,fun f => by simp [descriptorsOf],?_⟩
    rw [firstFiles_zero,← hblank]
    exact (Function.update_eq_self np k.procs).symm
  · rintro - t ⟨hram,hino,href,hprocs⟩
    rw [Nat.zero_add] at href hprocs
    rw [firstFiles_all hnone] at hprocs
    exact ⟨hram,hino,href,hprocs⟩

variable [KernelImage]

/-- What has been built in a slot goes back: a trapframe and perhaps a page table without user
pages. -/
theorem wp_freeproc (h : Took s k.ram S) (hsz : (k.procs i).sz = 0)
    (htf : RamPage (k.procs i).trapframe) (htfS : (k.procs i).trapframe ∈ S)
    (hpt : (k.procs i).pagetable = 0 ∧ S = {(k.procs i).trapframe} ∨
      ∃ N, Space k.ram (k.procs i).pagetable 0 N ∧ Framed k.ram.mem (k.procs i).pagetable ∧ N ⊆ S ∧
        S \ N = {(k.procs i).trapframe}) :
    wp (freeproc i) (fun _ t => Took s t.ram ∅ ∧ t.fileRef = k.fileRef ∧ t.inodeRef = k.inodeRef ∧
      t.procs = Function.update k.procs i (cleared (k.procs i))) E k := by
  set tf := (k.procs i).trapframe with htfdef
  have hgive := h.give (List.nodup_singleton tf) (fun q hq => by
    rw [List.mem_singleton.mp hq]
    exact ⟨htfS,htf⟩) (u := ⟨memsetPage k.ram.mem tf 1,tf::k.ram.free⟩) rfl
    ((memsetPage_outside k.ram.mem htf.aligned 1).mono (Finset.singleton_subset_iff.mpr htfS))
  rw [freeproc,wp_bind,wp_get]
  simp only [wp_bind]
  rw [wp_when,← htfdef]
  refine ⟨fun _ => ?_,fun hz => absurd htf.ne_zero hz⟩
  rw [wp_onRam]
  apply wp_kfree htf
  rw [wp_when]
  rcases hpt with ⟨hzero,hS⟩ | ⟨N,hsp,hfr,hN,hS⟩
  · refine ⟨fun hne => absurd hzero hne,fun _ => ⟨?_,rfl,rfl,rfl⟩⟩
    rw [hS] at hgive
    simpa using hgive
  · have htfN : tf ∉ N := by
      have hmem : tf ∈ S \ N := by rw [hS]; exact Finset.mem_singleton_self tf
      exact (Finset.mem_sdiff.mp hmem).2
    obtain ⟨hsp',hent⟩ := hsp.put_back htf (h.apart tf htfS) htfN fun va hva =>
      absurd hva (Nat.not_lt_zero va)
    have hptne : (k.procs i).pagetable ≠ 0 := (hsp.ram _ hsp.table.root_mem).ne_zero
    refine ⟨fun _ => ?_,fun hz => absurd hptne hz⟩
    rw [wp_onRam,hsz]
    have hfr' : Framed (memsetPage k.ram.mem tf 1) (k.procs i).pagetable :=
      ⟨by rw [hent]; exact hfr.trampoline,by rw [hent]; exact hfr.trapframe⟩
    have hset : frameSet (memsetPage k.ram.mem tf 1) (k.procs i).pagetable (PGROUNDUP 0) = ∅ := rfl
    have hsub : N ⊆ S \ [tf].toFinset := by
      intro q hq
      rw [Finset.mem_sdiff]
      exact ⟨hN hq,fun hmem => htfN (by simpa using (by simpa using hmem : q = tf) ▸ hq)⟩
    have hrest := @Took.procFreepagetable _ (fun e => E (.vm e)) s _ _ N _ 0 hgive hsp' hfr' hsub
      (by rw [hset]; exact Finset.empty_subset _)
    rw [hset,Finset.sdiff_empty] at hrest
    refine wp_conseq hrest fun _ u hu => ⟨?_,rfl,rfl,rfl⟩
    have hempty : (S \ [tf].toFinset) \ N = ∅ := by
      rw [sdiff_right_comm,hS]
      simp
    rwa [hempty] at hu

structure NoTrace (k t : Kernel) : Prop where
  procs : t.procs = k.procs
  fileRef : t.fileRef = k.fileRef
  inodeRef : t.inodeRef = k.inodeRef
  ram : Took k.ram t.ram ∅

/-- The slot `i` has a trapframe and a page table without user pages. -/
structure Built (k t : Kernel) (i tf pt : ℕ) (N S : Finset ℕ) : Prop where
  lt : i < NPROC
  unused : (k.procs i).state = .unused
  procs : t.procs = Function.update k.procs i
    {k.procs i with pid := k.nextpid, state := .used, trapframe := tf, pagetable := pt}
  fileRef : t.fileRef = k.fileRef
  inodeRef : t.inodeRef = k.inodeRef
  took : Took k.ram t.ram S
  space : Space t.ram pt 0 N
  tables : N ⊆ S
  rest : S \ N = {tf}
  framed : Framed t.ram.mem pt
  trapframe : RamPage tf

theorem wp_allocproc (hok : FreeOk k.ram)
    (hblank : ∀ i < NPROC, (k.procs i).state = .unused → Blank (k.procs i)) :
    wp allocproc (fun r t => match r with
      | none => NoTrace k t
      | some i => ∃ tf pt N S, Built k t i tf pt N S) E k := by
  rw [allocproc,wp_bind,wp_get]
  cases hfind : (List.range NPROC).find? fun i => decide ((k.procs i).state = .unused) with
  | none => exact ⟨rfl,rfl,rfl,.refl hok⟩
  | some i =>
    have hi : i < NPROC := List.mem_range.mp (List.mem_of_find?_eq_some hfind)
    have hun : (k.procs i).state = .unused := by simpa using List.find?_some hfind
    have hb := hblank i hi hun
    simp only [wp_bind,wp_set,wp_setProc,wp_onRam]
    refine wp_kalloc (fun _ => ?_) fun tf free hs => ?_
    · rw [freeproc]
      simp only [wp_bind,wp_get,wp_when,Function.update_self,hb.2.2.1,ne_eq,not_true,
        IsEmpty.forall_iff,true_and,not_false_eq_true,forall_true_left,wp_setProc,wp_pure]
      refine ⟨?_,rfl,rfl,.refl hok⟩
      simp only [Function.update_idem]
      exact update_cleared hb rfl
    · have htfs : tf ∈ k.ram.free := by rw [hs]; exact List.mem_cons_self
      have hram := hok.ram tf htfs
      have htook : Took k.ram ⟨memsetPage k.ram.mem tf 5,free⟩ {tf} := by
        have hfree : k.ram.free = [tf]++(Ram.mk (memsetPage k.ram.mem tf 5) free).free := hs
        have h := (Took.refl hok).take hfree
          ((memsetPage_outside k.ram.mem hram.aligned 5).mono (by simp))
        simpa using h
      simp only [wp_bind,wp_setProc,wp_onRam]
      refine wp_conseq (htook.procPagetable hram) ?_
      rintro (_ | pt) u hu
      · simp only [wp_bind,wp_setProc]
        refine wp_conseq (wp_freeproc (S := {tf}) (s := k.ram) ?_ ?_ ?_ ?_ (.inl ⟨?_,?_⟩)) ?_
        · exact hu
        · simp [Function.update_self,hb.2.2.2.1]
        · simpa [Function.update_self] using hram
        · simp [Function.update_self]
        · simp [Function.update_self]
        · simp [Function.update_self]
        · rintro - v ⟨hv,hf,hin,hp⟩
          refine ⟨?_,hf,hin,hv⟩
          rw [hp]
          simp only [Function.update_idem,Function.update_self]
          exact update_cleared hb rfl
      · obtain ⟨N,S',h1,hsp,hN,hS,hfr,-⟩ := hu
        refine ⟨tf,pt,N,S',hi,hun,?_,rfl,rfl,h1,hsp,hN,hS,hfr,hram⟩
        simp only [Function.update_idem,Function.update_self]

/-- The parent as `fork` finds it: an address space, a trapframe in use, files with references; and
slots that are not in use are blank. -/
structure Wf (k : Kernel) (p : ℕ) (N : Finset ℕ) : Prop where
  space : Space k.ram (k.procs p).pagetable (PGROUNDUP (k.procs p).sz) N
  trapframe : RamPage (k.procs p).trapframe
  inUse : (k.procs p).trapframe ∉ k.ram.free
  running : (k.procs p).state = .running
  files : ∀ i < NOFILE, ∀ f, (k.procs p).ofile i = some f → 1 ≤ k.fileRef f
  descriptors : ∀ i, NOFILE ≤ i → (k.procs p).ofile i = none
  blank : ∀ i < NPROC, (k.procs i).state = .unused → Blank (k.procs i)
  nextpid : 0 < k.nextpid

/-- The memory of the child: the parent's permissions and bytes, in pages that were free. -/
structure MemoryCopied (k t : Kernel) (p np : ℕ) : Prop where
  space : ∃ N', Space t.ram (t.procs np).pagetable (PGROUNDUP (k.procs p).sz) N' ∧
    ∀ q ∈ N', q ∈ k.ram.free
  size : (t.procs np).sz = (k.procs p).sz
  flags : ∀ va < PGROUNDUP (k.procs p).sz,
    PTE_FLAGS (entry t.ram.mem va 2 (t.procs np).pagetable) =
      PTE_FLAGS (entry k.ram.mem va 2 (k.procs p).pagetable)
  bytes : ∀ va < PGROUNDUP (k.procs p).sz,
    byteAt t.ram.mem (t.procs np).pagetable va = byteAt k.ram.mem (k.procs p).pagetable va
  frames : ∀ va < PGROUNDUP (k.procs p).sz,
    frameOf t.ram.mem (t.procs np).pagetable va ∈ k.ram.free
  parent : (∀ va, entry t.ram.mem va 2 (k.procs p).pagetable =
      entry k.ram.mem va 2 (k.procs p).pagetable) ∧
    ∀ va < PGROUNDUP (k.procs p).sz, byteAt t.ram.mem (k.procs p).pagetable va =
      byteAt k.ram.mem (k.procs p).pagetable va
  inUse : ∀ a, PGROUNDDOWN a ∉ k.ram.free → t.ram.mem a = k.ram.mem a
  hidden : Hidden t.ram.mem (k.procs p).pagetable (t.procs np).pagetable (PGROUNDUP (k.procs p).sz)
  hidden' : Hidden t.ram.mem (t.procs np).pagetable (k.procs p).pagetable (PGROUNDUP (k.procs p).sz)
  registers : ∀ x < trapframeSize, x < a0Offset ∨ a0Offset+8 ≤ x →
    t.ram.mem ((t.procs np).trapframe+x) = k.ram.mem ((k.procs p).trapframe+x)
  a0 : ∀ x < 8, t.ram.mem ((t.procs np).trapframe+a0Offset+x) = 0

structure RefsCopied (k t : Kernel) (p np : ℕ) : Prop where
  ofile : (t.procs np).ofile = (k.procs p).ofile
  fileRef : ∀ f, t.fileRef f = k.fileRef f+descriptorsOf (k.procs p) f NOFILE
  cwd : (t.procs np).cwd = (k.procs p).cwd
  inodeRef : t.inodeRef =
    Function.update k.inodeRef (k.procs p).cwd (k.inodeRef (k.procs p).cwd+1)

theorem NoTrace.of_built {tf pt : ℕ} {u : Kernel} {N' : Finset ℕ} (hb : Built k t i tf pt N S)
    (hblank : Blank (k.procs i)) (hu : Undone t.ram N pt 0 u.ram N')
    (hsame : u = {t with ram := u.ram}) :
    wp (freeproc i) (fun _ v => NoTrace k v) E u := by
  have htfS : tf ∈ S := by
    have hmem : tf ∈ S \ N := by rw [hb.rest]; exact Finset.mem_singleton_self tf
    exact (Finset.mem_sdiff.mp hmem).1
  have htfN : tf ∉ N := by
    have hmem : tf ∈ S \ N := by rw [hb.rest]; exact Finset.mem_singleton_self tf
    exact (Finset.mem_sdiff.mp hmem).2
  have htfN' : tf ∉ N' := fun hmem => (hu.within.tables tf hmem).elim htfN (hb.took.apart tf htfS)
  have hproc : u.procs i =
      {k.procs i with pid := k.nextpid, state := .used, trapframe := tf, pagetable := pt} := by
    rw [hsame,hb.procs,Function.update_self]
  have htook := hb.took.undone hb.tables hu
  refine wp_conseq (wp_freeproc htook ?_ ?_ ?_ (.inr ⟨N',?_,?_,?_,?_⟩)) ?_
  · rw [hproc]
    exact hblank.2.2.2.1
  · rw [hproc]
    exact hb.trapframe
  · rw [hproc]
    exact Finset.mem_union_left _ htfS
  · rw [hproc]
    exact hu.space
  · rw [hproc]
    exact hb.framed.of_translate hu.same
  · exact Finset.subset_union_right
  · rw [hproc]
    apply Finset.ext
    intro q
    have hrest : q ∈ S \ N ↔ q = tf := by rw [hb.rest,Finset.mem_singleton]
    have hgrow := @hu.within.grows q
    rw [Finset.mem_sdiff] at hrest
    rw [Finset.mem_sdiff,Finset.mem_union,Finset.mem_singleton]
    constructor
    · rintro ⟨hq | hq,hno⟩
      · exact hrest.mp ⟨hq,fun hN => hno (hgrow hN)⟩
      · exact absurd hq hno
    · rintro rfl
      exact ⟨.inl htfS,htfN'⟩
  · rintro - v ⟨hv,hf,hin,hp⟩
    refine ⟨?_,by rw [hf,hsame,hb.fileRef],by rw [hin,hsame,hb.inodeRef],hv⟩
    rw [hp,hproc,hsame,hb.procs,Function.update_idem]
    exact update_cleared hblank rfl

theorem memoryCopied {t₀ : Kernel} {np tf pt : ℕ} {u : Ram} {NC N' : Finset ℕ} {mem : Mem}
    (h : Wf k p N) (hb : Built k t₀ np tf pt NC S)
    (hg : Grows t₀.ram NC pt 0 (PGROUNDUP (k.procs p).sz)
      (fun va => PTE_FLAGS (entry t₀.ram.mem va 2 (k.procs p).pagetable))
      (byteAt t₀.ram.mem (k.procs p).pagetable) u N')
    (hmem : mem = writeLE (blit u.mem tf trapframeSize fun x => u.mem ((k.procs p).trapframe+x))
      (tf+a0Offset) 8 0)
    (hram : t.ram = {u with mem := mem}) (hpt : (t.procs np).pagetable = pt)
    (htfs : (t.procs np).trapframe = tf) (hsz : (t.procs np).sz = (k.procs p).sz) :
    MemoryCopied k t p np := by
  have htf : tf ∈ S ∧ tf ∉ NC := by
    rw [← Finset.mem_sdiff,hb.rest]
    exact Finset.mem_singleton_self tf
  have hwu := hb.took.within_grows hb.tables hg
  have htfN' : tf ∉ N' := fun hmem =>
    (hg.within.tables tf hmem).elim htf.2 (hb.took.apart tf htf.1)
  have htffr : ∀ va < PGROUNDUP (k.procs p).sz, frameOf u.mem pt va ≠ tf := fun va hva heq =>
    hb.took.apart tf htf.1 (heq ▸ hg.taken va (Nat.zero_le _) hva)
  have hout : Outside {tf} u.mem mem := hmem ▸ copyTrapframe_outside hb.trapframe.aligned
  obtain ⟨hsp,hent,hbytes⟩ := hg.space.store hout htfN' htffr
  have hkeep : ∀ a, PGROUNDDOWN a ∉ k.ram.free → mem a = k.ram.mem a := by
    intro a ha
    rw [hout a fun hmem => ha (by rw [Finset.mem_singleton.mp hmem]; exact hb.took.mem_free htf.1)]
    exact hwu.keeps a (Finset.notMem_empty _) ha
  have hw : Within ∅ k.ram ∅ {u with mem := mem} :=
    ⟨hwu.grows,hwu.tables,hwu.free,fun a _ ha => hkeep a ha⟩
  obtain ⟨-,hent1,hbytes1⟩ := h.space.frame hb.took.within hb.took.freeOk
    (Finset.disjoint_empty_right N) fun va _ => Finset.notMem_empty _
  obtain ⟨hpar,hentp,hbytesp⟩ := h.space.frame hw hsp.freeOk
    (Finset.disjoint_empty_right N) fun va _ => Finset.notMem_empty _
  have hN' : ∀ q ∈ N', q ∈ k.ram.free := fun q hq =>
    (hg.within.tables q hq).elim (fun hq => hb.took.mem_free (hb.tables hq))
      (hb.took.within.free q)
  have hfree : ∀ va < PGROUNDUP (k.procs p).sz, frameOf mem pt va ∈ k.ram.free := by
    intro va hva
    rw [frameOf,hent,← frameOf]
    exact hb.took.within.free _ (hg.taken va (Nat.zero_le _) hva)
  have hfreep : ∀ va < PGROUNDUP (k.procs p).sz,
      frameOf mem (k.procs p).pagetable va ∉ k.ram.free := by
    intro va hva
    rw [frameOf,hentp,← frameOf]
    exact h.space.frame_free va hva
  have hptf : ∀ x < trapframeSize,
      u.mem ((k.procs p).trapframe+x) = k.ram.mem ((k.procs p).trapframe+x) := by
    intro x hx
    refine hwu.keeps _ (Finset.notMem_empty _) ?_
    rw [PGROUNDDOWN_page h.trapframe.aligned (hx.trans (by decide))]
    exact h.inUse
  subst hpt
  refine ⟨⟨N',by rw [hram]; exact hsp,hN'⟩,hsz,?_,?_,?_,⟨?_,?_⟩,?_,?_,?_,?_,?_⟩
  all_goals simp only [hram]
  · intro va hva
    have htop := h.space.top_le
    have hsame : SameIndex 2 (PGROUNDDOWN va) va := by
      have hsv : SVTOP = 2^39 := rfl
      have hdown : PGROUNDDOWN va ≤ va := Nat.div_mul_le_self va PGSIZE
      rw [sameIndex_iff (by omega) (by omega)]
      unfold PGROUNDDOWN PGSIZE
      omega
    rw [hent,hg.flags va (Nat.zero_le _) hva,hent1,entry_congr hsame]
  · intro va hva
    rw [hbytes va hva,hg.fill va (Nat.zero_le _) hva,hbytes1 va hva]
  · exact hfree
  · exact hentp
  · exact hbytesp
  · exact hkeep
  · exact hidden_of_space (s := {u with mem := mem}) hsp hpar (fun va hva hq => hfreep va hva (hN' _ hq))
      fun va va' hva hva' heq => hfreep va' hva' ((congrArg (· ∈ k.ram.free) heq).mp (hfree va hva))
  · exact hidden_of_space (s := {u with mem := mem}) hpar hsp (fun va hva hq => h.space.held _ (hfree va hva) hq)
      fun va va' hva hva' heq => hfreep va hva ((congrArg (· ∈ k.ram.free) heq).mpr (hfree va' hva'))
  · intro x hx hx'
    rw [htfs,hmem,writeLE_outside (by omega),blit_add hx,hptf x hx]
  · intro x hx
    rw [htfs,hmem,writeLE,blit_add hx]
    simp [leByte]

/-- `fork` never panics. It returns the pid of a child with the parent's size, permissions, bytes
and registers, in pages that were free, and one more reference for each descriptor and the current
directory; or -1 with nothing changed but free pages. -/
theorem fork_copies_or_vanishes (h : Wf k p N) :
    wp (fork p) (fun r t =>
      (0 < r ∧ ∃ np < NPROC, (k.procs np).state = .unused ∧ (t.procs np).pid = r ∧
        (t.procs np).state = .runnable ∧ (∀ i, i ≠ np → t.procs i = k.procs i) ∧
        MemoryCopied k t p np ∧ RefsCopied k t p np) ∨
      r = -1 ∧ NoTrace k t) (fun _ => False) k := by
  rw [fork,wp_bind]
  refine wp_conseq (wp_allocproc h.space.freeOk h.blank) ?_
  rintro (_ | np) t hpost
  · exact .inr ⟨rfl,hpost⟩
  obtain ⟨tf,pt,NC,S,hb⟩ := hpost
  have hblank := h.blank np hb.lt hb.unused
  have hne : p ≠ np := by
    rintro rfl
    have := hb.unused
    rw [h.running] at this
    cases this
  have hparent : t.procs p = k.procs p := by rw [hb.procs,Function.update_of_ne hne]
  have hchild : t.procs np =
      {k.procs np with pid := k.nextpid, state := .used, trapframe := tf, pagetable := pt} := by
    rw [hb.procs,Function.update_self]
  have htf : tf ∈ S ∧ tf ∉ NC := by
    rw [← Finset.mem_sdiff,hb.rest]
    exact Finset.mem_singleton_self tf
  have hNC : ∀ q ∈ NC, q ∈ k.ram.free := fun q hq => hb.took.mem_free (hb.tables hq)
  obtain ⟨hp1,hent1,hbytes1⟩ := h.space.frame hb.took.within hb.took.freeOk
    (Finset.disjoint_empty_right N) fun va _ => Finset.notMem_empty _
  have hframe1 : ∀ va, frameOf t.ram.mem (k.procs p).pagetable va =
      frameOf k.ram.mem (k.procs p).pagetable va := fun va => by rw [frameOf,frameOf,hent1]
  simp only [wp_bind,wp_get,hparent,hchild,wp_onRam]
  refine wp_conseq (wp_uvmcopy hp1 hb.space ?_ ?_) ?_
  · rw [Finset.disjoint_left]
    intro q hq hqC
    exact h.space.held q (hNC q hqC) hq
  · intro va hva hmem
    rw [hframe1] at hmem
    exact h.space.frame_free va hva (hNC _ hmem)
  rintro ok u ⟨N',⟨rfl,hg⟩ | ⟨rfl,hu⟩⟩
  · simp only [if_true,wp_bind,wp_setProc,wp_onRam,copyTrapframe,wp_modify]
    refine wp_conseq (wp_dupFiles ?_ h.descriptors ?_) ?_
    · intro i hi f hf
      change 1 ≤ t.fileRef f
      rw [hb.fileRef]
      exact h.files i hi f hf
    · simp only [Function.update_self]
      rw [hchild]
      exact hblank.2.2.2.2.2.2
    rintro - v ⟨hram,hino,href,hprocs⟩
    simp only [idup,wp_modify]
    have hvnp : v.procs np = {k.procs np with
        pid := k.nextpid, state := .used, trapframe := tf, pagetable := pt,
        sz := (k.procs p).sz, ofile := (k.procs p).ofile} := by
      simp only [hprocs,Function.update_self,withFiles,hchild]
    have hvne : ∀ i, i ≠ np → v.procs i = k.procs i := by
      intro i hi
      simp only [hprocs,Function.update_of_ne hi,hb.procs]
    refine .inl ⟨h.nextpid,np,hb.lt,hb.unused,?_,?_,?_,?_,?_⟩
    · simp only [Function.update_self,hvnp]
    · simp only [Function.update_self]
    · intro i hi
      simp only [Function.update_of_ne hi,hvne i hi]
    · exact memoryCopied h hb hg rfl hram (by simp only [Function.update_self,hvnp])
        (by simp only [Function.update_self,hvnp]) (by simp only [Function.update_self,hvnp])
    · refine ⟨?_,?_,?_,?_⟩
      · simp only [Function.update_self,hvnp]
      · intro f
        change v.fileRef f = _
        rw [href f]
        simp only [hb.fileRef]
      · simp only [Function.update_self]
      · simp only [hino,hb.inodeRef]
  · simp only [Bool.false_eq_true,if_false,wp_bind]
    exact wp_conseq (NoTrace.of_built (u := {t with ram := u}) hb hblank hu rfl)
      fun _ v hv => .inr ⟨rfl,hv⟩

end Proofs

/-- Process 0 has one page of user memory, and its descriptor 0 is file 5; every other slot is
unused. -/
def oneProc : Kernel where
  ram := started.2
  procs i := if i = 0 then ⟨.running,1,started.1,PGSIZE,startTrapframe,
      fun fd => if fd = 0 then some 5 else none,1,none⟩
    else ⟨.unused,0,0,0,0,fun _ => none,0,none⟩
  fileRef _ := 1
  inodeRef _ := 1
  nextpid := 2

theorem oneProc_wf {N : Finset ℕ} (h : @Started smallKernel started.1 started.2 N) :
    @Wf smallKernel oneProc 0 N := by
  have hup : PGROUNDUP PGSIZE = PGSIZE := by decide
  refine @Wf.mk smallKernel _ _ _ ?_ startTrapframe_ram
    (@Started.free smallKernel _ _ _ h) rfl (fun _ _ _ _ => le_rfl) ?_ ?_ (by decide)
  · change @Space smallKernel started.2 started.1 (PGROUNDUP PGSIZE) N
    rw [hup]
    exact @Started.space smallKernel _ _ _ h
  · intro i hi
    exact if_neg (Nat.ne_of_gt (Nat.lt_of_lt_of_le (by decide) hi))
  · intro i _ hi
    by_cases h0 : i = 0
    · subst h0
      cases hi
    · simp [Blank,oneProc,h0]

/-- The child has the parent's page and descriptor. -/
theorem fork_copies_or_vanishes_oneProc : ∃ N t, @Wf smallKernel oneProc 0 N ∧
    (oneProc.procs 0).sz = PGSIZE ∧ (oneProc.procs 0).ofile 0 = some 5 ∧
    (@fork smallKernel 0).run oneProc = .ok (2,t) ∧ ∃ np < NPROC, (t.procs np).pid = 2 ∧
      @MemoryCopied smallKernel oneProc t 0 np ∧ RefsCopied oneProc t 0 np := by
  obtain ⟨N,h⟩ := exists_started
  have hpid : wp (@fork smallKernel 0) (fun r _ => r = 2) (fun _ => False) oneProc := by
    decide +kernel
  have hwf := oneProc_wf h
  obtain ⟨r,t,hrun,hout,rfl⟩ := exists_run (wp_mono (wp_and (@fork_copies_or_vanishes oneProc 0 N
    smallKernel hwf) hpid) (fun _ _ hh => hh) fun _ he => he.1)
  obtain ⟨-,np,hnp,-,hnew,-,-,hmem,hrefs⟩ := hout.resolve_right fun hh => absurd hh.1 (by decide)
  exact ⟨N,t,hwf,rfl,rfl,hrun,np,hnp,hnew,hmem,hrefs⟩

end Fork
end Xv6
