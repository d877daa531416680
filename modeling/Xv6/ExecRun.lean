import Xv6.ExecLoad

/-! The stack, the arguments and the exits of `exec`. -/
namespace Xv6.Exec

open Bytes Command Vm

theorem pushDown_eq {sp n : ℕ} (hn : n ≤ sp) (hsp : sp ≤ 2^63) :
    pushDown sp n = (sp-n)-(sp-n)%16 := by
  have hmod : (sp+2^64-n)%2^64 = sp-n := by omega
  simp only [pushDown,hmod]

/-- The strings of `argv` stand below `sp`, each below the one before, at the addresses `ptrs`; the
last one at `sp'`. -/
def Pushed (c : ℕ → UInt8) : ℕ → List (List UInt8) → List ℕ → ℕ → Prop
  | sp, [], [], sp' => sp' = sp
  | sp, s::argv, q::ptrs, sp' => q%16 = 0 ∧ q+(s.length+1) ≤ sp ∧
      (∀ j < s.length+1, c (q+j) = cstring s j) ∧ Pushed c q argv ptrs sp'
  | _, _, _, _ => False

theorem Pushed.le {c : ℕ → UInt8} {sp sp' : ℕ} {argv : List (List UInt8)} {ptrs : List ℕ}
    (h : Pushed c sp argv ptrs sp') : sp' ≤ sp := by
  induction argv generalizing sp ptrs with
  | nil =>
    cases ptrs with
    | nil => exact Nat.le_of_eq h
    | cons q ptrs => exact h.elim
  | cons s argv ih =>
    cases ptrs with
    | nil => exact h.elim
    | cons q ptrs =>
      obtain ⟨-,hle,-,hrest⟩ := h
      have := ih hrest
      omega

theorem Pushed.length {c : ℕ → UInt8} {sp sp' : ℕ} {argv : List (List UInt8)} {ptrs : List ℕ}
    (h : Pushed c sp argv ptrs sp') : ptrs.length = argv.length := by
  induction argv generalizing sp ptrs with
  | nil =>
    cases ptrs with
    | nil => rfl
    | cons q ptrs => exact h.elim
  | cons s argv ih =>
    cases ptrs with
    | nil => exact h.elim
    | cons q ptrs => rw [List.length_cons,List.length_cons,ih h.2.2.2]

def round16 (n : ℕ) : ℕ := (n+15)/16*16

def stringRoom : List (List UInt8) → ℕ
  | [] => 0
  | s::argv => round16 (s.length+1)+stringRoom argv

def blockSize (argv : List (List UInt8)) : ℕ := stringRoom argv+round16 ((argv.length+1)*8)

theorem Pushed.room {c : ℕ → UInt8} {sp sp' : ℕ} {argv : List (List UInt8)} {ptrs : List ℕ}
    (h : Pushed c sp argv ptrs sp') (hsp : sp%16 = 0) :
    sp'%16 = 0 ∧ sp'+stringRoom argv ≤ sp := by
  induction argv generalizing sp ptrs with
  | nil =>
    cases ptrs with
    | nil =>
      have heq : sp' = sp := h
      exact ⟨by rw [heq,hsp],heq.le⟩
    | cons q ptrs => exact h.elim
  | cons s argv ih =>
    cases ptrs with
    | nil => exact h.elim
    | cons q ptrs =>
      obtain ⟨hal,hle,-,hrest⟩ := h
      obtain ⟨hal',hle'⟩ := ih hrest hal
      refine ⟨hal',?_⟩
      rw [stringRoom,round16]
      omega

theorem Pushed.congr {c c' : ℕ → UInt8} {sp sp' : ℕ} {argv : List (List UInt8)} {ptrs : List ℕ}
    (h : Pushed c sp argv ptrs sp') (hc : ∀ va, sp' ≤ va → va < sp → c' va = c va) :
    Pushed c' sp argv ptrs sp' := by
  induction argv generalizing sp ptrs with
  | nil =>
    cases ptrs with
    | nil => exact h
    | cons q ptrs => exact h.elim
  | cons s argv ih =>
    cases ptrs with
    | nil => exact h.elim
    | cons q ptrs =>
      obtain ⟨hal,hle,hs,hrest⟩ := h
      have hq := hrest.le
      refine ⟨hal,hle,fun j hj => ?_,ih hrest fun va hl hr => hc va hl (by omega)⟩
      rw [hc (q+j) (by omega) (by omega)]
      exact hs j hj

/-- What `exec` finds in `argv`: `sys_exec` has made the vector. -/
structure Args (argv : List (List UInt8)) : Prop where
  count : argv.length < MAXARG
  short : ∀ s ∈ argv, s.length < PGSIZE

structure Stacked (sz : ℕ) (g : ℕ → Prop) : Prop where
  aligned : sz%PGSIZE = 0
  le : 2*PGSIZE ≤ sz
  guard : ∀ va < sz, g va ↔ PGROUNDDOWN va = sz-2*PGSIZE

variable {E : ExecPanic → Prop} {k k₀ : Kernel} {f : FileData} {p sz : ℕ} {N : Finset ℕ}
  {g : ℕ → Prop} {c : ℕ → UInt8}

variable [KernelImage] {s₀ ram : Ram}

theorem wp_copyout_stack {sp n : ℕ} {src : Mem} (h : Image s₀ k.ram p sz N g c) (hst : Stacked sz g)
    (hbase : sz-PGSIZE ≤ sp) (hend : sp+n ≤ sz) (hn : 0 < n) {Q : Bool → Kernel → Prop}
    (hQ : ∀ ram, Image s₀ ram p sz N g (blit c sp n src) → Q true {k with ram := ram}) :
    wp (copyout p sp src n) Q E k := by
  have hal := hst.aligned
  have hle := hst.le
  have hup := PGROUNDUP_of_aligned hal
  have hfit : sp%PGSIZE+n ≤ PGSIZE := by
    unfold PGSIZE at *
    omega
  have hlt : sp < PGROUNDUP sz := by omega
  have hng : ¬ g (PGROUNDDOWN sp) := by
    rw [hst.guard _ ((PGROUNDDOWN_le sp).trans_lt (by omega))]
    unfold PGROUNDDOWN PGSIZE at *
    omega
  simp only [copyout,wp_bind,wp_get,h.copyout_eq hlt hng hn hfit,wp_set]
  exact hQ _ (h.blit hlt hfit)

theorem wp_pushArgs {argv : List (List UInt8)} {argc sp base : ℕ} {ustack : List ℕ}
    (h : Image s₀ k.ram p sz N g c) (hst : Stacked sz g) (hargc : argc+argv.length < MAXARG)
    (hshort : ∀ s ∈ argv, s.length < PGSIZE) (hbs : base+PGSIZE = sz) (hbase : base ≤ sp)
    (hsp : sp ≤ sz) :
    wp (pushArgs p base argv argc sp ustack) (fun r t => InRam k (fun ram =>
      ∃ c', Image s₀ ram p sz N g c' ∧ ∀ sp' ustack', r = some (sp',ustack') →
        ∃ ptrs, ustack' = ustack++ptrs ∧ Pushed c' sp argv ptrs sp' ∧ base ≤ sp' ∧
          ∀ va, va < sp' ∨ sp ≤ va → c' va = c va) t) E k := by
  induction argv generalizing k argc sp ustack c with
  | nil =>
    refine ⟨k.ram,rfl,c,h,fun sp' ustack' heq => ?_⟩
    cases heq
    exact ⟨[],(List.append_nil _).symm,rfl,hbase,fun _ _ => rfl⟩
  | cons s argv ih =>
    have hslen := hshort s List.mem_cons_self
    have hle := hst.le
    have htop := h.space.top_le
    rw [PGROUNDUP_of_aligned hst.aligned] at htop
    rw [List.length_cons] at hargc
    rw [pushArgs,if_neg (by omega),pushDown_eq (by omega) (by omega)]
    set q := sp-(s.length+1)-(sp-(s.length+1))%16 with hq
    have hqle : q+(s.length+1) ≤ sp := by omega
    have hq16 : q%16 = 0 := by omega
    rw [wp_ite]
    refine ⟨fun _ => ⟨k.ram,rfl,c,h,fun sp' ustack' heq => by cases heq⟩,fun hge => ?_⟩
    rw [wp_bind]
    refine wp_copyout_stack h hst (by omega) (by omega) (by omega) fun ram himg => ?_
    rw [if_pos rfl]
    refine wp_conseq (ih (k := {k with ram := ram}) himg (by omega)
      (fun s' hs' => hshort s' (List.mem_cons_of_mem _ hs')) (not_lt.mp hge) (by omega)) ?_
    rintro r t ⟨ram',rfl,c',himg',hr⟩
    refine ⟨ram',rfl,c',himg',fun sp' ustack' heq => ?_⟩
    obtain ⟨ptrs,hu,hpush,hb,hsame⟩ := hr sp' ustack' heq
    have hsp' := hpush.le
    refine ⟨q::ptrs,by rw [hu,List.append_assoc]; rfl,⟨hq16,hqle,fun j hj => ?_,hpush⟩,hb,
      fun va hva => ?_⟩
    · rw [hsame (q+j) (.inr (by omega)),blit_add hj]
    · rw [hsame va (by omega),blit_outside (by omega)]

/-- The process can run: its page table, its memory and its trapframe are apart. -/
structure Wf (k : Kernel) (N : Finset ℕ) : Prop where
  space : Space k.ram k.proc.pagetable (PGROUNDUP k.proc.sz) N
  framed : Framed k.ram.mem k.proc.pagetable
  trapframe : RamPage k.proc.trapframe
  inUse : k.proc.trapframe ∉ k.ram.free
  table : k.proc.trapframe ∉ N
  frame : ∀ va < PGROUNDUP k.proc.sz, frameOf k.ram.mem k.proc.pagetable va ≠ k.proc.trapframe
  ref : 0 ≤ k.ref
  unlocked : k.locked = false

def Untouched (k t : Kernel) : Prop := InRam k (fun ram => Took k.ram ram ∅) t

def busy (k : Kernel) (ram : Ram) : Kernel :=
  {k with ram := ram, outstanding := k.outstanding+1, ref := k.ref+1, locked := true}

theorem wp_bad (h : Image k₀.ram ram p sz N g c) :
    wp (bad (some p) sz false) (fun r t => r = -1 ∧ Untouched k₀ t) E {k₀ with ram := ram} := by
  rw [bad,wp_bind,wp_onRam]
  exact wp_conseq h.free fun _ u hu => ⟨rfl,u,rfl,hu⟩

theorem wp_release {N₀ : Finset ℕ} (hwf : Wf k₀ N₀) {Q : Unit → Kernel → Prop}
    (hQ : Q () {k₀ with ram := ram}) :
    wp iunlockput (fun _ t => wp endOp Q E t) E (busy k₀ ram) := by
  have href := hwf.ref
  have hbusy : ¬ ((busy k₀ ram).locked = false ∨ (busy k₀ ram).ref < 1) := by
    rw [not_or]
    exact ⟨Bool.noConfusion,by change ¬ k₀.ref+1 < 1; omega⟩
  rw [iunlockput,wp_bind,wp_get,if_neg hbusy,wp_set,endOp,wp_modify]
  have hsame : {({busy k₀ ram with locked := false, ref := (busy k₀ ram).ref-1} : Kernel) with
      outstanding := (busy k₀ ram).outstanding-1} = {k₀ with ram := ram} := by
    simp only [busy,add_sub_cancel_right,← hwf.unlocked]
  rw [← hsame] at hQ
  exact hQ

theorem wp_bad_busy {N₀ : Finset ℕ} (hwf : Wf k₀ N₀) (h : Loaded k₀.ram p sz c ram) :
    wp (bad (some p) sz true) (fun r t => r = -1 ∧ Untouched k₀ t) E (busy k₀ ram) := by
  obtain ⟨N,h⟩ := h
  rw [bad,wp_bind,wp_onRam]
  refine wp_conseq h.free fun _ u hu => ?_
  rw [wp_bind,wp_when]
  refine ⟨fun _ => by rw [wp_bind]; exact wp_release hwf ⟨rfl,u,rfl,hu⟩,fun hfalse => absurd rfl hfalse⟩

theorem wp_bad_none {N₀ : Finset ℕ} (hwf : Wf k₀ N₀) (h : Took k₀.ram ram ∅) :
    wp (bad none 0 true) (fun r t => r = -1 ∧ Untouched k₀ t) E (busy k₀ ram) := by
  rw [bad,wp_bind,wp_when]
  exact ⟨fun _ => by rw [wp_bind]; exact wp_release hwf ⟨rfl,ram,rfl,h⟩,fun hfalse => absurd rfl hfalse⟩

theorem Image.mem_free (h : Image s₀ ram p sz N g c) :
    (∀ q ∈ N, q ∈ s₀.free) ∧ ∀ va < PGROUNDUP sz, frameOf ram.mem p va ∈ s₀.free := by
  refine ⟨fun q hq => h.took.mem_free (Finset.mem_union_left _ hq),fun va hva => ?_⟩
  refine h.took.mem_free (Finset.mem_union_right _ ?_)
  rw [h.space.mem_frameSet]
  exact ⟨va,hva,rfl⟩

theorem Wf.old {N₀ : Finset ℕ} {mem : Mem} (hwf : Wf k₀ N₀) (h : Image k₀.ram ram p sz N g c)
    (hout : Outside {k₀.proc.trapframe} ram.mem mem) :
    Space {ram with mem := mem} k₀.proc.pagetable (PGROUNDUP k₀.proc.sz) N₀ ∧
      ∀ va, entry mem va 2 k₀.proc.pagetable = entry k₀.ram.mem va 2 k₀.proc.pagetable := by
  obtain ⟨ho,hoent,-⟩ := hwf.space.frame h.took.within h.took.freeOk
    (Finset.disjoint_empty_right N₀) fun va _ => Finset.notMem_empty _
  obtain ⟨ho1,hoent1,-⟩ := ho.store hout hwf.table fun va hva heq => hwf.frame va hva (by
    rw [← heq,frameOf,frameOf,hoent])
  exact ⟨ho1,fun va => by rw [hoent1,hoent]⟩

theorem took_of_space {s : Ram} {top : ℕ} (h : Space s p top N) :
    Took ⟨s.mem,(N ∪ frameSet s.mem p top).toList++s.free⟩ s (N ∪ frameSet s.mem p top) ∧
      FreeOk ⟨s.mem,(N ∪ frameSet s.mem p top).toList++s.free⟩ := by
  have hapart : ∀ q ∈ N ∪ frameSet s.mem p top, q ∉ s.free ∧ RamPage q := by
    intro q hq
    rw [Finset.mem_union,h.mem_frameSet] at hq
    rcases hq with hq | ⟨va,hva,rfl⟩
    · exact ⟨fun hfree => h.held q hfree hq,h.ram q hq⟩
    · exact ⟨h.frame_free va hva,h.frame_ram va hva⟩
  refine ⟨⟨h.freeOk,fun q => ?_,fun q hq => (hapart q hq).1,fun _ _ => rfl⟩,?_,?_⟩
  · rw [List.mem_append,Finset.mem_toList]
    exact or_comm
  · rw [List.nodup_append']
    exact ⟨Finset.nodup_toList _,h.freeOk.nodup,fun q hq hfree =>
      (hapart q (Finset.mem_toList.mp hq)).1 hfree⟩
  · intro q hq
    rcases List.mem_append.mp hq with hq | hq
    · exact (hapart q (Finset.mem_toList.mp hq)).2
    · exact h.freeOk.ram q hq

theorem wp_commit {E : VmPanic → Prop} {N₀ : Finset ℕ} {mem : Mem} (hwf : Wf k₀ N₀)
    (h : Image k₀.ram ram p sz N g c) (hout : Outside {k₀.proc.trapframe} ram.mem mem) :
    wp (procFreepagetable k₀.proc.pagetable k₀.proc.sz) (fun _ w =>
      Space w p (PGROUNDUP sz) N ∧ (∀ va, entry w.mem va 2 p = entry ram.mem va 2 p) ∧
      (∀ va < PGROUNDUP sz, byteAt w.mem p va = c va) ∧
      ∀ a, PGROUNDDOWN a = k₀.proc.trapframe → w.mem a = mem a) E {ram with mem := mem} := by
  obtain ⟨hNfree,hFfree⟩ := h.mem_free
  obtain ⟨hold,hoent⟩ := hwf.old h hout
  obtain ⟨hnew,hnent,hnbytes⟩ := h.space.store hout (fun hq => hwf.inUse (hNfree _ hq))
    fun va hva heq => hwf.inUse (heq ▸ hFfree va hva)
  obtain ⟨htook,hfreeOk⟩ := took_of_space hold
  set old := N₀ ∪ frameSet mem k₀.proc.pagetable (PGROUNDUP k₀.proc.sz) with holdset
  have hused : ∀ q ∈ old, q ∉ k₀.ram.free ∧ q ≠ k₀.proc.trapframe := by
    intro q hq
    rw [holdset,Finset.mem_union,hold.mem_frameSet] at hq
    rcases hq with hq | ⟨va,hva,rfl⟩
    · exact ⟨fun hfree => hwf.space.held q hfree hq,fun heq => hwf.table (heq ▸ hq)⟩
    · rw [frameOf,hoent,← frameOf]
      exact ⟨hwf.space.frame_free va hva,hwf.frame va hva⟩
  have hsub : ∀ q ∈ ram.free, q ∈ k₀.ram.free := fun q hq => (h.took.iff q).mpr (.inl hq)
  have hbase : Space ⟨mem,old.toList++ram.free⟩ p (PGROUNDUP sz) N := by
    refine hnew.of_entries ⟨hnew.table,hnew.ram,hfreeOk,fun q hq hN => ?_,hnew.upper⟩
      (fun _ _ => rfl) hnew.frame_table ?_
    · rcases List.mem_append.mp hq with hq | hq
      · exact (hused q (Finset.mem_toList.mp hq)).1 (hNfree q hN)
      · exact h.space.held q hq hN
    · intro va hva hq
      have hframe : frameOf mem p va = frameOf ram.mem p va := by rw [frameOf,frameOf,hnent]
      rcases List.mem_append.mp hq with hq | hq
      · refine (hused _ (Finset.mem_toList.mp hq)).1 ?_
        rw [hframe]
        exact hFfree va hva
      · refine h.space.frame_free va hva ?_
        rw [← hframe]
        exact hq
  have hframed : Framed mem k₀.proc.pagetable :=
    ⟨by rw [hoent]; exact hwf.framed.trampoline,by rw [hoent]; exact hwf.framed.trapframe⟩
  refine wp_conseq (htook.procFreepagetable hold hframed Finset.subset_union_left
    Finset.subset_union_right) fun _ w hw => ?_
  obtain ⟨hsp,hent,hbytes⟩ := hbase.frame hw.within hw.freeOk (Finset.disjoint_empty_right N)
    fun va _ => Finset.notMem_empty _
  refine ⟨hsp,fun va => (hent va).trans (hnent va),fun va hva => ?_,fun a ha => hw.keeps a ?_⟩
  · rw [hbytes va hva]
    exact (hnbytes va hva).trans (h.bytes va hva)
  · rw [ha,List.mem_append,Finset.mem_toList]
    rintro (hq | hq)
    · exact (hused _ hq).2 rfl
    · exact hwf.inUse (hsub _ hq)

/-- The new image: the segments, the guard page, and on the stack page the strings at `ptrs` above
the array of pointers at `sp`. -/
structure Committed (k t : Kernel) (f : FileData) (elf : Elfhdr) (path : List UInt8)
    (argv : List (List UInt8)) (sp : ℕ) (ptrs : List ℕ) : Prop where
  aligned : t.proc.sz%PGSIZE = 0
  le : 2*PGSIZE ≤ t.proc.sz
  space : ∃ N, Space t.ram t.proc.pagetable t.proc.sz N
  image : ∀ va < t.proc.sz-2*PGSIZE, byteAt t.ram.mem t.proc.pagetable va =
    segments f elf.phnum (UInt32.ofNat elf.phoff) (fun _ => 0) va
  guard : ∀ va < t.proc.sz, entry t.ram.mem va 2 t.proc.pagetable &&& PTE_U = 0 ↔
    PGROUNDDOWN va = t.proc.sz-2*PGSIZE
  sp_base : t.proc.sz-PGSIZE ≤ sp
  sp_aligned : sp%16 = 0
  strings : ∃ sp₀, sp+(argv.length+1)*8 ≤ sp₀ ∧
    Pushed (byteAt t.ram.mem t.proc.pagetable) t.proc.sz argv ptrs sp₀
  pointers : ∀ i ≤ argv.length, ∀ j < 8,
    byteAt t.ram.mem t.proc.pagetable (sp+8*i+j) = leByte (ptrs.getD i 0) j
  count : ptrs.length = argv.length
  a1 : readLE t.ram.mem (k.proc.trapframe+a1Offset) 8 = sp
  sp_reg : readLE t.ram.mem (k.proc.trapframe+spOffset) 8 = sp
  epc : readLE t.ram.mem (k.proc.trapframe+epcOffset) 8 = elf.entry
  proc : t.proc.trapframe = k.proc.trapframe ∧ t.proc.name = lastElement path
  inode : t.outstanding = k.outstanding ∧ t.ref = k.ref ∧ t.locked = k.locked

def Outcome (k : Kernel) (f : FileData) (elf : Elfhdr) (path : List UInt8)
    (argv : List (List UInt8)) (r : ℤ) (t : Kernel) : Prop :=
  r = -1 ∧ Untouched k t ∨ r = argv.length ∧ ∃ sp ptrs, Committed k t f elf path argv sp ptrs

def registers (mem : Mem) (tf entry sp : ℕ) : Mem :=
  writeLE (writeLE (writeLE mem (tf+a1Offset) 8 sp) (tf+epcOffset) 8 entry) (tf+spOffset) 8 sp

omit [KernelImage] in
theorem registers_outside {mem : Mem} {tf v sp : ℕ} (htf : tf%PGSIZE = 0) :
    Outside {tf} mem (registers mem tf v sp) := by
  intro a ha
  rw [Finset.mem_singleton] at ha
  have hfar : a < tf ∨ tf+PGSIZE ≤ a := by
    unfold PGROUNDDOWN PGSIZE at *
    omega
  have hsize : a1Offset+8 ≤ PGSIZE ∧ epcOffset+8 ≤ PGSIZE ∧ spOffset+8 ≤ PGSIZE := by decide
  rw [registers,writeLE_outside (by omega),writeLE_outside (by omega),writeLE_outside (by omega)]

omit [KernelImage] in
theorem readLE_registers {mem : Mem} {tf v sp : ℕ} (hv : v < 2^64) (hsp : sp < 2^64) :
    readLE (registers mem tf v sp) (tf+a1Offset) 8 = sp ∧
      readLE (registers mem tf v sp) (tf+spOffset) 8 = sp ∧
      readLE (registers mem tf v sp) (tf+epcOffset) 8 = v := by
  have hoff : a1Offset = 120 ∧ spOffset = 48 ∧ epcOffset = 24 := ⟨rfl,rfl,rfl⟩
  refine ⟨?_,?_,?_⟩
  · rw [registers,writeLE,readLE_blit_disjoint (by omega),writeLE,readLE_blit_disjoint (by omega),
      readLE_writeLE]
    exact Nat.mod_eq_of_lt hsp
  · rw [registers,readLE_writeLE]
    exact Nat.mod_eq_of_lt hsp
  · rw [registers,writeLE,readLE_blit_disjoint (by omega),readLE_writeLE]
    exact Nat.mod_eq_of_lt hv

theorem Committed.of_image {N₀ : Finset ℕ} {elf : Elfhdr} {path : List UInt8}
    {argv : List (List UInt8)} {sp sp₀ : ℕ} {ptrs : List ℕ} {c' : ℕ → UInt8} {w : Ram} {t : Kernel}
    (hwf : Wf k₀ N₀)
    (huser : ∀ va < sz, entry ram.mem va 2 p &&& PTE_U = 0 ↔ g va)
    (hst : Stacked sz g) (hbase : sz-PGSIZE ≤ sp) (hsp : sp%16 = 0) (hlt : sp < 2^64)
    (hend : sp+(argv.length+1)*8 ≤ sp₀) (hpush : Pushed c' sz argv ptrs sp₀)
    (hc : ∀ va < sz-2*PGSIZE, c' va = segments f elf.phnum (UInt32.ofNat elf.phoff) (fun _ => 0) va)
    (hentry : elf.entry < 2^64) (hspace : Space w p sz N)
    (hent : ∀ va, entry w.mem va 2 p = entry ram.mem va 2 p)
    (hbytes : ∀ va < sz, byteAt w.mem p va =
      blit c' sp ((argv.length+1)*8) (Exec.pointers ptrs) va)
    (htf : ∀ a, PGROUNDDOWN a = k₀.proc.trapframe →
      w.mem a = registers ram.mem k₀.proc.trapframe elf.entry sp a)
    (ht : t = {k₀ with ram := w, proc := ⟨p,sz,k₀.proc.trapframe,lastElement path⟩}) :
    Committed k₀ t f elf path argv sp ptrs := by
  have hspsz := hpush.le
  have hle := hst.le
  have hreg : ∀ o, o+8 ≤ PGSIZE → readLE w.mem (k₀.proc.trapframe+o) 8 =
      readLE (registers ram.mem k₀.proc.trapframe elf.entry sp) (k₀.proc.trapframe+o) 8 := by
    intro o ho
    refine readLE_congr fun j hj => htf _ ?_
    rw [Nat.add_assoc]
    exact PGROUNDDOWN_page hwf.trapframe.aligned (by omega)
  obtain ⟨ha1,hspr,hepc⟩ := @readLE_registers ram.mem k₀.proc.trapframe elf.entry sp hentry hlt
  rw [ht]
  refine ⟨hst.aligned,hst.le,⟨N,hspace⟩,fun va hva => ?_,fun va hva => ?_,hbase,hsp,
    ⟨sp₀,hend,hpush.congr fun va hl hr => ?_⟩,fun i hi j hj => ?_,hpush.length,
    (hreg _ (by decide)).trans ha1,(hreg _ (by decide)).trans hspr,(hreg _ (by decide)).trans hepc,
    ⟨rfl,rfl⟩,⟨rfl,rfl,rfl⟩⟩
  · have hva' : va < sz-2*PGSIZE := hva
    change byteAt w.mem p va = _
    rw [hbytes va (by omega),blit_outside (by omega)]
    exact hc va hva
  · change entry w.mem va 2 p &&& PTE_U = 0 ↔ _
    rw [hent,huser va hva]
    exact hst.guard va hva
  · change byteAt w.mem p va = c' va
    rw [hbytes va hr,blit_outside (by omega)]
  · change byteAt w.mem p (sp+8*i+j) = _
    have hdiv : (sp+8*i+j-sp)/8 = i := by omega
    have hmod : (sp+8*i+j-sp)%8 = j := by omega
    rw [hbytes _ (by omega),blit_inside (by omega) (by omega),Exec.pointers,hdiv,hmod]

theorem wp_finish {N₀ : Finset ℕ} {elf : Elfhdr} {path : List UInt8} {argv : List (List UInt8)}
    {sp sp₀ : ℕ} {ptrs : List ℕ} {c' : ℕ → UInt8} (hwf : Wf k₀ N₀)
    (h : Image k₀.ram ram p sz N g (blit c' sp ((argv.length+1)*8) (Exec.pointers ptrs)))
    (hst : Stacked sz g) (hbase : sz-PGSIZE ≤ sp) (hsp : sp%16 = 0)
    (hend : sp+(argv.length+1)*8 ≤ sp₀) (hpush : Pushed c' sz argv ptrs sp₀)
    (hc : ∀ va < sz-2*PGSIZE, c' va = segments f elf.phnum (UInt32.ofNat elf.phoff) (fun _ => 0) va)
    (hentry : elf.entry < 2^64) :
    wp (do
      setTrapframe a1Offset sp
      let k ← get
      set {k with proc := ⟨p,sz,k.proc.trapframe,lastElement path⟩}
      setTrapframe epcOffset elf.entry
      setTrapframe spOffset sp
      onRam (procFreepagetable k.proc.pagetable k₀.proc.sz)
      return (argv.length : ℤ)) (Outcome k₀ f elf path argv) E {k₀ with ram := ram} := by
  have hup := PGROUNDUP_of_aligned hst.aligned
  have htop := h.space.top_le
  have huser := h.user
  have hspsz := hpush.le
  have hout : Outside {k₀.proc.trapframe} ram.mem
      (registers ram.mem k₀.proc.trapframe elf.entry sp) := registers_outside hwf.trapframe.aligned
  simp only [wp_bind,setTrapframe,wp_modify,wp_get,wp_set,wp_onRam]
  refine wp_conseq (wp_commit hwf h hout) ?_
  rintro - w ⟨hspace,hent,hbytes,htf⟩
  rw [hup] at hspace hbytes huser htop
  exact .inr ⟨rfl,sp,ptrs,.of_image hwf huser hst hbase hsp (by omega) hend hpush hc hentry hspace hent
    hbytes htf rfl⟩

theorem wp_uvmclear {va : ℕ} (h : Image s₀ k.ram p sz N g c) (hal : va%PGSIZE = 0)
    (hva : va < PGROUNDUP sz) {Q : Unit → Kernel → Prop}
    (hQ : ∀ ram, Image s₀ ram p sz N (fun va' => PGROUNDDOWN va' = va ∨ g va') c →
      Q () {k with ram := ram}) : wp (uvmclear p va) Q E k := by
  have htop := h.space.top_le
  have hmax : 2^27 < MAXVA := by decide
  obtain ⟨e,he,hread⟩ := exists_walkFrom (ne_zero_of_and (h.space.valid _ hva))
  have hclear := h.clear hal hva he
  rw [uvmclear,wp_bind,wp_onRam]
  refine wp_walk_read ((hva.trans_le htop).trans hmax) ?_
  rw [he]
  simp only [wp_onRam,wp_bind,wp_get,setPte,wp_modify,hread]
  exact hQ _ hclear

theorem wp_execArgs {N₀ : Finset ℕ} {elf : Elfhdr} {path : List UInt8} {argv : List (List UInt8)}
    (hwf : Wf k₀ N₀) (h : Image k₀.ram ram p sz N (fun _ => False) c) (hal : sz%PGSIZE = 0)
    (hle : 2*PGSIZE ≤ sz) (hargs : Args argv) (hentry : elf.entry < 2^64)
    (hc : ∀ va < sz-2*PGSIZE, c va = segments f elf.phnum (UInt32.ofNat elf.phoff) (fun _ => 0) va) :
    wp (execArgs path argv elf k₀.proc.sz p sz) (Outcome k₀ f elf path argv) E
      {k₀ with ram := ram} := by
  have hup := PGROUNDUP_of_aligned hal
  have htop := h.space.top_le
  have hmax : MAXVA = 2^38 := by decide
  have hpg : PGSIZE = 4096 := rfl
  rw [execArgs,wp_bind]
  generalize hlo : guardPage sz = lo
  generalize hbase : stackbase sz = base
  unfold guardPage at hlo
  unfold stackbase at hbase
  have hlow : lo < PGROUNDUP sz := by omega
  have hgal : lo%PGSIZE = 0 := by
    unfold PGSIZE at *
    omega
  have hst : Stacked sz fun va => PGROUNDDOWN va = lo ∨ False :=
    ⟨hal,hle,fun va _ => by rw [or_false,← hlo]⟩
  have hstop : ∀ ram' c', Image k₀.ram ram' p sz N (fun va => PGROUNDDOWN va = lo ∨ False) c' →
      wp (bad (some p) sz false) (Outcome k₀ f elf path argv) E {k₀ with ram := ram'} :=
    fun _ _ hi => wp_conseq (wp_bad hi) fun _ _ hbad => .inl hbad
  refine wp_uvmclear h hgal hlow fun ram hclear => ?_
  rw [wp_bind]
  refine wp_conseq (wp_pushArgs (k := {k₀ with ram := ram}) hclear hst (by
    rw [Nat.zero_add]
    exact hargs.count) hargs.short (by omega) (by omega) le_rfl) ?_
  rintro r t ⟨ram',rfl,c',himg,hr⟩
  rcases r with _ | ⟨sp₀,ustack⟩
  · exact hstop _ _ himg
  obtain ⟨ptrs,hu,hpush,hb,hsame⟩ := hr sp₀ ustack rfl
  rw [List.nil_append] at hu
  subst hu
  have hsp₀ := hpush.le
  have hcount := hargs.count
  have hM : MAXARG = 32 := rfl
  have hdown : pushDown sp₀ ((argv.length+1)*8) =
      (sp₀-(argv.length+1)*8)-(sp₀-(argv.length+1)*8)%16 := pushDown_eq (by omega) (by omega)
  simp only [hdown]
  rw [wp_ite]
  refine ⟨fun _ => hstop _ _ himg,fun hge => ?_⟩
  rw [wp_bind]
  refine wp_copyout_stack himg hst (by omega) (by omega) (by omega) fun ram'' himg' => ?_
  rw [if_pos rfl]
  refine wp_finish hwf himg' hst (by omega) (by omega) (by omega) hpush (fun va hva => ?_) hentry
  rw [hsame va (.inl (by omega))]
  exact hc va hva

theorem Image.round (h : Image s₀ ram p sz N g c) : Image s₀ ram p (PGROUNDUP sz) N g c := by
  have hup : PGROUNDUP (PGROUNDUP sz) = PGROUNDUP sz := PGROUNDUP_of_aligned h.space.aligned
  refine ⟨?_,?_,h.framed,?_,?_,?_⟩
  all_goals rw [hup]
  · exact h.took
  · exact h.space
  · exact h.readable
  · exact h.user
  · exact h.bytes

theorem wp_execStack {N₀ : Finset ℕ} {elf : Elfhdr} {path : List UInt8} {argv : List (List UInt8)}
    (hwf : Wf k₀ N₀)
    (h : Loaded k₀.ram p sz (segments f elf.phnum (UInt32.ofNat elf.phoff) fun _ => 0) ram)
    (hzero : ∀ va, PGROUNDUP sz ≤ va →
      segments f elf.phnum (UInt32.ofNat elf.phoff) (fun _ => 0) va = 0)
    (hargs : Args argv) (hentry : elf.entry < 2^64) :
    wp (execStack path argv elf p sz) (Outcome k₀ f elf path argv) E (busy k₀ ram) := by
  obtain ⟨N,h⟩ := h
  have htop := h.space.top_le
  have hround := le_PGROUNDUP sz
  have hpg : PGSIZE = 4096 := rfl
  have hup : PGROUNDUP (PGROUNDUP sz) = PGROUNDUP sz := PGROUNDUP_of_aligned h.space.aligned
  have hsum : (PGROUNDUP sz+2*PGSIZE)%2^64 = PGROUNDUP sz+2*PGSIZE := by omega
  rw [execStack,wp_bind]
  refine wp_conseq (wp_release hwf (Q := fun _ t => t = {k₀ with ram := ram}) rfl) fun _ t ht => ?_
  rw [wp_bind]
  refine wp_conseq ht ?_
  rintro - t rfl
  rw [wp_bind,wp_get,pgroundup_eq (by omega)]
  simp only [hsum]
  rw [wp_bind,wp_onRam]
  refine wp_conseq (h.round.wp_uvmalloc (fun va hva => ⟨hzero va (by rwa [hup] at hva),not_false⟩)
    (by decide)) ?_
  have hal := h.space.aligned
  have hstop : ∀ ram' sz' N' c', Image k₀.ram ram' p sz' N' (fun _ => False) c' →
      wp (bad (some p) sz' false) (Outcome k₀ f elf path argv) E {k₀ with ram := ram'} :=
    fun _ _ _ _ hi => wp_conseq (wp_bad hi) fun _ _ hbad => .inl hbad
  have hargsRun : ∀ sz' ram' N' c', Image k₀.ram ram' p sz' N' (fun _ => False) c' →
      sz'%PGSIZE = 0 → 2*PGSIZE ≤ sz' → (∀ va < sz'-2*PGSIZE, c' va =
        segments f elf.phnum (UInt32.ofNat elf.phoff) (fun _ => 0) va) →
      wp (execArgs path argv elf k₀.proc.sz p sz') (Outcome k₀ f elf path argv) E
        {k₀ with ram := ram'} :=
    fun sz' ram' N' c' hi hal hle hc => @wp_execArgs E k₀ f p sz' N' c' _ ram' N₀ elf path argv hwf hi
      hal hle hargs hentry hc
  rintro r ram' ⟨N',⟨hr,hi⟩ | ⟨rfl,hi⟩⟩
  · rw [← hr] at hi
    rw [max_eq_right (by omega)] at hr
    rw [if_neg (by omega)]
    have hral : r%PGSIZE = 0 := by
      unfold PGSIZE at *
      omega
    exact hargsRun r _ _ _ hi hral (by omega) fun va _ => rfl
  · rw [if_pos rfl]
    exact hstop _ _ _ _ hi

def elfOf (f : FileData) : Elfhdr := Elfhdr.decode (readi f 0 (UInt32.ofNat elfhdrSize)).2

theorem wp_exec {N₀ : Finset ℕ} {found : Bool} {path : List UInt8} {argv : List (List UInt8)}
    (hwf : Wf k₀ N₀) (hargs : Args argv) :
    wp (exec f found path argv) (Outcome k₀ f (elfOf f) path argv) E k₀ := by
  have hok := Took.refl hwf.space.freeOk
  have hbad : wp (bad none 0 true) (Outcome k₀ f (elfOf f) path argv) E (busy k₀ k₀.ram) :=
    wp_conseq (wp_bad_none hwf hok) fun _ _ hbad => .inl hbad
  have href := hwf.ref
  rw [exec,wp_bind,beginOp,wp_modify,wp_ite]
  refine ⟨fun _ => ?_,fun _ => ?_⟩
  · rw [wp_bind,endOp,wp_modify]
    refine .inl ⟨rfl,k₀.ram,?_,hok⟩
    simp only [add_sub_cancel_right]
  · rw [wp_bind,nameiFound,wp_modify,wp_bind,ilock,wp_bind,wp_get,if_neg (by simp only; omega),wp_set]
    change wp _ _ E (busy k₀ k₀.ram)
    rw [wp_ite]
    refine ⟨fun _ => hbad,fun _ => ?_⟩
    rw [wp_ite]
    refine ⟨fun _ => hbad,fun _ => ?_⟩
    rw [wp_bind,wp_get,wp_bind,wp_onRam]
    refine wp_conseq (Image.start hwf.space.freeOk hwf.trapframe) ?_
    rintro (_ | pt) ram hpost
    · exact wp_conseq (wp_bad_none hwf hpost) fun _ _ hbad => .inl hbad
    · obtain ⟨N,himg⟩ := hpost
      rw [wp_bind]
      refine wp_conseq (wp_loadLoop (k := busy k₀ ram) ⟨N,himg⟩ fun _ _ => rfl) ?_
      rintro ⟨ok,sz⟩ t ⟨ram',rfl,hl⟩
      cases ok with
      | true =>
        change wp (execStack path argv (elfOf f) pt sz) _ E (busy k₀ ram')
        exact wp_execStack hwf hl.1 hl.2 hargs (readLE_lt _ _ 8)
      | false =>
        obtain ⟨c',hc'⟩ := hl
        exact wp_conseq (wp_bad_busy hwf hc') fun _ _ hbad => .inl hbad

/-- `exec` never panics, and if it returns -1 nothing is different but the content and the order of
the free pages: not the process and its memory, nor the operations begun, nor the references and the
lock of the inode. -/
theorem exec_failure_leaves_no_trace {found : Bool} {path : List UInt8} {argv : List (List UInt8)}
    (hwf : Wf k N) (hargs : Args argv) :
    wp (exec f found path argv) (fun r t => r = -1 → Untouched k t) (fun _ => False) k := by
  refine wp_conseq (wp_exec hwf hargs) fun r t hout hr => ?_
  rcases hout with ⟨-,hun⟩ | ⟨hlen,-⟩
  · exact hun
  · omega

def LastSegment (f : FileData) (va : ℕ) (b : UInt8) : Prop :=
  (∀ i < (elfOf f).phnum, Covers f (next^[i] (UInt32.ofNat (elfOf f).phoff)) va →
    (∀ j < (elfOf f).phnum, i < j → ¬ Covers f (next^[j] (UInt32.ofNat (elfOf f).phoff)) va) →
    b = f.data ((header f (next^[i] (UInt32.ofNat (elfOf f).phoff))).off%2^32+
      (va-(header f (next^[i] (UInt32.ofNat (elfOf f).phoff))).vaddr))) ∧
  ((∀ i < (elfOf f).phnum, ¬ Covers f (next^[i] (UInt32.ofNat (elfOf f).phoff)) va) → b = 0)

theorem Committed.fits {t : Kernel} {elf : Elfhdr} {path : List UInt8} {argv : List (List UInt8)}
    {sp : ℕ} {ptrs : List ℕ} (h : Committed k t f elf path argv sp ptrs) : blockSize argv ≤ PGSIZE := by
  obtain ⟨sp₀,hend,hpush⟩ := h.strings
  have hal := h.aligned
  have hbase := h.sp_base
  have hle := h.le
  have hsp := h.sp_aligned
  obtain ⟨hal',hroom⟩ := hpush.room (by unfold PGSIZE at hal; omega)
  unfold blockSize round16
  omega

/-- A successful `exec` returns the number of arguments and has built the image and the argument
block; a block that is larger than a page is refused. -/
theorem exec_success_builds_image {found : Bool} {path : List UInt8} {argv : List (List UInt8)}
    (hwf : Wf k N) (hargs : Args argv) :
    wp (exec f found path argv) (fun r t =>
      (0 ≤ r → r = argv.length ∧ (∃ sp ptrs, Committed k t f (elfOf f) path argv sp ptrs) ∧
        ∀ va < t.proc.sz-2*PGSIZE, LastSegment f va (byteAt t.ram.mem t.proc.pagetable va)) ∧
      (PGSIZE < blockSize argv → r = -1)) (fun _ => False) k := by
  refine wp_conseq (wp_exec hwf hargs) fun r t hout => ?_
  rcases hout with ⟨rfl,-⟩ | ⟨rfl,sp,ptrs,hcom⟩
  · exact ⟨fun h0 => absurd h0 (by decide),fun _ => rfl⟩
  · refine ⟨fun _ => ⟨rfl,⟨sp,ptrs,hcom⟩,fun va hva => ?_⟩,fun hbig => ?_⟩
    · rw [hcom.image va hva]
      exact segments_last
    · exact absurd hcom.fits (by omega)

/-- The work of `execArgs` before the new image is committed: whether it comes to that. -/
def placeArgs (argv : List (List UInt8)) (pagetable sz : ℕ) : KernelM Bool := do
  uvmclear pagetable (guardPage sz)
  match ← pushArgs pagetable (stackbase sz) argv 0 sz [] with
  | none => return false
  | some (sp0,ustack) =>
    let sp := pushDown sp0 ((argv.length+1)*8)
    if sp < stackbase sz then return false
    else copyout pagetable sp (pointers ustack) ((argv.length+1)*8)

def placeStack (argv : List (List UInt8)) (pagetable sz : ℕ) : KernelM Bool := do
  iunlockput
  endOp
  let sz1 ← onRam (uvmalloc pagetable (pgroundup sz) ((pgroundup sz+2*PGSIZE)%2^64) PTE_W)
  if sz1 = 0 then return false else placeArgs argv pagetable sz1

def place (f : FileData) (argv : List (List UInt8)) : KernelM Bool := do
  beginOp
  nameiFound
  ilock
  if (readi f 0 (UInt32.ofNat elfhdrSize)).1 ≠ elfhdrSize then return false
  else if (elfOf f).magic ≠ ELF_MAGIC then return false
  else do
    match ← onRam (procPagetable (← get).proc.trapframe) with
    | none => return false
    | some pagetable => do
      let l ← loadLoop f pagetable (elfOf f).phnum (UInt32.ofNat (elfOf f).phoff) 0
      if l.1 then placeStack argv pagetable l.2 else return false

theorem wp_execArgs_of_place {path : List UInt8} {argv : List (List UInt8)} {elf : Elfhdr} {oldsz : ℕ}
    (h : wp (placeArgs argv p sz) (fun ok _ => ok = true) (fun _ => False) k) :
    wp (execArgs path argv elf oldsz p sz) (fun r _ => r = argv.length) (fun _ => True) k := by
  have hstop : ∀ e : ExecPanic, False → True := fun _ _ => trivial
  rw [placeArgs,wp_bind] at h
  rw [execArgs,wp_bind]
  refine wp_mono h (fun _ t ht => ?_) hstop
  rw [wp_bind] at ht ⊢
  refine wp_mono ht ?_ hstop
  rintro (_ | ⟨sp0,ustack⟩) u hu
  · cases hu
  · simp only at hu ⊢
    split at hu
    · cases hu
    case isFalse hsp =>
      rw [if_neg hsp,wp_bind]
      refine wp_mono hu ?_ hstop
      rintro ok v rfl
      rw [if_pos rfl]
      rw [wp_bind]
      refine wp_conseq (wp_true _ _) fun _ _ _ => ?_
      rw [wp_bind,wp_get,wp_bind,wp_set,wp_bind]
      refine wp_conseq (wp_true _ _) fun _ _ _ => ?_
      rw [wp_bind]
      refine wp_conseq (wp_true _ _) fun _ _ _ => ?_
      rw [wp_bind]
      exact wp_conseq (wp_true _ _) fun _ _ _ => (wp_pure _).mpr rfl

theorem wp_exec_of_place {path : List UInt8} {argv : List (List UInt8)}
    (h : wp (place f argv) (fun ok _ => ok = true) (fun _ => False) k) :
    wp (exec f true path argv) (fun r _ => r = argv.length) (fun _ => True) k := by
  have hstop : ∀ e : ExecPanic, False → True := fun _ _ => trivial
  rw [place,wp_bind] at h
  unfold elfOf at h
  rw [exec,wp_bind]
  refine wp_mono h (fun _ t ht => ?_) hstop
  rw [if_neg (by decide),wp_bind]
  rw [wp_bind] at ht
  refine wp_mono ht (fun _ t ht => ?_) hstop
  rw [wp_bind] at ht ⊢
  refine wp_mono ht (fun _ t ht => ?_) hstop
  split at ht
  · cases ht
  case isFalse hsize =>
    rw [if_neg hsize]
    split at ht
    · cases ht
    case isFalse hmagic =>
      rw [if_neg hmagic,wp_bind,wp_get,wp_bind]
      rw [wp_bind,wp_get,wp_bind] at ht
      refine wp_mono ht ?_ hstop
      rintro (_ | pt) u hu
      · cases hu
      · rw [wp_bind] at hu ⊢
        refine wp_mono hu ?_ hstop
        rintro ⟨ok,sz⟩ v hv
        cases ok with
        | false => cases hv
        | true =>
          rw [if_pos rfl,placeStack,wp_bind] at hv
          rw [if_pos rfl,execStack,wp_bind]
          refine wp_mono hv (fun _ w hw => ?_) hstop
          rw [wp_bind] at hw ⊢
          refine wp_mono hw (fun _ w hw => ?_) hstop
          rw [wp_bind] at hw
          rw [wp_bind,wp_get,wp_bind]
          refine wp_mono hw (fun sz1 x hx => ?_) hstop
          split at hx
          · cases hx
          case isFalse hne =>
            rw [if_neg hne]
            exact wp_execArgs_of_place hx

/-- An ELF file with one segment: 16 bytes of memory at 0, of which the two bytes at offset 120 are
loaded. -/
def tinyBytes : List UInt8 :=
  [0x7F,0x45,0x4C,0x46]++List.replicate 28 0++[64]++List.replicate 23 0++[1]++List.replicate 7 0++
    [1,0,0,0,5,0,0,0,120]++List.replicate 23 0++[2]++List.replicate 7 0++[16]++List.replicate 15 0++
    [0x13,0x37]

def tinyFile : FileData := ⟨122,fun i => tinyBytes.getD i 0⟩

def tinyKernel : Kernel := ⟨started.2,⟨started.1,PGSIZE,startTrapframe,[]⟩,0,0,false⟩

omit [KernelImage] in
theorem exists_wf : ∃ N, @Wf smallKernel tinyKernel N := by
  obtain ⟨N,h⟩ := exists_started
  obtain ⟨hspace,hframed,hfree,htable,hframe⟩ := h
  have hup : PGROUNDUP PGSIZE = PGSIZE := by decide
  refine ⟨N,@Wf.mk smallKernel tinyKernel N ?_ hframed startTrapframe_ram hfree htable ?_ (le_refl 0) rfl⟩
  · change @Space smallKernel started.2 started.1 (PGROUNDUP PGSIZE) N
    rw [hup]
    exact hspace
  · change ∀ va < PGROUNDUP PGSIZE, frameOf started.2.mem started.1 va ≠ startTrapframe
    rw [hup]
    exact hframe

omit [KernelImage] in
/-- The file is loaded, but the arguments do not fit a page. -/
theorem exec_failure_leaves_no_trace_args : ∃ t,
    (@exec smallKernel tinyFile true [101] [List.replicate 3000 97,List.replicate 3000 97]).run
      tinyKernel = .ok (-1,t) ∧ @Untouched smallKernel tinyKernel t := by
  obtain ⟨N,h⟩ := exists_wf
  generalize hs : List.replicate 3000 (97 : UInt8) = s
  have hlen : s.length = 3000 := by rw [← hs,List.length_replicate]
  have hargs : Args [s,s] := ⟨(by decide : 2 < MAXARG),by simp [hlen,PGSIZE]⟩
  have hbig : PGSIZE < blockSize [s,s] := by
    simp [blockSize,stringRoom,hlen,round16,PGSIZE]
  have hout := @wp_exec (fun _ => False) tinyKernel tinyFile smallKernel N true [101] _ h hargs
  obtain ⟨r,t,hrun,hleft,hout⟩ := exists_run (wp_mono (wp_and (@exec_failure_leaves_no_trace tinyKernel
    tinyFile N smallKernel true [101] _ h hargs) hout) (fun _ _ hh => hh) fun _ he => he.1)
  rcases hout with ⟨rfl,-⟩ | ⟨-,sp,ptrs,hcom⟩
  · exact ⟨t,hrun,hleft rfl⟩
  · exact absurd (@Committed.fits _ _ smallKernel _ _ _ _ _ _ hcom) (by omega)

omit [KernelImage] in
theorem exec_success_builds_image_tiny : ∃ t,
    (@exec smallKernel tinyFile true [101] [[101],[104,105]]).run tinyKernel = .ok (2,t) ∧
      (∃ sp ptrs, @Committed smallKernel tinyKernel t tinyFile (elfOf tinyFile) [101]
        [[101],[104,105]] sp ptrs) ∧
      ∀ va < t.proc.sz-2*PGSIZE,
        LastSegment tinyFile va (byteAt t.ram.mem t.proc.pagetable va) := by
  obtain ⟨N,h⟩ := exists_wf
  have hplace : wp (@place smallKernel tinyFile [[101],[104,105]]) (fun ok _ => ok = true)
      (fun _ => False) tinyKernel := by decide +kernel
  obtain ⟨r,t,hrun,hout,rfl⟩ := exists_run (wp_mono (wp_and (@exec_success_builds_image tinyKernel
    tinyFile N smallKernel true [101] [[101],[104,105]] h ⟨by decide,by decide⟩)
    (@wp_exec_of_place tinyKernel tinyFile smallKernel [101] _ hplace)) (fun _ _ hh => hh) fun _ he => he.1)
  obtain ⟨-,hcom,hseg⟩ := hout.1 (by decide)
  exact ⟨t,hrun,hcom,hseg⟩

end Xv6.Exec
