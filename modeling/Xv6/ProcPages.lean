import Xv6.UserAlloc

/-! The pages of a process: `uvmcopy`, `proc_pagetable` and `proc_freepagetable`. What a process that
is being built has taken off the free list goes back there when it is given up. -/
namespace Xv6.Vm

open Bytes Command

section Model

variable [KernelImage]

def uvmcreate : RamM (Option ℕ) := do
  match ← kalloc with
  | none => return none
  | some pagetable => do
    zeroPage pagetable
    return some pagetable

def procPagetable (trapframe : ℕ) : RamM (Option ℕ) := do
  match ← uvmcreate with
  | none => return none
  | some pagetable => do
    if ← mappages pagetable TRAMPOLINE PGSIZE KernelImage.trampoline (PTE_R ||| PTE_X) then
      if ← mappages pagetable TRAPFRAME PGSIZE trapframe (PTE_R ||| PTE_W) then
        return some pagetable
      else do
        uvmunmap pagetable TRAMPOLINE 1 false
        uvmfree pagetable 0
        return none
    else do
      uvmfree pagetable 0
      return none

def procFreepagetable (pagetable sz : ℕ) : RamM Unit := do
  uvmunmap pagetable TRAMPOLINE 1 false
  uvmunmap pagetable TRAPFRAME 1 false
  uvmfree pagetable sz

/-- `memmove(dst, src, PGSIZE)` of pages that do not overlap. -/
def movePage (dst src : ℕ) : RamM Unit :=
  modify fun s => {s with mem := blit s.mem dst PGSIZE fun x => s.mem (src+x)}

def uvmcopyLoop (old new sz : ℕ) : ℕ → ℕ → RamM Bool
  | 0, _ => return true
  | fuel+1, i =>
    if i < sz then do
      match ← walk old i false with
      | none => throw .uvmcopyPte
      | some pte => do
        let v := readLE (← get).mem pte 8
        if v &&& PTE_V = 0 then throw .uvmcopyPresent
        else match ← kalloc with
          | none => do
            uvmunmap new 0 (i/PGSIZE) true
            return false
          | some mem => do
            movePage mem (PTE2PA v)
            if ← mappages new i PGSIZE mem (PTE_FLAGS v) then
              uvmcopyLoop old new sz fuel (i+PGSIZE)
            else do
              kfree mem
              uvmunmap new 0 (i/PGSIZE) true
              return false
    else return true

def uvmcopy (old new sz : ℕ) : RamM Bool := uvmcopyLoop old new sz (sz/PGSIZE+1) 0

end Model

variable [KernelImage] {E : VmPanic → Prop} {s t u : Ram} {p top : ℕ} {N S : Finset ℕ}

/-- The pages `S` are what has been taken off the free list, and no page in use has changed. -/
structure Took (s t : Ram) (S : Finset ℕ) : Prop where
  freeOk : FreeOk t
  iff : ∀ q, q ∈ s.free ↔ q ∈ t.free ∨ q ∈ S
  apart : ∀ q ∈ S, q ∉ t.free
  keeps : ∀ a, PGROUNDDOWN a ∉ s.free → t.mem a = s.mem a

namespace Took

theorem refl (h : FreeOk s) : Took s s ∅ :=
  ⟨h,fun q => by simp,fun q hq => by simp at hq,fun _ _ => rfl⟩

theorem mem_free (h : Took s t S) {q : ℕ} (hq : q ∈ S) : q ∈ s.free := (h.iff q).mpr (.inr hq)

theorem store (h : Took s t S) {mem : Mem} (hmem : Outside S t.mem mem) :
    Took s {t with mem := mem} S := by
  refine ⟨⟨h.freeOk.nodup,h.freeOk.ram⟩,h.iff,h.apart,fun a ha => ?_⟩
  change mem a = s.mem a
  rw [hmem a fun hS => ha (h.mem_free hS)]
  exact h.keeps a ha

theorem take (h : Took s t S) {new : List ℕ} (hfree : t.free = new++u.free)
    (hmem : Outside (S ∪ new.toFinset) t.mem u.mem) : Took s u (S ∪ new.toFinset) := by
  have hnodup := h.freeOk.nodup
  rw [hfree] at hnodup
  refine ⟨h.freeOk.drop hfree,fun q => ?_,fun q hq hu => ?_,fun a ha => ?_⟩
  · rw [h.iff,hfree,List.mem_append,Finset.mem_union,List.mem_toFinset]
    tauto
  · rcases Finset.mem_union.mp hq with hq | hq
    · exact h.apart q hq (by rw [hfree]; exact List.mem_append_right _ hu)
    · exact List.disjoint_of_nodup_append hnodup (List.mem_toFinset.mp hq) hu
  · rw [hmem a fun hmem => ha ?_]
    · exact h.keeps a ha
    · rcases Finset.mem_union.mp hmem with hmem | hmem
      · exact h.mem_free hmem
      · exact (h.iff _).mpr (.inl (by
          rw [hfree]
          exact List.mem_append_left _ (List.mem_toFinset.mp hmem)))

theorem give (h : Took s t S) {pages : List ℕ} (hnodup : pages.Nodup)
    (hpages : ∀ q ∈ pages, q ∈ S ∧ RamPage q) (hfree : u.free = pages++t.free)
    (hmem : Outside S t.mem u.mem) : Took s u (S \ pages.toFinset) := by
  refine ⟨⟨?_,?_⟩,fun q => ?_,fun q hq hu => ?_,fun a ha => ?_⟩
  · rw [hfree,List.nodup_append']
    exact ⟨hnodup,h.freeOk.nodup,fun q hq ht => h.apart q (hpages q hq).1 ht⟩
  · intro q hq
    rw [hfree] at hq
    rcases List.mem_append.mp hq with hq | hq
    · exact (hpages q hq).2
    · exact h.freeOk.ram q hq
  · have hsub := fun hq => (hpages q hq).1
    rw [h.iff,hfree,List.mem_append,Finset.mem_sdiff,List.mem_toFinset]
    tauto
  · rw [Finset.mem_sdiff,List.mem_toFinset] at hq
    rw [hfree] at hu
    rcases List.mem_append.mp hu with hu | hu
    · exact hq.2 hu
    · exact h.apart q hq.1 hu
  · rw [hmem a fun hS => ha (h.mem_free hS)]
    exact h.keeps a ha

end Took

def frameSet (mem : Mem) (p top : ℕ) : Finset ℕ := (frames mem p 0 (top/PGSIZE)).toFinset

theorem Space.mem_frameSet (h : Space s p top N) {q : ℕ} :
    q ∈ frameSet s.mem p top ↔ ∃ va < top, frameOf s.mem p va = q := by
  have hal := h.aligned
  have htop := h.top_le
  have hsv : SVTOP = 2^39 := rfl
  simp only [frameSet,frames,List.mem_toFinset,List.mem_map,List.mem_range,Nat.zero_add]
  constructor
  · rintro ⟨i,hi,rfl⟩
    exact ⟨i*PGSIZE,by unfold PGSIZE at *; omega,rfl⟩
  · rintro ⟨va,hva,rfl⟩
    refine ⟨va/PGSIZE,by unfold PGSIZE at *; omega,?_⟩
    have hsame : SameIndex 2 (va/PGSIZE*PGSIZE) va := by
      rw [sameIndex_iff (by unfold PGSIZE; omega) (by omega)]
      unfold PGROUNDDOWN PGSIZE
      omega
    rw [frameOf,entry_congr hsame]

def Bare (mem : Mem) (p : ℕ) : Prop := ∀ va < SVTOP, TRAPFRAME ≤ va → entry mem va 2 p &&& PTE_V = 0

theorem Took.freewalk (h : Took s t S) (hwf : WfTable t p N) (hN : N ⊆ S)
    (hclear : ∀ va < SVTOP, entry t.mem va 2 p &&& PTE_V = 0) :
    wp (Vm.freewalk 3 p) (fun _ u => Took s u (S \ N)) E t := by
  refine wp_conseq (wp_freewalk hwf.table (clear_of_entries hclear) hwf.ram) ?_
  rintro - u ⟨⟨pages,hnodup,rfl,hfree⟩,hout⟩
  exact h.give hnodup (fun q hq => ⟨hN (List.mem_toFinset.mpr hq),hwf.ram q
    (List.mem_toFinset.mpr hq)⟩) hfree (hout.mono hN)

theorem Took.uvmfree {sz : ℕ} (h : Took s t S) (hsp : Space t p (PGROUNDUP sz) N)
    (hbare : Bare t.mem p) (hN : N ⊆ S) (hF : frameSet t.mem p (PGROUNDUP sz) ⊆ S) :
    wp (Vm.uvmfree p sz) (fun _ u => Took s u ((S \ frameSet t.mem p (PGROUNDUP sz)) \ N)) E t := by
  have htop := hsp.top_le
  have hup := le_PGROUNDUP sz
  have hmax : MAXVA = 2^38 := by decide
  have htrap : 2^27 < TRAPFRAME := by decide
  have hal := hsp.aligned
  set n := PGROUNDUP sz/PGSIZE with hn
  have hlen : PGROUNDUP sz = 0+n*PGSIZE := by
    rw [hn]
    unfold PGSIZE at *
    omega
  rw [Vm.uvmfree,wp_bind,wp_when,pgroundup_eq (show sz ≤ 2^63 by omega),← hn]
  have hclear : ∀ u, Unmapping t u p N 0 n true →
      ∀ va < SVTOP, entry u.mem va 2 p &&& PTE_V = 0 := by
    intro u hu va hva
    rcases lt_or_ge va (PGROUNDUP sz) with hlt | hge
    · rw [hu.inside va (Nat.zero_le _) (by omega),Nat.zero_and]
    · rw [hu.other va hva (.inr (by omega))]
      rcases lt_or_ge va TRAPFRAME with hlt | hge'
      · exact hsp.unmapped va hlt hge
      · exact hbare va hva hge'
  constructor
  · intro _
    have hrel := hsp.releases (Nat.zero_mod _) hlen
    refine wp_conseq (wp_uvmunmap hsp.table (Nat.zero_mod _) (by omega) hrel.removable) ?_
    intro _ u hu
    have hset : (released t.mem p 0 n true).toFinset = frameSet t.mem p (PGROUNDUP sz) := by
      rw [released,if_pos rfl,List.toFinset_reverse]
      rfl
    have hgive := h.give hrel.nodup (fun q hq => ⟨hF (by rw [← hset]; exact List.mem_toFinset.mpr hq),?_⟩)
      hu.free (hu.outside.mono (by rw [hset]; exact Finset.union_subset hN hF))
    · rw [hset] at hgive
      refine hgive.freewalk (hsp.toWfTable.release hrel (by omega) hu) ?_ (hclear u hu)
      intro q hq
      rw [Finset.mem_sdiff]
      refine ⟨hN hq,fun hmem => ?_⟩
      obtain ⟨va,hva,rfl⟩ := hsp.mem_frameSet.mp hmem
      exact hsp.frame_table va hva hq
    · obtain ⟨-,i,hi,rfl⟩ := mem_released.mp hq
      exact ((hrel.removable i hi).ram rfl).1
  · intro hzero
    obtain rfl : sz = 0 := by omega
    have hset : frameSet t.mem p (PGROUNDUP 0) = ∅ := rfl
    rw [hset,Finset.sdiff_empty]
    exact h.freewalk hsp.toWfTable hN (hclear t (.refl hsp.table))

structure Framed (mem : Mem) (p : ℕ) : Prop where
  trampoline : entry mem TRAMPOLINE 2 p &&& PTE_V ≠ 0 ∧ PTE_FLAGS (entry mem TRAMPOLINE 2 p) ≠ PTE_V
  trapframe : entry mem TRAPFRAME 2 p &&& PTE_V ≠ 0 ∧ PTE_FLAGS (entry mem TRAPFRAME 2 p) ≠ PTE_V

omit [KernelImage] in
theorem Framed.of_translate {mem mem' : Mem} (h : Framed mem p)
    (hsame : ∀ va < SVTOP, translate mem' p va = translate mem p va) : Framed mem' p := by
  have hkeep : ∀ va < SVTOP, entry mem va 2 p &&& PTE_V ≠ 0 ∧ PTE_FLAGS (entry mem va 2 p) ≠ PTE_V →
      entry mem' va 2 p &&& PTE_V ≠ 0 ∧ PTE_FLAGS (entry mem' va 2 p) ≠ PTE_V := by
    intro va hva hv
    have heq := hsame va hva
    rw [translate,translate,if_neg hv.1] at heq
    split at heq
    · cases heq
    case isFalse hv' =>
      rw [Option.some_inj,Prod.mk.injEq] at heq
      exact ⟨hv',by rw [heq.2]; exact hv.2⟩
  exact ⟨hkeep _ (by decide) h.trampoline,hkeep _ (by decide) h.trapframe⟩

theorem Took.unmapPage {va : ℕ} (h : Took s t S) (hsp : Space t p top N) (hN : N ⊆ S)
    (hal : va%PGSIZE = 0) (hlow : TRAPFRAME ≤ va) (hhigh : va+PGSIZE ≤ MAXVA)
    (hv : entry t.mem va 2 p &&& PTE_V ≠ 0 ∧ PTE_FLAGS (entry t.mem va 2 p) ≠ PTE_V) :
    wp (uvmunmap p va 1 false) (fun _ u => Took s u S ∧ Space u p top N ∧
      (∀ va', va ≤ va' → va' < va+PGSIZE → entry u.mem va' 2 p = 0) ∧
      (∀ va' < SVTOP, va' < va ∨ va+PGSIZE ≤ va' → entry u.mem va' 2 p = entry t.mem va' 2 p) ∧
      u.free = t.free) E t := by
  have hpg : 0 < PGSIZE := by decide
  have hrem : ∀ i < 1, Removable t.mem p N (va+i*PGSIZE) false := by
    intro i hi
    obtain rfl : i = 0 := by omega
    rw [Nat.zero_mul,Nat.add_zero]
    exact ⟨by omega,hv.1,hv.2,fun hfree => absurd hfree (by decide)⟩
  have hrel : Releases t p N va 1 false := ⟨hrem,List.nodup_nil,fun q hq => by cases hq⟩
  have hsv : TRAPFRAME < SVTOP := by decide
  refine wp_conseq (wp_uvmunmap hsp.table hal (by omega) hrem) fun _ u hu => ?_
  have hwf := hsp.toWfTable.release hrel (by omega) hu
  have hfree : u.free = t.free := hu.free
  refine ⟨?_,?_,fun va' hl hr => hu.inside va' hl (by omega),
    fun va' hva' hcase => hu.other va' hva' (by omega),hfree⟩
  · have hst := h.store (hu.outside.mono (by
      rw [show (released t.mem p va 1 false).toFinset = ∅ from rfl,Finset.union_empty]
      exact hN))
    rw [← hfree] at hst
    exact hst
  · refine hsp.of_entries hwf (fun va' hva' => hu.other va' (by omega) (.inl (by omega)))
      hsp.frame_table fun va' hva' => ?_
    rw [hfree]
    exact hsp.frame_free va' hva'

theorem Took.procFreepagetable {sz : ℕ} (h : Took s t S) (hsp : Space t p (PGROUNDUP sz) N)
    (hfr : Framed t.mem p) (hN : N ⊆ S) (hF : frameSet t.mem p (PGROUNDUP sz) ⊆ S) :
    wp (Vm.procFreepagetable p sz)
      (fun _ u => Took s u ((S \ frameSet t.mem p (PGROUNDUP sz)) \ N)) E t := by
  have hsv : TRAPFRAME < SVTOP := by decide
  have htop := hsp.top_le
  have htrap : 2^27 < TRAPFRAME := by decide
  have hnext : TRAPFRAME+PGSIZE = TRAMPOLINE := by decide
  have hmax : TRAMPOLINE+PGSIZE = MAXVA := by decide
  have hpg : 0 < PGSIZE := by decide
  rw [Vm.procFreepagetable,wp_bind]
  refine wp_conseq (h.unmapPage hsp hN (by decide) (by omega) (by omega) hfr.trampoline) ?_
  rintro - u ⟨h1,hsp1,hin1,hout1,-⟩
  have hsame1 := hout1 TRAPFRAME hsv (.inl (by omega))
  rw [wp_bind]
  refine wp_conseq (h1.unmapPage hsp1 hN (by decide) le_rfl (by omega)
    (by rw [hsame1]; exact hfr.trapframe)) ?_
  rintro - v ⟨h2,hsp2,hin2,hout2,-⟩
  have hent : ∀ va < TRAPFRAME, entry v.mem va 2 p = entry t.mem va 2 p := fun va hva => by
    rw [hout2 va (by omega) (.inl hva),hout1 va (by omega) (.inl (by omega))]
  have hset : frameSet v.mem p (PGROUNDUP sz) = frameSet t.mem p (PGROUNDUP sz) := by
    apply Finset.ext
    intro q
    rw [hsp2.mem_frameSet,hsp.mem_frameSet]
    refine exists_congr fun va => and_congr_right fun hva => ?_
    rw [frameOf,frameOf,hent va (by omega)]
  rw [← hset] at hF ⊢
  refine h2.uvmfree hsp2 ?_ hN hF
  intro va hva hge
  rcases lt_or_ge va TRAMPOLINE with hlt | hge'
  · rw [hin2 va hge (by omega),Nat.zero_and]
  · rw [hout2 va hva (.inr (by omega))]
    rcases lt_or_ge va MAXVA with hlt | hge''
    · rw [hin1 va hge' (by omega),Nat.zero_and]
    · rw [hout1 va hva (.inr (by omega))]
      exact hsp.upper va hva hge''

/-- `mappages` of one page from the trapframe on, in a table that is being built. -/
theorem Took.mapPage {va pa perm : ℕ} (h : Took s t S) (hwf : WfTable t p N) (hN : N ⊆ S)
    (hal : va%PGSIZE = 0) (hmax : va+PGSIZE ≤ MAXVA) (hpa : pa < 2^56)
    (hperm : perm ||| PTE_V < 2^10) (hz : entry t.mem va 2 p &&& PTE_V = 0) :
    wp (mappages p va PGSIZE pa perm) (fun ok u => ∃ N' S', Took s u S' ∧ WfTable u p N' ∧ N' ⊆ S' ∧
      S' \ N' = S \ N ∧ (∀ va' < SVTOP, va' < va ∨ va+PGSIZE ≤ va' ∨ ok = false →
        entry u.mem va' 2 p = entry t.mem va' 2 p) ∧
      (ok = true → ∀ va', va ≤ va' → va' < va+PGSIZE →
        entry u.mem va' 2 p = PA2PTE (pa+(PGROUNDDOWN va'-va)) ||| (perm ||| PTE_V))) E t := by
  have hpg : 0 < PGSIZE := by decide
  have h38 : MAXVA = 2^38 := by decide
  have hdown := PGROUNDDOWN_aligned hal
  have hlast := PGROUNDDOWN_last hal
  have hmap := @wp_mappages t p N _ E va PGSIZE pa perm hwf (by decide) (by omega) hpa hperm
    (.inr (by omega)) (.inr fun va' _ hl hr => by
      obtain rfl : va' = va := by omega
      exact hz)
  rw [hdown,hlast] at hmap
  refine wp_conseq hmap ?_
  rintro ok u ⟨k,new,hm,hdone,hfail⟩
  rw [Nat.sub_self,Nat.zero_add] at hdone
  rw [Nat.sub_self] at hfail
  have hkle : k*PGSIZE ≤ PGSIZE := by
    cases ok with
    | true => exact (hdone rfl).le
    | false => have := (hfail rfl).1; omega
  have hnone : ok = false → k*PGSIZE = 0 := fun hok => Nat.le_zero.mp (hfail hok).1
  have hnew : Disjoint new.toFinset S := by
    rw [Finset.disjoint_left]
    intro q hq hS
    exact h.apart q hS (by rw [hm.free]; exact List.mem_append_left _ (List.mem_toFinset.mp hq))
  refine ⟨N ∪ new.toFinset,S ∪ new.toFinset,
    h.take hm.free (hm.outside.mono (Finset.union_subset_union_left hN)),
    hwf.drop hm.free hm.table fun va' hva' hle => hm.other va' hva' (.inr (by omega)),
    Finset.union_subset_union_left hN,?_,fun va' hva' hcase => hm.other va' hva' ?_,
    fun hok va' hl hr => hm.inside va' hl (by rw [hdone hok]; exact hr)⟩
  · apply Finset.ext
    intro q
    have hd := Finset.disjoint_left.mp hnew
    simp only [Finset.mem_sdiff,Finset.mem_union]
    constructor
    · rintro ⟨hS | hq,hnot⟩
      · exact ⟨hS,fun hN => hnot (.inl hN)⟩
      · exact absurd (.inr hq) hnot
    · rintro ⟨hS,hN⟩
      exact ⟨.inl hS,fun hh => hh.elim hN fun hq => hd hq hS⟩
  · rcases hcase with hlt | hge | hok
    · exact .inl hlt
    · exact .inr (by omega)
    · rw [hnone hok]
      omega

theorem WfTable.space (h : WfTable s p N)
    (hun : ∀ va < TRAPFRAME, entry s.mem va 2 p &&& PTE_V = 0) : Space s p 0 N := by
  have hnot : ∀ va, ¬ va < 0 := fun va => Nat.not_lt_zero va
  exact ⟨h,Nat.zero_mod _,fun va hva => absurd hva (hnot va),fun va hva => absurd hva (hnot va),
    fun va hva => absurd hva (hnot va),fun va hva => absurd hva (hnot va),
    fun va hva => absurd hva (hnot va),fun va hva => absurd hva (hnot va),fun va hva _ => hun va hva⟩

theorem Took.uvmfree_zero (h : Took s t S) (hwf : WfTable t p N) (hN : N ⊆ S)
    (hclear : ∀ va < SVTOP, entry t.mem va 2 p &&& PTE_V = 0) :
    wp (Vm.uvmfree p 0) (fun _ u => Took s u (S \ N)) E t := by
  have hsv : TRAPFRAME < SVTOP := by decide
  have hset : frameSet t.mem p (PGROUNDUP 0) = ∅ := rfl
  have hfree := @Took.uvmfree _ E s t p N S 0 h (hwf.space fun va hva => hclear va (by omega))
    (fun va hva _ => hclear va hva) hN (by rw [hset]; exact Finset.empty_subset S)
  rwa [hset,Finset.sdiff_empty] at hfree

/-- A table with the trampoline and the trapframe and nothing else, all of whose pages have been
taken; or nothing is left of it. -/
theorem Took.procPagetable {tf : ℕ} (h : Took s t S) (htf : RamPage tf) :
    wp (Vm.procPagetable tf) (fun r u => match r with
      | none => Took s u S
      | some pt => ∃ N S', Took s u S' ∧ Space u pt 0 N ∧ N ⊆ S' ∧ S' \ N = S ∧ Framed u.mem pt ∧
        entry u.mem TRAPFRAME 2 pt = PA2PTE tf ||| (PTE_R ||| PTE_W ||| PTE_V)) E t := by
  have hsv : SVTOP = 2^39 := rfl
  have h38 : MAXVA = 2^38 := by decide
  have hnext : TRAPFRAME+PGSIZE = TRAMPOLINE := by decide
  have hmax : TRAMPOLINE+PGSIZE = MAXVA := by decide
  have hpg : 0 < PGSIZE := by decide
  rw [Vm.procPagetable,wp_bind,uvmcreate,wp_bind]
  refine wp_kalloc (fun _ => h) fun q free hs => ?_
  have hqt : q ∈ t.free := by rw [hs]; exact List.mem_cons_self
  have hram := h.freeOk.ram q hqt
  set u : Ram := ⟨memsetPage (memsetPage t.mem q 5) q 0,free⟩ with hu
  have hout : Outside {q} t.mem u.mem := by
    have hboth := (memsetPage_outside t.mem hram.aligned 5).trans
      (memsetPage_outside (memsetPage t.mem q 5) hram.aligned 0)
    rwa [Finset.union_self] at hboth
  have hfree : t.free = [q]++u.free := hs
  have h1 : Took s u (S ∪ [q].toFinset) :=
    h.take hfree (hout.mono (by simp))
  obtain ⟨htab,hzero⟩ := @Table.of_zero u.mem 2 q hram.aligned fun a ha => memsetPage_inside _ 0 ha
  have hwf : WfTable u q {q} := by
    refine ⟨htab,fun r hr => by rwa [Finset.mem_singleton.mp hr],h1.freeOk,fun r hr hmem => ?_,
      fun va _ _ => by rw [hzero,Nat.zero_and]⟩
    rw [Finset.mem_singleton.mp hmem] at hr
    exact h1.apart q (by simp) hr
  have hS : (S ∪ [q].toFinset) \ {q} = S := by
    apply Finset.ext
    intro r
    have hne : r ∈ S → r ≠ q := fun hr heq => h.apart r hr (by rw [heq]; exact hqt)
    simp
    tauto
  have htramp : KernelImage.trampoline < 2^56 :=
    (KernelImage.trampoline_lt.trans_le KernelImage.kend_le).trans (by decide)
  change wp (mappages q TRAMPOLINE PGSIZE KernelImage.trampoline (PTE_R ||| PTE_X) >>= _) _ E u
  rw [wp_bind]
  refine wp_conseq (h1.mapPage hwf (by simp) (by decide) (by omega) htramp (by decide)
    (by rw [hzero,Nat.zero_and])) ?_
  rintro ok v ⟨N1,S1,h2,hwf1,hN1,hS1,hother1,hin1⟩
  rw [hS] at hS1
  cases ok with
  | false =>
    change wp (Vm.uvmfree q 0 >>= _) _ E v
    rw [wp_bind]
    refine wp_conseq (h2.uvmfree_zero hwf1 hN1 fun va hva => ?_) fun _ w hw => by rwa [hS1] at hw
    rw [hother1 va hva (.inr (.inr rfl)),hzero,Nat.zero_and]
  | true =>
    have hlow : ∀ va < SVTOP, va < TRAMPOLINE ∨ MAXVA ≤ va → entry v.mem va 2 q = 0 := by
      intro va hva hcase
      rw [hother1 va hva (hcase.imp_right fun hge => .inl (by omega)),hzero]
    have htv := hin1 rfl TRAMPOLINE le_rfl (by omega)
    rw [PGROUNDDOWN_aligned (show TRAMPOLINE%PGSIZE = 0 by decide),Nat.sub_self,Nat.add_zero] at htv
    change wp (mappages q TRAPFRAME PGSIZE tf (PTE_R ||| PTE_W) >>= _) _ E v
    rw [wp_bind]
    refine wp_conseq (h2.mapPage hwf1 hN1 (by decide) (by omega) (htf.lt.trans (by decide))
      (by decide) (by rw [hlow TRAPFRAME (by omega) (.inl (by omega)),Nat.zero_and])) ?_
    rintro ok w ⟨N2,S2,h3,hwf2,hN2,hS2,hother2,hin2⟩
    rw [hS1] at hS2
    have htramp2 : entry w.mem TRAMPOLINE 2 q &&& PTE_V ≠ 0 ∧
        PTE_FLAGS (entry w.mem TRAMPOLINE 2 q) ≠ PTE_V := by
      rw [hother2 TRAMPOLINE (by omega) (.inr (.inl (by omega))),htv,pack_and (by decide),
        PTE_FLAGS_pack (by decide)]
      exact ⟨or_PTE_V_and _,by decide⟩
    have hun : ∀ va < TRAPFRAME, entry w.mem va 2 q &&& PTE_V = 0 := fun va hva => by
      rw [hother2 va (by omega) (.inl hva),hlow va (by omega) (.inl (by omega)),Nat.zero_and]
    cases ok with
    | false =>
      change wp (uvmunmap q TRAMPOLINE 1 false >>= _) _ E w
      rw [wp_bind]
      refine wp_conseq (h3.unmapPage (hwf2.space hun) hN2 (by decide) (by omega) (by omega) htramp2) ?_
      rintro - x ⟨h4,hsp,hin3,hout3,-⟩
      rw [wp_bind]
      refine wp_conseq (h4.uvmfree_zero hsp.toWfTable hN2 fun va hva => ?_)
        fun _ y hy => by rwa [hS2] at hy
      by_cases hin : TRAMPOLINE ≤ va ∧ va < TRAMPOLINE+PGSIZE
      · rw [hin3 va hin.1 hin.2,Nat.zero_and]
      · rw [hout3 va hva (by omega),hother2 va hva (.inr (.inr rfl)),hlow va hva (by omega),
          Nat.zero_and]
    | true =>
      have htf2 := hin2 rfl TRAPFRAME le_rfl (by omega)
      rw [PGROUNDDOWN_aligned (show TRAPFRAME%PGSIZE = 0 by decide),Nat.sub_self,Nat.add_zero] at htf2
      refine ⟨N2,S2,h3,hwf2.space hun,hN2,hS2,⟨htramp2,?_⟩,htf2⟩
      rw [htf2,pack_and (by decide),PTE_FLAGS_pack (by decide)]
      exact ⟨or_PTE_V_and _,by decide⟩

section Copy

variable {s₀ : Ram} {old new a sz fuel : ℕ} {NP NC : Finset ℕ}

/-- Giving up a copy: the pages added so far are unmapped and freed. -/
theorem Grows.wp_uvmunmap {flags : ℕ → ℕ} {fill : ℕ → UInt8}
    (h : Grows s₀ NC new 0 a flags fill s N) (h₀ : Space s₀ new 0 NC) :
    wp (uvmunmap new 0 (a/PGSIZE) true) (fun _ t => ∃ N', Undone s₀ NC new 0 t N') E s := by
  have hal := h.space.aligned
  have htop := h.space.top_le
  have hmax : MAXVA = 2^38 := by decide
  have hlen : a = 0+a/PGSIZE*PGSIZE := by
    unfold PGSIZE at *
    omega
  refine wp_conseq (Vm.wp_uvmunmap h.space.table (Nat.zero_mod _) (by omega)
    (h.space.releases (Nat.zero_mod _) hlen).removable) fun _ t hu => ⟨N,?_⟩
  exact h.undo h₀ (h.space.shrunk (Nat.zero_mod _) hlen hu)

theorem Grows.copy_page {q : ℕ} {free : List ℕ} {N' : Finset ℕ} {mem : Mem}
    (hp : Space s₀ old (PGROUNDUP sz) NP)
    (hbytes : ∀ va < PGROUNDUP sz, byteAt s.mem old va = byteAt s₀.mem old va)
    (h : Grows s₀ NC new 0 a (fun va => PTE_FLAGS (entry s₀.mem va 2 old)) (byteAt s₀.mem old) s N)
    (ha : a+PGSIZE ≤ PGROUNDUP sz) (hs : s.free = q::free)
    (hmem : ∀ x < PGSIZE, mem (q+x) = s.mem (frameOf s.mem old a+x))
    (hpage : ∀ x, PGROUNDDOWN x = q → t.mem x = mem x)
    (hadd : Added s t new a q (PTE_FLAGS (entry s₀.mem a 2 old)) N N') :
    Grows s₀ NC new 0 (a+PGSIZE) (fun va => PTE_FLAGS (entry s₀.mem va 2 old)) (byteAt s₀.mem old)
      t N' := by
  have htop := hp.top_le
  have hal := h.space.aligned
  have hram := h.space.freeOk.ram q (by rw [hs]; exact List.mem_cons_self)
  refine h.add hs hadd (PTE_FLAGS_lt _) fun va hl hr => ?_
  have hmod : va%PGSIZE < PGSIZE := Nat.mod_lt _ (by decide)
  have hsame : SameIndex 2 a va := by
    have hsv : SVTOP = 2^39 := rfl
    rw [sameIndex_iff (by omega) (by omega)]
    unfold PGROUNDDOWN PGSIZE at *
    omega
  rw [hpage _ (PGROUNDDOWN_page hram.aligned hmod),hmem _ hmod,← hbytes va (by omega),byteAt,frameOf,
    frameOf,entry_congr hsame]

theorem wp_uvmcopyLoop (hp : Space s₀ old (PGROUNDUP sz) NP) (h₀ : Space s₀ new 0 NC)
    (hN : Disjoint NP NC) (hfr : ∀ va < PGROUNDUP sz, frameOf s₀.mem old va ∉ NC)
    (h : Grows s₀ NC new 0 a (fun va => PTE_FLAGS (entry s₀.mem va 2 old)) (byteAt s₀.mem old) s N)
    (ha : a ≤ PGROUNDUP sz) (hfuel : PGROUNDUP sz ≤ a+fuel*PGSIZE) :
    wp (uvmcopyLoop old new sz fuel a) (fun ok t => ∃ N',
      (ok = true ∧ Grows s₀ NC new 0 (PGROUNDUP sz) (fun va => PTE_FLAGS (entry s₀.mem va 2 old))
        (byteAt s₀.mem old) t N') ∨ ok = false ∧ Undone s₀ NC new 0 t N') E s := by
  induction fuel generalizing s N a with
  | zero =>
    obtain rfl : a = PGROUNDUP sz := by omega
    exact ⟨N,.inl ⟨rfl,h⟩⟩
  | succ fuel ih =>
    have htop := hp.top_le
    have hal := h.space.aligned
    have hmax : MAXVA = 2^38 := by decide
    rw [uvmcopyLoop,wp_ite]
    refine ⟨fun hlt => ?_,fun hge => ?_⟩
    · have hup : a+PGSIZE ≤ PGROUNDUP sz := by
        unfold PGROUNDUP PGSIZE at *
        omega
      have haP : a < PGROUNDUP sz := hlt.trans_le (le_PGROUNDUP sz)
      obtain ⟨hps,hent,hbytes⟩ := hp.frame h.within h.space.freeOk hN hfr
      obtain ⟨e,he,hval⟩ := exists_walkFrom (ne_zero_of_and (hps.valid a haP))
      rw [wp_bind]
      apply wp_walk_read (by omega)
      rw [he]
      simp only [wp_bind,wp_get,hval]
      rw [if_neg (hps.valid a haP),wp_bind]
      refine wp_kalloc (fun _ => ?_) fun q free hs => ?_
      · rw [wp_bind]
        refine wp_conseq (h.wp_uvmunmap h₀) ?_
        rintro - t ⟨N',hu⟩
        exact ⟨N',.inr ⟨rfl,hu⟩⟩
      · have hqs : q ∈ s.free := by rw [hs]; exact List.mem_cons_self
        have hram := h.space.freeOk.ram q hqs
        have hne : frameOf s.mem old a ≠ q := fun heq =>
          hps.frame_free a haP (by rw [heq]; exact hqs)
        have hfa := (hps.frame_ram a haP).aligned
        rw [wp_bind,movePage,wp_modify,wp_bind]
        set mem := blit (memsetPage s.mem q 5) q PGSIZE
          fun x => memsetPage s.mem q 5 (PTE2PA (entry s.mem a 2 old)+x) with hmemdef
        have hout : Outside {q} s.mem mem := by
          intro x hx
          have hout5 := memsetPage_outside s.mem hram.aligned 5 x hx
          rw [← hout5]
          apply blit_outside
          by_contra hin
          apply hx
          rw [Finset.mem_singleton]
          have := hram.aligned
          unfold PGROUNDDOWN PGSIZE at *
          omega
        have hmem : ∀ x < PGSIZE, mem (q+x) = s.mem (frameOf s.mem old a+x) := by
          intro x hx
          rw [hmemdef,blit_add hx]
          apply memsetPage_outside s.mem hram.aligned 5
          rw [Finset.mem_singleton,← frameOf,PGROUNDDOWN_page hfa hx]
          exact hne
        have hfl := PTE_FLAGS_lt (entry s.mem a 2 old)
        have hv : PTE_FLAGS (entry s.mem a 2 old) ||| PTE_V = PTE_FLAGS (entry s.mem a 2 old) :=
          or_PTE_V (by rw [PTE_FLAGS_and (by decide)]; exact hps.valid a haP)
        refine wp_conseq (h.space.wp_mapOne hs rfl hout (by rw [hv]; exact hfl)
          (by rw [hv]; exact hps.leaf a haP)) ?_
        rw [hv,hent]
        rintro ok t ⟨hpage,⟨rfl,N',hadd⟩ | ⟨rfl,N',hst⟩⟩
        · exact ih (h.copy_page hp hbytes hup hs hmem hpage hadd) hup
            (by rw [Nat.add_mul] at hfuel; omega)
        · simp only [Bool.false_eq_true,if_false,wp_bind]
          apply wp_kfree hram
          refine wp_conseq ((h.stuck hs hst).wp_uvmunmap h₀) ?_
          rintro - t ⟨N',hu⟩
          exact ⟨N',.inr ⟨rfl,hu⟩⟩
    · obtain rfl : a = PGROUNDUP sz := by
        unfold PGROUNDUP PGSIZE at *
        omega
      exact ⟨N,.inl ⟨rfl,h⟩⟩

/-- `uvmcopy` into an empty address space: the same flags and bytes, or nothing. -/
theorem wp_uvmcopy (hp : Space s old (PGROUNDUP sz) NP) (h₀ : Space s new 0 NC)
    (hN : Disjoint NP NC) (hfr : ∀ va < PGROUNDUP sz, frameOf s.mem old va ∉ NC) :
    wp (uvmcopy old new sz) (fun ok t => ∃ N',
      (ok = true ∧ Grows s NC new 0 (PGROUNDUP sz) (fun va => PTE_FLAGS (entry s.mem va 2 old))
        (byteAt s.mem old) t N') ∨ ok = false ∧ Undone s NC new 0 t N') E s := by
  refine wp_uvmcopyLoop hp h₀ hN hfr (.start h₀) (Nat.zero_le _) ?_
  unfold PGROUNDUP PGSIZE
  omega

end Copy

theorem Took.undone {s₀ : Ram} {N₀ S₀ : Finset ℕ} {lo : ℕ} (h : Took s s₀ S₀) (hN : N₀ ⊆ S₀)
    (hu : Undone s₀ N₀ p lo t N) : Took s t (S₀ ∪ N) := by
  refine ⟨hu.space.freeOk,fun q => ?_,fun q hq ht => ?_,fun a ha => ?_⟩
  · rw [Finset.mem_union,h.iff]
    constructor
    · rintro (hq | hq)
      · exact (hu.covers q hq).imp_right .inr
      · exact .inr (.inl hq)
    · rintro (hq | hq | hq)
      · exact .inl (hu.within.free q hq)
      · exact .inr hq
      · exact (hu.within.tables q hq).elim (fun hq => .inr (hN hq)) .inl
  · rcases Finset.mem_union.mp hq with hq | hq
    · exact h.apart q hq (hu.within.free q ht)
    · exact hu.space.held q ht hq
  · rw [hu.within.keeps a (fun hmem => ha (h.mem_free (hN hmem)))
      fun hmem => ha ((h.iff _).mpr (.inl hmem))]
    exact h.keeps a ha

theorem Took.within (h : Took s t S) : Within ∅ s S t :=
  ⟨Finset.empty_subset S,fun _ hq => .inr (h.mem_free hq),fun q hq => (h.iff q).mpr (.inl hq),
    fun a _ ha => h.keeps a ha⟩

theorem Took.within_grows {s₀ : Ram} {N₀ S₀ : Finset ℕ} {lo a : ℕ} {flags : ℕ → ℕ}
    {fill : ℕ → UInt8} (h : Took s s₀ S₀) (hN : N₀ ⊆ S₀) (hg : Grows s₀ N₀ p lo a flags fill t N) :
    Within ∅ s ∅ t := by
  refine ⟨subset_rfl,fun q hq => by simp at hq,
    fun q hq => (h.iff q).mpr (.inl (hg.within.free q hq)),fun a _ ha => ?_⟩
  rw [hg.within.keeps a (fun hmem => ha (h.mem_free (hN hmem)))
    fun hmem => ha ((h.iff _).mpr (.inl hmem))]
  exact h.keeps a ha

theorem Space.store {q : ℕ} {mem : Mem} (h : Space s p top N) (hout : Outside {q} s.mem mem)
    (hN : q ∉ N) (hfr : ∀ va < top, frameOf s.mem p va ≠ q) :
    Space {s with mem := mem} p top N ∧ (∀ va, entry mem va 2 p = entry s.mem va 2 p) ∧
      ∀ va < top, byteAt mem p va = byteAt s.mem p va := by
  have hsame : ∀ a, PGROUNDDOWN a ∈ N → mem a = s.mem a := fun a ha =>
    hout a fun hmem => hN (by rwa [← Finset.mem_singleton.mp hmem])
  have hent := h.table.entry_frame hsame
  have hwf : WfTable {s with mem := mem} p N :=
    ⟨(h.table.frame hsame).1,h.ram,⟨h.freeOk.nodup,h.freeOk.ram⟩,h.held,
      fun va hva hmax => by rw [hent]; exact h.upper va hva hmax⟩
  refine ⟨h.of_entries hwf (fun va _ => hent va) h.frame_table h.frame_free,hent,fun va hva => ?_⟩
  have hpage : PGROUNDDOWN (frameOf s.mem p va+va%PGSIZE) = frameOf s.mem p va :=
    PGROUNDDOWN_page (h.frame_ram va hva).aligned (Nat.mod_lt _ (by decide))
  rw [byteAt,byteAt,frameOf,hent]
  refine hout _ fun hmem => hfr va hva ?_
  rw [Finset.mem_singleton] at hmem
  exact hpage.symm.trans hmem

/-- Sixteen free pages, and behind them the page of a trapframe. -/
def sixteenPages : Ram := ⟨fun _ => 0,(List.range 16).map fun i => 0x80001000+i*4096⟩

def startTrapframe : ℕ := 0x80020000

def startProc : RamM (Option ℕ) := do
  match ← procPagetable startTrapframe with
  | none => return none
  | some pt => do
    let sz ← uvmalloc pt 0 PGSIZE PTE_W
    return if sz = 0 then none else some pt

/-- One user page, and the trapframe is neither free nor among the pages of the process. -/
structure Started (pt : ℕ) (u : Ram) (N : Finset ℕ) : Prop where
  space : Space u pt PGSIZE N
  framed : Framed u.mem pt
  free : startTrapframe ∉ u.free
  table : startTrapframe ∉ N
  frame : ∀ va < PGSIZE, frameOf u.mem pt va ≠ startTrapframe

theorem wp_startProc {E : VmPanic → Prop} {s : Ram} (hfree : FreeOk s) (htf : RamPage startTrapframe)
    (hnot : startTrapframe ∉ s.free) :
    wp startProc (fun r u => ∀ pt, r = some pt → ∃ N, Started pt u N) E s := by
  rw [startProc,wp_bind]
  refine wp_conseq ((Took.refl hfree).procPagetable htf) ?_
  rintro (_ | pt) t ht
  · exact fun pt hpt => by cases hpt
  obtain ⟨N,S,htook,hsp,hN,-,hframed,-⟩ := ht
  rw [wp_bind]
  refine wp_conseq (@Space.wp_uvmalloc _ _ t pt N 0 PGSIZE PTE_W hsp (Nat.zero_le _) (by decide)) ?_
  rintro sz u ⟨N',hout⟩ pt' hpt'
  rcases hout with ⟨rfl,hg⟩ | ⟨rfl,-⟩
  · rw [if_neg (by decide)] at hpt'
    obtain rfl := Option.some.inj hpt'
    have hup : PGROUNDUP PGSIZE = PGSIZE := by decide
    have hfr : ∀ q ∈ t.free, q ∈ s.free := fun q hq => (htook.iff q).mpr (.inl hq)
    rw [hup] at hg
    refine ⟨N',hg.space,⟨?_,?_⟩,fun hq => ?_,fun hq => ?_,fun va hva heq => ?_⟩
    · rw [hg.other _ (by decide) (.inr (by decide))]
      exact hframed.trampoline
    · rw [hg.other _ (by decide) (.inr (by decide))]
      exact hframed.trapframe
    · exact hnot (hfr _ (hg.within.free _ hq))
    · rcases hg.within.tables _ hq with hq | hq
      · exact hnot (htook.mem_free (hN hq))
      · exact hnot (hfr _ hq)
    · exact hnot (heq ▸ hfr _ (hg.taken va (Nat.zero_le _) hva))
  · rw [if_pos rfl] at hpt'
    cases hpt'

omit [KernelImage] in
theorem sixteenPages_freeOk : @FreeOk smallKernel sixteenPages := by
  refine @FreeOk.mk smallKernel _ (by decide) ?_
  intro q hq
  obtain ⟨i,hi,rfl⟩ := List.mem_map.mp hq
  rw [List.mem_range] at hi
  exact @RamPage.mk smallKernel _ (by unfold PGSIZE; omega) (by change 0x80001000 ≤ _; omega)
    (by unfold PHYSTOP KERNBASE; omega)

omit [KernelImage] in
theorem startTrapframe_ram : @RamPage smallKernel startTrapframe :=
  @RamPage.mk smallKernel _ (by decide) (by decide) (by decide)

@[irreducible] def started : ℕ × Ram :=
  match (@startProc smallKernel).run sixteenPages with
  | .ok (some pt,u) => (pt,u)
  | _ => (0,sixteenPages)

omit [KernelImage] in
theorem exists_started : ∃ N, @Started smallKernel started.1 started.2 N := by
  have hwp := @wp_startProc smallKernel (fun _ => True) _ sixteenPages_freeOk startTrapframe_ram (by decide)
  have hrun : (match (@startProc smallKernel).run sixteenPages with
    | .ok (some _,_) => true
    | _ => false) = true := by decide +kernel
  unfold started
  split at hrun
  case h_1 pt u hok =>
    exact wp_ok hwp hok pt rfl
  case h_2 => cases hrun

end Xv6.Vm
