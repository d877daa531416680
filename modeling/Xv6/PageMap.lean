import Xv6.VmRelease

/-! A page table is a partial map from pages to frames and flags, and the functions of `vm.c` are
operations on that map. -/
namespace Xv6.Vm

open Bytes Command

/-- Where the table sends the page of `va`, and with which flags. -/
def translate (mem : Mem) (p va : ℕ) : Option (ℕ × ℕ) :=
  if entry mem va 2 p &&& PTE_V = 0 then none
  else some (PTE2PA (entry mem va 2 p),PTE_FLAGS (entry mem va 2 p))

theorem translate_eq_none {mem : Mem} {p va : ℕ} :
    translate mem p va = none ↔ entry mem va 2 p &&& PTE_V = 0 := by
  unfold translate
  split <;> simp [*]

theorem translate_congr {mem mem' : Mem} {p va : ℕ} (h : entry mem' va 2 p = entry mem va 2 p) :
    translate mem' p va = translate mem p va := by
  rw [translate,translate,h]

theorem translate_pack {mem : Mem} {p va pa flags : ℕ}
    (h : entry mem va 2 p = PA2PTE pa ||| flags) (hpa : pa%PGSIZE = 0) (hflags : flags < 2^10)
    (hv : flags &&& PTE_V ≠ 0) : translate mem p va = some (pa,flags) := by
  rw [translate,h,pack_and (by decide),if_neg hv,PTE2PA_pack hpa hflags,PTE_FLAGS_pack hflags]

variable {s t : Ram} {p : ℕ} {N : Finset ℕ}

/-- What `mappages` makes of the map: `k` pages from `a` on are added. -/
def AddsPages (s t : Ram) (p a pa flags k : ℕ) : Prop :=
  ∀ va < MAXVA, translate t.mem p va =
    if a ≤ va ∧ va < a+k*PGSIZE then some (pa+(PGROUNDDOWN va-a),flags)
    else translate s.mem p va

theorem Mapping.addsPages {a pa flags k : ℕ} {new : List ℕ} (h : Mapping s t p N a pa flags k new)
    (ha : a%PGSIZE = 0) (hpa : pa%PGSIZE = 0) (hflags : flags < 2^10) (hv : flags &&& PTE_V ≠ 0) :
    AddsPages s t p a pa flags k := by
  intro va hva
  split
  case isTrue hin =>
    refine translate_pack (h.inside va hin.1 hin.2) ?_ hflags hv
    unfold PGROUNDDOWN PGSIZE at *
    omega
  case isFalse hout => exact translate_congr (h.other va (lt_SVTOP hva) (by omega))

theorem mem_released {mem : Mem} {va n q : ℕ} {doFree : Bool} :
    q ∈ released mem p va n doFree ↔
      doFree = true ∧ ∃ i < n, PTE2PA (entry mem (va+i*PGSIZE) 2 p) = q := by
  cases doFree with
  | false => simp [released]
  | true => simp [released,frames]

section Wf

variable [KernelImage]

/-- A three-level table with pages of memory that are not free, empty from `MAXVA` on. -/
structure WfTable (s : Ram) (p : ℕ) (N : Finset ℕ) : Prop where
  table : Table s.mem 2 p N
  ram : ∀ q ∈ N, RamPage q
  freeOk : FreeOk s
  held : Held N s
  upper : ∀ va < SVTOP, MAXVA ≤ va → entry s.mem va 2 p &&& PTE_V = 0

theorem WfTable.drop (h : WfTable s p N) {new : List ℕ} (hfree : s.free = new++t.free)
    (htable : Table t.mem 2 p (N ∪ new.toFinset))
    (hupper : ∀ va < SVTOP, MAXVA ≤ va → entry t.mem va 2 p = entry s.mem va 2 p) :
    WfTable t p (N ∪ new.toFinset) := by
  refine ⟨htable,?_,h.freeOk.drop hfree,h.held.drop h.freeOk hfree,?_⟩
  · intro q hq
    rcases Finset.mem_union.mp hq with hq | hq
    · exact h.ram q hq
    · apply h.freeOk.ram q
      rw [hfree]
      exact List.mem_append_left _ (List.mem_toFinset.mp hq)
  · intro va hva hmax
    rw [hupper va hva hmax]
    exact h.upper va hva hmax

/-- The pages released by `uvmunmap` go to no other place. -/
structure Releases (s : Ram) (p : ℕ) (N : Finset ℕ) (va n : ℕ) (doFree : Bool) : Prop where
  removable : ∀ i < n, Removable s.mem p N (va+i*PGSIZE) doFree
  nodup : (released s.mem p va n doFree).Nodup
  held : ∀ q ∈ released s.mem p va n doFree, q ∉ s.free

theorem WfTable.release (h : WfTable s p N) {va n : ℕ} {doFree : Bool}
    (hr : Releases s p N va n doFree) (hmax : va+n*PGSIZE ≤ MAXVA)
    (hu : Unmapping s t p N va n doFree) : WfTable t p N := by
  refine ⟨hu.table,h.ram,⟨?_,?_⟩,?_,?_⟩
  · rw [hu.free,List.nodup_append']
    exact ⟨hr.nodup,h.freeOk.nodup,fun q hq hfree => hr.held q hq hfree⟩
  · intro q hq
    rw [hu.free] at hq
    rcases List.mem_append.mp hq with hq | hq
    · obtain ⟨hfree,i,hi,rfl⟩ := mem_released.mp hq
      exact ((hr.removable i hi).ram hfree).1
    · exact h.freeOk.ram q hq
  · intro q hq
    rw [hu.free] at hq
    rcases List.mem_append.mp hq with hq | hq
    · obtain ⟨hfree,i,hi,rfl⟩ := mem_released.mp hq
      exact ((hr.removable i hi).ram hfree).2
    · exact h.held q hq
  · intro va' hva hle
    rw [hu.other va' hva (.inr (by omega))]
    exact h.upper va' hva hle

theorem wp_mappages {E : VmPanic → Prop} {va size pa perm : ℕ} (h : WfTable s p N)
    (hsize : 0 < size) (hend : va+size ≤ 2^64) (hpa : pa < 2^56)
    (hperm : perm ||| PTE_V < 2^10) (hwalk : E .walk ∨ PGROUNDDOWN (va+size-1) < MAXVA)
    (hremap : E .mappagesRemap ∨ ∀ va' < MAXVA, PGROUNDDOWN va ≤ va' →
      va' ≤ PGROUNDDOWN (va+size-1) → entry s.mem va' 2 p &&& PTE_V = 0) :
    wp (mappages p va size pa perm) (Mapped s p N (PGROUNDDOWN va) (PGROUNDDOWN (va+size-1)) pa
      (perm ||| PTE_V)) E s := by
  have hmax : MAXVA = 2^38 := by decide
  have hle : PGROUNDDOWN va ≤ PGROUNDDOWN (va+size-1) := by
    unfold PGROUNDDOWN PGSIZE
    omega
  have hdown := PGROUNDDOWN_le (va+size-1)
  rw [mappages,if_neg (by omega),Nat.mod_eq_of_lt (show va+size-1 < 2^64 by omega)]
  refine wp_mapLoop h.freeOk h.table h.held ?_ ?_ hle (by omega) (by omega) hperm ?_ hwalk hremap
  · unfold PGROUNDDOWN PGSIZE
    omega
  · unfold PGROUNDDOWN PGSIZE
    omega
  · refine hwalk.imp_right fun hlast => ?_
    have hfuel : (MAXVA/PGSIZE+1)*PGSIZE = 2^38+4096 := by decide
    omega

/-- The functions on page tables as operations on the partial map. `mappages` panics only for an
address that is too high or mapped already. -/
theorem page_tables_refine_map (h : WfTable s p N) :
    (∀ va < MAXVA, wp (walk p va true) (fun _ t => ∃ N', N ⊆ N' ∧ WfTable t p N' ∧
      ∀ va' < MAXVA, translate t.mem p va' = translate s.mem p va') (fun _ => False) s) ∧
    (∀ va size pa perm, va < MAXVA → 0 < size → va+size ≤ 2^64 → pa%PGSIZE = 0 → pa < 2^56 →
      perm ||| PTE_V < 2^10 →
      wp (mappages p va size pa perm) (fun ok t => ∃ N', N ⊆ N' ∧ WfTable t p N' ∧ ∃ k,
        AddsPages s t p (PGROUNDDOWN va) pa (perm ||| PTE_V) k ∧
        (ok = true → PGROUNDDOWN va+k*PGSIZE = PGROUNDDOWN (va+size-1)+PGSIZE) ∧
        (ok = false → PGROUNDDOWN va+k*PGSIZE ≤ PGROUNDDOWN (va+size-1)))
        (fun e => e = .walk ∧ MAXVA ≤ PGROUNDDOWN (va+size-1) ∨
          e = .mappagesRemap ∧ ∃ va' < MAXVA, PGROUNDDOWN va ≤ va' ∧
            va' ≤ PGROUNDDOWN (va+size-1) ∧ translate s.mem p va' ≠ none) s) ∧
    (∀ va n doFree, va%PGSIZE = 0 → va+n*PGSIZE ≤ MAXVA → Releases s p N va n doFree →
      wp (uvmunmap p va n doFree) (fun _ t => WfTable t p N ∧
        ∀ va' < MAXVA, translate t.mem p va' =
          if va ≤ va' ∧ va' < va+n*PGSIZE then none else translate s.mem p va')
        (fun _ => False) s) ∧
    ((∀ va < MAXVA, translate s.mem p va = none) →
      wp (freewalk 3 p) (fun _ t => ∃ pages : List ℕ, pages.Nodup ∧ pages.toFinset = N ∧
        t.free = pages++s.free) (fun _ => False) s) := by
  refine ⟨?_,?_,?_,?_⟩
  · intro va hva
    refine wp_conseq (wp_walk_alloc (.inr hva) h.freeOk h.table h.held) ?_
    rintro r t ⟨-,new,hgrown,-⟩
    exact ⟨_,Finset.subset_union_left,
      h.drop hgrown.free hgrown.ext.table fun va' _ _ => hgrown.ext.same va',
      fun va' _ => translate_congr (hgrown.ext.same va')⟩
  · intro va size pa perm hva hsize hend hpa hpa56 hperm
    refine wp_conseq (wp_mappages h hsize hend hpa56 hperm ?_ ?_) ?_
    · by_cases hlast : PGROUNDDOWN (va+size-1) < MAXVA
      · exact .inr hlast
      · exact .inl (.inl ⟨rfl,not_lt.mp hlast⟩)
    · by_cases hmapped : ∃ va' < MAXVA, PGROUNDDOWN va ≤ va' ∧ va' ≤ PGROUNDDOWN (va+size-1) ∧
          translate s.mem p va' ≠ none
      · exact .inl (.inr ⟨rfl,hmapped⟩)
      · refine .inr fun va' hva' hge hle => translate_eq_none.mp ?_
        by_contra hne
        exact hmapped ⟨va',hva',hge,hle,hne⟩
    rintro ok t ⟨k,new,hmap,hdone,hfail⟩
    have hle : PGROUNDDOWN va ≤ PGROUNDDOWN (va+size-1) := by
      unfold PGROUNDDOWN PGSIZE
      omega
    have hstop : PGROUNDDOWN va+k*PGSIZE ≤ MAXVA := by
      rcases Nat.eq_zero_or_pos (k*PGSIZE) with hk | hk
      · have := PGROUNDDOWN_le va
        omega
      · have := (hmap.fresh (PGROUNDDOWN va+k*PGSIZE-1) (by omega) (by omega)).1
        omega
    refine ⟨_,Finset.subset_union_left,h.drop hmap.free hmap.table fun va' hva' hmax =>
      hmap.other va' hva' (.inr (by omega)),k,hmap.addsPages ?_ hpa hperm (or_PTE_V_and perm),?_,?_⟩
    · unfold PGROUNDDOWN PGSIZE
      omega
    · intro hok
      have := hdone hok
      omega
    · intro hno
      have := (hfail hno).1
      omega
  · intro va n doFree hva hmax hr
    refine wp_conseq (wp_uvmunmap h.table hva hmax hr.removable) fun _ t hu => ⟨h.release hr hmax hu,?_⟩
    intro va' hva'
    split
    case isTrue hin =>
      rw [translate_eq_none,hu.inside va' hin.1 hin.2,Nat.zero_and]
    case isFalse hout => exact translate_congr (hu.other va' (lt_SVTOP hva') (by omega))
  · intro hempty
    refine wp_conseq (wp_freewalk h.table (clear_of_entries fun va hva => ?_) h.ram)
      fun _ t hfreed => hfreed.free
    rcases lt_or_ge va MAXVA with hlt | hge
    · exact translate_eq_none.mp (hempty va hlt)
    · exact h.upper va hva hge

end Wf

def emptyTable : Ram := ⟨fun _ => 0,[0x80002000,0x80003000,0x80004000]⟩

@[reducible] def smallKernel : KernelImage :=
  ⟨0x80001000,by decide,by decide,KERNBASE,by decide,by decide⟩

theorem emptyTable_wf : @WfTable smallKernel emptyTable 0x80001000 {0x80001000} := by
  have hram : ∀ q, q%PGSIZE = 0 → 0x80001000 ≤ q → q < PHYSTOP → @RamPage smallKernel q :=
    fun q h1 h2 h3 => @RamPage.mk smallKernel q h1 h2 h3
  have hzero := @Table.of_zero emptyTable.mem 2 0x80001000 (by decide) fun _ _ => rfl
  refine @WfTable.mk smallKernel _ _ _ hzero.1 ?_ (@FreeOk.mk smallKernel _ (by decide) ?_) ?_ ?_
  · intro q hq
    rw [Finset.mem_singleton] at hq
    subst hq
    exact hram _ (by decide) (by decide) (by decide)
  · intro q hq
    simp only [emptyTable,List.mem_cons,List.not_mem_nil,or_false] at hq
    rcases hq with rfl | rfl | rfl <;> exact hram _ (by decide) (by decide) (by decide)
  · intro q hq
    simp only [emptyTable,List.mem_cons,List.not_mem_nil,or_false] at hq
    rcases hq with rfl | rfl | rfl <;> decide
  · intro va _ _
    rw [hzero.2 va,Nat.zero_and]

theorem page_tables_refine_map_emptyTable : ∃ t,
    (mappages 0x80001000 0 1 0x80000000 PTE_R).run emptyTable = .ok (true,t) ∧
    ∀ va < PGSIZE, translate t.mem 0x80001000 va = some (0x80000000,PTE_R ||| PTE_V) := by
  obtain ⟨ok,t,hrun,rfl⟩ := exists_run (c := mappages 0x80001000 0 1 0x80000000 PTE_R)
    (Q := fun ok _ => ok = true) (s := emptyTable) (by decide +kernel)
  obtain ⟨N',-,-,k,hadds,hdone,-⟩ := wp_ok ((@page_tables_refine_map _ _ _ smallKernel
    emptyTable_wf).2.1 0 1 0x80000000 PTE_R (by decide) (by decide) (by decide) (by decide)
    (by decide) (by decide)) hrun
  refine ⟨t,hrun,fun va hva => ?_⟩
  have hk := hdone rfl
  have hzero : PGROUNDDOWN 0 = 0 := by decide
  have hdown : PGROUNDDOWN va = 0 := by rw [PGROUNDDOWN,Nat.div_eq_of_lt hva,Nat.zero_mul]
  have hmax : PGSIZE < MAXVA := by decide
  simp only [Nat.zero_add,Nat.sub_self,hzero] at hk
  rw [hadds va (by omega),if_pos (by rw [hzero]; omega),hzero,hdown]

end Xv6.Vm
