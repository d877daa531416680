import Xv6.Exec

/-! The image that `exec` builds: a page table of pages just taken, with known bytes. Each function
that works on it leads from images to images. -/
namespace Xv6.Exec

open Bytes Command Vm

theorem PTE_FLAGS_user (e : ℕ) : PTE_FLAGS e &&& PTE_U = e &&& PTE_U := PTE_FLAGS_and (by decide)

theorem PTE_FLAGS_readable (e : ℕ) : PTE_FLAGS e &&& PTE_R = e &&& PTE_R := PTE_FLAGS_and (by decide)

theorem and_ne_zero {a m i : ℕ} (ha : a.testBit i = true) (hm : m.testBit i = true) :
    a &&& m ≠ 0 := by
  intro h0
  have hbit : (a &&& m).testBit i = true := by rw [Nat.testBit_and,ha,hm]; rfl
  rw [h0] at hbit
  simp at hbit

theorem userFlags_user (x : ℕ) : userFlags x &&& PTE_U ≠ 0 := by
  have hU : Nat.testBit PTE_U 4 = true := by decide
  refine and_ne_zero (i := 4) ?_ hU
  rw [userFlags,Nat.testBit_or,Nat.testBit_or,Nat.testBit_or,hU]
  simp

theorem userFlags_readable (x : ℕ) : userFlags x &&& PTE_R ≠ 0 := by
  have hR : Nat.testBit PTE_R 1 = true := by decide
  refine and_ne_zero (i := 1) ?_ hR
  rw [userFlags,Nat.testBit_or,Nat.testBit_or,Nat.testBit_or,hR]
  simp

theorem testBit_clear (i : ℕ) : Nat.testBit (2^64-1-PTE_U) i = (decide (i < 64) && decide (i ≠ 4)) := by
  rcases lt_or_ge i 64 with hi | hi
  · have hall : ∀ i < 64, Nat.testBit (2^64-1-PTE_U) i = (decide (i < 64) && decide (i ≠ 4)) := by
      decide
    exact hall i hi
  · rw [Nat.testBit_lt_two_pow ((by decide : 2^64-1-PTE_U < 2^64).trans_le
      (Nat.pow_le_pow_right (by decide) hi))]
    simp [hi]

theorem clear_user (e : ℕ) : e &&& (2^64-1-PTE_U) &&& PTE_U = 0 := by
  rw [Nat.and_assoc]
  exact Nat.and_zero e

theorem clear_and {e m : ℕ} (hm : (2^64-1-PTE_U) &&& m = m) : e &&& (2^64-1-PTE_U) &&& m = e &&& m := by
  rw [Nat.and_assoc,hm]

theorem PTE2PA_clear {e : ℕ} (he : e < 2^64) : PTE2PA (e &&& (2^64-1-PTE_U)) = PTE2PA e := by
  apply Nat.eq_of_testBit_eq
  intro i
  rw [PTE2PA,PTE2PA,Nat.testBit_shiftLeft,Nat.testBit_shiftLeft,Nat.testBit_shiftRight,
    Nat.testBit_shiftRight,Nat.testBit_and,testBit_clear]
  rcases lt_or_ge (10+(i-12)) 64 with hi | hi
  · have hne : 10+(i-12) ≠ 4 := by omega
    simp [hi,hne]
  · rw [Nat.testBit_lt_two_pow (he.trans_le (Nat.pow_le_pow_right (by decide) hi))]
    simp

theorem frameOf_of_translate {mem mem' : Mem} {p va : ℕ} (hv : entry mem va 2 p &&& PTE_V ≠ 0)
    (hsame : Vm.translate mem' p va = Vm.translate mem p va) :
    frameOf mem' p va = frameOf mem p va ∧
      PTE_FLAGS (entry mem' va 2 p) = PTE_FLAGS (entry mem va 2 p) := by
  rw [Vm.translate,Vm.translate,if_neg hv] at hsame
  split at hsame
  · cases hsame
  · rw [Option.some_inj,Prod.mk.injEq] at hsame
    exact hsame

variable [KernelImage] {E : VmPanic → Prop} {s₀ s t : Ram} {p sz : ℕ} {N : Finset ℕ} {g : ℕ → Prop}
  {c : ℕ → UInt8}

/-- The table at `p` and the frames of its `sz` bytes are what has been taken off the free list of
`s₀`. The pages in `g` are not for the user, and `c` are the bytes. -/
structure Image (s₀ s : Ram) (p sz : ℕ) (N : Finset ℕ) (g : ℕ → Prop) (c : ℕ → UInt8) : Prop where
  took : Took s₀ s (N ∪ frameSet s.mem p (PGROUNDUP sz))
  space : Space s p (PGROUNDUP sz) N
  framed : Framed s.mem p
  readable : ∀ va < PGROUNDUP sz, entry s.mem va 2 p &&& PTE_R ≠ 0
  user : ∀ va < PGROUNDUP sz, entry s.mem va 2 p &&& PTE_U = 0 ↔ g va
  bytes : ∀ va < PGROUNDUP sz, byteAt s.mem p va = c va

theorem Image.free (h : Image s₀ s p sz N g c) :
    wp (procFreepagetable p sz) (fun _ u => Took s₀ u ∅) E s := by
  refine wp_conseq (h.took.procFreepagetable h.space h.framed Finset.subset_union_left
    Finset.subset_union_right) fun _ u hu => ?_
  have hempty : ((N ∪ frameSet s.mem p (PGROUNDUP sz)) \ frameSet s.mem p (PGROUNDUP sz)) \ N = ∅ := by
    ext q
    simp only [Finset.mem_sdiff,Finset.mem_union,Finset.notMem_empty,iff_false]
    tauto
  rwa [hempty] at hu

theorem Image.start {tf : ℕ} (hfree : FreeOk s) (htf : RamPage tf) :
    wp (procPagetable tf) (fun r u => match r with
      | none => Took s u ∅
      | some pt => ∃ N, Image s u pt 0 N (fun _ => False) fun _ => 0) E s := by
  refine wp_conseq ((Took.refl hfree).procPagetable htf) ?_
  rintro (_ | pt) u hu
  · exact hu
  · obtain ⟨N,S,htook,hsp,hN,hS,hframed,-⟩ := hu
    have hset : frameSet u.mem pt (PGROUNDUP 0) = ∅ := rfl
    have hSN : S = N := Finset.Subset.antisymm (Finset.sdiff_eq_empty_iff_subset.mp hS) hN
    refine ⟨N,?_,hsp,hframed,?_,?_,?_⟩
    · rw [hset,Finset.union_empty,← hSN]
      exact htook
    · intro va hva
      exact absurd hva (Nat.not_lt_zero va)
    · intro va hva
      exact absurd hva (Nat.not_lt_zero va)
    · intro va hva
      exact absurd hva (Nat.not_lt_zero va)

theorem Image.took_grows {newsz : ℕ} {flags : ℕ → ℕ} {fill : ℕ → UInt8} {N' : Finset ℕ}
    (h : Image s₀ s p sz N g c)
    (hg : Grows s N p (PGROUNDUP sz) (PGROUNDUP newsz) flags fill t N') :
    Took s₀ t (N' ∪ frameSet t.mem p (PGROUNDUP newsz)) := by
  have htop := hg.space.top_le
  have hsv : SVTOP = 2^39 := rfl
  have hsame : ∀ va < PGROUNDUP sz, frameOf t.mem p va = frameOf s.mem p va := fun va hva => by
    have hle := h.space.top_le
    rw [frameOf,frameOf,hg.other va (by omega) (.inl hva)]
  refine ⟨hg.space.freeOk,fun q => ?_,fun q hq hfree => ?_,fun a ha => ?_⟩
  · rw [h.took.iff,Finset.mem_union,Finset.mem_union,hg.space.mem_frameSet,h.space.mem_frameSet]
    constructor
    · rintro (hq | hq | ⟨va,hva,rfl⟩)
      · rcases hg.covers q hq with hq | hq | ⟨va,-,hva,rfl⟩
        · exact .inl hq
        · exact .inr (.inl hq)
        · exact .inr (.inr ⟨va,hva,rfl⟩)
      · exact .inr (.inl (hg.within.grows hq))
      · exact .inr (.inr ⟨va,hva.trans_le hg.le,hsame va hva⟩)
    · rintro (hq | hq | ⟨va,hva,rfl⟩)
      · exact .inl (hg.within.free q hq)
      · exact (hg.within.tables q hq).elim (fun hq => .inr (.inl hq)) .inl
      · rcases lt_or_ge va (PGROUNDUP sz) with hlt | hge
        · exact .inr (.inr ⟨va,hlt,(hsame va hlt).symm⟩)
        · exact .inl (hg.taken va hge hva)
  · rw [Finset.mem_union,hg.space.mem_frameSet] at hq
    rcases hq with hq | ⟨va,hva,rfl⟩
    · exact hg.space.held q hfree hq
    · exact hg.space.frame_free va hva hfree
  · rw [hg.within.keeps a (fun hmem => ha (h.took.mem_free (Finset.mem_union_left _ hmem)))
      fun hmem => ha ((h.took.iff _).mpr (.inl hmem))]
    exact h.took.keeps a ha

/-- The bytes of the pages of an image stay when only its table and free pages change. -/
theorem Image.byteAt_eq {N' : Finset ℕ} (h : Image s₀ s p sz N g c) (hw : Within N s N' t) {va : ℕ}
    (hva : va < PGROUNDUP sz) (hsame : frameOf t.mem p va = frameOf s.mem p va) :
    byteAt t.mem p va = byteAt s.mem p va := by
  have hpage : PGROUNDDOWN (frameOf s.mem p va+va%PGSIZE) = frameOf s.mem p va :=
    PGROUNDDOWN_page (h.space.frame_ram va hva).aligned (Nat.mod_lt _ (by decide))
  rw [byteAt,byteAt,hsame]
  refine hw.keeps _ ?_ ?_
  · rw [hpage]
    exact h.space.frame_table va hva
  · rw [hpage]
    exact h.space.frame_free va hva

theorem Image.grows {newsz xperm : ℕ} {N' : Finset ℕ} (h : Image s₀ s p sz N g c)
    (hc : ∀ va, PGROUNDUP sz ≤ va → c va = 0 ∧ ¬ g va)
    (hg : Grows s N p (PGROUNDUP sz) (PGROUNDUP newsz) (fun _ => userFlags xperm) (fun _ => 0) t N') :
    Image s₀ t p newsz N' g c := by
  have htop := hg.space.top_le
  have hsv : SVTOP = 2^39 := rfl
  have htr : 2^27 < TRAPFRAME ∧ TRAPFRAME < SVTOP ∧ 2^27 < TRAMPOLINE ∧ TRAMPOLINE < SVTOP := by decide
  refine ⟨h.took_grows hg,hg.space,⟨?_,?_⟩,fun va hva => ?_,fun va hva => ?_,fun va hva => ?_⟩
  · rw [hg.other TRAMPOLINE (by omega) (.inr (by omega))]
    exact h.framed.trampoline
  · rw [hg.other TRAPFRAME (by omega) (.inr (by omega))]
    exact h.framed.trapframe
  · rcases lt_or_ge va (PGROUNDUP sz) with hlt | hge
    · rw [hg.other va (by omega) (.inl hlt)]
      exact h.readable va hlt
    · rw [← PTE_FLAGS_readable,hg.flags va hge hva]
      exact userFlags_readable xperm
  · rcases lt_or_ge va (PGROUNDUP sz) with hlt | hge
    · rw [hg.other va (by omega) (.inl hlt)]
      exact h.user va hlt
    · have hflags := hg.flags va hge hva
      refine iff_of_false (fun h0 => ?_) (hc va hge).2
      rw [← PTE_FLAGS_user,hflags] at h0
      exact userFlags_user xperm h0
  · rcases lt_or_ge va (PGROUNDUP sz) with hlt | hge
    · rw [h.byteAt_eq hg.within hlt (by rw [frameOf,frameOf,hg.other va (by omega) (.inl hlt)])]
      exact h.bytes va hlt
    · rw [hg.fill va hge hva,(hc va hge).1]

theorem Image.undone {N' : Finset ℕ} (h : Image s₀ s p sz N g c)
    (hu : Undone s N p (PGROUNDUP sz) t N') : Image s₀ t p sz N' g c := by
  have htop := h.space.top_le
  have hsv : SVTOP = 2^39 := rfl
  have hsame : ∀ va < PGROUNDUP sz, frameOf t.mem p va = frameOf s.mem p va ∧
      PTE_FLAGS (entry t.mem va 2 p) = PTE_FLAGS (entry s.mem va 2 p) := fun va hva =>
    frameOf_of_translate (h.space.valid va hva) (hu.same va (by omega))
  have hset : (N ∪ frameSet s.mem p (PGROUNDUP sz)) ∪ N' =
      N' ∪ frameSet t.mem p (PGROUNDUP sz) := by
    ext q
    rw [Finset.mem_union,Finset.mem_union,Finset.mem_union,h.space.mem_frameSet,
      hu.space.mem_frameSet]
    have hframes : (∃ va < PGROUNDUP sz, frameOf s.mem p va = q) ↔
        ∃ va < PGROUNDUP sz, frameOf t.mem p va = q :=
      exists_congr fun va => and_congr_right fun hva => by rw [(hsame va hva).1]
    rw [hframes]
    constructor
    · rintro ((hq | hq) | hq)
      · exact .inl (hu.within.grows hq)
      · exact .inr hq
      · exact .inl hq
    · rintro (hq | hq)
      · exact .inr hq
      · exact .inl (.inr hq)
  refine ⟨?_,hu.space,h.framed.of_translate hu.same,fun va hva => ?_,fun va hva => ?_,
    fun va hva => ?_⟩
  · rw [← hset]
    exact h.took.undone Finset.subset_union_left hu
  · rw [← PTE_FLAGS_readable,(hsame va hva).2,PTE_FLAGS_readable]
    exact h.readable va hva
  · rw [← PTE_FLAGS_user,(hsame va hva).2,PTE_FLAGS_user]
    exact h.user va hva
  · rw [h.byteAt_eq hu.within hva (hsame va hva).1]
    exact h.bytes va hva

theorem Image.wp_uvmalloc {newsz xperm : ℕ} (h : Image s₀ s p sz N g c)
    (hc : ∀ va, PGROUNDUP sz ≤ va → c va = 0 ∧ ¬ g va) (hx : xperm < 2^10) :
    wp (uvmalloc p sz newsz xperm) (fun r t => ∃ N',
      (r = max sz newsz ∧ Image s₀ t p (max sz newsz) N' g c) ∨
      r = 0 ∧ Image s₀ t p sz N' g c) E s := by
  rcases lt_or_ge newsz sz with hlt | hge
  · rw [uvmalloc,if_pos hlt,max_eq_left hlt.le]
    exact ⟨N,.inl ⟨rfl,h⟩⟩
  · rw [max_eq_right hge]
    refine wp_conseq (h.space.wp_uvmalloc hge hx) ?_
    rintro r t ⟨N',⟨rfl,hg⟩ | ⟨rfl,hu⟩⟩
    · exact ⟨N',.inl ⟨rfl,h.grows hc hg⟩⟩
    · exact ⟨N',.inr ⟨rfl,h.undone hu⟩⟩

def stored (mem : Mem) (p va₀ : ℕ) (old : Mem) (c : ℕ → UInt8) : ℕ → UInt8 := fun va =>
  if PGROUNDDOWN va = PGROUNDDOWN va₀ then mem (frameOf old p va₀+va%PGSIZE) else c va

theorem Image.store {mem : Mem} {va₀ : ℕ} (h : Image s₀ s p sz N g c) (hva₀ : va₀ < PGROUNDUP sz)
    (hout : Outside {frameOf s.mem p va₀} s.mem mem) :
    Image s₀ {s with mem := mem} p sz N g (stored mem p va₀ s.mem c) := by
  have htop := h.space.top_le
  have hsv : SVTOP = 2^39 := rfl
  have hsame : ∀ a, PGROUNDDOWN a ∈ N → mem a = s.mem a := fun a ha => hout a fun hmem =>
    h.space.frame_table va₀ hva₀ (by rwa [← Finset.mem_singleton.mp hmem])
  have hent := h.space.table.entry_frame hsame
  have hwf : WfTable {s with mem := mem} p N :=
    ⟨(h.space.table.frame hsame).1,h.space.ram,⟨h.space.freeOk.nodup,h.space.freeOk.ram⟩,
      h.space.held,fun va hva hmax => by rw [hent]; exact h.space.upper va hva hmax⟩
  have hsp := h.space.of_entries hwf (fun va _ => hent va) h.space.frame_table h.space.frame_free
  have hframe : ∀ va, frameOf mem p va = frameOf s.mem p va := fun va => by
    rw [frameOf,frameOf,hent]
  have hset : frameSet mem p (PGROUNDUP sz) = frameSet s.mem p (PGROUNDUP sz) := by
    ext q
    rw [hsp.mem_frameSet,h.space.mem_frameSet]
    exact exists_congr fun va => and_congr_right fun hva => by rw [hframe]
  refine ⟨?_,hsp,⟨?_,?_⟩,fun va hva => ?_,fun va hva => ?_,fun va hva => ?_⟩
  · change Took s₀ _ (N ∪ frameSet mem p (PGROUNDUP sz))
    rw [hset]
    refine h.took.store (hout.mono ?_)
    rw [Finset.singleton_subset_iff,Finset.mem_union,h.space.mem_frameSet]
    exact .inr ⟨va₀,hva₀,rfl⟩
  · rw [hent]
    exact h.framed.trampoline
  · rw [hent]
    exact h.framed.trapframe
  · rw [hent]
    exact h.readable va hva
  · rw [hent]
    exact h.user va hva
  · rw [byteAt,hframe,stored]
    have hpage : PGROUNDDOWN (frameOf s.mem p va+va%PGSIZE) = frameOf s.mem p va :=
      PGROUNDDOWN_page (h.space.frame_ram va hva).aligned (Nat.mod_lt _ (by decide))
    split
    case isTrue heq =>
      have hidx : SameIndex 2 va va₀ := by
        rw [sameIndex_iff (by omega) (by omega)]
        exact heq
      rw [frameOf,frameOf,entry_congr hidx]
    case isFalse hne =>
      change mem _ = _
      rw [hout _ fun hmem => hne (h.space.inj va hva va₀ hva₀ ?_)]
      · exact h.bytes va hva
      · rw [← hpage]
        exact Finset.mem_singleton.mp hmem

theorem Image.blit {dst len : ℕ} {src : Mem} (h : Image s₀ s p sz N g c) (hdst : dst < PGROUNDUP sz)
    (hfit : dst%PGSIZE+len ≤ PGSIZE) :
    Image s₀ {s with mem := blit s.mem (frameOf s.mem p dst+dst%PGSIZE) len src} p sz N g
      (blit c dst len src) := by
  have hal := (h.space.frame_ram dst hdst).aligned
  have hout : Outside {frameOf s.mem p dst} s.mem
      (Bytes.blit s.mem (frameOf s.mem p dst+dst%PGSIZE) len src) := by
    intro a ha
    apply blit_outside
    by_contra hin
    refine ha (Finset.mem_singleton.mpr ?_)
    unfold PGROUNDDOWN PGSIZE at *
    omega
  have hst := h.store hdst hout
  refine ⟨hst.took,hst.space,hst.framed,hst.readable,hst.user,fun va hva => ?_⟩
  rw [hst.bytes va hva,stored]
  split
  case isTrue heq =>
    have hsv : SVTOP = 2^39 := rfl
    have htop := h.space.top_le
    have hidx : SameIndex 2 dst va := by
      rw [sameIndex_iff (by omega) (by omega)]
      exact heq.symm
    by_cases hin : dst ≤ va ∧ va < dst+len
    · rw [blit_inside hin.1 hin.2,blit_inside (by unfold PGROUNDDOWN PGSIZE at *; omega)
        (by unfold PGROUNDDOWN PGSIZE at *; omega)]
      congr 1
      unfold PGROUNDDOWN PGSIZE at *
      omega
    · rw [blit_outside (by unfold PGROUNDDOWN PGSIZE at *; omega),blit_outside (by omega),
        ← h.bytes va hva,byteAt,frameOf,frameOf,entry_congr hidx]
  case isFalse hne =>
    rw [blit_outside]
    unfold PGROUNDDOWN PGSIZE at *
    omega

theorem Image.frameOf_ne_zero {va : ℕ} (h : Image s₀ s p sz N g c) (hva : va < PGROUNDUP sz) :
    frameOf s.mem p va ≠ 0 := by
  have hle := KernelImage.le_kend.trans (h.space.frame_ram va hva).le
  unfold KERNBASE at hle
  omega

theorem Image.walkaddr_eq {va : ℕ} (h : Image s₀ s p sz N g c) (hva : va < PGROUNDUP sz)
    (hg : ¬ g va) : walkaddr s.mem p va = frameOf s.mem p va := by
  have htop := h.space.top_le
  have hmax : MAXVA = 2^38 := by decide
  obtain ⟨e,he,hread⟩ := exists_walkFrom (ne_zero_of_and (h.space.valid va hva))
  rw [walkaddr,if_neg (by omega),walk0,he]
  simp only [hread]
  rw [if_neg (h.space.valid va hva),if_neg fun h0 => hg ((h.user va hva).mp h0),frameOf]

theorem Image.copyout_eq {dst len : ℕ} {src : Mem} (h : Image s₀ s p sz N g c)
    (hdst : dst < PGROUNDUP sz) (hg : ¬ g (PGROUNDDOWN dst)) (hlen : 0 < len)
    (hfit : dst%PGSIZE+len ≤ PGSIZE) :
    Vm.copyout s.mem p dst src len =
      (Bytes.blit s.mem (frameOf s.mem p dst+dst%PGSIZE) len src,true) := by
  have hsv : SVTOP = 2^39 := rfl
  have htop := h.space.top_le
  have hdown := PGROUNDDOWN_le dst
  have hidx : SameIndex 2 (PGROUNDDOWN dst) dst := by
    rw [sameIndex_iff (by omega) (by omega)]
    unfold PGROUNDDOWN PGSIZE
    omega
  have hwalk : walkaddr s.mem p (PGROUNDDOWN dst) = frameOf s.mem p dst := by
    rw [h.walkaddr_eq (hdown.trans_lt hdst) hg,frameOf,frameOf,entry_congr hidx]
  have hmin : min (PGSIZE-dst%PGSIZE) len = len := by omega
  obtain ⟨n,rfl⟩ : ∃ n, len = n+1 := ⟨len-1,by omega⟩
  rw [Vm.copyout,copyoutLoop,if_neg (by omega)]
  simp only [hwalk,sub_PGROUNDDOWN,hmin,Nat.sub_self,if_neg (h.frameOf_ne_zero hdst)]
  cases n with
  | zero => rfl
  | succ n => rw [copyoutLoop,if_pos rfl]

theorem Image.clear {va₀ e : ℕ} (h : Image s₀ s p sz N g c) (hal : va₀%PGSIZE = 0)
    (hva₀ : va₀ < PGROUNDUP sz) (he : walkFrom s.mem va₀ 2 p = some e) :
    Image s₀ {s with mem := writeLE s.mem e 8 (entry s.mem va₀ 2 p &&& (2^64-1-PTE_U))} p sz N
      (fun va => PGROUNDDOWN va = va₀ ∨ g va) c := by
  have hsv : SVTOP = 2^39 := rfl
  have htop := h.space.top_le
  have htr : 2^27 < TRAPFRAME ∧ TRAPFRAME < SVTOP ∧ 2^27 < TRAMPOLINE ∧ TRAMPOLINE < SVTOP := by decide
  have hlt64 : ∀ va, entry s.mem va 2 p < 2^64 := by
    intro va
    unfold entry
    split
    · decide
    · exact readLE_lt _ _ 8
  set v := entry s.mem va₀ 2 p &&& (2^64-1-PTE_U) with hv
  set mem := writeLE s.mem e 8 v with hmem
  obtain ⟨htable,-,hentry⟩ := h.space.table.write he
    ((Nat.and_le_left.trans_lt (hlt64 va₀)) : v < 2^64)
  have hout : Outside N s.mem mem := h.space.table.write_outside he v
  have hown : PGROUNDDOWN va₀ = va₀ := by
    unfold PGROUNDDOWN PGSIZE at *
    omega
  have hin : ∀ va < SVTOP, PGROUNDDOWN va = va₀ →
      entry mem va 2 p = entry s.mem va 2 p &&& (2^64-1-PTE_U) := by
    intro va hva heq
    have hidx : SameIndex 2 va₀ va := by
      rw [sameIndex_iff (by omega) hva,hown,heq]
    rw [(hentry va).1 hidx,entry_congr hidx]
  have hother : ∀ va < SVTOP, PGROUNDDOWN va ≠ va₀ → entry mem va 2 p = entry s.mem va 2 p := by
    intro va hva hne
    refine (hentry va).2 fun hidx => hne ?_
    rw [sameIndex_iff (by omega) hva,hown] at hidx
    exact hidx.symm
  have hand : ∀ va < SVTOP, ∀ m, (2^64-1-PTE_U) &&& m = m →
      entry mem va 2 p &&& m = entry s.mem va 2 p &&& m := by
    intro va hva m hm
    by_cases heq : PGROUNDDOWN va = va₀
    · rw [hin va hva heq,clear_and hm]
    · rw [hother va hva heq]
  have hframe : ∀ va < SVTOP, frameOf mem p va = frameOf s.mem p va := by
    intro va hva
    by_cases heq : PGROUNDDOWN va = va₀
    · rw [frameOf,hin va hva heq,PTE2PA_clear (hlt64 va),frameOf]
    · rw [frameOf,hother va hva heq,frameOf]
  have hhigh : ∀ va < SVTOP, PGROUNDUP sz ≤ va → PGROUNDDOWN va ≠ va₀ := by
    intro va hva hge heq
    have hup := h.space.aligned
    unfold PGROUNDDOWN PGSIZE at *
    omega
  have hleaf : ∀ va < PGROUNDUP sz, PTE_FLAGS (entry mem va 2 p) ≠ PTE_V := by
    intro va hva h0
    have hr := h.readable va hva
    rw [← hand va (by omega) PTE_R (by decide),← PTE_FLAGS_readable,h0] at hr
    exact hr (by decide)
  have hwf : WfTable {s with mem := mem} p N :=
    ⟨htable,h.space.ram,⟨h.space.freeOk.nodup,h.space.freeOk.ram⟩,h.space.held,
      fun va hva hmax => by
        rw [hand va hva PTE_V (by decide)]
        exact h.space.upper va hva hmax⟩
  have hsp : Space {s with mem := mem} p (PGROUNDUP sz) N :=
    h.space.of_frames hwf h.space.aligned le_rfl
      (fun va hva => hand va (by omega) PTE_V (by decide)) hleaf
      (fun va hva => hframe va (by omega)) h.space.frame_table h.space.frame_free
      fun va hva hge => by
        rw [hother va (by omega) (hhigh va (by omega) hge)]
        exact h.space.unmapped va hva hge
  have hset : frameSet mem p (PGROUNDUP sz) = frameSet s.mem p (PGROUNDUP sz) := by
    ext q
    rw [hsp.mem_frameSet,h.space.mem_frameSet]
    exact exists_congr fun va => and_congr_right fun hva => by rw [hframe va (by omega)]
  refine ⟨?_,hsp,⟨?_,?_⟩,fun va hva => ?_,fun va hva => ?_,fun va hva => ?_⟩
  · change Took s₀ _ (N ∪ frameSet mem p (PGROUNDUP sz))
    rw [hset]
    exact h.took.store (hout.mono Finset.subset_union_left)
  · rw [hother TRAMPOLINE htr.2.2.2 (hhigh _ htr.2.2.2 (by omega))]
    exact h.framed.trampoline
  · rw [hother TRAPFRAME htr.2.1 (hhigh _ htr.2.1 (by omega))]
    exact h.framed.trapframe
  · rw [hand va (by omega) PTE_R (by decide)]
    exact h.readable va hva
  · by_cases heq : PGROUNDDOWN va = va₀
    · rw [hin va (by omega) heq]
      exact iff_of_true (clear_user _) (.inl heq)
    · rw [hother va (by omega) heq,h.user va hva]
      exact ⟨.inr,fun hor => hor.resolve_left heq⟩
  · have hpage : PGROUNDDOWN (frameOf s.mem p va+va%PGSIZE) = frameOf s.mem p va :=
      PGROUNDDOWN_page (h.space.frame_ram va hva).aligned (Nat.mod_lt _ (by decide))
    rw [byteAt,hframe va (by omega)]
    refine (hout _ ?_).trans (h.bytes va hva)
    rw [hpage]
    exact h.space.frame_table va hva

end Xv6.Exec
