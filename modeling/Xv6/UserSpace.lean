import Xv6.PageMap

/-! User address spaces: the pages below the size of a process are mapped to frames of their own,
and from there to the trapframe nothing is mapped. `mappages` of one more page and `uvmdealloc` lead
from address spaces to address spaces. -/
namespace Xv6.Vm

open Bytes Command

def TRAMPOLINE : ℕ := MAXVA-PGSIZE
def TRAPFRAME : ℕ := TRAMPOLINE-PGSIZE

def frameOf (mem : Mem) (p va : ℕ) : ℕ := PTE2PA (entry mem va 2 p)

def byteAt (mem : Mem) (p va : ℕ) : UInt8 := mem (frameOf mem p va+va%PGSIZE)

/-- Nothing but the table, which has grown to `N'`, and pages that were free has been used. -/
structure Within (N : Finset ℕ) (s : Ram) (N' : Finset ℕ) (t : Ram) : Prop where
  grows : N ⊆ N'
  tables : ∀ q ∈ N', q ∈ N ∨ q ∈ s.free
  free : ∀ q ∈ t.free, q ∈ s.free
  keeps : ∀ a, PGROUNDDOWN a ∉ N → PGROUNDDOWN a ∉ s.free → t.mem a = s.mem a

theorem Within.refl (N : Finset ℕ) (s : Ram) : Within N s N s :=
  ⟨subset_rfl,fun _ hq => .inl hq,fun _ hq => hq,fun _ _ _ => rfl⟩

theorem Within.trans {N N' N'' : Finset ℕ} {s t u : Ram} (h : Within N s N' t)
    (h' : Within N' t N'' u) : Within N s N'' u := by
  refine ⟨h.grows.trans h'.grows,fun q hq => ?_,fun q hq => h.free q (h'.free q hq),
    fun a hN hfree => ?_⟩
  · rcases h'.tables q hq with hq | hq
    · exact h.tables q hq
    · exact .inr (h.free q hq)
  · have hN' : PGROUNDDOWN a ∉ N' := fun hmem => (h.tables _ hmem).elim hN hfree
    rw [h'.keeps a hN' fun hq => hfree (h.free _ hq),h.keeps a hN hfree]

theorem Mapping.within {s s₁ t : Ram} {p q flags a k : ℕ} {N : Finset ℕ} {free new : List ℕ}
    (hm : Mapping s₁ t p N a q flags k new) (hs : s.free = q::free) (hs₁ : s₁.free = free)
    (hout : Outside {q} s.mem s₁.mem) :
    Within N s (N ∪ new.toFinset) t := by
  have hmem : ∀ r ∈ s₁.free, r ∈ s.free := fun r hr => by
    rw [hs]
    rw [hs₁] at hr
    exact List.mem_cons_of_mem _ hr
  have hnew : ∀ r ∈ new, r ∈ s.free := fun r hr =>
    hmem r (by rw [hm.free]; exact List.mem_append_left _ hr)
  refine ⟨Finset.subset_union_left,fun r hr => ?_,fun r hr => ?_,fun a hN hfree => ?_⟩
  · exact (Finset.mem_union.mp hr).imp_right fun hr => hnew r (List.mem_toFinset.mp hr)
  · exact hmem r (by rw [hm.free]; exact List.mem_append_right _ hr)
  · rw [hm.outside a fun hr => (Finset.mem_union.mp hr).elim hN fun hr =>
      hfree (hnew _ (List.mem_toFinset.mp hr))]
    apply hout
    rw [Finset.mem_singleton]
    rintro hq
    exact hfree (by rw [hs,hq]; exact List.mem_cons_self)

theorem Mapping.covers {s s₁ t : Ram} {p q flags a k : ℕ} {N : Finset ℕ} {free new : List ℕ}
    (hm : Mapping s₁ t p N a q flags k new) (hs : s.free = q::free) (hs₁ : s₁.free = free) :
    ∀ r ∈ s.free, r ∈ t.free ∨ r ∈ N ∪ new.toFinset ∨ r = q := by
  intro r hr
  rw [hs,← hs₁,hm.free] at hr
  rcases List.mem_cons.mp hr with rfl | hr
  · exact .inr (.inr rfl)
  · rcases List.mem_append.mp hr with hr | hr
    · exact .inr (.inl (Finset.mem_union_right _ (List.mem_toFinset.mpr hr)))
    · exact .inl hr

variable [KernelImage] {E : VmPanic → Prop} {s t : Ram} {p top : ℕ} {N : Finset ℕ}

/-- The pages below `top` are mapped to frames of their own, and none up to the trapframe is. -/
structure Space (s : Ram) (p top : ℕ) (N : Finset ℕ) : Prop extends WfTable s p N where
  aligned : top%PGSIZE = 0
  valid : ∀ va < top, entry s.mem va 2 p &&& PTE_V ≠ 0
  leaf : ∀ va < top, PTE_FLAGS (entry s.mem va 2 p) ≠ PTE_V
  frame_ram : ∀ va < top, RamPage (frameOf s.mem p va)
  frame_table : ∀ va < top, frameOf s.mem p va ∉ N
  frame_free : ∀ va < top, frameOf s.mem p va ∉ s.free
  inj : ∀ va < top, ∀ va' < top, frameOf s.mem p va = frameOf s.mem p va' →
    PGROUNDDOWN va = PGROUNDDOWN va'
  unmapped : ∀ va < TRAPFRAME, top ≤ va → entry s.mem va 2 p &&& PTE_V = 0

theorem card_ram {S : Finset ℕ} (h : ∀ q ∈ S, RamPage q) : S.card ≤ (PHYSTOP-KERNBASE)/PGSIZE := by
  have hsub : S ⊆ (Finset.range ((PHYSTOP-KERNBASE)/PGSIZE)).image
      fun i => KERNBASE+i*PGSIZE := by
    intro q hq
    have hram := h q hq
    have hle := KernelImage.le_kend.trans hram.le
    have hlt := hram.lt
    have hal := hram.aligned
    rw [Finset.mem_image]
    refine ⟨(q-KERNBASE)/PGSIZE,Finset.mem_range.mpr ?_,?_⟩
    · unfold PHYSTOP KERNBASE PGSIZE at *
      omega
    · unfold KERNBASE PGSIZE at *
      omega
  exact (Finset.card_le_card hsub).trans (Finset.card_image_le.trans (Finset.card_range _).le)

theorem Space.top_le (h : Space s p top N) : top ≤ 2^27 := by
  have hpg : PGSIZE = 4096 := rfl
  have hal := h.aligned
  set n := top/PGSIZE with hn
  have hlt : ∀ i < n, i*PGSIZE < top := by
    intro i hi
    rw [hpg] at *
    omega
  have hinj : Set.InjOn (fun i => frameOf s.mem p (i*PGSIZE)) (Finset.range n) := by
    intro i hi j hj hij
    have hi' := Finset.mem_range.mp hi
    have hj' := Finset.mem_range.mp hj
    have hpage := h.inj _ (hlt i hi') _ (hlt j hj') hij
    rw [PGROUNDDOWN,PGROUNDDOWN,hpg] at hpage
    omega
  have hcard := card_ram (S := (Finset.range n).image fun i => frameOf s.mem p (i*PGSIZE)) (by
    intro q hq
    obtain ⟨i,hi,rfl⟩ := Finset.mem_image.mp hq
    exact h.frame_ram _ (hlt i (Finset.mem_range.mp hi)))
  rw [Finset.card_image_of_injOn hinj,Finset.card_range] at hcard
  have hpages : (PHYSTOP-KERNBASE)/PGSIZE = 32768 := by decide
  rw [hpg] at *
  omega

/-- An address space depends on which pages are mapped and where, and on the free list. -/
theorem Space.of_frames {top' : ℕ} {N' : Finset ℕ} (h : Space s p top N) (hwf : WfTable t p N')
    (hal : top'%PGSIZE = 0) (hle : top' ≤ top)
    (hvalid : ∀ va < top', entry t.mem va 2 p &&& PTE_V = entry s.mem va 2 p &&& PTE_V)
    (hleaf : ∀ va < top', PTE_FLAGS (entry t.mem va 2 p) ≠ PTE_V)
    (hframe : ∀ va < top', frameOf t.mem p va = frameOf s.mem p va)
    (hN : ∀ va < top', frameOf s.mem p va ∉ N') (hfree : ∀ va < top', frameOf s.mem p va ∉ t.free)
    (hun : ∀ va < TRAPFRAME, top' ≤ va → entry t.mem va 2 p &&& PTE_V = 0) :
    Space t p top' N' := by
  refine {hwf with
    aligned := hal
    valid := fun va hva => ?_
    leaf := hleaf
    frame_ram := fun va hva => ?_
    frame_table := fun va hva => ?_
    frame_free := fun va hva => ?_
    inj := fun va hva va' hva' => ?_
    unmapped := hun}
  · rw [hvalid va hva]
    exact h.valid va (hva.trans_le hle)
  · rw [hframe va hva]
    exact h.frame_ram va (hva.trans_le hle)
  · rw [hframe va hva]
    exact hN va hva
  · rw [hframe va hva]
    exact hfree va hva
  · rw [hframe va hva,hframe va' hva']
    exact h.inj va (hva.trans_le hle) va' (hva'.trans_le hle)

theorem Space.of_entries {N' : Finset ℕ} (h : Space s p top N) (hwf : WfTable t p N')
    (hent : ∀ va < TRAPFRAME, entry t.mem va 2 p = entry s.mem va 2 p)
    (hN : ∀ va < top, frameOf s.mem p va ∉ N') (hfree : ∀ va < top, frameOf s.mem p va ∉ t.free) :
    Space t p top N' := by
  have hlt : ∀ va < top, va < TRAPFRAME := by
    intro va hva
    have htop := h.top_le
    have htrap : 2^27 < TRAPFRAME := by decide
    omega
  refine h.of_frames hwf h.aligned le_rfl (fun va hva => ?_) (fun va hva => ?_) (fun va hva => ?_)
    hN hfree fun va hva hle => ?_
  · rw [hent va (hlt va hva)]
  · rw [hent va (hlt va hva)]
    exact h.leaf va hva
  · rw [frameOf,frameOf,hent va (hlt va hva)]
  · rw [hent va hva]
    exact h.unmapped va hva hle

theorem Space.frame {N₁ N₁' : Finset ℕ} (h : Space s p top N) (hw : Within N₁ s N₁' t)
    (hok : FreeOk t) (hN : Disjoint N N₁) (hfr : ∀ va < top, frameOf s.mem p va ∉ N₁) :
    Space t p top N ∧ (∀ va, entry t.mem va 2 p = entry s.mem va 2 p) ∧
      ∀ va < top, byteAt t.mem p va = byteAt s.mem p va := by
  have hsame : ∀ a, PGROUNDDOWN a ∈ N → t.mem a = s.mem a := fun a ha =>
    hw.keeps a (Finset.disjoint_left.mp hN ha) fun hfree => h.held _ hfree ha
  have hent := h.table.entry_frame hsame
  have hframe : ∀ va, frameOf t.mem p va = frameOf s.mem p va := fun va => by
    rw [frameOf,frameOf,hent]
  refine ⟨?_,hent,fun va hva => ?_⟩
  · have hwf : WfTable t p N := ⟨(h.table.frame hsame).1,h.ram,hok,
      fun q hq => h.held q (hw.free q hq),fun va hva hmax => by
        rw [hent]
        exact h.upper va hva hmax⟩
    exact h.of_entries hwf (fun va _ => hent va) h.frame_table
      fun va hva hfree => h.frame_free va hva (hw.free _ hfree)
  · rw [byteAt,byteAt,hframe]
    have hpage : PGROUNDDOWN (frameOf s.mem p va+va%PGSIZE) = frameOf s.mem p va :=
      PGROUNDDOWN_page (h.frame_ram va hva).aligned (Nat.mod_lt _ (by decide))
    exact hw.keeps _ (by rw [hpage]; exact hfr va hva) (by rw [hpage]; exact h.frame_free va hva)

/-- The page at `top` has been added with the given frame and flags. -/
structure Added (s t : Ram) (p top q flags : ℕ) (N N' : Finset ℕ) : Prop where
  within : Within N s N' t
  space : Space t p (top+PGSIZE) N'
  entry : ∀ va, top ≤ va → va < top+PGSIZE → entry t.mem va 2 p = PA2PTE q ||| flags
  other : ∀ va < SVTOP, va < top ∨ top+PGSIZE ≤ va → Vm.entry t.mem va 2 p = Vm.entry s.mem va 2 p
  covers : ∀ r ∈ s.free, r ∈ t.free ∨ r ∈ N' ∨ r = q

structure Stuck (s t : Ram) (p top q : ℕ) (N N' : Finset ℕ) : Prop where
  within : Within N s N' t
  space : Space t p top N'
  same : ∀ va < SVTOP, entry t.mem va 2 p = entry s.mem va 2 p
  held : q ∉ t.free
  apart : q ∉ N'
  unused : ∀ va < top, frameOf t.mem p va ≠ q
  covers : ∀ r ∈ s.free, r ∈ t.free ∨ r ∈ N' ∨ r = q

section AddPage

variable {q flags : ℕ} {free new : List ℕ} {s₁ : Ram}

theorem Space.taken (h : Space s p top N) (hs : s.free = q::free) (hs₁ : s₁.free = free)
    (hout : Outside {q} s.mem s₁.mem) :
    WfTable s₁ p N ∧ ∀ va, entry s₁.mem va 2 p = entry s.mem va 2 p := by
  have hqN : q ∉ N := h.held q (by rw [hs]; exact List.mem_cons_self)
  have hsame : ∀ a, PGROUNDDOWN a ∈ N → s₁.mem a = s.mem a := fun a ha =>
    hout a fun hq => hqN (by rwa [← Finset.mem_singleton.mp hq])
  have hent := h.table.entry_frame hsame
  have hfree : s.free = [q]++s₁.free := by rw [hs,hs₁]; rfl
  refine ⟨⟨(h.table.frame hsame).1,h.ram,h.freeOk.drop hfree,?_,?_⟩,hent⟩
  · intro r hr
    exact h.held r (by rw [hfree]; exact List.mem_append_right _ hr)
  · intro va hva hmax
    rw [hent]
    exact h.upper va hva hmax

/-- The pages taken for tables and those left are free pages other than `q`. -/
theorem Mapping.free_ne {n : ℕ} (hm : Mapping s₁ t p N top q flags n new) (hok : FreeOk s)
    (hs : s.free = q::free) (hs₁ : s₁.free = free) :
    (∀ r ∈ new.toFinset, r ∈ s.free ∧ r ≠ q) ∧ ∀ r ∈ t.free, r ∈ s.free ∧ r ≠ q := by
  have hnodup := hok.nodup
  rw [hs,List.nodup_cons] at hnodup
  have hfree₁ : ∀ r ∈ s₁.free, r ∈ s.free ∧ r ≠ q := by
    intro r hr
    rw [hs₁] at hr
    exact ⟨by rw [hs]; exact List.mem_cons_of_mem _ hr,by rintro rfl; exact hnodup.1 hr⟩
  refine ⟨fun r hr => hfree₁ r ?_,fun r hr => hfree₁ r ?_⟩
  · rw [hm.free]
    exact List.mem_append_left _ (List.mem_toFinset.mp hr)
  · rw [hm.free]
    exact List.mem_append_right _ hr

theorem Space.added (h : Space s p top N) (hs : s.free = q::free) (hs₁ : s₁.free = free)
    (hout : Outside {q} s.mem s₁.mem) (hflags : flags < 2^10) (hv : flags &&& PTE_V ≠ 0)
    (hleaf : flags ≠ PTE_V) (hm : Mapping s₁ t p N top q flags 1 new) :
    Added s t p top q flags N (N ∪ new.toFinset) := by
  obtain ⟨hwf,hent⟩ := h.taken hs hs₁ hout
  have hpg : PGSIZE = 4096 := rfl
  have hmax : MAXVA = 2^38 := by decide
  have hsv : SVTOP = 2^39 := rfl
  have htop := h.top_le
  have hal := h.aligned
  have hqs : q ∈ s.free := by rw [hs]; exact List.mem_cons_self
  have hram := h.freeOk.ram q hqs
  obtain ⟨hnew,htfree⟩ := hm.free_ne h.freeOk hs hs₁
  have hother : ∀ va < SVTOP, va < top ∨ top+PGSIZE ≤ va →
      entry t.mem va 2 p = entry s.mem va 2 p := by
    intro va hva hcase
    rw [hm.other va hva (by omega),hent]
  have hlow : ∀ va < top, frameOf t.mem p va = frameOf s.mem p va := by
    intro va hva
    rw [frameOf,frameOf,hother va (by omega) (.inl hva)]
  have hnewent : ∀ va, top ≤ va → va < top+PGSIZE → entry t.mem va 2 p = PA2PTE q ||| flags := by
    intro va hl hr
    have hdown : PGROUNDDOWN va-top = 0 := by
      rw [PGROUNDDOWN,hpg] at *
      omega
    rw [hm.inside va hl (by omega),hdown,Nat.add_zero]
  have hhigh : ∀ va, top ≤ va → va < top+PGSIZE → frameOf t.mem p va = q := by
    intro va hl hr
    rw [frameOf,hnewent va hl hr]
    exact PTE2PA_pack hram.aligned hflags
  have hcases : ∀ va < top+PGSIZE, va < top ∧ frameOf t.mem p va = frameOf s.mem p va ∨
      top ≤ va ∧ frameOf t.mem p va = q := by
    intro va hva
    rcases lt_or_ge va top with hlt | hge
    · exact .inl ⟨hlt,hlow va hlt⟩
    · exact .inr ⟨hge,hhigh va hge hva⟩
  have hne : ∀ va < top, frameOf s.mem p va ≠ q := fun va hva heq =>
    h.frame_free va hva (by rw [heq]; exact hqs)
  refine ⟨hm.within hs hs₁ hout,⟨hwf.drop hm.free hm.table fun va hva hle =>
    hm.other va hva (by omega),next_aligned hal,?_,?_,?_,?_,?_,?_,?_⟩,hnewent,hother,
    hm.covers hs hs₁⟩
  · intro va hva
    rcases lt_or_ge va top with hlt | hge
    · rw [hother va (by omega) (.inl hlt)]
      exact h.valid va hlt
    · rw [hnewent va hge hva,pack_and (by decide)]
      exact hv
  · intro va hva
    rcases lt_or_ge va top with hlt | hge
    · rw [hother va (by omega) (.inl hlt)]
      exact h.leaf va hlt
    · rw [hnewent va hge hva,PTE_FLAGS_pack hflags]
      exact hleaf
  · intro va hva
    rcases hcases va hva with ⟨hlt,heq⟩ | ⟨-,heq⟩
    · rw [heq]
      exact h.frame_ram va hlt
    · rwa [heq]
  · intro va hva hmem
    rcases hcases va hva with ⟨hlt,heq⟩ | ⟨-,heq⟩
    · rw [heq] at hmem
      rcases Finset.mem_union.mp hmem with hN | hn
      · exact h.frame_table va hlt hN
      · exact h.frame_free va hlt (hnew _ hn).1
    · rw [heq] at hmem
      rcases Finset.mem_union.mp hmem with hN | hn
      · exact h.held q hqs hN
      · exact (hnew _ hn).2 rfl
  · intro va hva hmem
    rcases hcases va hva with ⟨hlt,heq⟩ | ⟨-,heq⟩
    · rw [heq] at hmem
      exact h.frame_free va hlt (htfree _ hmem).1
    · rw [heq] at hmem
      exact (htfree _ hmem).2 rfl
  · intro va hva va' hva' heq
    rcases hcases va hva with ⟨hlt,h1⟩ | ⟨hge,h1⟩ <;>
      rcases hcases va' hva' with ⟨hlt',h2⟩ | ⟨hge',h2⟩
    · exact h.inj va hlt va' hlt' (by rw [← h1,← h2,heq])
    · exact absurd (by rw [← h1,heq,h2]) (hne va hlt)
    · exact absurd (by rw [← h2,← heq,h1]) (hne va' hlt')
    · rw [PGROUNDDOWN,PGROUNDDOWN,hpg] at *
      omega
  · intro va hva hle
    have : TRAPFRAME < SVTOP := by decide
    rw [hother va (by omega) (.inr hle)]
    exact h.unmapped va hva (by omega)

theorem Space.stuck (h : Space s p top N) (hs : s.free = q::free) (hs₁ : s₁.free = free)
    (hout : Outside {q} s.mem s₁.mem) (hm : Mapping s₁ t p N top q flags 0 new) :
    Stuck s t p top q N (N ∪ new.toFinset) := by
  obtain ⟨hwf,hent⟩ := h.taken hs hs₁ hout
  have hsv : SVTOP = 2^39 := rfl
  have htop := h.top_le
  have hqs : q ∈ s.free := by rw [hs]; exact List.mem_cons_self
  obtain ⟨hnew,htfree⟩ := hm.free_ne h.freeOk hs hs₁
  have hsame : ∀ va < SVTOP, entry t.mem va 2 p = entry s.mem va 2 p := by
    intro va hva
    rw [hm.other va hva (by omega),hent]
  have hframe : ∀ va < top, frameOf t.mem p va = frameOf s.mem p va := by
    intro va hva
    rw [frameOf,frameOf,hsame va (by omega)]
  have hsv' : TRAPFRAME < SVTOP := by decide
  refine ⟨hm.within hs hs₁ hout,h.of_entries (hwf.drop hm.free hm.table fun va hva hle =>
    hm.other va hva (by omega)) (fun va hva => hsame va (by omega)) ?_
    fun va hva hmem => h.frame_free va hva (htfree _ hmem).1,hsame,
    fun hq => (htfree q hq).2 rfl,?_,?_,hm.covers hs hs₁⟩
  · intro va hva hmem
    rcases Finset.mem_union.mp hmem with hN | hn
    · exact h.frame_table va hva hN
    · exact h.frame_free va hva (hnew _ hn).1
  · intro hq
    rcases Finset.mem_union.mp hq with hN | hn
    · exact h.held q hqs hN
    · exact (hnew _ hn).2 rfl
  · intro va hva heq
    rw [hframe va hva] at heq
    exact h.frame_free va hva (by rw [heq]; exact hqs)

/-- `mappages` of the page at `top` to a page just taken off the free list and filled. -/
theorem Space.wp_mapOne {perm : ℕ} (h : Space s p top N) (hs : s.free = q::free)
    (hs₁ : s₁.free = free) (hout : Outside {q} s.mem s₁.mem) (hperm : perm ||| PTE_V < 2^10)
    (hleaf : perm ||| PTE_V ≠ PTE_V) :
    wp (mappages p top PGSIZE q perm) (fun ok t =>
      (∀ a, PGROUNDDOWN a = q → t.mem a = s₁.mem a) ∧
      ((ok = true ∧ ∃ N', Added s t p top q (perm ||| PTE_V) N N') ∨
        ok = false ∧ ∃ N', Stuck s t p top q N N')) E s₁ := by
  have htop := h.top_le
  have hal := h.aligned
  have hpg : PGSIZE = 4096 := rfl
  have hmax : MAXVA = 2^38 := by decide
  have htrap : 2^27 < TRAPFRAME := by decide
  have hdown := PGROUNDDOWN_aligned hal
  have hlast := PGROUNDDOWN_last hal
  obtain ⟨hwf,hent⟩ := h.taken hs hs₁ hout
  have hqs : q ∈ s.free := by rw [hs]; exact List.mem_cons_self
  have hq56 : q < 2^56 := (h.freeOk.ram q hqs).lt.trans (by decide)
  have hv := or_PTE_V_and perm
  have hmap := @wp_mappages s₁ p N _ E top PGSIZE q perm hwf (by decide) (by omega) hq56 hperm
    (.inr (by omega)) (.inr fun va _ hl hr => by
      rw [hdown] at hl
      rw [hlast] at hr
      rw [hent]
      exact h.unmapped va (by omega) hl)
  rw [hdown,hlast] at hmap
  refine wp_conseq hmap ?_
  rintro ok t ⟨k,new,hm,hdone,hfail⟩
  rw [Nat.sub_self,Nat.zero_add] at hdone
  rw [Nat.sub_self] at hfail
  have hone : ok = true → k = 1 := fun hok => Nat.eq_of_mul_eq_mul_right (show 0 < PGSIZE by decide)
    (by rw [hdone hok,Nat.one_mul])
  have hnone : ok = false → k = 0 := fun hok =>
    (Nat.mul_eq_zero.mp (Nat.le_zero.mp (hfail hok).1)).resolve_right (by decide)
  have hqN : q ∉ N ∪ new.toFinset := by
    cases ok with
    | true =>
      obtain rfl := hone rfl
      have hadd := h.added hs hs₁ hout hperm hv hleaf hm
      have := hadd.space.frame_table top (by omega)
      rwa [frameOf,hadd.entry top le_rfl (by omega),
        PTE2PA_pack (h.freeOk.ram q hqs).aligned hperm] at this
    | false =>
      obtain rfl := hnone rfl
      exact (h.stuck hs hs₁ hout hm).apart
  refine ⟨fun a ha => hm.outside a (by rwa [ha]),?_⟩
  cases ok with
  | true =>
    obtain rfl := hone rfl
    exact .inl ⟨rfl,_,h.added hs hs₁ hout hperm hv hleaf hm⟩
  | false =>
    obtain rfl := hnone rfl
    exact .inr ⟨rfl,_,h.stuck hs hs₁ hout hm⟩

end AddPage

omit [KernelImage] in
theorem emptyTable_space : @Space smallKernel emptyTable 0x80001000 0 {0x80001000} := by
  have hzero := @Table.of_zero emptyTable.mem 2 0x80001000 (by decide) fun _ _ => rfl
  refine @Space.mk smallKernel _ _ _ _ emptyTable_wf (by decide) ?_ ?_ ?_ ?_ ?_ ?_ ?_
  all_goals intro va hva
  all_goals try exact absurd hva (Nat.not_lt_zero va)
  intro _
  rw [hzero.2 va,Nat.zero_and]

end Xv6.Vm
