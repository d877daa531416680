import Xv6.UserSpace

/-! `uvmdealloc` and `uvmalloc` on address spaces: what a failure undoes is what has been done. -/
namespace Xv6.Vm

open Bytes Command

theorem pgroundup_eq {sz : ℕ} (h : sz ≤ 2^63) : pgroundup sz = PGROUNDUP sz := by
  unfold pgroundup PGROUNDUP PGSIZE
  omega

theorem le_PGROUNDUP (sz : ℕ) : sz ≤ PGROUNDUP sz := by
  unfold PGROUNDUP PGSIZE
  omega

theorem PGROUNDUP_aligned (sz : ℕ) : PGROUNDUP sz%PGSIZE = 0 := Nat.mul_mod_left _ _

theorem PGROUNDUP_mono {sz sz' : ℕ} (h : sz ≤ sz') : PGROUNDUP sz ≤ PGROUNDUP sz' := by
  unfold PGROUNDUP PGSIZE
  omega

theorem PGROUNDUP_of_aligned {sz : ℕ} (h : sz%PGSIZE = 0) : PGROUNDUP sz = sz := by
  unfold PGROUNDUP PGSIZE at *
  omega

theorem toUint64_ofNat {k : ℕ} (h : k < 2^31) : toUint64 (Int32.ofNat k) = k := by
  rw [toUint64,Int32.toInt_ofNat_of_lt h]
  omega

variable [KernelImage] {E : VmPanic → Prop} {s t : Ram} {p lo hi : ℕ} {N : Finset ℕ}

/-- The pages from `lo` to `hi` have been unmapped and freed. -/
structure Shrunk (s t : Ram) (p lo hi : ℕ) (N : Finset ℕ) : Prop where
  space : Space t p lo N
  gone : ∀ va, lo ≤ va → va < hi → entry t.mem va 2 p &&& PTE_V = 0
  other : ∀ va < SVTOP, va < lo ∨ hi ≤ va → entry t.mem va 2 p = entry s.mem va 2 p
  freed : ∀ va, lo ≤ va → va < hi → frameOf s.mem p va ∈ t.free
  free : ∀ q ∈ t.free, q ∈ s.free ∨ ∃ va, lo ≤ va ∧ va < hi ∧ frameOf s.mem p va = q
  keeps : ∀ a, PGROUNDDOWN a ∉ N → (∀ va, lo ≤ va → va < hi → PGROUNDDOWN a ≠ frameOf s.mem p va) →
    t.mem a = s.mem a
  covers : ∀ q ∈ s.free, q ∈ t.free

theorem Shrunk.refl (h : Space s p lo N) : Shrunk s s p lo lo N :=
  ⟨h,fun va _ _ => by omega,fun _ _ _ => rfl,fun va _ _ => by omega,fun _ hq => .inl hq,
    fun _ _ _ => rfl,fun _ hq => hq⟩

theorem Space.releases {n : ℕ} (h : Space s p hi N) (hal : lo%PGSIZE = 0) (hn : hi = lo+n*PGSIZE) :
    Releases s p N lo n true := by
  have hpg : 0 < PGSIZE := by decide
  have htop := h.top_le
  have hmax : MAXVA = 2^38 := by decide
  have hlt : ∀ i < n, lo+i*PGSIZE < hi := fun i hi' => by
    have := Nat.mul_lt_mul_of_pos_right hi' hpg
    omega
  refine ⟨fun i hi' => ?_,?_,fun q hq => ?_⟩
  · have hva := hlt i hi'
    exact ⟨by omega,h.valid _ hva,h.leaf _ hva,fun _ => ⟨h.frame_ram _ hva,h.frame_table _ hva⟩⟩
  · rw [released,if_pos rfl,List.nodup_reverse,frames]
    refine List.Nodup.map_on ?_ List.nodup_range
    intro i hi' j hj' heq
    have hpage := h.inj _ (hlt i (List.mem_range.mp hi')) _ (hlt j (List.mem_range.mp hj')) heq
    unfold PGROUNDDOWN PGSIZE at *
    omega
  · obtain ⟨-,i,hi',rfl⟩ := mem_released.mp hq
    exact h.frame_free _ (hlt i hi')

theorem Space.shrunk {n : ℕ} (h : Space s p hi N) (hal : lo%PGSIZE = 0) (hn : hi = lo+n*PGSIZE)
    (hu : Unmapping s t p N lo n true) : Shrunk s t p lo hi N := by
  have htop := h.top_le
  have hmax : MAXVA = 2^38 := by decide
  have hsv : SVTOP = 2^39 := rfl
  have hr := h.releases hal hn
  have hwf := h.toWfTable.release hr (by omega) hu
  have hframe : ∀ va < lo, frameOf t.mem p va = frameOf s.mem p va := by
    intro va hva
    rw [frameOf,frameOf,hu.other va (by omega) (.inl hva)]
  have hrel : ∀ q, q ∈ released s.mem p lo n true ↔
      ∃ va, lo ≤ va ∧ va < hi ∧ frameOf s.mem p va = q := by
    intro q
    rw [mem_released]
    constructor
    · rintro ⟨-,i,hi',rfl⟩
      have := Nat.mul_lt_mul_of_pos_right hi' (show 0 < PGSIZE by decide)
      exact ⟨_,by omega,by omega,rfl⟩
    · rintro ⟨va,hl,hr,rfl⟩
      refine ⟨rfl,(va-lo)/PGSIZE,?_,?_⟩
      · unfold PGSIZE at *
        omega
      · have hsame : SameIndex 2 (lo+(va-lo)/PGSIZE*PGSIZE) va := by
          rw [sameIndex_iff (by unfold PGSIZE at *; omega) (by omega)]
          unfold PGROUNDDOWN PGSIZE at *
          omega
        rw [frameOf,entry_congr hsame]
  have hspace : Space t p lo N := by
    refine h.of_frames hwf hal (by omega) (fun va hva => ?_) (fun va hva => ?_) hframe
      (fun va hva => h.frame_table va (by omega)) (fun va hva hmem => ?_) fun va hva hle => ?_
    · rw [hu.other va (by omega) (.inl hva)]
    · rw [hu.other va (by omega) (.inl hva)]
      exact h.leaf va (by omega)
    · rw [hu.free] at hmem
      rcases List.mem_append.mp hmem with hmem | hmem
      · obtain ⟨va',hl,hr',heq⟩ := (hrel _).mp hmem
        have hpage := h.inj va' hr' va (by omega) heq
        unfold PGROUNDDOWN PGSIZE at *
        omega
      · exact h.frame_free va (by omega) hmem
    · have : TRAPFRAME < SVTOP := by decide
      rcases lt_or_ge va hi with hlt | hge
      · rw [hu.inside va hle (by omega),Nat.zero_and]
      · rw [hu.other va (by omega) (.inr (by omega))]
        exact h.unmapped va hva hge
  refine ⟨hspace,?_,?_,?_,?_,?_,fun q hq => ?_⟩
  · intro va hl hlt
    rw [hu.inside va hl (by omega),Nat.zero_and]
  · intro va hva hcase
    exact hu.other va hva (by omega)
  · intro va hl hlt
    rw [hu.free]
    exact List.mem_append_left _ ((hrel _).mpr ⟨va,hl,hlt,rfl⟩)
  · intro q hq
    rw [hu.free] at hq
    rcases List.mem_append.mp hq with hq | hq
    · exact .inr ((hrel q).mp hq)
    · exact .inl hq
  · intro a hN hne
    apply hu.outside
    rw [Finset.mem_union,not_or]
    refine ⟨hN,fun hmem => ?_⟩
    obtain ⟨va,hl,hlt,heq⟩ := (hrel _).mp (List.mem_toFinset.mp hmem)
    exact hne va hl hlt heq.symm
  · rw [hu.free]
    exact List.mem_append_right _ hq

theorem Space.wp_uvmdealloc {oldsz newsz : ℕ} (h : Space s p (PGROUNDUP oldsz) N)
    (hle : newsz ≤ oldsz) :
    wp (uvmdealloc p oldsz newsz) (fun r t => r = newsz ∧
      Shrunk s t p (PGROUNDUP newsz) (PGROUNDUP oldsz) N) E s := by
  have htop := h.top_le
  have hold := le_PGROUNDUP oldsz
  have hmono := PGROUNDUP_mono hle
  rw [uvmdealloc,wp_ite]
  constructor
  · intro hge
    obtain rfl : newsz = oldsz := le_antisymm hle hge
    exact ⟨rfl,.refl h⟩
  · intro _
    rw [pgroundup_eq (show newsz ≤ 2^63 by omega),pgroundup_eq (show oldsz ≤ 2^63 by omega),
      wp_bind,wp_when]
    set lo := PGROUNDUP newsz with hlo
    set hi := PGROUNDUP oldsz with hhi
    have hal : lo%PGSIZE = 0 := PGROUNDUP_aligned newsz
    have hn : hi = lo+(hi-lo)/PGSIZE*PGSIZE := by
      have hal' := h.aligned
      unfold PGSIZE at *
      omega
    constructor
    · intro hlt
      rw [toUint64_ofNat (by unfold PGSIZE; omega)]
      have hmax : MAXVA = 2^38 := by decide
      refine wp_conseq (wp_uvmunmap h.table hal (by omega) (h.releases hal hn).removable) ?_
      intro _ t hu
      exact ⟨rfl,h.shrunk hal hn hu⟩
    · intro hnlt
      have heq : lo = hi := by omega
      rw [wp_pure,heq]
      exact ⟨rfl,.refl h⟩

theorem Space.put_back {q : ℕ} (h : Space s p hi N) (hq : RamPage q) (hfree : q ∉ s.free)
    (hN : q ∉ N) (hfr : ∀ va < hi, frameOf s.mem p va ≠ q) :
    Space ⟨memsetPage s.mem q 1,q::s.free⟩ p hi N ∧
      ∀ va, entry (memsetPage s.mem q 1) va 2 p = entry s.mem va 2 p := by
  have hout := memsetPage_outside s.mem hq.aligned 1
  have hsame : ∀ a, PGROUNDDOWN a ∈ N → memsetPage s.mem q 1 a = s.mem a := fun a ha =>
    hout a fun hmem => hN (by rwa [← Finset.mem_singleton.mp hmem])
  have hent := h.table.entry_frame hsame
  have hwf : WfTable ⟨memsetPage s.mem q 1,q::s.free⟩ p N := by
    refine ⟨(h.table.frame hsame).1,h.ram,h.freeOk.cons hq hfree rfl,fun r hr => ?_,
      fun va hva hmax => ?_⟩
    · rcases List.mem_cons.mp hr with rfl | hr
      · exact hN
      · exact h.held r hr
    · rw [hent]
      exact h.upper va hva hmax
  refine ⟨h.of_entries hwf (fun va _ => hent va) h.frame_table fun va hva hmem => ?_,hent⟩
  rcases List.mem_cons.mp hmem with heq | hmem
  · exact hfr va hva heq
  · exact h.frame_free va hva hmem

/-- The address space has grown from `lo` to `a` by pages taken off the free list, with the given
flags and contents. -/
structure Grows (s₀ : Ram) (N₀ : Finset ℕ) (p lo a : ℕ) (flags : ℕ → ℕ) (fill : ℕ → UInt8)
    (s : Ram) (N : Finset ℕ) : Prop where
  within : Within N₀ s₀ N s
  space : Space s p a N
  le : lo ≤ a
  other : ∀ va < SVTOP, va < lo ∨ a ≤ va → entry s.mem va 2 p = entry s₀.mem va 2 p
  taken : ∀ va, lo ≤ va → va < a → frameOf s.mem p va ∈ s₀.free
  flags : ∀ va, lo ≤ va → va < a → PTE_FLAGS (entry s.mem va 2 p) = flags (PGROUNDDOWN va)
  fill : ∀ va, lo ≤ va → va < a → byteAt s.mem p va = fill va
  covers : ∀ r ∈ s₀.free, r ∈ s.free ∨ r ∈ N ∨ ∃ va, lo ≤ va ∧ va < a ∧ frameOf s.mem p va = r

structure Undone (s₀ : Ram) (N₀ : Finset ℕ) (p lo : ℕ) (t : Ram) (N : Finset ℕ) : Prop where
  within : Within N₀ s₀ N t
  space : Space t p lo N
  same : ∀ va < SVTOP, translate t.mem p va = translate s₀.mem p va
  covers : ∀ r ∈ s₀.free, r ∈ t.free ∨ r ∈ N

section Grows

variable {s₀ : Ram} {N₀ N' : Finset ℕ} {a q : ℕ} {flags : ℕ → ℕ} {fill : ℕ → UInt8}

theorem Grows.start (h : Space s₀ p lo N₀) : Grows s₀ N₀ p lo lo flags fill s₀ N₀ :=
  ⟨.refl N₀ s₀,h,le_rfl,fun _ _ _ => rfl,fun va _ _ => by omega,fun va _ _ => by omega,
    fun va _ _ => by omega,fun _ hr => .inl hr⟩

theorem Space.byteAt_eq {top : ℕ} (h : Space s p top N) (hw : Within N s N' t)
    {va : ℕ} (hva : va < top) (hent : entry t.mem va 2 p = entry s.mem va 2 p) :
    byteAt t.mem p va = byteAt s.mem p va := by
  have hpage : PGROUNDDOWN (frameOf s.mem p va+va%PGSIZE) = frameOf s.mem p va :=
    PGROUNDDOWN_page (h.frame_ram va hva).aligned (Nat.mod_lt _ (by decide))
  have hframe : frameOf t.mem p va = frameOf s.mem p va := by rw [frameOf,frameOf,hent]
  rw [byteAt,byteAt,hframe]
  exact hw.keeps _ (by rw [hpage]; exact h.frame_table va hva)
    (by rw [hpage]; exact h.frame_free va hva)

theorem Grows.add {free : List ℕ} (h : Grows s₀ N₀ p lo a flags fill s N) (hs : s.free = q::free)
    (hadd : Added s t p a q (flags a) N N') (hflags : flags a < 2^10)
    (hfill : ∀ va, a ≤ va → va < a+PGSIZE → t.mem (q+va%PGSIZE) = fill va) :
    Grows s₀ N₀ p lo (a+PGSIZE) flags fill t N' := by
  have hqs : q ∈ s.free := by rw [hs]; exact List.mem_cons_self
  have hram := h.space.freeOk.ram q hqs
  have htop := h.space.top_le
  have hsv : SVTOP = 2^39 := rfl
  have hle := h.le
  have hold : ∀ va < a, entry t.mem va 2 p = entry s.mem va 2 p := fun va hva =>
    hadd.other va (by omega) (.inl hva)
  have hnew : ∀ va, a ≤ va → va < a+PGSIZE → frameOf t.mem p va = q := fun va hl hr => by
    rw [frameOf,hadd.entry va hl hr,PTE2PA_pack hram.aligned hflags]
  refine ⟨h.within.trans hadd.within,hadd.space,by omega,?_,?_,?_,?_,?_⟩
  · intro va hva hcase
    rw [hadd.other va hva (by omega),h.other va hva (by omega)]
  · intro va hl hr
    rcases lt_or_ge va a with hlt | hge
    · rw [frameOf,hold va hlt]
      exact h.taken va hl hlt
    · rw [hnew va hge hr]
      exact h.within.free q hqs
  · intro va hl hr
    rcases lt_or_ge va a with hlt | hge
    · rw [hold va hlt]
      exact h.flags va hl hlt
    · have hdown : PGROUNDDOWN va = a := by
        have hal := h.space.aligned
        unfold PGROUNDDOWN PGSIZE at *
        omega
      rw [hadd.entry va hge hr,PTE_FLAGS_pack hflags,hdown]
  · intro va hl hr
    rcases lt_or_ge va a with hlt | hge
    · rw [h.space.byteAt_eq hadd.within hlt (hold va hlt)]
      exact h.fill va hl hlt
    · rw [byteAt,hnew va hge hr]
      exact hfill va hge hr
  · intro r hr
    have hpg : 0 < PGSIZE := by decide
    rcases h.covers r hr with hr | hr | ⟨va,hl,hlt,rfl⟩
    · rcases hadd.covers r hr with hr | hr | rfl
      · exact .inl hr
      · exact .inr (.inl hr)
      · exact .inr (.inr ⟨a,hle,by omega,hnew a le_rfl (by omega)⟩)
    · exact .inr (.inl (hadd.within.grows hr))
    · exact .inr (.inr ⟨va,hl,by omega,by rw [frameOf,hold va hlt]; rfl⟩)

theorem Grows.stuck (h : Grows s₀ N₀ p lo a flags fill s N) {free : List ℕ} (hs : s.free = q::free)
    (hst : Stuck s t p a q N N') :
    Grows s₀ N₀ p lo a flags fill ⟨memsetPage t.mem q 1,q::t.free⟩ N' := by
  have hqs : q ∈ s.free := by rw [hs]; exact List.mem_cons_self
  have hram := h.space.freeOk.ram q hqs
  have hsv : SVTOP = 2^39 := rfl
  have htop := h.space.top_le
  obtain ⟨hspace,hent⟩ := hst.space.put_back hram hst.held hst.apart hst.unused
  have hout := memsetPage_outside t.mem hram.aligned 1
  have hwithin : Within N s N' ⟨memsetPage t.mem q 1,q::t.free⟩ := by
    refine ⟨hst.within.grows,hst.within.tables,fun r hr => ?_,fun x hN hfree => ?_⟩
    · rcases List.mem_cons.mp hr with rfl | hr
      · exact hqs
      · exact hst.within.free r hr
    · change memsetPage t.mem q 1 x = s.mem x
      rw [hout x fun hmem => hfree (by rw [Finset.mem_singleton.mp hmem]; exact hqs)]
      exact hst.within.keeps x hN hfree
  have hsame : ∀ va < SVTOP, entry (memsetPage t.mem q 1) va 2 p = entry s.mem va 2 p :=
    fun va hva => by rw [hent,hst.same va hva]
  refine ⟨h.within.trans hwithin,hspace,h.le,?_,?_,?_,?_,?_⟩
  · intro va hva hcase
    rw [hsame va hva,h.other va hva hcase]
  · intro va hl hr
    rw [frameOf,hsame va (by omega)]
    exact h.taken va hl hr
  · intro va hl hr
    rw [hsame va (by omega)]
    exact h.flags va hl hr
  · intro va hl hr
    rw [h.space.byteAt_eq hwithin hr (hsame va (by omega))]
    exact h.fill va hl hr
  · intro r hr
    rcases h.covers r hr with hr | hr | ⟨va,hl,hlt,rfl⟩
    · rcases hst.covers r hr with hr | hr | rfl
      · exact .inl (List.mem_cons_of_mem _ hr)
      · exact .inr (.inl hr)
      · exact .inl List.mem_cons_self
    · exact .inr (.inl (hst.within.grows hr))
    · exact .inr (.inr ⟨va,hl,hlt,by rw [frameOf,hsame va (by omega)]; rfl⟩)

theorem Grows.undo (h : Grows s₀ N₀ p lo a flags fill s N) (h₀ : Space s₀ p lo N₀)
    (hsh : Shrunk s t p lo a N) : Undone s₀ N₀ p lo t N := by
  have htop := h.space.top_le
  refine ⟨⟨h.within.grows,h.within.tables,fun q hq => ?_,fun x hN hfree => ?_⟩,hsh.space,?_,?_⟩
  · rcases hsh.free q hq with hq | ⟨va,hl,hr,rfl⟩
    · exact h.within.free q hq
    · exact h.taken va hl hr
  · have hN' : PGROUNDDOWN x ∉ N := fun hmem => (h.within.tables _ hmem).elim hN hfree
    rw [hsh.keeps x hN' fun va hl hr heq => hfree (by rw [heq]; exact h.taken va hl hr)]
    exact h.within.keeps x hN hfree
  · intro va hva
    by_cases hin : lo ≤ va ∧ va < a
    · have htrap : 2^27 < TRAPFRAME := by decide
      rw [translate_eq_none.mpr (hsh.gone va hin.1 hin.2),
        translate_eq_none.mpr (h₀.unmapped va (by omega) hin.1)]
    · have hout : va < lo ∨ a ≤ va := by omega
      exact translate_congr (by rw [hsh.other va hva hout,h.other va hva hout])
  · intro r hr
    rcases h.covers r hr with hr | hr | ⟨va,hl,hlt,rfl⟩
    · exact .inl (hsh.covers r hr)
    · exact .inr hr
    · exact .inl (hsh.freed va hl hlt)

theorem Grows.wp_uvmdealloc (h : Grows s₀ N₀ p lo a flags fill s N) (h₀ : Space s₀ p lo N₀) :
    wp (uvmdealloc p a lo) (fun _ t => ∃ N', Undone s₀ N₀ p lo t N') E s := by
  have ha := PGROUNDUP_of_aligned h.space.aligned
  have hlo := PGROUNDUP_of_aligned h₀.aligned
  refine wp_conseq (Space.wp_uvmdealloc (by rw [ha]; exact h.space) h.le) ?_
  rintro r t ⟨-,hsh⟩
  rw [ha,hlo] at hsh
  exact ⟨N,h.undo h₀ hsh⟩

end Grows

def userFlags (xperm : ℕ) : ℕ := PTE_R ||| PTE_U ||| xperm ||| PTE_V

theorem wp_uvmallocLoop {s₀ : Ram} {N₀ : Finset ℕ} {newsz xperm fuel a : ℕ}
    (h₀ : Space s₀ p lo N₀) (hx : xperm < 2^10)
    (h : Grows s₀ N₀ p lo a (fun _ => userFlags xperm) (fun _ => 0) s N)
    (ha : a ≤ PGROUNDUP newsz) (hfuel : PGROUNDUP newsz ≤ a+fuel*PGSIZE) :
    wp (uvmallocLoop p lo newsz xperm fuel a) (fun ok t => ∃ N',
      (ok = true ∧ Grows s₀ N₀ p lo (PGROUNDUP newsz) (fun _ => userFlags xperm) (fun _ => 0) t N') ∨
        ok = false ∧ Undone s₀ N₀ p lo t N') E s := by
  have hflags : PTE_R ||| PTE_U ||| xperm ||| PTE_V < 2^10 := by
    have h2 : PTE_R ||| PTE_U < 2^10 := by decide
    exact Nat.or_lt_two_pow (Nat.or_lt_two_pow h2 hx) (by decide)
  have hleaf : PTE_R ||| PTE_U ||| xperm ||| PTE_V ≠ PTE_V := by
    intro heq
    have hbit : Nat.testBit (PTE_R ||| PTE_U ||| xperm ||| PTE_V) 1 = Nat.testBit PTE_V 1 := by
      rw [heq]
    rw [Nat.testBit_or,Nat.testBit_or,Nat.testBit_or,show Nat.testBit PTE_R 1 = true by decide,
      show Nat.testBit PTE_V 1 = false by decide] at hbit
    simp at hbit
  induction fuel generalizing s N a with
  | zero =>
    obtain rfl : a = PGROUNDUP newsz := by omega
    exact ⟨N,.inl ⟨rfl,h⟩⟩
  | succ fuel ih =>
    have htop := h.space.top_le
    rw [uvmallocLoop,wp_ite]
    refine ⟨fun hlt => ?_,fun hge => ?_⟩
    · rw [wp_bind]
      refine wp_kalloc (fun _ => ?_) fun q free hs => ?_
      · rw [wp_bind]
        exact wp_conseq (h.wp_uvmdealloc h₀) fun _ t ⟨N',hu⟩ => ⟨N',.inr ⟨rfl,hu⟩⟩
      · have hram := h.space.freeOk.ram q (by rw [hs]; exact List.mem_cons_self)
        rw [wp_bind,zeroPage,wp_modify,wp_bind]
        have hout : Outside {q} s.mem (memsetPage (memsetPage s.mem q 5) q 0) := by
          have hboth := (memsetPage_outside s.mem hram.aligned 5).trans
            (memsetPage_outside (memsetPage s.mem q 5) hram.aligned 0)
          rwa [Finset.union_self] at hboth
        refine wp_conseq (h.space.wp_mapOne hs rfl hout hflags hleaf) ?_
        rintro ok t ⟨hpage,⟨rfl,N',hadd⟩ | ⟨rfl,N',hst⟩⟩
        · have hzero : ∀ va, a ≤ va → va < a+PGSIZE → t.mem (q+va%PGSIZE) = 0 := by
            intro va _ _
            have hq : PGROUNDDOWN (q+va%PGSIZE) = q :=
              PGROUNDDOWN_page hram.aligned (Nat.mod_lt _ (by decide))
            rw [hpage _ hq]
            exact memsetPage_inside _ 0 hq
          have hnext := h.add hs hadd hflags hzero
          have hal := h.space.aligned
          have hup : a+PGSIZE ≤ PGROUNDUP newsz := by
            unfold PGROUNDUP PGSIZE at *
            omega
          rw [Nat.mod_eq_of_lt (show a+PGSIZE < 2^64 by unfold PGSIZE; omega)]
          exact ih hnext hup (by rw [Nat.add_mul] at hfuel; omega)
        · simp only [Bool.false_eq_true,if_false,wp_bind]
          apply wp_kfree hram
          exact wp_conseq ((h.stuck hs hst).wp_uvmdealloc h₀) fun _ t ⟨N',hu⟩ => ⟨N',.inr ⟨rfl,hu⟩⟩
    · have hal := h.space.aligned
      obtain rfl : a = PGROUNDUP newsz := by
        unfold PGROUNDUP PGSIZE at *
        omega
      exact ⟨N,.inl ⟨rfl,h⟩⟩

/-- `uvmalloc` to a larger or equal size: the new size with zeroed pages, or 0 with nothing
changed. -/
theorem Space.wp_uvmalloc {oldsz newsz xperm : ℕ} (h : Space s p (PGROUNDUP oldsz) N)
    (hle : oldsz ≤ newsz) (hx : xperm < 2^10) :
    wp (uvmalloc p oldsz newsz xperm) (fun r t => ∃ N',
      (r = newsz ∧ Grows s N p (PGROUNDUP oldsz) (PGROUNDUP newsz) (fun _ => userFlags xperm)
        (fun _ => 0) t N') ∨
      r = 0 ∧ Undone s N p (PGROUNDUP oldsz) t N') E s := by
  have htop := h.top_le
  have hold := le_PGROUNDUP oldsz
  rw [uvmalloc,if_neg (by omega),pgroundup_eq (show oldsz ≤ 2^63 by omega),wp_bind]
  refine wp_conseq (wp_uvmallocLoop h hx (.start h) (PGROUNDUP_mono hle) ?_) ?_
  · unfold PGROUNDUP PGSIZE
    omega
  · rintro ok t ⟨N',⟨rfl,hg⟩ | ⟨rfl,hu⟩⟩
    · exact ⟨N',.inl ⟨rfl,hg⟩⟩
    · exact ⟨N',.inr ⟨rfl,hu⟩⟩

end Xv6.Vm
