import Xv6.Machine
import Xv6.UmallocAlloc

/-! Programs that call `malloc` and `free` in any order and write to the blocks they hold. -/
namespace Xv6.Umalloc

open Links

def addrs (lo : ℕ) : List Piece → List ℕ
  | [] => []
  | p::ps => lo::addrs (lo+unit*p.units) ps

section Rows

variable {size : ℕ → ℕ} {lo : ℕ} {ps : List Piece}

theorem addrs_perm (lo : ℕ) (ps : List Piece) :
    (frees lo ps++(lives lo ps).map fun b => b.1-unit).Perm (addrs lo ps) := by
  induction ps generalizing lo with
  | nil => exact .refl _
  | cons p ps ih =>
    obtain ⟨u,owner⟩ := p
    cases owner with
    | none => exact (ih _).cons lo
    | some n =>
      simp only [frees,lives,addrs,reduceCtorEq,if_false,List.map_cons,Nat.add_sub_cancel]
      exact List.perm_middle.trans ((ih _).cons lo)

theorem Headed.addrs_bounds (h : Headed size lo ps) :
    ∀ a ∈ addrs lo ps, lo ≤ a ∧ 0 < size a := by
  induction ps generalizing lo with
  | nil => simp [addrs]
  | cons p ps ih =>
    intro a ha
    rcases List.mem_cons.mp ha with rfl | ha
    · exact ⟨le_rfl,h.1 ▸ h.2.1⟩
    · have hb := ih h.2.2.2 a ha
      exact ⟨(Nat.le_add_right _ _).trans hb.1,hb.2⟩

theorem Headed.addrs_apart (h : Headed size lo ps) :
    (addrs lo ps).Pairwise fun a b => a+unit*size a ≤ b ∨ b+unit*size b ≤ a := by
  induction ps generalizing lo with
  | nil => exact .nil
  | cons p ps ih =>
    refine List.pairwise_cons.mpr ⟨fun b hb => .inl ?_,ih h.2.2.2⟩
    rw [h.1]
    exact (h.2.2.2.addrs_bounds b hb).1

theorem Headed.mem_iff (h : Headed size lo ps) (x : ℕ) :
    lo ≤ x ∧ x < stop lo ps ↔ ∃ a ∈ addrs lo ps, a ≤ x ∧ x < a+unit*size a := by
  induction ps generalizing lo with
  | nil => simp [addrs,stop]
  | cons p ps ih =>
    have hle := le_stop (lo+unit*p.units) ps
    have hrest := ih h.2.2.2
    simp only [addrs,stop,List.mem_cons,exists_eq_or_imp,h.1,← hrest]
    omega

theorem Headed.lives_bounds (h : Headed size lo ps) :
    ∀ b ∈ lives lo ps, lo+unit ≤ b.1 ∧ b.1 < stop lo ps+unit := by
  intro b hb
  obtain ⟨L,u,R,rfl,hb⟩ := exists_of_mem_lives hb
  obtain ⟨-,-,hpos,-,-⟩ := headed_append.mp h
  have hlo := le_stop lo L
  have hend := le_stop (stop lo L+unit*u) R
  have hlt : stop lo L < stop lo L+unit*u := lt_add_unit hpos
  simp only [stop_append,stop]
  omega

theorem lives_filter {L R : List Piece} {u n : ℕ} (h : Headed size lo (L++⟨u,some n⟩::R)) :
    (lives lo (L++⟨u,some n⟩::R)).filter (fun b => b.1 ≠ stop lo L+unit) =
      lives lo L++lives (stop lo L+unit*u) R := by
  obtain ⟨hleft,-,hpos,-,hright⟩ := headed_append.mp h
  have hlt : stop lo L < stop lo L+unit*u := lt_add_unit hpos
  simp only [lives_append,lives,List.filter_append,ne_eq,decide_not]
  rw [List.filter_eq_self.mpr,List.filter_cons_of_neg (by simp),List.filter_eq_self.mpr]
  · intro b hb
    have hge := (hright.lives_bounds b hb).1
    simp only at hge
    simp only [Bool.not_eq_true',decide_eq_false_iff_not]
    omega
  · intro b hb
    have hub := (hleft.lives_bounds b hb).2
    simp only [Bool.not_eq_true',decide_eq_false_iff_not]
    omega

end Rows

/-- The first call is still to come, or a row of pieces describes the heap and the blocks in
use. -/
def Inv (base lo limit : ℕ) (s : Sys) : Prop :=
  (s.heap.brk = lo ∨ s.heap.brk ≤ limit) ∧
    (s.heap.freep = 0 ∧ s.heap.brk = lo ∧ s.live = [] ∨
      ∃ ps, Holds base lo s.heap ps ∧ (lives lo ps).Perm s.live)

section Steps

variable {base lo limit fuel : ℕ} {s t : Sys}

theorem Holds.loose_of_live {L R : List Piece} {u n : ℕ} {h : State}
    (hh : Holds base lo h (L++⟨u,some n⟩::R)) : Loose base lo h L u R := by
  obtain ⟨hleft,hsize,hpos,-,hright⟩ := headed_append.mp hh.headed
  have hbrk := hh.brk
  have hlinks := hh.links
  have hfreep := hh.freep
  obtain ⟨hL,hR,-⟩ := List.isChain_append.mp hh.apart
  simp only [stop_append,stop,frees_append,frees,reduceCtorEq,if_false] at hbrk hlinks hfreep
  exact ⟨hh.base_pos,hh.base_lt,hh.base_size,hleft,hsize,hpos,hright,hbrk,hlinks,hfreep,hL,
    (List.isChain_cons.mp hR).2,hh.small⟩

theorem Inv.free (h : Inv base lo limit s) (hfuel : lo+2*limit+2 < fuel) {ap : ℕ}
    (hap : ap ∈ s.live.map Prod.fst) :
    ∃ heap, free fuel s.heap ap = some heap ∧
      Inv base lo limit ⟨heap,s.live.filter fun b => b.1 ≠ ap⟩ := by
  obtain ⟨b,hb,rfl⟩ := List.mem_map.mp hap
  obtain ⟨hbrk,⟨-,-,hnil⟩ | ⟨ps,hholds,hperm⟩⟩ := h
  · rw [hnil] at hb
    exact absurd hb List.not_mem_nil
  · obtain ⟨L,u,R,rfl,hb1⟩ := exists_of_mem_lives (hperm.mem_iff.mpr hb)
    obtain ⟨heap,ps',hfree,hbrk',hlives,-,hholds'⟩ :=
      hholds.loose_of_live.free (show s.heap.brk+1 < fuel by omega)
    refine ⟨heap,by rw [hb1]; exact hfree,by rw [hbrk']; exact hbrk,.inr ⟨ps',hholds',?_⟩⟩
    rw [hlives,hb1,← lives_filter hholds.headed]
    exact hperm.filter _

theorem Inv.malloc (hpos : 0 < base) (hbase : base+unit ≤ lo) (hlimit : limit < lo+unit*2^32)
    (h : Inv base lo limit s) (hfuel : lo+2*limit+2 < fuel) (nbytes : ℕ) (avail : ℕ → Bool) :
    ∃ r, malloc base ⟨avail,limit⟩ fuel s.heap nbytes = some r ∧
      Inv base lo limit ⟨r.1,if r.2 = 0 then s.live else (r.2,nbytes)::s.live⟩ := by
  obtain ⟨hbrk,hheap⟩ := h
  obtain ⟨r,hr,hbrk',ps,hholds,hperm⟩ := @malloc_served base lo fuel nbytes s.heap ⟨avail,limit⟩
    s.live hpos hbase hlimit (show s.heap.brk+limit+2 < fuel by omega) hheap
  refine ⟨r,hr,?_,.inr ⟨ps,hholds,hperm⟩⟩
  rcases hbrk' with heq | hle
  · rw [heq]
    exact hbrk
  · exact .inr hle

theorem Holds.store {h : State} {ps : List Piece} (hh : Holds base lo h ps) {b : ℕ × ℕ} {x : ℕ}
    (hb : b ∈ lives lo ps) (hx : Inside h b.1 x) (v w : ℕ) :
    Holds base lo {h with
      ptr := Function.update h.ptr x v,size := Function.update h.size x w} ps := by
  obtain ⟨L,u,R,rfl,hb1⟩ := exists_of_mem_lives hb
  obtain ⟨hleft,hsize,hpos,howner,hright⟩ := headed_append.mp hh.headed
  have hlt : stop lo L < x := by
    unfold Inside at hx
    omega
  have hgt : x < stop lo L+unit*u := by
    have hsub : b.1-unit = stop lo L := by omega
    have hx2 := hx.2
    rw [hsub,hsize,hb1] at hx2
    simp only at hx2 hpos
    unfold unit at *
    omega
  have hbase : base < x := by
    have hle := le_stop lo L
    have hblt := hh.base_lt
    unfold unit at hblt
    omega
  have hnode : x ∉ base::frees lo (L++⟨u,some b.2⟩::R) := by
    intro hmem
    simp only [frees_append,frees,reduceCtorEq,if_false,List.mem_cons,List.mem_append] at hmem
    rcases hmem with rfl | hmem | hmem
    · exact hbase.false
    · have hub := (hleft.frees_bounds x hmem).2
      omega
    · have hge := (hright.frees_bounds x hmem).1
      simp only at hge
      omega
  exact {
    base_pos := hh.base_pos
    base_lt := hh.base_lt
    base_size := (Function.update_of_ne hbase.ne _ _).trans hh.base_size
    headed := by
      refine headed_append.mpr ⟨?_,(Function.update_of_ne hlt.ne _ _).trans hsize,hpos,howner,?_⟩
      · exact hleft.congr fun a _ ha => Function.update_of_ne (by omega) _ _
      · refine hright.congr fun a ha _ => Function.update_of_ne ?_ _ _
        simp only at ha
        omega
    brk := hh.brk
    links := hh.links.update hnode v
    freep := hh.freep
    apart := hh.apart
    small := hh.small}

theorem Inv.step (hpos : 0 < base) (hbase : base+unit ≤ lo) (hlimit : limit < lo+unit*2^32)
    (hfuel : lo+2*limit+2 < fuel) (h : Inv base lo limit s) {a : Action}
    (ht : step base limit fuel s a = some t) : Inv base lo limit t := by
  cases a with
  | malloc nbytes avail =>
    obtain ⟨r,hr,hinv⟩ := h.malloc hpos hbase hlimit hfuel nbytes avail
    obtain ⟨-,ht⟩ := Option.ite_none_right_eq_some.mp ht
    rw [hr] at ht
    cases ht
    exact hinv
  | free ap =>
    obtain ⟨hap,ht⟩ := Option.ite_none_right_eq_some.mp ht
    obtain ⟨heap,hfree,hinv⟩ := h.free hfuel hap
    rw [hfree] at ht
    cases ht
    exact hinv
  | store ap x ptr size =>
    obtain ⟨⟨hap,hx⟩,ht⟩ := Option.ite_none_right_eq_some.mp ht
    cases ht
    obtain ⟨b,hb,rfl⟩ := List.mem_map.mp hap
    obtain ⟨hbrk,⟨-,-,hnil⟩ | ⟨ps,hholds,hperm⟩⟩ := h
    · rw [hnil] at hb
      exact absurd hb List.not_mem_nil
    · exact ⟨hbrk,.inr ⟨ps,hholds.store (hperm.mem_iff.mpr hb) hx ptr size,hperm⟩⟩

end Steps

/-- The free list runs through `fs`, and these nodes and the blocks in use, with their headers,
make up the memory from `lo` to the break. -/
structure WellFormed (base lo : ℕ) (s : Sys) (fs : List ℕ) : Prop where
  cycle : Path s.heap.ptr base fs base
  sorted : (base::fs).Pairwise (· < ·)
  freep : s.heap.freep ∈ base::fs
  pos : ∀ a ∈ fs++s.live.map (fun b => b.1-unit), 0 < s.heap.size a
  disjoint : (fs++s.live.map fun b => b.1-unit).Pairwise fun a b =>
    a+unit*s.heap.size a ≤ b ∨ b+unit*s.heap.size b ≤ a
  cover : ∀ x, lo ≤ x ∧ x < s.heap.brk ↔
    ∃ a ∈ fs++s.live.map (fun b => b.1-unit), a ≤ x ∧ x < a+unit*s.heap.size a
  apart : ∀ f ∈ fs, ∀ f' ∈ fs, f+unit*s.heap.size f ≠ f'
  usable : ∀ b ∈ s.live, b.2+unit ≤ unit*s.heap.size (b.1-unit)

def HeapOk (base lo : ℕ) (s : Sys) : Prop :=
  s.heap.freep = 0 ∧ s.heap.brk = lo ∧ s.live = [] ∨ ∃ fs, WellFormed base lo s fs

theorem Holds.frees_apart {base lo : ℕ} {h : State} {ps : List Piece} (hh : Holds base lo h ps) :
    ∀ f ∈ frees lo ps, ∀ f' ∈ frees lo ps, f+unit*h.size f ≠ f' := by
  intro f hf f' hf' heq
  obtain ⟨L,u,R,rfl,rfl⟩ := exists_of_mem_frees hf
  obtain ⟨hleft,hsize,hpos,-,hright⟩ := headed_append.mp hh.headed
  rw [hsize] at heq
  simp only at heq hpos
  have hlt : stop lo L < stop lo L+unit*u := lt_add_unit hpos
  simp only [frees_append,frees,if_pos,List.mem_append,List.mem_cons] at hf'
  rcases hf' with hf' | rfl | hf'
  · have hub := (hleft.frees_bounds f' hf').2
    omega
  · omega
  · cases R with
    | nil => exact absurd hf' List.not_mem_nil
    | cons q R =>
      obtain ⟨-,hR,-⟩ := List.isChain_append.mp hh.apart
      have howner : q.owner ≠ none := by
        simpa using (List.isChain_cons_cons.mp hR).1
      simp only [frees,if_neg howner] at hf'
      have hge : stop lo L+unit*u+unit*q.units ≤ f' := (hright.2.2.2.frees_bounds f' hf').1
      have hlt' : stop lo L+unit*u < stop lo L+unit*u+unit*q.units := lt_add_unit hright.2.1
      omega

theorem le_nunits (n : ℕ) : n+unit ≤ unit*nunits n := by
  unfold nunits unit
  omega

theorem Holds.wellFormed {base lo : ℕ} {s : Sys} {ps : List Piece} (h : Holds base lo s.heap ps)
    (hperm : (lives lo ps).Perm s.live) : WellFormed base lo s (frees lo ps) := by
  have hblocks : (frees lo ps++s.live.map fun b => b.1-unit).Perm (addrs lo ps) :=
    ((hperm.symm.map _).append_left _).trans (addrs_perm lo ps)
  exact {
    cycle := h.links
    sorted := h.sorted
    freep := h.freep
    pos := fun a ha => (h.headed.addrs_bounds a (hblocks.mem_iff.mp ha)).2
    disjoint := (hblocks.pairwise_iff fun hab => hab.symm).mpr h.headed.addrs_apart
    cover := by
      intro x
      rw [← h.brk,h.headed.mem_iff]
      simp only [hblocks.mem_iff]
    apart := h.frees_apart
    usable := by
      intro b hb
      obtain ⟨L,u,R,rfl,hb1⟩ := exists_of_mem_lives (hperm.mem_iff.mpr hb)
      obtain ⟨-,hsize,-,howner,-⟩ := headed_append.mp h.headed
      have hunits : u = nunits b.2 := howner b.2 rfl
      rw [hb1,Nat.add_sub_cancel,hsize,hunits]
      exact le_nunits b.2}

/-- Whatever the program does with the blocks it holds, the heap stays well formed and every call
returns, if `sbrk` hands out less than `2^36` bytes in all. -/
theorem heap_wellFormed {base lo limit fuel : ℕ} {ptr size : ℕ → ℕ} {as : List Action} {s : Sys}
    (hpos : 0 < base) (hbase : base+unit ≤ lo) (hlimit : limit < lo+2^36)
    (hfuel : lo+2*limit+2 < fuel)
    (hrun : Machine.run (step base limit fuel) (init ptr size lo) as = some s) :
    HeapOk base lo s ∧
      (∀ nbytes avail, Modest nbytes →
        (step base limit fuel s (.malloc nbytes avail)).isSome = true) ∧
      ∀ ap ∈ s.live.map Prod.fst, (step base limit fuel s (.free ap)).isSome = true := by
  have hlimit' : limit < lo+unit*2^32 := by
    unfold unit
    omega
  have hinv : Inv base lo limit s := Machine.run_invariant
    (fun _ _ _ h ht => h.step hpos hbase hlimit' hfuel ht)
    (show Inv base lo limit (init ptr size lo) from ⟨.inl rfl,.inl ⟨rfl,rfl,rfl⟩⟩) hrun
  refine ⟨?_,?_,?_⟩
  · rcases hinv.2 with hfresh | ⟨ps,hholds,hperm⟩
    · exact .inl hfresh
    · exact .inr ⟨_,hholds.wellFormed hperm⟩
  · intro nbytes avail hmodest
    obtain ⟨r,hr,-⟩ := hinv.malloc hpos hbase hlimit' hfuel nbytes avail
    simp [step,hmodest,hr]
  · intro ap hap
    obtain ⟨heap,hfree,-⟩ := hinv.free hfuel hap
    simp only [step,if_pos hap,hfree,Option.isSome_some]

/-- Two blocks, a write to the first, and the second freed in front of the rest. -/
def twoBlocks : List Action :=
  [.malloc 100 fun _ => true,.malloc 50 fun _ => true,.store 69520 69520 7 7,.free 69440]

theorem heap_wellFormed_twoBlocks :
    ∃ s, Machine.run (step 16 (2^20) (2^22)) (init (fun _ => 0) (fun _ => 0) 4096) twoBlocks =
        some s ∧ s.live = [(69520,100)] ∧ HeapOk 16 4096 s ∧
      (∀ nbytes avail, Modest nbytes →
        (step 16 (2^20) (2^22) s (.malloc nbytes avail)).isSome = true) ∧
      ∀ ap ∈ s.live.map Prod.fst, (step 16 (2^20) (2^22) s (.free ap)).isSome = true := by
  have hlive : (Machine.run (step 16 (2^20) (2^22)) (init (fun _ => 0) (fun _ => 0) 4096)
      twoBlocks).map Sys.live = some [(69520,100)] := by decide +kernel
  obtain ⟨s,hrun,hlive⟩ := Option.map_eq_some_iff.mp hlive
  exact ⟨s,hrun,hlive,heap_wellFormed (by decide) (by decide) (by decide) (by decide) hrun⟩

/-- Every request makes `morecore` ask for the most bytes below `2^31`; 33 blocks are allocated
and then freed from the lowest to the highest. -/
def hugeBlocks : List Action :=
  (List.range 33).map (fun _ => .malloc (2^31-32) fun _ => true)++
    (List.range 33).map fun j => .free (4096+(2^31-16)*j+16)

/-- The size of the one free block, a `uint`, has wrapped around: most of the memory obtained from
`sbrk` is in no block any more. -/
theorem heap_size_wraps :
    ∃ s, Machine.run (step 16 (2^38) (2^40)) (init (fun _ => 0) (fun _ => 0) 4096) hugeBlocks =
        some s ∧ s.live = [] ∧ s.heap.brk = 4096+33*(2^31-16) ∧
      s.heap.size 4096 = 33*(2^27-1)-2^32 ∧ ¬ HeapOk 16 4096 s := by
  have hfinal : (Machine.run (step 16 (2^38) (2^40)) (init (fun _ => 0) (fun _ => 0) 4096)
      hugeBlocks).map (fun s => (s.live,s.heap.brk,s.heap.size 4096,s.heap.ptr 16,
        s.heap.ptr 4096)) = some ([],4096+33*(2^31-16),33*(2^27-1)-2^32,4096,16) := by
    decide +kernel
  obtain ⟨s,hrun,hvals⟩ := Option.map_eq_some_iff.mp hfinal
  simp only [Prod.mk.injEq] at hvals
  obtain ⟨hlive,hbrk,hsize,hbase,hblock⟩ := hvals
  refine ⟨s,hrun,hlive,hbrk,hsize,?_⟩
  rintro (⟨-,hlo,-⟩ | ⟨fs,hwf⟩)
  · omega
  have hfs : fs = [4096] := by
    have hcycle := hwf.cycle
    have hsorted := hwf.sorted
    match fs with
    | [] =>
      rw [path_nil,hbase] at hcycle
      omega
    | [x] => rw [← hcycle.1,hbase]
    | x::y::fs =>
      have hx : x = 4096 := hcycle.1.symm.trans hbase
      have hy : y = 16 := by rw [← hcycle.2.1,hx,hblock]
      have hlt := (List.pairwise_cons.mp hsorted).1 y (by simp)
      omega
  obtain ⟨a,ha,-,hlt⟩ := (hwf.cover (s.heap.brk-1)).mp (by omega)
  simp only [hfs,hlive,List.map_nil,List.append_nil,List.mem_singleton] at ha
  subst ha
  rw [hsize,hbrk] at hlt
  unfold unit at hlt
  omega

end Xv6.Umalloc
