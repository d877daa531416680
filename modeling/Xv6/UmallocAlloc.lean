import Xv6.UmallocHeap

/-! `malloc` over the row of pieces: the search goes round the free list once, a block that fits
gives its tail away, and after `morecore` the next round cannot fail. -/
namespace Xv6.Umalloc

open Links

section Find

variable {lo : ℕ} {ps : List Piece}

theorem exists_of_mem_frees {a : ℕ} (h : a ∈ frees lo ps) :
    ∃ L u R, ps = L++⟨u,none⟩::R ∧ a = stop lo L := by
  induction ps generalizing lo with
  | nil => exact absurd h List.not_mem_nil
  | cons p ps ih =>
    obtain ⟨u,owner⟩ := p
    cases owner with
    | none =>
      rcases List.mem_cons.mp h with rfl | h
      · exact ⟨[],u,ps,rfl,rfl⟩
      · obtain ⟨L,v,R,rfl,rfl⟩ := ih h
        exact ⟨⟨u,none⟩::L,v,R,rfl,rfl⟩
    | some k =>
      obtain ⟨L,v,R,rfl,rfl⟩ := ih h
      exact ⟨⟨u,some k⟩::L,v,R,rfl,rfl⟩

theorem mem_frees_of_mem {q : Piece} (hq : q ∈ ps) (hfree : q.owner = none) {size : ℕ → ℕ}
    (h : Headed size lo ps) : ∃ a ∈ frees lo ps, size a = q.units := by
  obtain ⟨L,R,rfl⟩ := List.append_of_mem hq
  refine ⟨stop lo L,?_,(headed_append.mp h).2.1⟩
  simp [frees,hfree]

theorem exists_of_mem_lives {b : ℕ × ℕ} (h : b ∈ lives lo ps) :
    ∃ L u R, ps = L++⟨u,some b.2⟩::R ∧ b.1 = stop lo L+unit := by
  induction ps generalizing lo with
  | nil => exact absurd h List.not_mem_nil
  | cons p ps ih =>
    obtain ⟨u,owner⟩ := p
    cases owner with
    | none =>
      obtain ⟨L,v,R,rfl,hb⟩ := ih h
      exact ⟨⟨u,none⟩::L,v,R,rfl,hb⟩
    | some k =>
      rcases List.mem_cons.mp h with rfl | h
      · exact ⟨[],u,ps,rfl,rfl⟩
      · obtain ⟨L,v,R,rfl,hb⟩ := ih h
        exact ⟨⟨u,some k⟩::L,v,R,rfl,hb⟩

end Find

section Search

variable {s : State} {nu : ℕ}

/-- One time round the list: the search ends at a node that fits, or no node does. -/
theorem search_spec {a fuel : ℕ} {l : List ℕ} (h : Path s.ptr a l s.freep) (hl : s.freep ∉ l)
    (hfuel : l.length < fuel) :
    (∃ prevp ∈ a::l, nu ≤ s.size (s.ptr prevp) ∧
        search s nu fuel a = some (.fit prevp (s.ptr prevp))) ∨
      search s nu fuel a = some .wrapped ∧ ∀ x ∈ l++[s.freep], s.size x < nu := by
  induction l generalizing a fuel with
  | nil =>
    obtain ⟨fuel,rfl⟩ : ∃ f, fuel = f+1 := ⟨fuel-1,by omega⟩
    rw [search]
    by_cases hfit : nu ≤ s.size (s.ptr a)
    · exact .inl ⟨a,List.mem_cons_self,hfit,if_pos hfit⟩
    · rw [if_neg hfit,if_pos (path_nil.mp h)]
      refine .inr ⟨rfl,?_⟩
      simpa [path_nil.mp h] using hfit
  | cons x l ih =>
    obtain ⟨fuel,rfl⟩ : ∃ f, fuel = f+1 := ⟨fuel-1,by omega⟩
    simp only [List.length_cons] at hfuel
    rw [search]
    by_cases hfit : nu ≤ s.size (s.ptr a)
    · exact .inl ⟨a,List.mem_cons_self,hfit,if_pos hfit⟩
    · have hne : s.ptr a ≠ s.freep := by
        rw [h.1]
        rintro rfl
        exact hl List.mem_cons_self
      rw [if_neg hfit,if_neg hne]
      rw [h.1] at hfit ⊢
      rcases ih h.2 (fun hmem => hl (List.mem_cons_of_mem x hmem)) (show l.length < fuel by omega)
        with ⟨prevp,hmem,hsize,heq⟩ | ⟨heq,hall⟩
      · exact .inl ⟨prevp,List.mem_cons_of_mem a hmem,hsize,heq⟩
      · refine .inr ⟨heq,?_⟩
        intro y hy
        rcases List.mem_cons.mp hy with rfl | hy
        · exact not_le.mp hfit
        · exact hall y hy

end Search

/-- What a call of `malloc` for `nbytes` did with the blocks `live` in use: it failed and left
them as they are, or the block returned is a new one. -/
def Served (base lo : ℕ) (live : List (ℕ × ℕ)) (nbytes : ℕ) (r : State × ℕ) : Prop :=
  ∃ ps, Holds base lo r.1 ps ∧
    (lives lo ps).Perm (if r.2 = 0 then live else (r.2,nbytes)::live)

theorem take_brk (s : State) (nu prevp p : ℕ) : (take s nu prevp p).1.brk = s.brk := by
  unfold take
  split <;> rfl

namespace Holds

variable {base lo : ℕ} {s : State} {ps : List Piece}

theorem base_lt_frees (h : Holds base lo s ps) : ∀ a ∈ frees lo ps, base < a := by
  intro a ha
  have hlo := (h.headed.frees_bounds a ha).1
  have hlt := h.base_lt
  unfold unit at hlt
  omega

theorem sorted (h : Holds base lo s ps) : (base::frees lo ps).Pairwise (· < ·) :=
  List.pairwise_cons.mpr ⟨h.base_lt_frees,h.headed.frees_sorted⟩

theorem nodup (h : Holds base lo s ps) : (base::frees lo ps).Nodup := h.sorted.imp ne_of_lt

theorem freep_ne_zero (h : Holds base lo s ps) : s.freep ≠ 0 := by
  have hpos := h.base_pos
  rcases List.mem_cons.mp h.freep with heq | hmem
  · omega
  · have hlt := h.base_lt_frees _ hmem
    omega

theorem prev_eq {L R : List Piece} {u p : ℕ} (h : Holds base lo s (L++⟨u,none⟩::R))
    (hp : p ∈ base::frees lo (L++⟨u,none⟩::R)) (hnext : s.ptr p = stop lo L) :
    p = (base::frees lo L).getLast (List.cons_ne_nil _ _) := by
  have hlinks := h.links
  have hnodup := h.nodup
  have hrot : (frees lo (L++⟨u,none⟩::R)++[base]).Nodup :=
    (List.perm_append_comm.nodup_iff).mp hnodup
  simp only [frees_append,frees,if_pos] at hlinks hp hrot
  have hlast := (path_append.mp hlinks).1
  have hpath : Path s.ptr base (frees lo L++[]) (stop lo L) := by rwa [List.append_nil]
  refine hlinks.next_inj hrot hp ?_ (hnext.trans (path_nil.mp hpath.from_last).symm)
  rw [← List.cons_append]
  exact List.mem_append_left _ (List.getLast_mem _)

theorem take_all {L R : List Piece} {nbytes prevp : ℕ}
    (h : Holds base lo s (L++⟨nunits nbytes,none⟩::R))
    (hmem : prevp ∈ base::frees lo (L++⟨nunits nbytes,none⟩::R))
    (hnext : s.ptr prevp = stop lo L) :
    Holds base lo (take s (nunits nbytes) prevp (stop lo L)).1
      (L++⟨nunits nbytes,some nbytes⟩::R) := by
  obtain ⟨hleft,hsize,hpos,-,hright⟩ := headed_append.mp h.headed
  have hprev := h.prev_eq hmem hnext
  have hlinks := h.links
  have hnodup := h.nodup
  simp only [frees_append,frees,if_pos] at hlinks hnodup
  simp only [take,hsize,if_pos]
  exact {
    base_pos := h.base_pos
    base_lt := h.base_lt
    base_size := h.base_size
    headed := headed_append.mpr ⟨hleft,hsize,hpos,by simp,hright⟩
    brk := by
      have hbrk := h.brk
      rw [stop_append] at hbrk ⊢
      exact hbrk
    links := by
      simp only [frees_append,frees,reduceCtorEq,if_false,hprev]
      exact hlinks.bypass hnodup
    freep := by
      rw [hprev,frees_append,← List.cons_append]
      exact List.mem_append_left _ (List.getLast_mem _)
    apart := by
      obtain ⟨hL,hR,-⟩ := List.isChain_append.mp h.apart
      refine List.isChain_append.mpr ⟨hL,List.isChain_cons.mpr ⟨?_,(List.isChain_cons.mp hR).2⟩,?_⟩
      · exact fun q _ => .inl (by simp)
      · intro q _ q' hq'
        obtain rfl : ⟨nunits nbytes,some nbytes⟩ = q' := by simpa using hq'
        exact .inr (by simp)
    small := h.small}

/-- A larger block keeps its place in the list and gives its tail away. -/
theorem take_tail {L R : List Piece} {nbytes u prevp : ℕ} (h : Holds base lo s (L++⟨u,none⟩::R))
    (hmem : prevp ∈ base::frees lo (L++⟨u,none⟩::R)) (hu : nunits nbytes < u) :
    Holds base lo (take s (nunits nbytes) prevp (stop lo L)).1
      (L++⟨u-nunits nbytes,none⟩::⟨nunits nbytes,some nbytes⟩::R) := by
  obtain ⟨hleft,hsize,-,-,hright⟩ := headed_append.mp h.headed
  have hrest : 0 < u-nunits nbytes := by omega
  have hadd : stop lo L+unit*(u-nunits nbytes)+unit*nunits nbytes = stop lo L+unit*u := by
    rw [Nat.add_assoc,← Nat.mul_add,Nat.sub_add_cancel hu.le]
  have htail : stop lo L < stop lo L+unit*(u-nunits nbytes) := lt_add_unit hrest
  have hpos : 0 < nunits nbytes := Nat.succ_pos _
  have hend : stop lo L+unit*(u-nunits nbytes) < stop lo L+unit*u := by
    rw [← hadd]
    exact lt_add_unit hpos
  have hbase : base < stop lo L := h.base_lt_frees _ (by simp [frees])
  have hne : stop lo L ≠ stop lo L+unit*(u-nunits nbytes) := htail.ne
  simp only [take,hsize,if_neg hu.ne']
  have hframe : ∀ a, a < stop lo L ∨ stop lo L+unit*u ≤ a →
      Function.update (Function.update s.size (stop lo L) (u-nunits nbytes))
        (stop lo L+unit*(u-nunits nbytes)) (nunits nbytes) a = s.size a := by
    intro a ha
    rw [Function.update_of_ne (by omega),Function.update_of_ne (by omega)]
  exact {
    base_pos := h.base_pos
    base_lt := h.base_lt
    base_size := (hframe base (.inl hbase)).trans h.base_size
    headed := by
      refine headed_append.mpr ⟨hleft.congr fun a _ ha => hframe a (.inl ha),?_,hrest,by simp,
        Function.update_self ..,hpos,by simp,?_⟩
      · exact (Function.update_of_ne hne _ _).trans (Function.update_self ..)
      · rw [hadd]
        exact hright.congr fun a ha _ => hframe a (.inr ha)
    brk := by
      have hbrk := h.brk
      simp only [stop_append,stop] at hbrk ⊢
      rwa [hadd]
    links := by
      have hlinks := h.links
      simp only [frees_append,frees,if_pos,reduceCtorEq,if_false] at hlinks ⊢
      rwa [hadd]
    freep := by
      simp only [frees_append,frees,if_pos,reduceCtorEq,if_false] at hmem ⊢
      rwa [hadd]
    apart := by
      obtain ⟨hL,hR,hcross⟩ := List.isChain_append.mp h.apart
      refine List.isChain_append.mpr ⟨hL,List.isChain_cons_cons.mpr ⟨.inr (by simp),
        List.isChain_cons.mpr ⟨fun q _ => .inl (by simp),(List.isChain_cons.mp hR).2⟩⟩,?_⟩
      intro q hq q' hq'
      obtain rfl : ⟨u-nunits nbytes,none⟩ = q' := by simpa using hq'
      exact hcross q hq ⟨u,none⟩ rfl
    small := h.small}

theorem take (h : Holds base lo s ps) {nbytes prevp : ℕ} (hmem : prevp ∈ base::frees lo ps)
    (hfit : nunits nbytes ≤ s.size (s.ptr prevp)) :
    ∃ ps', (Umalloc.take s (nunits nbytes) prevp (s.ptr prevp)).2 ≠ 0 ∧
      (lives lo ps').Perm
        (((Umalloc.take s (nunits nbytes) prevp (s.ptr prevp)).2,nbytes)::lives lo ps) ∧
      Holds base lo (Umalloc.take s (nunits nbytes) prevp (s.ptr prevp)).1 ps' := by
  have hpos : 0 < nunits nbytes := Nat.succ_pos _
  have hnode : s.ptr prevp ∈ frees lo ps := by
    rcases h.links.next_mem hmem with hin | hbase
    · exact hin
    · rw [hbase,h.base_size] at hfit
      omega
  obtain ⟨L,u,R,rfl,hnext⟩ := exists_of_mem_frees hnode
  have hsize : s.size (stop lo L) = u := (headed_append.mp h.headed).2.1
  rw [hnext,hsize] at hfit
  have hu : 0 < unit := by decide
  rw [hnext]
  rcases hfit.eq_or_lt with rfl | hlt
  · refine ⟨_,?_,?_,h.take_all hmem hnext⟩
    · simp only [Umalloc.take,hsize,if_pos]
      omega
    · simp only [Umalloc.take,hsize,if_pos,lives_append,lives]
      exact List.perm_middle
  · have hadd : stop lo L+unit*(u-nunits nbytes)+unit*nunits nbytes = stop lo L+unit*u := by
      rw [Nat.add_assoc,← Nat.mul_add,Nat.sub_add_cancel hlt.le]
    refine ⟨_,?_,?_,h.take_tail hmem hlt⟩
    · simp only [Umalloc.take,hsize,if_neg hlt.ne']
      omega
    · simp only [Umalloc.take,hsize,if_neg hlt.ne',lives_append,lives,hadd]
      exact List.perm_middle

theorem search (h : Holds base lo s ps) {nu fuel : ℕ} (hfuel : s.brk < fuel) :
    (∃ prevp ∈ base::frees lo ps, nu ≤ s.size (s.ptr prevp) ∧
        search s nu fuel s.freep = some (.fit prevp (s.ptr prevp))) ∨
      Umalloc.search s nu fuel s.freep = some .wrapped ∧ ∀ x ∈ frees lo ps, s.size x < nu := by
  obtain ⟨l,hl,hperm⟩ := h.links.enter h.freep
  have hlen := hperm.length_eq
  have hbound := h.headed.frees_length
  have hbrk := h.brk
  simp only [List.length_cons] at hlen
  have hnot : s.freep ∉ l := (List.nodup_cons.mp (hperm.nodup_iff.mpr h.nodup)).1
  rcases search_spec hl hnot (show l.length < fuel by omega) with ⟨prevp,hmem,hfit,heq⟩ | ⟨heq,hall⟩
  · exact .inl ⟨prevp,hperm.mem_iff.mp hmem,hfit,heq⟩
  · refine .inr ⟨heq,fun x hx => hall x ?_⟩
    have hin := hperm.mem_iff.mpr (List.mem_cons_of_mem base hx)
    simpa [or_comm] using hin

theorem served_take (h : Holds base lo s ps) {nbytes prevp : ℕ} (hmem : prevp ∈ base::frees lo ps)
    (hfit : nunits nbytes ≤ s.size (s.ptr prevp)) :
    Served base lo (lives lo ps) nbytes (Umalloc.take s (nunits nbytes) prevp (s.ptr prevp)) := by
  obtain ⟨ps',hne,hlives,hholds⟩ := h.take hmem hfit
  exact ⟨ps',hholds,by rwa [if_neg hne]⟩

theorem loose (h : Holds base lo s ps) {n : ℕ} (hn : 0 < n)
    (hsmall : s.brk+n*unit < lo+unit*2^32) :
    Loose base lo {s with size := Function.update s.size s.brk n,brk := s.brk+n*unit} ps n [] := by
  have hbrk := h.brk
  have hle := le_stop lo ps
  have hbase : base ≠ s.brk := by
    have hlt := h.base_lt
    unfold unit at hlt
    omega
  exact {
    base_pos := h.base_pos
    base_lt := h.base_lt
    base_size := (Function.update_of_ne hbase _ _).trans h.base_size
    left := h.headed.congr fun a _ ha => Function.update_of_ne (by omega) _ _
    here := by
      rw [hbrk]
      exact Function.update_self ..
    pos := hn
    right := trivial
    brk := by
      rw [hbrk,Nat.mul_comm]
      rfl
    links := by
      rw [frees,List.append_nil]
      exact h.links
    freep := by
      rw [frees,List.append_nil]
      exact h.freep
    apartL := h.apart
    apartR := .nil
    small := hsmall}

/-- `morecore` fails without effect, or adds a free piece that fits the request. -/
theorem morecore (h : Holds base lo s ps) {k : Kernel} {fuel nu : ℕ}
    (hlimit : k.limit < lo+unit*2^32) (hfuel : k.limit+1 < fuel) :
    Umalloc.morecore k fuel s nu = some (s,0) ∨
      ∃ s' ps', Umalloc.morecore k fuel s nu = some (s',s'.freep) ∧ s'.brk ≤ k.limit ∧
        Holds base lo s' ps' ∧ lives lo ps' = lives lo ps ∧
        ∃ q ∈ ps', q.owner = none ∧ nu ≤ q.units := by
  have hcore : nu ≤ coreUnits nu ∧ 0 < coreUnits nu := by
    unfold coreUnits
    split <;> omega
  unfold Umalloc.morecore sbrk
  by_cases hgive : k.avail s.brk = true ∧ s.brk+coreUnits nu*unit ≤ k.limit
  · rw [if_pos hgive]
    have hloose := h.loose hcore.2 (hgive.2.trans_lt hlimit)
    obtain ⟨s',ps',hfree,hbrk,hlives,⟨q,hq,howner,hunits⟩,hholds⟩ :=
      hloose.free (show s.brk+coreUnits nu*unit+1 < fuel by omega)
    rw [h.brk] at hfree
    refine .inr ⟨s',ps',?_,hbrk.trans_le hgive.2,hholds,?_,q,hq,howner,hcore.1.trans hunits⟩
    · simp only [hfree]
    · rw [hlives,lives,List.append_nil]
  · rw [if_neg hgive]
    exact .inl rfl

/-- With a free piece that fits, the loop ends in the first search. -/
theorem mallocLoop_fit (h : Holds base lo s ps) {k : Kernel} {fuel nbytes : ℕ}
    (hfuel : s.brk+1 < fuel) (hfit : ∃ q ∈ ps, q.owner = none ∧ nunits nbytes ≤ q.units) :
    ∃ r, mallocLoop k (nunits nbytes) fuel s s.freep = some r ∧ r.1.brk = s.brk ∧
      Served base lo (lives lo ps) nbytes r := by
  obtain ⟨fuel,rfl⟩ : ∃ f, fuel = f+1 := ⟨fuel-1,by omega⟩
  obtain ⟨q,hq,howner,hunits⟩ := hfit
  obtain ⟨a,ha,hsize⟩ := mem_frees_of_mem hq howner h.headed
  rw [mallocLoop]
  rcases h.search (show s.brk < fuel by omega) with ⟨prevp,hmem,hfit,heq⟩ | ⟨-,hall⟩
  · rw [heq]
    exact ⟨_,rfl,take_brk ..,h.served_take hmem hfit⟩
  · have hlt : s.size a < nunits nbytes := hall a ha
    omega

/-- The loop of `malloc` ends after at most one call of `morecore`. -/
theorem mallocLoop (h : Holds base lo s ps) {k : Kernel} {fuel nbytes : ℕ}
    (hlimit : k.limit < lo+unit*2^32) (hfuel : s.brk+k.limit+2 < fuel) :
    ∃ r, mallocLoop k (nunits nbytes) fuel s s.freep = some r ∧
      (r.1.brk = s.brk ∨ r.1.brk ≤ k.limit) ∧ Served base lo (lives lo ps) nbytes r := by
  obtain ⟨fuel,rfl⟩ : ∃ f, fuel = f+1 := ⟨fuel-1,by omega⟩
  rw [Umalloc.mallocLoop]
  rcases h.search (show s.brk < fuel by omega) with ⟨prevp,hmem,hfit,heq⟩ | ⟨heq,-⟩
  · rw [heq]
    exact ⟨_,rfl,.inl (take_brk ..),h.served_take hmem hfit⟩
  · rw [heq]
    rcases @morecore base lo s ps h k fuel (nunits nbytes) hlimit (by omega) with
      hcore | ⟨s',ps',hcore,hbrk,hholds,hlives,hfit⟩
    · rw [hcore]
      exact ⟨(s,0),rfl,.inl rfl,ps,h,.refl _⟩
    · rw [hcore]
      obtain ⟨r,hr,hbrk',hserved⟩ :=
        hholds.mallocLoop_fit (k := k) (show s'.brk+1 < fuel by omega) hfit
      rw [hlives] at hserved
      exact ⟨r,by simp only [if_neg hholds.freep_ne_zero,hr],.inr (hbrk'.trans_le hbrk),hserved⟩

end Holds

theorem holds_nil {base lo : ℕ} {s : State} (hpos : 0 < base) (hbase : base+unit ≤ lo)
    (hbrk : s.brk = lo) : Holds base lo {s with
      ptr := Function.update s.ptr base base
      size := Function.update s.size base 0
      freep := base} [] where
  base_pos := hpos
  base_lt := hbase
  base_size := Function.update_self ..
  headed := trivial
  brk := hbrk.symm
  links := Function.update_self ..
  freep := List.mem_cons_self
  apart := .nil
  small := by
    rw [hbrk]
    exact lt_add_unit (by decide)

theorem malloc_served {base lo fuel nbytes : ℕ} {s : State} {k : Kernel} {live : List (ℕ × ℕ)}
    (hpos : 0 < base) (hbase : base+unit ≤ lo) (hlimit : k.limit < lo+unit*2^32)
    (hfuel : s.brk+k.limit+2 < fuel)
    (h : s.freep = 0 ∧ s.brk = lo ∧ live = [] ∨ ∃ ps, Holds base lo s ps ∧ (lives lo ps).Perm live) :
    ∃ r, malloc base k fuel s nbytes = some r ∧ (r.1.brk = s.brk ∨ r.1.brk ≤ k.limit) ∧
      Served base lo live nbytes r := by
  unfold malloc
  rcases h with ⟨hfreep,hbrk,rfl⟩ | ⟨ps,hholds,hperm⟩
  · rw [if_pos hfreep]
    exact (holds_nil hpos hbase hbrk).mallocLoop hlimit hfuel
  · rw [if_neg hholds.freep_ne_zero]
    obtain ⟨r,hr,hbrk,ps',hholds',hperm'⟩ :=
      @Holds.mallocLoop base lo s ps hholds k fuel nbytes hlimit hfuel
    refine ⟨r,hr,hbrk,ps',hholds',hperm'.trans ?_⟩
    split
    · exact hperm
    · exact hperm.cons _

end Xv6.Umalloc
