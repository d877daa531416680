import Xv6.UmallocRun
import Xv6.Growproc

/-! `malloc` with the widths of the types on the way from `morecore` to `growproc`: the number of
bytes is computed in 64 bits, `sbrk` takes an `int`, and `growproc` adds it to a `uint64`. A store to
a page that is not mapped kills the process, and the call does not return. -/
namespace Xv6.Umalloc

open Vm Command

/-- The process size after `growproc(n)`, or `none` if it fails. A shrinking by more than there is
wraps around, and `uvmdealloc` then does nothing. -/
def grown (k : Kernel) (sz : ℕ) (n : Int32) : Option ℕ :=
  let newsz := ((sz+n.toInt)%2^64).toNat
  if 0 < n.toInt then if k.avail sz = true ∧ newsz ≤ k.limit then some newsz else none
  else if n.toInt < 0 then some (if sz ≤ newsz then sz else newsz)
  else some sz

theorem growproc_grown [KernelImage] {s : Ram} {p sz : ℕ} {N : Finset ℕ} (h : Space s p (PGROUNDUP sz) N)
    (n : Int32) :
    wp (growproc p sz n) (fun r _ => ∃ k, r.1 = 0 ∧ grown k sz n = some r.2 ∨
      r.1 = -1 ∧ r.2 = sz ∧ grown k sz n = none) (fun _ => False) s := by
  have htop := h.top_le
  have hup := le_PGROUNDUP sz
  have hlt := n.toInt_lt
  have hge := n.le_toInt
  rw [growproc,wp_ite]
  refine ⟨fun hn => ?_,fun hn => ?_⟩
  · rw [wp_bind]
    refine wp_conseq (h.wp_uvmalloc (by omega) (by decide)) ?_
    rintro r t ⟨N',⟨rfl,_⟩ | ⟨rfl,_⟩⟩
    · rw [if_neg (by omega)]
      exact ⟨⟨fun _ => true,((sz+n.toInt)%2^64).toNat⟩,.inl ⟨rfl,by rw [grown,if_pos hn]; simp⟩⟩
    · exact ⟨⟨fun _ => false,0⟩,.inr ⟨rfl,rfl,by rw [grown,if_pos hn]; simp⟩⟩
  · rw [wp_ite]
    refine ⟨fun hneg => ?_,fun hzero => ?_⟩
    · rw [wp_bind]
      by_cases hle : sz ≤ ((sz+n.toInt)%2^64).toNat
      · rw [uvmdealloc,if_pos hle]
        exact ⟨⟨fun _ => true,0⟩,.inl ⟨rfl,by rw [grown,if_neg hn,if_pos hneg,if_pos hle]⟩⟩
      · refine wp_conseq (h.wp_uvmdealloc (by omega)) ?_
        rintro r t ⟨rfl,_⟩
        exact ⟨⟨fun _ => true,0⟩,.inl ⟨rfl,by rw [grown,if_neg hn,if_pos hneg,if_neg hle]⟩⟩
    · exact ⟨⟨fun _ => true,0⟩,.inl ⟨rfl,by rw [grown,if_neg hn,if_neg hzero]⟩⟩

inductive Outcome
  | killed
  | ret (s : State) (p : ℕ)

/-- The `int` that `sbrk(nu * sizeof(Header))` gets. -/
def sbrkArg (nu : ℕ) : Int32 := Int32.ofNat (coreUnits nu*unit)

/-- `morecore`; the store `hp->s.size = nu` needs the page of the header. -/
def morecore32 (k : Kernel) (fuel : ℕ) (s : State) (nu : ℕ) : Option Outcome :=
  match grown k s.brk (sbrkArg nu) with
  | none => some (.ret s 0)
  | some sz =>
    if s.brk+unit ≤ PGROUNDUP sz then
      match free fuel {s with size := Function.update s.size s.brk (coreUnits nu),brk := sz}
          (s.brk+unit) with
      | none => none
      | some t => some (.ret t t.freep)
    else some .killed

def mallocLoop32 (k : Kernel) (nunits : ℕ) : (fuel : ℕ) → State → ℕ → Option Outcome
  | 0, _, _ => none
  | fuel+1, s, prevp =>
    match search s nunits fuel prevp with
    | none => none
    | some (.fit prevp p) => some (.ret (take s nunits prevp p).1 (take s nunits prevp p).2)
    | some .wrapped =>
      match morecore32 k fuel s nunits with
      | none => none
      | some .killed => some .killed
      | some (.ret s p) => if p = 0 then some (.ret s 0) else mallocLoop32 k nunits fuel s p

def started (base : ℕ) (s : State) : State :=
  if s.freep = 0 then {s with
    ptr := Function.update s.ptr base base
    size := Function.update s.size base 0
    freep := base}
  else s

def malloc32 (base : ℕ) (k : Kernel) (fuel : ℕ) (s : State) (nbytes : ℕ) : Option Outcome :=
  mallocLoop32 k (nunits nbytes) fuel (started base s) (started base s).freep

/-- A pointer that `malloc` returns has its bytes in memory obtained from `sbrk`, which ends at the
break. -/
def Obtained (base lo : ℕ) (k : Kernel) (fuel : ℕ) (s : State) (nbytes : ℕ) : Prop :=
  ∀ t p, malloc32 base k fuel s nbytes = some (.ret t p) → p ≠ 0 → lo ≤ p ∧ p+nbytes ≤ t.brk

/-- `morecore` returns 0 or has got the bytes it asked for. -/
def Extended (base : ℕ) (k : Kernel) (fuel : ℕ) (s : State) (nbytes : ℕ) : Prop :=
  ∀ t p, morecore32 k fuel (started base s) (nunits nbytes) = some (.ret t p) →
    p = 0 ∨ (started base s).brk+nunits nbytes*unit ≤ t.brk

/-- The request does not fit into an `int` as a number of bytes, `growproc` succeeds nevertheless,
and the page of the new header is there. -/
def Faked (k : Kernel) (brk nbytes : ℕ) : Prop :=
  2^31 ≤ coreUnits (nunits nbytes)*unit ∧
    ∃ sz, grown k brk (sbrkArg (nunits nbytes)) = some sz ∧ brk+unit ≤ PGROUNDUP sz

section Break

variable (s : State) (b : ℕ)

theorem findSlot_brk (bp fuel p : ℕ) : findSlot {s with brk := b} bp fuel p = findSlot s bp fuel p := by
  induction fuel generalizing p with
  | zero => rfl
  | succ fuel ih => simp only [findSlot,ih]

theorem free_brk (fuel ap : ℕ) :
    free fuel {s with brk := b} ap = (free fuel s ap).map fun t => {t with brk := b} := by
  unfold free
  simp only [findSlot_brk]
  cases findSlot s (ap-unit) fuel s.freep with
  | none => rfl
  | some p =>
    simp only [Option.map_some,Option.some.injEq]
    unfold joinPrev joinNext
    split <;> split <;> rfl

theorem search_brk (nu fuel prevp : ℕ) :
    search {s with brk := b} nu fuel prevp = search s nu fuel prevp := by
  induction fuel generalizing prevp with
  | zero => rfl
  | succ fuel ih => simp only [search,ih]

theorem take_snd_brk (nu prevp p : ℕ) :
    (take {s with brk := b} nu prevp p).2 = (take s nu prevp p).2 := by
  unfold take
  split <;> rfl

end Break

section Modest

variable {k : Kernel} {fuel nu : ℕ} {s : State}

theorem le_coreUnits (nu : ℕ) : nu ≤ coreUnits nu ∧ 4096 ≤ coreUnits nu := by
  unfold coreUnits
  split <;> omega

theorem grown_modest (hx : coreUnits nu*unit < 2^31) (hb : s.brk < 2^40) :
    grown k s.brk (sbrkArg nu) = if k.avail s.brk = true ∧ s.brk+coreUnits nu*unit ≤ k.limit then
      some (s.brk+coreUnits nu*unit) else none := by
  have hn : (sbrkArg nu).toInt = (coreUnits nu*unit : ℕ) := Int32.toInt_ofNat_of_lt hx
  have hpos := (le_coreUnits nu).2
  have hnew : ((s.brk+(sbrkArg nu).toInt)%2^64).toNat = s.brk+coreUnits nu*unit := by omega
  rw [grown,hnew,if_pos (by unfold unit at *; omega)]

theorem morecore32_modest (hx : coreUnits nu*unit < 2^31) (hb : s.brk < 2^40) :
    morecore32 k fuel s nu = (morecore k fuel s nu).map fun r => .ret r.1 r.2 := by
  unfold morecore32 morecore sbrk
  rw [grown_modest hx hb]
  by_cases hk : k.avail s.brk = true ∧ s.brk+coreUnits nu*unit ≤ k.limit
  · rw [if_pos hk,if_pos hk]
    have hmap : s.brk+unit ≤ PGROUNDUP (s.brk+coreUnits nu*unit) := by
      have hpos := (le_coreUnits nu).2
      have hup := le_PGROUNDUP (s.brk+coreUnits nu*unit)
      unfold unit at *
      omega
    simp only [if_pos hmap]
    cases free fuel {s with
      size := Function.update s.size s.brk (coreUnits nu)
      brk := s.brk+coreUnits nu*unit} (s.brk+unit) <;> rfl
  · rw [if_neg hk,if_neg hk]
    rfl

theorem morecore_brk {r : State × ℕ} (h : morecore k fuel s nu = some r) :
    r = (s,0) ∨ r.1.brk = s.brk+coreUnits nu*unit ∧ r.1.brk ≤ k.limit := by
  unfold morecore sbrk at h
  by_cases hk : k.avail s.brk = true ∧ s.brk+coreUnits nu*unit ≤ k.limit
  · rw [if_pos hk] at h
    simp only [free_brk {s with size := Function.update s.size s.brk (coreUnits nu)}
      (s.brk+coreUnits nu*unit)] at h
    cases hf : free fuel {s with size := Function.update s.size s.brk (coreUnits nu)} (s.brk+unit) with
    | none =>
      rw [hf] at h
      cases h
    | some t =>
      rw [hf] at h
      cases h
      exact .inr ⟨rfl,hk.2⟩
  · rw [if_neg hk] at h
    cases h
    exact .inl rfl

/-- With a request that fits into an `int`, the widths do not matter. -/
theorem mallocLoop32_modest (hx : coreUnits nu*unit < 2^31) (hlimit : k.limit < 2^40) (hb : s.brk < 2^40)
    (prevp : ℕ) :
    mallocLoop32 k nu fuel s prevp = (mallocLoop k nu fuel s prevp).map fun r => .ret r.1 r.2 := by
  induction fuel generalizing s prevp with
  | zero => rfl
  | succ fuel ih =>
    rw [mallocLoop32,mallocLoop]
    cases search s nu fuel prevp with
    | none => rfl
    | some found =>
      cases found with
      | fit prevp p => rfl
      | wrapped =>
        simp only [morecore32_modest hx hb]
        cases hm : morecore k fuel s nu with
        | none => rfl
        | some r =>
          simp only [Option.map_some]
          by_cases hr : r.2 = 0
          · simp [hr]
          · simp only [if_neg hr]
            refine ih ?_ r.2
            rcases morecore_brk hm with rfl | ⟨-,hle⟩
            · exact hb
            · omega

end Modest

section Huge

variable {base lo fuel nbytes : ℕ} {s : State} {ps : List Piece} {k : Kernel}

theorem Served.inside {live : List (ℕ × ℕ)} {r : State × ℕ} (h : Served base lo live nbytes r)
    (hr : r.2 ≠ 0) : lo ≤ r.2 ∧ r.2+nbytes ≤ r.1.brk := by
  obtain ⟨ps,hholds,hperm⟩ := h
  rw [if_neg hr] at hperm
  obtain ⟨L,u,R,rfl,hp⟩ := exists_of_mem_lives (hperm.symm.subset List.mem_cons_self)
  obtain ⟨-,-,-,howner,-⟩ := headed_append.mp hholds.headed
  have hunits : u = nunits nbytes := howner nbytes rfl
  have hfits := le_nunits nbytes
  have hlo := le_stop lo L
  have hend := le_stop (stop lo L+unit*u) R
  have hbrk := hholds.brk
  rw [stop_append,stop] at hbrk
  simp only at hp hbrk
  rw [hunits] at hend hbrk
  omega

theorem Holds.search_huge (h : Holds base lo s ps) (hbrk : s.brk < nbytes) (hfuel : s.brk < fuel) :
    Umalloc.search s (nunits nbytes) fuel s.freep = some .wrapped := by
  rcases @Holds.search base lo s ps h (nunits nbytes) fuel hfuel with ⟨prevp,hmem,hfit,-⟩ | ⟨hw,-⟩
  · obtain ⟨ps',hne,-⟩ := h.take hmem hfit
    have hin := (h.served_take hmem hfit).inside hne
    rw [take_brk] at hin
    omega
  · exact hw

theorem nunits_lt (h : nbytes < 2^32) : coreUnits (nunits nbytes)*unit < 2^33 := by
  unfold coreUnits nunits unit
  split <;> omega

theorem le_nbytes (h : 2^31 ≤ coreUnits (nunits nbytes)*unit) :
    2^31-31 ≤ nbytes ∧ coreUnits (nunits nbytes) = nunits nbytes := by
  by_cases hc : nunits nbytes < 4096
  · rw [coreUnits,if_pos hc] at h
    exact absurd h (by decide)
  · rw [coreUnits,if_neg hc] at *
    unfold nunits unit at *
    omega

theorem grown_lt {brk sz : ℕ} {n : Int32} (hb : brk < 2^40) (h : grown k brk n = some sz) :
    sz < brk+2^31 ∧ (sz ≤ brk ∨ sz ≤ k.limit) := by
  have hlt := n.toInt_lt
  have hge := n.le_toInt
  unfold grown at h
  dsimp only at h
  split at h
  · split at h
    · next hk =>
      cases h
      exact ⟨by omega,.inr hk.2⟩
    · cases h
  · split at h
    · cases h
      split <;> omega
    · cases h
      omega

/-- `morecore` believes that it has the whole block: it does with the list what it would do with a
break that had really moved. -/
theorem Holds.morecore32_faked (h : Holds base lo s ps) (hn : nbytes < 2^32) (hb : s.brk < 2^32)
    (hfuel : 2^34 ≤ fuel) {sz : ℕ} (hg : grown k s.brk (sbrkArg (nunits nbytes)) = some sz)
    (hpage : s.brk+unit ≤ PGROUNDUP sz) :
    ∃ t ps', morecore32 k fuel s (nunits nbytes) = some (.ret {t with brk := sz} t.freep) ∧
      t.brk < 2^34 ∧ Holds base lo t ps' ∧ ∃ q ∈ ps', q.owner = none ∧ nunits nbytes ≤ q.units := by
  have hcore := le_coreUnits (nunits nbytes)
  have hlt := nunits_lt hn
  have hloose := h.loose (n := coreUnits (nunits nbytes)) (by omega) (by unfold unit at *; omega)
  obtain ⟨t,ps',hfree,hbrk,-,⟨q,hq,howner,hunits⟩,hholds⟩ :=
    hloose.free (show s.brk+coreUnits (nunits nbytes)*unit+1 < fuel by omega)
  rw [h.brk] at hfree
  refine ⟨t,ps',?_,by rw [hbrk]; dsimp only; omega,hholds,q,hq,howner,hcore.1.trans hunits⟩
  have hmoved := free_brk {s with
    size := Function.update s.size s.brk (coreUnits (nunits nbytes))
    brk := s.brk+coreUnits (nunits nbytes)*unit} sz fuel (s.brk+unit)
  rw [hfree] at hmoved
  unfold morecore32
  rw [hg]
  simp only [if_pos hpage]
  dsimp only at hmoved
  rw [hmoved]
  rfl

theorem Holds.mallocLoop32_fit (h : Holds base lo s ps) {b : ℕ} (hfuel : s.brk+1 < fuel)
    (hfit : ∃ q ∈ ps, q.owner = none ∧ nunits nbytes ≤ q.units) :
    ∃ t p, mallocLoop32 k (nunits nbytes) fuel {s with brk := b} s.freep = some (.ret t p) ∧ p ≠ 0 ∧
      t.brk = b := by
  obtain ⟨fuel,rfl⟩ : ∃ f, fuel = f+1 := ⟨fuel-1,by omega⟩
  obtain ⟨q,hq,howner,hunits⟩ := hfit
  obtain ⟨a,ha,hsize⟩ := mem_frees_of_mem hq howner h.headed
  rw [mallocLoop32,search_brk]
  rcases @Holds.search base lo s ps h (nunits nbytes) fuel (by omega) with
    ⟨prevp,hmem,hfit,heq⟩ | ⟨-,hall⟩
  · rw [heq]
    obtain ⟨ps',hne,-⟩ := h.take hmem hfit
    refine ⟨_,_,rfl,?_,take_brk ..⟩
    rw [take_snd_brk]
    exact hne
  · have hlt : s.size a < nunits nbytes := hall a ha
    omega

/-- A faked `morecore` makes `malloc` return a pointer although the process has not grown. -/
theorem Holds.mallocLoop32_faked (h : Holds base lo s ps) (hn : nbytes < 2^32) (hb : s.brk ≤ 2^27)
    (hlimit : k.limit ≤ 2^27) (hfuel : 2^35 ≤ fuel) (hfake : Faked k s.brk nbytes) :
    ∃ t p, mallocLoop32 k (nunits nbytes) fuel s s.freep = some (.ret t p) ∧ p ≠ 0 ∧ t.brk ≤ 2^27 := by
  obtain ⟨hhuge,sz,hg,hpage⟩ := hfake
  obtain ⟨hbytes,-⟩ := le_nbytes hhuge
  have hsz := grown_lt (by omega) hg
  obtain ⟨fuel,rfl⟩ : ∃ f, fuel = f+1 := ⟨fuel-1,by omega⟩
  obtain ⟨t,ps',hmore,hbrk,hholds,hfit⟩ :=
    h.morecore32_faked hn (by omega) (show 2^34 ≤ fuel by omega) hg hpage
  rw [mallocLoop32,h.search_huge (by omega) (by omega),hmore]
  simp only [if_neg hholds.freep_ne_zero]
  obtain ⟨u,p,hu,hp,hub⟩ := hholds.mallocLoop32_fit (k := k) (b := sz) (show t.brk+1 < fuel by omega) hfit
  exact ⟨u,p,hu,hp,by omega⟩

theorem Holds.mallocLoop32_honest (h : Holds base lo s ps) (hb : s.brk ≤ 2^27) (hfuel : 2^35 ≤ fuel)
    (hhuge : 2^31 ≤ coreUnits (nunits nbytes)*unit) (hfake : ¬ Faked k s.brk nbytes) :
    mallocLoop32 k (nunits nbytes) fuel s s.freep = some (.ret s 0) ∧
        morecore32 k fuel s (nunits nbytes) = some (.ret s 0) ∨
      mallocLoop32 k (nunits nbytes) fuel s s.freep = some .killed ∧
        morecore32 k fuel s (nunits nbytes) = some .killed := by
  obtain ⟨hbytes,-⟩ := le_nbytes hhuge
  obtain ⟨fuel,rfl⟩ : ∃ f, fuel = f+1 := ⟨fuel-1,by omega⟩
  rw [mallocLoop32,h.search_huge (by omega) (by omega)]
  cases hg : grown k s.brk (sbrkArg (nunits nbytes)) with
  | none =>
    have hmore : ∀ f, morecore32 k f s (nunits nbytes) = some (.ret s 0) := fun f => by
      rw [morecore32,hg]
    refine .inl ⟨?_,hmore _⟩
    rw [hmore]
    rfl
  | some sz =>
    have hpage : ¬ s.brk+unit ≤ PGROUNDUP sz := fun hh => hfake ⟨hhuge,sz,hg,hh⟩
    have hmore : ∀ f, morecore32 k f s (nunits nbytes) = some .killed := fun f => by
      rw [morecore32,hg]
      simp only [if_neg hpage]
    refine .inr ⟨?_,hmore _⟩
    rw [hmore]

end Huge

section Calls

variable {base lo limit fuel : ℕ} {s : Sys}

theorem Inv.started (hpos : 0 < base) (hbase : base+unit ≤ lo) (h : Inv base lo limit s) :
    ∃ ps, Holds base lo (started base s.heap) ps := by
  unfold Umalloc.started
  rcases h.2 with ⟨hfreep,hbrk,-⟩ | ⟨ps,hholds,-⟩
  · rw [if_pos hfreep]
    exact ⟨[],holds_nil hpos hbase hbrk⟩
  · rw [if_neg hholds.freep_ne_zero]
    exact ⟨ps,hholds⟩

theorem started_brk (base : ℕ) (s : State) : (started base s).brk = s.brk := by
  unfold started
  split <;> rfl

/-- For every heap that a program can make with requests that fit into an `int` and for every
`uint`: the block that `malloc` returns lies in memory obtained from `sbrk`, and `morecore` returns
0 or has got its bytes, exactly if the request is not faked. -/
theorem malloc_obtained_iff {ptr size : ℕ → ℕ} {as : List Action} (hpos : 0 < base)
    (hbase : base+unit ≤ lo) (hlo : lo ≤ 2^27) (hlimit : limit ≤ 2^27) (hfuel : 2^35 ≤ fuel)
    (hrun : Machine.run (step base limit fuel) (init ptr size lo) as = some s) (avail : ℕ → Bool)
    {nbytes : ℕ} (hn : nbytes < 2^32) :
    (Obtained base lo ⟨avail,limit⟩ fuel s.heap nbytes ↔ ¬ Faked ⟨avail,limit⟩ s.heap.brk nbytes) ∧
    (Extended base ⟨avail,limit⟩ fuel s.heap nbytes ↔ ¬ Faked ⟨avail,limit⟩ s.heap.brk nbytes) := by
  have hlimit' : limit < lo+unit*2^32 := by
    unfold unit
    omega
  have hinv : Inv base lo limit s := Machine.run_invariant
    (fun _ _ _ h ht => h.step hpos hbase hlimit' (by omega) ht)
    (show Inv base lo limit (init ptr size lo) from ⟨.inl rfl,.inl ⟨rfl,rfl,rfl⟩⟩) hrun
  obtain ⟨ps,h⟩ := hinv.started hpos hbase
  have hb : s.heap.brk ≤ 2^27 := by
    have := hinv.1
    omega
  have hbrk := started_brk base s.heap
  rw [← hbrk] at hb ⊢
  unfold Obtained Extended malloc32
  generalize started base s.heap = heap at *
  have hl40 : limit < 2^40 := hlimit.trans_lt (by norm_num)
  have hb40 : heap.brk < 2^40 := hb.trans_lt (by norm_num)
  have hfuel' : heap.brk+limit+2 < fuel := by omega
  by_cases hhuge : 2^31 ≤ coreUnits (nunits nbytes)*unit
  · by_cases hfake : Faked ⟨avail,limit⟩ heap.brk nbytes
    · constructor
      · refine iff_of_false (fun hob => ?_) (not_not.2 hfake)
        obtain ⟨t,p,ht,hp,htb⟩ := h.mallocLoop32_faked hn hb hlimit hfuel hfake
        have := hob t p ht hp
        have := (le_nbytes hhuge).1
        omega
      · refine iff_of_false (fun hex => ?_) (not_not.2 hfake)
        obtain ⟨_,sz,hg,hpage⟩ := hfake
        obtain ⟨t,ps',hmore,-,hholds,-⟩ := h.morecore32_faked hn (by omega)
          (show 2^34 ≤ fuel by omega) hg hpage
        have hsz := (grown_lt (by omega) hg).1
        rw [(le_nbytes hhuge).2] at hhuge
        rcases hex _ _ hmore with h0 | hle
        · exact hholds.freep_ne_zero h0
        · change _ ≤ sz at hle
          omega
    · rcases h.mallocLoop32_honest hb hfuel hhuge hfake with ⟨hm,hc⟩ | ⟨hm,hc⟩
      · rw [hm,hc]
        refine ⟨iff_of_true (fun t p ht hp => ?_) hfake,iff_of_true (fun t p ht => ?_) hfake⟩
        · cases ht
          exact absurd rfl hp
        · cases ht
          exact .inl rfl
      · rw [hm,hc]
        exact ⟨iff_of_true (fun t p ht => by cases ht) hfake,iff_of_true (fun t p ht => by cases ht) hfake⟩
  · have hfake : ¬ Faked ⟨avail,limit⟩ heap.brk nbytes := fun hh => hhuge hh.1
    rw [not_le] at hhuge
    refine ⟨iff_of_true (fun t p ht hp => ?_) hfake,iff_of_true (fun t p ht => ?_) hfake⟩
    · rw [mallocLoop32_modest (k := ⟨avail,limit⟩) hhuge hl40 hb40] at ht
      obtain ⟨r,hr,-,hserved⟩ := @Holds.mallocLoop base lo heap ps h ⟨avail,limit⟩ fuel nbytes hlimit'
        hfuel'
      rw [hr] at ht
      cases ht
      exact hserved.inside hp
    · rw [morecore32_modest hhuge hb40,Option.map_eq_some_iff] at ht
      obtain ⟨r,hr,ht⟩ := ht
      cases ht
      rcases morecore_brk hr with rfl | ⟨heq,-⟩
      · exact .inl rfl
      · have := Nat.mul_le_mul_right unit (le_coreUnits (nunits nbytes)).1
        exact .inr (by omega)

/-- A first request of 100 bytes in a process of two pages. -/
theorem malloc_obtained_iff_hundred :
    Machine.run (step 16 (2^20) (2^35)) (init (fun _ => 0) (fun _ => 0) 8192) [] =
      some (init (fun _ => 0) (fun _ => 0) 8192) ∧
    Obtained 16 8192 ⟨fun _ => true,2^20⟩ (2^35) (init (fun _ => 0) (fun _ => 0) 8192).heap 100 ∧
    Extended 16 ⟨fun _ => true,2^20⟩ (2^35) (init (fun _ => 0) (fun _ => 0) 8192).heap 100 := by
  have hrun : Machine.run (step 16 (2^20) (2^35)) (init (fun _ => 0) (fun _ => 0) 8192) [] =
      some (init (fun _ => 0) (fun _ => 0) 8192) := rfl
  have hfake : ¬ Faked ⟨fun _ => true,2^20⟩ (init (fun _ => 0) (fun _ => 0) 8192).heap.brk 100 :=
    fun h => absurd h.1 (by decide)
  have h := malloc_obtained_iff (by decide) (by decide) (by decide) (by decide) (by decide) hrun
    (fun _ => true) (show 100 < 2^32 by decide)
  exact ⟨hrun,h.1.2 hfake,h.2.2 hfake⟩

/-- `malloc(0xffffffff)` in a process of two pages: `sbrk` gets 16, and the pointer returned has
no byte behind it. -/
theorem malloc_unobtained : ∃ t,
    malloc32 16 ⟨fun _ => true,2^20⟩ (2^35) (init (fun _ => 0) (fun _ => 0) 8192).heap (2^32-1) =
      some (.ret t 8208) ∧ t.brk = 8208 := by
  refine ⟨_,rfl,rfl⟩

end Calls

end Xv6.Umalloc
