import Xv6.Umalloc

/-! The heap as a row of pieces. Between its first byte and the break the memory of the allocator
is cut into pieces without gaps; a piece is in use or free, and the free list runs through the
free ones in the order of their addresses. -/
namespace Xv6.Umalloc

open Links

/-- A piece of the heap with the request it serves; `none` is a free piece. -/
structure Piece where
  units : ℕ
  owner : Option ℕ
deriving DecidableEq

def stop (lo : ℕ) : List Piece → ℕ
  | [] => lo
  | p::ps => stop (lo+unit*p.units) ps

def frees (lo : ℕ) : List Piece → List ℕ
  | [] => []
  | p::ps =>
    if p.owner = none then lo::frees (lo+unit*p.units) ps else frees (lo+unit*p.units) ps

def lives (lo : ℕ) : List Piece → List (ℕ × ℕ)
  | [] => []
  | p::ps =>
    match p.owner with
    | none => lives (lo+unit*p.units) ps
    | some n => (lo+unit,n)::lives (lo+unit*p.units) ps

/-- The header of every piece tells its size, and a piece in use has the size of its request. -/
def Headed (size : ℕ → ℕ) (lo : ℕ) : List Piece → Prop
  | [] => True
  | p::ps => size lo = p.units ∧ 0 < p.units ∧ (∀ n, p.owner = some n → p.units = nunits n) ∧
      Headed size (lo+unit*p.units) ps

def Apart (ps : List Piece) : Prop := ps.IsChain fun p q => p.owner ≠ none ∨ q.owner ≠ none

theorem lt_add_unit {a n : ℕ} (h : 0 < n) : a < a+unit*n := by
  unfold unit
  omega

theorem lt_of_units {lo a n b : ℕ} (hb : b < lo+unit*2^32) (ha : lo ≤ a) (h : a+unit*n ≤ b) :
    n < 2^32 := by
  unfold unit at *
  omega

section Rows

variable {size size' : ℕ → ℕ} {lo : ℕ} {ps qs : List Piece}

@[simp] theorem stop_append (lo : ℕ) (ps qs : List Piece) :
    stop lo (ps++qs) = stop (stop lo ps) qs := by
  induction ps generalizing lo with
  | nil => rfl
  | cons p ps ih => exact ih _

@[simp] theorem frees_append (lo : ℕ) (ps qs : List Piece) :
    frees lo (ps++qs) = frees lo ps++frees (stop lo ps) qs := by
  induction ps generalizing lo with
  | nil => rfl
  | cons p ps ih =>
    simp only [List.cons_append,frees,stop,ih]
    split <;> rfl

@[simp] theorem lives_append (lo : ℕ) (ps qs : List Piece) :
    lives lo (ps++qs) = lives lo ps++lives (stop lo ps) qs := by
  induction ps generalizing lo with
  | nil => rfl
  | cons p ps ih =>
    simp only [List.cons_append,lives,stop,ih]
    split <;> rfl

@[simp] theorem headed_append : Headed size lo (ps++qs) ↔
    Headed size lo ps ∧ Headed size (stop lo ps) qs := by
  induction ps generalizing lo with
  | nil => simp [Headed,stop]
  | cons p ps ih => simp only [List.cons_append,Headed,stop,ih,and_assoc]

theorem le_stop (lo : ℕ) (ps : List Piece) : lo ≤ stop lo ps := by
  induction ps generalizing lo with
  | nil => exact le_rfl
  | cons p ps ih => exact (Nat.le_add_right _ _).trans (ih _)

theorem Headed.frees_bounds (h : Headed size lo ps) :
    ∀ a ∈ frees lo ps, lo ≤ a ∧ a < stop lo ps := by
  induction ps generalizing lo with
  | nil => simp [frees]
  | cons p ps ih =>
    intro a ha
    have hlt : lo < lo+unit*p.units := lt_add_unit h.2.1
    have hle := le_stop (lo+unit*p.units) ps
    simp only [frees,stop] at ha ⊢
    split at ha
    · rcases List.mem_cons.mp ha with rfl | ha
      · exact ⟨le_rfl,hlt.trans_le hle⟩
      · have hb := ih h.2.2.2 a ha
        omega
    · have hb := ih h.2.2.2 a ha
      omega

theorem Headed.frees_sorted (h : Headed size lo ps) : (frees lo ps).Pairwise (· < ·) := by
  induction ps generalizing lo with
  | nil => exact .nil
  | cons p ps ih =>
    simp only [frees]
    split
    · refine List.pairwise_cons.mpr ⟨fun a ha => ?_,ih h.2.2.2⟩
      exact (lt_add_unit h.2.1).trans_le (h.2.2.2.frees_bounds a ha).1
    · exact ih h.2.2.2

theorem Headed.frees_end (h : Headed size lo ps) :
    ∀ a ∈ frees lo ps, 0 < size a ∧ a+unit*size a ≤ stop lo ps := by
  induction ps generalizing lo with
  | nil => simp [frees]
  | cons p ps ih =>
    intro a ha
    have hle := le_stop (lo+unit*p.units) ps
    simp only [frees] at ha
    split at ha
    · rcases List.mem_cons.mp ha with rfl | ha
      · rw [h.1]
        exact ⟨h.2.1,hle⟩
      · exact ih h.2.2.2 a ha
    · exact ih h.2.2.2 a ha

theorem Headed.congr (h : Headed size lo ps)
    (heq : ∀ a, lo ≤ a → a < stop lo ps → size' a = size a) : Headed size' lo ps := by
  induction ps generalizing lo with
  | nil => trivial
  | cons p ps ih =>
    obtain ⟨hsize,hpos,howner,hrest⟩ := h
    have hlt : lo < lo+unit*p.units := lt_add_unit hpos
    have hle := le_stop (lo+unit*p.units) ps
    refine ⟨?_,hpos,howner,ih hrest fun a ha hb => heq a (hlt.le.trans ha) hb⟩
    rw [heq lo le_rfl (hlt.trans_le hle),hsize]

end Rows

section Search

variable {s : State} {bp base : ℕ}

def Stops (s : State) (bp p : ℕ) : Prop :=
  p < bp ∧ bp < s.ptr p ∨ s.ptr p ≤ p ∧ (p < bp ∨ bp < s.ptr p)

theorem findSlot_stop {p fuel : ℕ} (hp : Stops s bp p) (hfuel : 0 < fuel) :
    findSlot s bp fuel p = some p := by
  obtain ⟨fuel,rfl⟩ : ∃ f, fuel = f+1 := ⟨fuel-1,by omega⟩
  rw [findSlot]
  split
  · rfl
  · rename_i hno
    rw [if_pos (hp.resolve_left hno)]

theorem findSlot_go {p fuel : ℕ} (hp : ¬ Stops s bp p) :
    findSlot s bp (fuel+1) p = findSlot s bp fuel (s.ptr p) := by
  rw [Stops,not_or] at hp
  rw [findSlot,if_neg hp.1,if_neg hp.2]

theorem findSlot_path {x p fuel : ℕ} {l : List ℕ} (h : Path s.ptr x l p)
    (hgo : ∀ y ∈ x::l, ¬ Stops s bp y) (hp : Stops s bp p) (hfuel : l.length+1 < fuel) :
    findSlot s bp fuel x = some p := by
  obtain ⟨fuel,rfl⟩ : ∃ f, fuel = f+1 := ⟨fuel-1,by omega⟩
  rw [findSlot_go (hgo x List.mem_cons_self)]
  induction l generalizing x fuel with
  | nil =>
    rw [path_nil.mp h]
    exact findSlot_stop hp (by omega)
  | cons y l ih =>
    simp only [List.length_cons] at hfuel
    obtain ⟨fuel,rfl⟩ : ∃ f, fuel = f+1 := ⟨fuel-1,by omega⟩
    have hgo' : ∀ z ∈ y::l, ¬ Stops s bp z := fun z hz => hgo z (List.mem_cons_of_mem x hz)
    rw [h.1,findSlot_go (hgo' y List.mem_cons_self)]
    exact ih h.2 hgo' fuel (by omega)

section Slot

variable {A B : List ℕ} (hpath : Path s.ptr base (A++B) base)
  (hsorted : (base::(A++B)).Pairwise (· < ·)) (hbase : base < bp) (hA : ∀ a ∈ A, a < bp)
  (hB : ∀ b ∈ B, bp < b)

include hpath hsorted hbase hA hB

theorem stops_last : Stops s bp ((base::A).getLast (List.cons_ne_nil base A)) := by
  have hlast : (base::A).getLast (List.cons_ne_nil base A) ∈ base::A := List.getLast_mem _
  have hlt : (base::A).getLast (List.cons_ne_nil base A) < bp := by
    rcases List.mem_cons.mp hlast with h | h
    · rwa [h]
    · exact hA _ h
  have hp := hpath.from_last
  cases B with
  | nil =>
    have hge : base ≤ (base::A).getLast (List.cons_ne_nil base A) := by
      rcases List.mem_cons.mp hlast with h | h
      · exact h.ge
      · rw [List.append_nil] at hsorted
        exact ((List.pairwise_cons.mp hsorted).1 _ h).le
    exact .inr ⟨by rwa [path_nil.mp hp],.inl hlt⟩
  | cons b B => exact .inl ⟨hlt,by rw [hp.1]; exact hB b List.mem_cons_self⟩

omit hpath hsorted hA in
theorem not_stops_above {q y : ℕ} (h : Path s.ptr q B base) (hq : (q::B).Pairwise (· < ·))
    (hy : y ∈ B) : ¬ Stops s bp y := by
  have hgt := hB y hy
  have hnext := h.lt_next hq (List.mem_cons_of_mem q hy)
  unfold Stops
  omega

theorem not_stops_of_ne {y : ℕ} (hy : y ∈ base::(A++B))
    (hne : y ≠ (base::A).getLast (List.cons_ne_nil base A)) : ¬ Stops s bp y := by
  rcases A.eq_nil_or_concat with rfl | ⟨A',p,rfl⟩
  · have hyB := (List.mem_cons.mp hy).resolve_left hne
    exact not_stops_above hbase hB hpath hsorted hyB
  · simp only [List.concat_eq_append,List.append_assoc,List.singleton_append] at hpath hsorted hy
    obtain ⟨hl,hr⟩ := path_append.mp hpath
    rw [← List.cons_append] at hsorted hy
    obtain ⟨hlow,hhigh,hcross⟩ := List.pairwise_append.mp hsorted
    rcases List.mem_append.mp hy with hlo | hhi
    · -- below the last node the list goes up and stays below `bp`
      have hp : p < bp := hA p (by simp)
      have hyp := hcross y hlo p List.mem_cons_self
      have hnext : y < s.ptr y ∧ s.ptr y < bp := by
        rcases hl.lt_next hlow hlo with hup | hend
        · refine ⟨hup,?_⟩
          rcases hl.next_mem hlo with hmem | hend
          · exact hA _ (by simp [hmem])
          · rwa [hend]
        · exact ⟨by rwa [hend],by rwa [hend]⟩
      unfold Stops
      omega
    · have hyB : y ∈ B := (List.mem_cons.mp hhi).resolve_left fun h => hne (by simpa using h)
      exact not_stops_above hbase hB hr hhigh hyB

/-- In a circular list sorted from `base` on, the loop of `free` finds the last node below
`bp`. -/
theorem findSlot_spec {x fuel : ℕ} (hx : x ∈ base::(A++B)) (hfuel : (A++B).length+1 < fuel) :
    findSlot s bp fuel x = some ((base::A).getLast (List.cons_ne_nil base A)) := by
  set p := (base::A).getLast (List.cons_ne_nil base A) with hp
  have hstop : Stops s bp p := stops_last hpath hsorted hbase hA hB
  have hmem : p ∈ base::(A++B) := by
    rw [← List.cons_append]
    exact List.mem_append_left B (List.getLast_mem _)
  obtain ⟨l,hl,hperm⟩ := hpath.enter hx
  have hnodup : (x::l).Nodup := hperm.nodup_iff.mpr (hsorted.imp ne_of_lt)
  rcases List.mem_cons.mp (hperm.mem_iff.mpr hmem) with heq | hpl
  · rw [← heq]
    exact findSlot_stop hstop (by omega)
  · obtain ⟨u,v,rfl⟩ := List.append_of_mem hpl
    refine findSlot_path (path_append.mp hl).1 (fun y hy => ?_) hstop ?_
    · refine not_stops_of_ne hpath hsorted hbase hA hB (hperm.mem_iff.mp ?_) ?_
      · rw [← List.cons_append]
        exact List.mem_append_left _ hy
      · rintro rfl
        rw [← List.cons_append] at hnodup
        exact (List.nodup_append.mp hnodup).2.2 _ hy _ List.mem_cons_self rfl
    · have hlen := hperm.length_eq
      simp only [List.length_cons,List.length_append] at hlen hfuel
      omega

end Slot

end Search

/-- The pieces `ps` between `lo` and the break are what the headers and the free list describe. -/
structure Holds (base lo : ℕ) (s : State) (ps : List Piece) : Prop where
  base_pos : 0 < base
  base_lt : base+unit ≤ lo
  base_size : s.size base = 0
  headed : Headed s.size lo ps
  brk : stop lo ps = s.brk
  links : Path s.ptr base (frees lo ps) base
  freep : s.freep ∈ base::frees lo ps
  apart : Apart ps
  small : s.brk < lo+unit*2^32

/-- The same with a block of `n` units between the pieces of `L` and `R` that belongs to nobody
and is not in the free list. -/
structure Loose (base lo : ℕ) (s : State) (L : List Piece) (n : ℕ) (R : List Piece) : Prop where
  base_pos : 0 < base
  base_lt : base+unit ≤ lo
  base_size : s.size base = 0
  left : Headed s.size lo L
  here : s.size (stop lo L) = n
  pos : 0 < n
  right : Headed s.size (stop lo L+unit*n) R
  brk : stop (stop lo L+unit*n) R = s.brk
  links : Path s.ptr base (frees lo L++frees (stop lo L+unit*n) R) base
  freep : s.freep ∈ base::(frees lo L++frees (stop lo L+unit*n) R)
  apartL : Apart L
  apartR : Apart R
  small : s.brk < lo+unit*2^32

namespace Loose

variable {base lo n : ℕ} {s : State} {L R : List Piece} (h : Loose base lo s L n R)

include h

theorem base_lt_here : base < stop lo L := by
  have hle := le_stop lo L
  have hlt := h.base_lt
  unfold unit at hlt
  omega

theorem left_lt : ∀ a ∈ frees lo L, a < stop lo L := fun a ha => (h.left.frees_bounds a ha).2

theorem lt_right : ∀ b ∈ frees (stop lo L+unit*n) R, stop lo L < b :=
  fun b hb => (lt_add_unit h.pos).trans_le (h.right.frees_bounds b hb).1

theorem sorted : (base::(frees lo L++frees (stop lo L+unit*n) R)).Pairwise (· < ·) := by
  refine List.pairwise_cons.mpr ⟨fun a ha => ?_,List.pairwise_append.mpr
    ⟨h.left.frees_sorted,h.right.frees_sorted,fun a ha b hb =>
      (h.left_lt a ha).trans (h.lt_right b hb)⟩⟩
  rcases List.mem_append.mp ha with ha | ha
  · have hlo := (h.left.frees_bounds a ha).1
    have hlt := h.base_lt
    unfold unit at hlt
    omega
  · exact h.base_lt_here.trans (h.lt_right a ha)

theorem findSlot_eq {fuel : ℕ}
    (hfuel : (frees lo L++frees (stop lo L+unit*n) R).length+1 < fuel) :
    findSlot s (stop lo L) fuel s.freep =
      some ((base::frees lo L).getLast (List.cons_ne_nil _ _)) :=
  findSlot_spec h.links h.sorted h.base_lt_here h.left_lt h.lt_right h.freep hfuel

/-- The node in front of the block points at its end only if a free piece starts there. -/
theorem next_eq_iff :
    stop lo L+unit*n = s.ptr ((base::frees lo L).getLast (List.cons_ne_nil _ _)) ↔
      ∃ m R', R = ⟨m,none⟩::R' := by
  have hp := h.links.from_last
  have hbase := h.base_lt_here
  constructor
  · intro heq
    cases R with
    | nil =>
      have hend : s.ptr _ = base := hp
      rw [hend] at heq
      omega
    | cons q R =>
      obtain ⟨m,owner⟩ := q
      cases owner with
      | none => exact ⟨m,R,rfl⟩
      | some k =>
        rcases hp.next_mem List.mem_cons_self with hmem | hend
        · have hlo := (h.right.2.2.2.frees_bounds _ hmem).1
          have hlt : stop lo L+unit*n < stop lo L+unit*n+unit*m := lt_add_unit h.right.2.1
          rw [← heq] at hlo
          simp only at hlo
          omega
        · rw [hend] at heq
          omega
  · rintro ⟨m,R',rfl⟩
    exact hp.1.symm

end Loose

/-- After `joinNext`: the block of `n` units points into the list behind it, and the free piece
that followed it, if any, is part of it. -/
structure Joined (base lo : ℕ) (s : State) (L : List Piece) (n : ℕ) (R : List Piece) : Prop where
  base_pos : 0 < base
  base_lt : base+unit ≤ lo
  base_size : s.size base = 0
  left : Headed s.size lo L
  here : s.size (stop lo L) = n
  pos : 0 < n
  right : Headed s.size (stop lo L+unit*n) R
  brk : stop (stop lo L+unit*n) R = s.brk
  links : ∃ r, Path s.ptr base (frees lo L++r) base
  next : Path s.ptr (stop lo L) (frees (stop lo L+unit*n) R) base
  apartL : Apart L
  apartR : Apart (⟨n,none⟩::R)
  small : s.brk < lo+unit*2^32

theorem Loose.left_update {base lo n : ℕ} {s : State} {L R : List Piece}
    (h : Loose base lo s L n R) (v : ℕ) :
    Headed (Function.update s.size (stop lo L) v) lo L :=
  h.left.congr fun _ _ ha => Function.update_of_ne ha.ne _ _

theorem Loose.joinNext {base lo n : ℕ} {s : State} {L R : List Piece} (h : Loose base lo s L n R) :
    ∃ n' R', n ≤ n' ∧ lives (stop lo L+unit*n') R' = lives (stop lo L+unit*n) R ∧
      Joined base lo (joinNext s (stop lo L) ((base::frees lo L).getLast (List.cons_ne_nil _ _)))
        L n' R' := by
  set p := (base::frees lo L).getLast (List.cons_ne_nil _ _) with hp
  have hpath := h.links.from_last
  have hbase := h.base_lt_here
  have hmem : stop lo L ∉ base::(frees lo L++frees (stop lo L+unit*n) R) := by
    intro hin
    rcases List.mem_cons.mp hin with heq | hin
    · omega
    · rcases List.mem_append.mp hin with hin | hin
      · exact (h.left_lt _ hin).false
      · exact (h.lt_right _ hin).false
  have hlinks : ∀ v, Path (Function.update s.ptr (stop lo L) v) base
      (frees lo L++frees (stop lo L+unit*n) R) base := fun v => h.links.update hmem v
  by_cases hjoin : stop lo L+unit*n = s.ptr p
  · obtain ⟨m,R',rfl⟩ := h.next_eq_iff.mp hjoin
    have hsize : s.size (stop lo L+unit*n) = m := h.right.1
    have hadd : stop lo L+unit*(n+m) = stop lo L+unit*n+unit*m := by rw [Nat.mul_add,Nat.add_assoc]
    have hfit : (n+m)%2^32 = n+m := by
      refine Nat.mod_eq_of_lt (lt_of_units h.small (le_stop lo L) ?_)
      rw [hadd,← h.brk]
      exact le_stop _ R'
    have htail : Path s.ptr (stop lo L+unit*n) (frees (stop lo L+unit*n+unit*m) R') base := hpath.2
    have hgt : ∀ y, stop lo L+unit*n+unit*m ≤ y → y ≠ stop lo L := by
      intro y hy
      have hlt : stop lo L < stop lo L+unit*n := lt_add_unit h.pos
      omega
    refine ⟨n+m,R',Nat.le_add_right n m,?_,?_⟩
    · rw [hadd]
      rfl
    rw [Umalloc.joinNext,h.here,if_pos hjoin,← hjoin,hsize,hfit]
    exact {
      base_pos := h.base_pos
      base_lt := h.base_lt
      base_size := (Function.update_of_ne hbase.ne _ _).trans h.base_size
      left := h.left_update (n+m)
      here := Function.update_self ..
      pos := Nat.add_pos_left h.pos m
      right := by
        rw [hadd]
        exact h.right.2.2.2.congr fun y hy _ => Function.update_of_ne (hgt y hy) _ _
      brk := by rw [hadd]; exact h.brk
      links := ⟨_,hlinks _⟩
      next := by
        rw [hadd]
        refine htail.start (Function.update_self ..) fun y hy => Function.update_of_ne ?_ _ _
        exact hgt y (h.right.2.2.2.frees_bounds y hy).1
      apartL := h.apartL
      apartR := by
        obtain ⟨hhead,hrest⟩ := List.isChain_cons.mp h.apartR
        exact List.isChain_cons.mpr ⟨hhead,hrest⟩
      small := h.small}
  · refine ⟨n,R,le_rfl,rfl,?_⟩
    rw [Umalloc.joinNext,h.here,if_neg hjoin]
    exact {
      base_pos := h.base_pos
      base_lt := h.base_lt
      base_size := h.base_size
      left := h.left
      here := h.here
      pos := h.pos
      right := h.right
      brk := h.brk
      links := ⟨_,hlinks _⟩
      next := hpath.start (Function.update_self ..) fun y hy => Function.update_of_ne
        (h.lt_right y hy).ne' _ _
      apartL := h.apartL
      apartR := by
        refine List.isChain_cons.mpr ⟨fun q hq => .inr fun hfree => ?_,h.apartR⟩
        obtain ⟨R',rfl⟩ := List.head?_eq_some_iff.mp hq
        exact hjoin (h.next_eq_iff.mpr ⟨q.units,R',by rw [← hfree]⟩)
      small := h.small}

namespace Joined

variable {base lo n : ℕ} {s : State} {L R : List Piece}

theorem base_lt_left (h : Joined base lo s L n R) : ∀ a ∈ frees lo L, base < a := by
  intro a ha
  have hlo := (h.left.frees_bounds a ha).1
  have hlt := h.base_lt
  unfold unit at hlt
  omega

theorem base_lt_here (h : Joined base lo s L n R) : base < stop lo L := by
  have hle := le_stop lo L
  have hlt := h.base_lt
  unfold unit at hlt
  omega

theorem nodup (h : Joined base lo s L n R) : (base::frees lo L).Nodup :=
  (List.pairwise_cons.mpr ⟨h.base_lt_left,h.left.frees_sorted⟩).imp ne_of_lt

theorem node_lt (h : Joined base lo s L n R) : ∀ p ∈ base::frees lo L, p < stop lo L := by
  intro p hp
  rcases List.mem_cons.mp hp with rfl | hp
  · exact h.base_lt_here
  · exact (h.left.frees_bounds p hp).2

/-- Behind pieces that end with one in use no node reaches the block. -/
theorem node_end_ne (h : Joined base lo s L n R) (hlive : ∀ q ∈ L.getLast?, q.owner ≠ none) :
    ∀ p ∈ base::frees lo L, p+unit*s.size p ≠ stop lo L := by
  intro p hp
  rcases List.mem_cons.mp hp with rfl | hp
  · rw [h.base_size]
    exact h.base_lt_here.ne
  · rcases L.eq_nil_or_concat with rfl | ⟨L',q,rfl⟩
    · exact absurd hp List.not_mem_nil
    · have howner : q.owner ≠ none := hlive q (by simp)
      have hleft := h.left
      simp only [List.concat_eq_append,headed_append] at hleft
      simp only [List.concat_eq_append,frees_append,frees,if_neg howner,List.append_nil,stop_append,
        stop] at hp ⊢
      have hend := (hleft.1.frees_end p hp).2
      have hlt : stop lo L' < stop lo L'+unit*q.units := lt_add_unit hleft.2.2.1
      omega

theorem link (h : Joined base lo s L n R) (hlive : ∀ q ∈ L.getLast?, q.owner ≠ none) :
    Holds base lo {Umalloc.joinPrev s (stop lo L)
      ((base::frees lo L).getLast (List.cons_ne_nil _ _)) with
        freep := (base::frees lo L).getLast (List.cons_ne_nil _ _)} (L++⟨n,none⟩::R) := by
  have hmem := List.getLast_mem (List.cons_ne_nil base (frees lo L))
  rw [Umalloc.joinPrev,if_neg (h.node_end_ne hlive _ hmem)]
  obtain ⟨r,hpath⟩ := h.links
  have hlt := h.node_lt _ hmem
  have hframe : (base::frees lo L).getLast (List.cons_ne_nil _ _) ∉
      stop lo L::frees (stop lo L+unit*n) R := by
    intro hin
    rcases List.mem_cons.mp hin with heq | hin
    · omega
    · have hge := (h.right.frees_bounds _ hin).1
      omega
  exact {
    base_pos := h.base_pos
    base_lt := h.base_lt
    base_size := h.base_size
    headed := headed_append.mpr ⟨h.left,h.here,h.pos,by simp,h.right⟩
    brk := (stop_append ..).trans h.brk
    links := by
      rw [frees_append]
      exact path_append.mpr ⟨hpath.set_last h.nodup _,h.next.update hframe _⟩
    freep := by
      rw [frees_append,← List.cons_append]
      exact List.mem_append_left _ hmem
    apart := List.isChain_append.mpr ⟨h.apartL,h.apartR,fun q hq _ _ => .inl (hlive q hq)⟩
    small := h.small}

/-- `joinPrev` makes the block a part of the free piece in front of it. -/
theorem merge {k : ℕ} (h : Joined base lo s (L++[⟨k,none⟩]) n R) :
    Holds base lo {Umalloc.joinPrev s (stop lo L+unit*k) (stop lo L) with freep := stop lo L}
      (L++⟨k+n,none⟩::R) := by
  have hstop : stop lo (L++[⟨k,none⟩]) = stop lo L+unit*k := by simp [stop]
  have hfrees : frees lo (L++[⟨k,none⟩]) = frees lo L++[stop lo L] := by simp [frees]
  obtain ⟨hleft,hsize,hpos,-⟩ := headed_append.mp h.left
  have hadd : stop lo L+unit*(k+n) = stop lo L+unit*k+unit*n := by rw [Nat.mul_add,Nat.add_assoc]
  have hbrk : stop (stop lo L+unit*k+unit*n) R = s.brk := hstop ▸ h.brk
  have hfit : (k+n)%2^32 = k+n := by
    refine Nat.mod_eq_of_lt (lt_of_units h.small (le_stop lo L) ?_)
    rw [hadd,← hbrk]
    exact le_stop _ R
  have hlt : stop lo L < stop lo L+unit*k := lt_add_unit hpos
  have hhere : s.size (stop lo L+unit*k) = n := hstop ▸ h.here
  have hright : Headed s.size (stop lo L+unit*k+unit*n) R := hstop ▸ h.right
  have hnext : Path s.ptr (stop lo L+unit*k) (frees (stop lo L+unit*k+unit*n) R) base :=
    hstop ▸ h.next
  obtain ⟨r,hpath⟩ := h.links
  rw [hfrees,List.append_assoc,List.singleton_append] at hpath
  have hnodup := h.nodup
  rw [hfrees,← List.cons_append] at hnodup
  have hmem : stop lo L ∉ base::frees lo L := fun hin =>
    (List.nodup_append.mp hnodup).2.2 _ hin _ List.mem_cons_self rfl
  have hne : ∀ y, stop lo L+unit*k+unit*n ≤ y → y ≠ stop lo L := by
    intro y hy
    omega
  have hbase : base ≠ stop lo L := fun heq => hmem (heq ▸ List.mem_cons_self)
  rw [Umalloc.joinPrev,hsize,if_pos rfl,hhere,hfit]
  exact {
    base_pos := h.base_pos
    base_lt := h.base_lt
    base_size := (Function.update_of_ne hbase _ _).trans h.base_size
    headed := by
      refine headed_append.mpr ⟨?_,Function.update_self ..,Nat.add_pos_left hpos n,by simp,?_⟩
      · exact hleft.congr fun _ _ hy => Function.update_of_ne hy.ne _ _
      · rw [hadd]
        exact hright.congr fun y hy _ => Function.update_of_ne (hne y hy) _ _
    brk := by
      rw [stop_append,stop,hadd]
      exact hbrk
    links := by
      rw [frees_append,frees,if_pos rfl,hadd]
      refine path_append.mpr ⟨(path_append.mp hpath).1.update hmem _,?_⟩
      refine hnext.start (Function.update_self ..) fun y hy => Function.update_of_ne ?_ _ _
      exact hne y (hright.frees_bounds y hy).1
    freep := by simp [frees]
    apart := by
      obtain ⟨hL,-,hcross⟩ := List.isChain_append.mp h.apartL
      refine List.isChain_append.mpr ⟨hL,?_,?_⟩
      · obtain ⟨hhead,hrest⟩ := List.isChain_cons.mp h.apartR
        exact List.isChain_cons.mpr ⟨hhead,hrest⟩
      · intro q hq q' hq'
        obtain rfl : ⟨k+n,none⟩ = q' := by simpa using hq'
        exact hcross q hq ⟨k,none⟩ rfl
    small := h.small}

theorem joinPrev (h : Joined base lo s L n R) :
    ∃ ps, lives lo ps = lives lo L++lives (stop lo L+unit*n) R ∧
      (∃ q ∈ ps, q.owner = none ∧ n ≤ q.units) ∧
      Holds base lo {Umalloc.joinPrev s (stop lo L)
        ((base::frees lo L).getLast (List.cons_ne_nil _ _)) with
          freep := (base::frees lo L).getLast (List.cons_ne_nil _ _)} ps := by
  by_cases hlive : ∀ q ∈ L.getLast?, q.owner ≠ none
  · refine ⟨_,?_,⟨⟨n,none⟩,by simp,rfl,le_rfl⟩,h.link hlive⟩
    simp [lives]
  · push Not at hlive
    obtain ⟨⟨k,owner⟩,hq,rfl⟩ := hlive
    obtain ⟨L',rfl⟩ : ∃ L', L = L'++[⟨k,none⟩] := List.getLast?_eq_some_iff.mp hq
    have hlast : (base::frees lo (L'++[⟨k,none⟩])).getLast (List.cons_ne_nil _ _) = stop lo L' := by
      simp [frees]
    have hstop : stop lo (L'++[⟨k,none⟩]) = stop lo L'+unit*k := by simp [stop]
    refine ⟨L'++⟨k+n,none⟩::R,?_,⟨⟨k+n,none⟩,by simp,rfl,Nat.le_add_left n k⟩,?_⟩
    · simp [lives,hstop,Nat.mul_add,Nat.add_assoc]
    · rw [hlast,hstop]
      exact h.merge

end Joined

theorem joinNext_brk (s : State) (bp p : ℕ) : (joinNext s bp p).brk = s.brk := by
  unfold joinNext
  split <;> rfl

theorem joinPrev_brk (s : State) (bp p : ℕ) : (joinPrev s bp p).brk = s.brk := by
  unfold joinPrev
  split <;> rfl

theorem Headed.frees_length {size : ℕ → ℕ} {lo : ℕ} {ps : List Piece} (h : Headed size lo ps) :
    lo+(frees lo ps).length ≤ stop lo ps := by
  induction ps generalizing lo with
  | nil => exact le_rfl
  | cons p ps ih =>
    have hrest := ih h.2.2.2
    have hlt : lo < lo+unit*p.units := lt_add_unit h.2.1
    simp only [frees,stop]
    split
    · simp only [List.length_cons]
      omega
    · omega

/-- `free` returns, and the block has become a free piece or part of one. -/
theorem Loose.free {base lo n fuel : ℕ} {s : State} {L R : List Piece}
    (h : Loose base lo s L n R) (hfuel : s.brk+1 < fuel) :
    ∃ s' ps, free fuel s (stop lo L+unit) = some s' ∧ s'.brk = s.brk ∧
      lives lo ps = lives lo L++lives (stop lo L+unit*n) R ∧
      (∃ q ∈ ps, q.owner = none ∧ n ≤ q.units) ∧ Holds base lo s' ps := by
  have hlen : (frees lo L++frees (stop lo L+unit*n) R).length+1 < fuel := by
    have hl := h.left.frees_length
    have hr := h.right.frees_length
    have hbrk := h.brk
    rw [List.length_append]
    omega
  obtain ⟨n',R',hn,hlives,hjoined⟩ := h.joinNext
  obtain ⟨ps,hps,⟨q,hq,hfree,hunits⟩,hholds⟩ := hjoined.joinPrev
  refine ⟨_,ps,?_,?_,hps.trans (by rw [hlives]),⟨q,hq,hfree,hn.trans hunits⟩,hholds⟩
  · rw [Umalloc.free,Nat.add_sub_cancel,h.findSlot_eq hlen]
  · exact (joinPrev_brk ..).trans (joinNext_brk ..)

end Xv6.Umalloc
