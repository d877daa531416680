import Xv6.UserAlloc

/-! `growproc`, the work of `sbrk`: the size asked for or nothing. A negative count beyond the size
wraps, so `uvmdealloc` takes it for growth and does nothing, and success is reported. -/
namespace Xv6.Vm

open Bytes Command

section Grow

variable [KernelImage] {E : VmPanic → Prop} {s t : Ram} {p : ℕ} {N : Finset ℕ}

/-- The new size is as asked for: what stays is unchanged, what is new is zero, and what is gone is
free. -/
structure Resized (s t : Ram) (p sz : ℕ) (n : Int32) (newsz : ℕ) : Prop where
  size : (newsz : ℤ) = sz+n.toInt
  space : ∃ N', Space t p (PGROUNDUP newsz) N'
  kept : ∀ va < min sz newsz, byteAt t.mem p va = byteAt s.mem p va
  zero : ∀ va, PGROUNDUP sz ≤ va → va < PGROUNDUP newsz → byteAt t.mem p va = 0
  gone : ∀ va, PGROUNDUP newsz ≤ va → va < PGROUNDUP sz →
    translate t.mem p va = none ∧ frameOf s.mem p va ∈ t.free

structure Unchanged (s t : Ram) (p sz : ℕ) : Prop where
  space : ∃ N', Space t p (PGROUNDUP sz) N'
  mapping : ∀ va < MAXVA, translate t.mem p va = translate s.mem p va
  bytes : ∀ va < PGROUNDUP sz, byteAt t.mem p va = byteAt s.mem p va

def AllOrNothing (s t : Ram) (p sz : ℕ) (n : Int32) (r : ℤ × ℕ) : Prop :=
  r.1 = 0 ∧ Resized s t p sz n r.2 ∨ r.1 = -1 ∧ r.2 = sz ∧ Unchanged s t p sz

theorem Grows.resized {sz newsz : ℕ} {N' : Finset ℕ} {n : Int32} {flags : ℕ → ℕ}
    (h : Space s p (PGROUNDUP sz) N) (hn : (newsz : ℤ) = sz+n.toInt) (hpos : 0 < n.toInt)
    (hg : Grows s N p (PGROUNDUP sz) (PGROUNDUP newsz) flags (fun _ => 0) t N') :
    Resized s t p sz n newsz := by
  have hup := le_PGROUNDUP sz
  have htop := h.top_le
  have hsv : SVTOP = 2^39 := rfl
  refine ⟨hn,⟨N',hg.space⟩,fun va hva => ?_,hg.fill,fun va hl hr => ?_⟩
  · exact h.byteAt_eq hg.within (by omega) (hg.other va (by omega) (.inl (by omega)))
  · have := hg.le
    omega

theorem Undone.unchanged {sz : ℕ} {N' : Finset ℕ} (h : Space s p (PGROUNDUP sz) N)
    (hu : Undone s N p (PGROUNDUP sz) t N') : Unchanged s t p sz := by
  have htop := h.top_le
  have hsv : SVTOP = 2^39 := rfl
  refine ⟨⟨N',hu.space⟩,fun va hva => hu.same va (lt_SVTOP hva),fun va hva => ?_⟩
  have hsame := hu.same va (by omega)
  rw [translate,translate,if_neg (hu.space.valid va hva),if_neg (h.valid va hva),Option.some_inj,
    Prod.mk.injEq] at hsame
  have hframe : frameOf t.mem p va = frameOf s.mem p va := hsame.1
  have hpage : PGROUNDDOWN (frameOf s.mem p va+va%PGSIZE) = frameOf s.mem p va :=
    PGROUNDDOWN_page (h.frame_ram va hva).aligned (Nat.mod_lt _ (by decide))
  rw [byteAt,byteAt,hframe]
  exact hu.within.keeps _ (by rw [hpage]; exact h.frame_table va hva)
    (by rw [hpage]; exact h.frame_free va hva)

theorem Shrunk.resized {sz newsz : ℕ} {n : Int32} (h : Space s p (PGROUNDUP sz) N)
    (hn : (newsz : ℤ) = sz+n.toInt) (hneg : n.toInt < 0)
    (hsh : Shrunk s t p (PGROUNDUP newsz) (PGROUNDUP sz) N) : Resized s t p sz n newsz := by
  have hup := le_PGROUNDUP newsz
  have htop := h.top_le
  have hsv : SVTOP = 2^39 := rfl
  have hmono : PGROUNDUP newsz ≤ PGROUNDUP sz := PGROUNDUP_mono (by omega)
  refine ⟨hn,⟨N,hsh.space⟩,fun va hva => ?_,fun va hl hr => by omega,fun va hl hr =>
    ⟨translate_eq_none.mpr (hsh.gone va hl hr),hsh.freed va hl hr⟩⟩
  have hlt : va < PGROUNDUP newsz := by omega
  have hframe : frameOf t.mem p va = frameOf s.mem p va := by
    rw [frameOf,frameOf,hsh.other va (by omega) (.inl hlt)]
  have hpage : PGROUNDDOWN (frameOf s.mem p va+va%PGSIZE) = frameOf s.mem p va :=
    PGROUNDDOWN_page (h.frame_ram va (by omega)).aligned (Nat.mod_lt _ (by decide))
  rw [byteAt,byteAt,hframe]
  refine hsh.keeps _ (by rw [hpage]; exact h.frame_table va (by omega)) fun va' hl hr heq => ?_
  rw [hpage] at heq
  have hsame := h.inj va (by omega) va' hr heq
  have hal := PGROUNDUP_aligned newsz
  unfold PGROUNDDOWN PGSIZE at *
  omega

/-- `growproc` never panics, and does what is asked or nothing exactly when the size asked for is
not negative. -/
theorem growproc_iff {sz : ℕ} (h : Space s p (PGROUNDUP sz) N) (n : Int32) :
    wp (growproc p sz n) (fun r t => AllOrNothing s t p sz n r) (fun _ => False) s ↔
      0 ≤ sz+n.toInt := by
  have htop := h.top_le
  have hup := le_PGROUNDUP sz
  have hlt := n.toInt_lt
  have hge := n.le_toInt
  rw [growproc]
  constructor
  · intro hwp
    by_contra hneg
    rw [if_neg (by omega),if_pos (by omega),wp_bind,uvmdealloc,if_pos (by omega)] at hwp
    rcases hwp with ⟨-,hres⟩ | ⟨hres,-⟩
    · have := hres.size
      omega
    · change (0 : ℤ) = -1 at hres
      omega
  · intro hpos
    set newsz := ((sz+n.toInt)%2^64).toNat with hnewsz
    have hnew : (newsz : ℤ) = sz+n.toInt := by omega
    rw [wp_ite]
    refine ⟨fun hn => ?_,fun hn => ?_⟩
    · rw [wp_bind]
      refine wp_conseq (h.wp_uvmalloc (show sz ≤ newsz by omega) (by decide)) ?_
      rintro r t ⟨N',⟨rfl,hg⟩ | ⟨rfl,hu⟩⟩
      · rw [if_neg (by omega)]
        exact .inl ⟨rfl,hg.resized h hnew hn⟩
      · exact .inr ⟨rfl,rfl,hu.unchanged h⟩
    · rw [wp_ite]
      refine ⟨fun hneg => ?_,fun hzero => ?_⟩
      · rw [wp_bind]
        refine wp_conseq (h.wp_uvmdealloc (show newsz ≤ sz by omega)) ?_
        rintro r t ⟨rfl,hsh⟩
        exact .inl ⟨rfl,hsh.resized h hnew hneg⟩
      · have hsame : Resized s s p sz n sz :=
          ⟨by omega,⟨N,h⟩,fun _ _ => rfl,fun va hl hr => by omega,fun va hl hr => by omega⟩
        exact .inl ⟨rfl,hsame⟩

end Grow

theorem growproc_iff_onePage :
    wp (@growproc smallKernel 0x80001000 0 4096)
      (fun r t => @AllOrNothing smallKernel emptyTable t 0x80001000 0 4096 r) (fun _ => False)
      emptyTable :=
  (@growproc_iff smallKernel _ _ _ 0 emptyTable_space 4096).mpr (by decide)

/-- A process of one page asks for two pages less: 0 is returned and the size stays. -/
theorem growproc_negative_size : ∃ t, StateT.run (do
    let r ← @growproc smallKernel 0x80001000 0 4096
    @growproc smallKernel 0x80001000 r.2 (-8192)) emptyTable = .ok ((0,4096),t) := by
  have heval : (match StateT.run (do
      let r ← @growproc smallKernel 0x80001000 0 4096
      @growproc smallKernel 0x80001000 r.2 (-8192)) emptyTable with
    | .ok (r,_) => some r
    | .error _ => none) = some (0,4096) := by decide +kernel
  split at heval
  case h_1 r t hrun =>
    obtain rfl : r = (0,4096) := Option.some.inj heval
    exact ⟨t,hrun⟩
  case h_2 => cases heval

end Xv6.Vm
