import Xv6.Writei

/-! The specification of `readi`: where every block of the range has a pointer, reading changes
no block and returns the bytes of the content. -/
namespace Xv6
namespace Fs

open Bytes Command

section Readi

variable {sb : Geometry} {E : FsPanic → Prop} {s : Fs} {pagetable : ℕ} {mem : Mem} {ip : ℕ}
  {userDst : Bool}

theorem wp_bmap_found {Q : ℕ → Fs → Prop} {bn : ℕ} (hbn : bn < MAXFILE)
    (h : ptr s.blk (s.itable ip).d (slotOf bn) ≠ 0)
    (hQ : Q (ptr s.blk (s.itable ip).d (slotOf bn)) s) : wp (bmap sb ip bn) Q E s := by
  unfold bmap
  by_cases hdir : bn < NDIRECT
  · have hslot : slotOf bn = (⟨bn,Nat.lt_succ_of_lt hdir⟩ : Fin (NDIRECT+1)) := if_pos hdir
    rw [hslot,ptr_addr] at h hQ
    rw [dif_pos hdir,bmapAddr,wp_bind,wp_get]
    simp only [if_neg h]
    exact hQ
  · have hlt : bn-NDIRECT < NINDIRECT := by
      unfold MAXFILE at hbn
      omega
    have hslot : slotOf bn = NDIRECT+1+(bn-NDIRECT) := by
      rw [slotOf,if_neg hdir]
      omega
    rw [hslot] at h hQ
    have hind : (s.itable ip).d.addrs indirect ≠ 0 := fun h0 =>
      h (ptr_eq_zero_of_no_indirect (by omega) h0)
    have hindn : ((s.itable ip).d.addrs indirect).toNat ≠ 0 := fun h0 =>
      hind (UInt32.toNat_inj.mp h0)
    rw [ptr_entry hlt hind] at h hQ
    rw [dif_neg hdir,if_pos hlt,wp_bind,bmapAddr,wp_bind,wp_get]
    simp only [if_neg hindn,wp_pure]
    rw [bmapEntry,wp_bind,bread,wp_bind,wp_get,wp_pure]
    simp only [if_neg h]
    exact hQ

def Mapped (blk : ℕ → Block) (d : Dinode) (off n : ℕ) : Prop :=
  ∀ p, off ≤ p → p < off+n → ptr blk d (slotOf (p/BSIZE)) ≠ 0

theorem Sized.range {blk : ℕ → Block} {d : Dinode} (h : Sized blk d) {off n : ℕ}
    (hn : off+n ≤ d.size.toNat) : Mapped blk d off n :=
  fun _ _ hp => h.ptr_ne_zero (hp.trans_le hn)

theorem lt_MAXFILE_of_ptr {blk : ℕ → Block} {d : Dinode} {bn : ℕ}
    (h : ptr blk d (slotOf bn) ≠ 0) : bn < MAXFILE := by
  by_contra hge
  apply h
  apply ptr_eq_zero_of_ge
  unfold MAXFILE at hge
  rw [slotOf,if_neg (by omega)]
  omega

/-- The loop of `readi` keeps a property of the memory that each copied piece of the content
keeps, and stops with -1 only on a failed copy. -/
theorem wp_readiLoop {dst off n : ℕ} (hmap : Mapped s.blk (s.itable ip).d off n)
    (I : ℕ → Mem → Prop) (F : Mem → Prop)
    (hstep : ∀ tot mem m, I tot mem → 0 < m → tot+m ≤ n →
      match Vm.eitherCopyout mem pagetable userDst (dst+tot)
          (fun i => content s.blk (s.itable ip).d (off+tot+i)) m with
      | (mem',true) => I (tot+m) mem'
      | (mem',false) => F mem')
    {fuel tot : ℕ} (hfuel : n-tot ≤ fuel) (htot : tot ≤ n) {mem : Mem} (hI : I tot mem) :
    wp (readiLoop sb pagetable ip userDst n fuel mem (dst+tot) (off+tot) tot)
      (fun r t => t = s ∧ (r.1 = n ∧ I n r.2 ∨ r.1 = -1 ∧ F r.2)) E s := by
  induction fuel generalizing tot mem with
  | zero =>
    obtain rfl : tot = n := by omega
    exact ⟨rfl,.inl ⟨rfl,hI⟩⟩
  | succ fuel ih =>
    rw [readiLoop]
    by_cases hlt : tot < n
    case neg =>
      obtain rfl : tot = n := by omega
      rw [if_neg hlt]
      exact ⟨rfl,.inl ⟨rfl,hI⟩⟩
    have hptr := hmap (off+tot) (by omega) (by omega)
    rw [if_pos hlt,wp_bind]
    apply wp_bmap_found (lt_MAXFILE_of_ptr hptr) hptr
    rw [if_neg hptr,wp_bind,bread,wp_bind,wp_get,wp_pure]
    set m := min (n-tot) (BSIZE-(off+tot)%BSIZE) with hm
    have hmod : (off+tot)%BSIZE < BSIZE := Nat.mod_lt _ (by decide)
    have hsrc : ∀ i < m, s.blk (ptr s.blk (s.itable ip).d (slotOf ((off+tot)/BSIZE)))
        ((off+tot)%BSIZE+i) = content s.blk (s.itable ip).d (off+tot+i) := by
      intro i hi
      have hdiv : (off+tot+i)/BSIZE = (off+tot)/BSIZE := by
        unfold BSIZE at *
        omega
      have hmod' : (off+tot+i)%BSIZE = (off+tot)%BSIZE+i := by
        unfold BSIZE at *
        omega
      rw [content,hdiv,hmod',if_neg hptr]
    have hh := hstep tot mem m hI (by omega) (by omega)
    simp only [Vm.eitherCopyout_congr hsrc]
    cases hcopy : Vm.eitherCopyout mem pagetable userDst (dst+tot)
      (fun i => content s.blk (s.itable ip).d (off+tot+i)) m with
    | mk mem' ok =>
      rw [hcopy] at hh
      cases ok with
      | false => exact ⟨rfl,.inr ⟨rfl,hh⟩⟩
      | true =>
        simp only [Bool.true_eq_false,if_false,Nat.add_assoc]
        exact ih (by omega) (by omega) hh

def readCount (size off n : UInt32) : ℕ :=
  if size < off ∨ off+n < off then 0 else min n.toNat (size.toNat-off.toNat)

theorem readCount_le {size off n : UInt32} (h : ¬ (size < off ∨ off+n < off)) :
    off.toNat+readCount size off n ≤ size.toNat := by
  rw [not_or,UInt32.lt_iff_toNat_lt,not_lt] at h
  rw [readCount,if_neg (by rw [not_or,UInt32.lt_iff_toNat_lt,not_lt]; exact h)]
  omega

theorem toNat_readCount {size off n : UInt32} (hbad : ¬ (size < off ∨ off+n < off)) :
    (if size < off+n then size-off else n).toNat = readCount size off n := by
  have hsum := toNat_add_of_not_lt fun h => hbad (.inr h)
  have hle : off.toNat ≤ size.toNat := by
    have hnot : ¬ size < off := fun h => hbad (.inl h)
    rw [UInt32.lt_iff_toNat_lt] at hnot
    omega
  rw [readCount,if_neg hbad]
  split
  case isTrue h =>
    rw [UInt32.lt_iff_toNat_lt,hsum] at h
    rw [UInt32.toNat_sub_of_le _ _ (UInt32.le_iff_toNat_le.mpr hle)]
    omega
  case isFalse h =>
    rw [UInt32.lt_iff_toNat_lt,hsum] at h
    omega

theorem wp_readi {dst : ℕ} {off n : UInt32} (hmap : Mapped s.blk (s.itable ip).d off.toNat
      (readCount (s.itable ip).d.size off n))
    (I : ℕ → Mem → Prop) (F : Mem → Prop) (hI : I 0 mem)
    (hstep : ∀ tot mem m, I tot mem → 0 < m →
      tot+m ≤ readCount (s.itable ip).d.size off n →
      match Vm.eitherCopyout mem pagetable userDst (dst+tot)
          (fun i => content s.blk (s.itable ip).d (off.toNat+tot+i)) m with
      | (mem',true) => I (tot+m) mem'
      | (mem',false) => F mem') :
    wp (readi sb pagetable mem ip userDst dst off n) (fun r t => t = s ∧
      (r.1 = readCount (s.itable ip).d.size off n ∧
        I (readCount (s.itable ip).d.size off n) r.2 ∨ r.1 = -1 ∧ F r.2)) E s := by
  rw [readi,wp_bind,wp_get]
  by_cases hbad : (s.itable ip).d.size < off ∨ off+n < off
  · have hcount : readCount (s.itable ip).d.size off n = 0 := if_pos hbad
    rw [if_pos hbad,hcount]
    exact ⟨rfl,.inl ⟨rfl,hI⟩⟩
  · have hcount := toNat_readCount hbad
    rw [if_neg hbad]
    simp only [hcount]
    exact wp_readiLoop hmap I F hstep (by omega : _-0 ≤ _) (Nat.zero_le _) hI

theorem Sized.readable {blk : ℕ → Block} {d : Dinode} (h : Sized blk d) (off n : UInt32) :
    Mapped blk d off.toNat (readCount d.size off n) := by
  by_cases hbad : d.size < off ∨ off+n < off
  · intro p hl hr
    rw [readCount,if_pos hbad] at hr
    omega
  · exact h.range (readCount_le hbad)

theorem wp_readi_state (hsz : Sized s.blk (s.itable ip).d) {dst : ℕ} {off n : UInt32} :
    wp (readi sb pagetable mem ip userDst dst off n) (fun _ t => t = s) E s := by
  refine wp_conseq (wp_readi (hsz.readable off n) (fun _ _ => True) (fun _ => True)
    trivial ?_) ?_
  · intro tot mem m _ _ _
    split <;> trivial
  · exact fun _ _ h => h.1

theorem wp_readi_kernel {dst : ℕ} {off n : UInt32} (hmap : Mapped s.blk (s.itable ip).d off.toNat
      (readCount (s.itable ip).d.size off n)) :
    wp (readi sb pagetable mem ip false dst off n) (fun r t => t = s ∧
      r.1 = readCount (s.itable ip).d.size off n ∧
      r.2 = blit mem dst (readCount (s.itable ip).d.size off n)
        fun i => content s.blk (s.itable ip).d (off.toNat+i)) E s := by
  refine wp_conseq (wp_readi hmap (fun tot mem' => mem' = blit mem dst tot
    fun i => content s.blk (s.itable ip).d (off.toNat+i)) (fun _ => False) (by simp) ?_) ?_
  · rintro tot mem' m rfl _ _
    simp only [Vm.eitherCopyout,Bool.false_eq_true,if_false,Nat.add_assoc]
    exact blit_append mem (fun i => content s.blk (s.itable ip).d (off.toNat+i)) dst tot m
  · rintro r t ⟨rfl,⟨hr,hm⟩ | ⟨-,h⟩⟩
    · exact ⟨rfl,hr,hm⟩
    · exact h.elim

/-- A read to accessible memory stores the bytes there are, each in its place. -/
theorem wp_readi_accessible (hsz : Sized s.blk (s.itable ip).d) {dst : ℕ} {off n : UInt32}
    {tr : ℕ → ℕ} (hacc : Vm.Accessible mem pagetable userDst dst n.toNat tr) :
    wp (readi sb pagetable mem ip userDst dst off n) (fun r t => t = s ∧
      r.1 = readCount (s.itable ip).d.size off n ∧
      Vm.Stored tr 0 (readCount (s.itable ip).d.size off n)
        (fun i => content s.blk (s.itable ip).d (off.toNat+i)) mem r.2) E s := by
  have hle : readCount (s.itable ip).d.size off n ≤ n.toNat := by
    unfold readCount
    split <;> omega
  refine wp_conseq (wp_readi (hsz.readable off n) (fun tot mem' => Vm.Stored tr 0 tot
    (fun i => content s.blk (s.itable ip).d (off.toNat+i)) mem mem') (fun _ => False) .refl ?_) ?_
  · intro tot mem' m hst hm htot
    obtain ⟨mem'',heq,hst'⟩ : ∃ mem'', Vm.eitherCopyout mem' pagetable userDst (dst+tot)
        (fun i => content s.blk (s.itable ip).d (off.toNat+tot+i)) m = (mem'',true) ∧
        Vm.Stored tr tot m (fun i => content s.blk (s.itable ip).d (off.toNat+tot+i)) mem' mem'' :=
      Vm.eitherCopyout_stored hacc (by omega) fun a ha => hst.outside (by omega) ha
    rw [heq]
    refine Vm.Stored.append hacc.inj (by omega) hst ?_
    rw [Nat.zero_add]
    simpa only [Nat.add_assoc] using hst'
  · rintro r t ⟨rfl,⟨hr,hm⟩ | ⟨-,h⟩⟩
    · exact ⟨rfl,hr,hm⟩
    · exact h.elim

end Readi
end Fs
end Xv6
