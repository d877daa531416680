import Xv6.Ulib

/-! `memmove` of `kernel/string.c` and of `user/ulib.c` on 64-bit pointers. The kernel tests whether
the ranges overlap the wrong way, the library only which of them is lower. On ranges that do not
wrap around, both compute what the loops compute on natural numbers, a simultaneous copy. -/
namespace Xv6.Memmove

open Bytes Ulib

abbrev Memory := UInt64 → UInt8

/-- `while(n-- > 0) *d++ = *s++`, whose body runs `n` times. -/
def copyUp : ℕ → Memory → UInt64 → UInt64 → Memory
  | 0, mem, _, _ => mem
  | n+1, mem, d, s => copyUp n (Function.update mem d (mem s)) (d+1) (s+1)

def copyDown : ℕ → Memory → UInt64 → UInt64 → Memory
  | 0, mem, _, _ => mem
  | n+1, mem, d, s => copyDown n (Function.update mem (d-1) (mem (s-1))) (d-1) (s-1)

/-- The kernel's: `n` is a `uint`. The result is `dst` and the memory afterwards. -/
def Kernel.memmove (mem : Memory) (dst src : UInt64) (n : UInt32) : UInt64 × Memory :=
  if n = 0 then (dst,mem)
  else if src < dst ∧ src+n.toUInt64 > dst then
    (dst,copyDown n.toNat mem (dst+n.toUInt64) (src+n.toUInt64))
  else (dst,copyUp n.toNat mem dst src)

/-- The library's: `n` is an `int`, and a loop on a negative one ends at once. -/
def User.memmove (mem : Memory) (vdst vsrc : UInt64) (n : Int32) : UInt64 × Memory :=
  if vsrc > vdst then (vdst,copyUp n.toInt.toNat mem vdst vsrc)
  else (vdst,copyDown n.toInt.toNat mem (vdst+n.toInt64.toUInt64) (vsrc+n.toInt64.toUInt64))

def Agree (mem : Memory) (m : Mem) : Prop := ∀ a, mem a = m a.toNat

section Loops

variable {mem : Memory} {m : Mem} {d s n : ℕ}

theorem agree_ofNat (mem : Memory) : Agree mem fun x => mem (.ofNat x) := by
  intro a
  simp

theorem Agree.at (h : Agree mem m) (hd : d < 2^64) : mem (.ofNat d) = m d := by
  rw [h,UInt64.toNat_ofNat_of_lt' hd]

theorem Agree.update (h : Agree mem m) (hd : d < 2^64) (v : UInt8) :
    Agree (Function.update mem (.ofNat d) v) (Function.update m d v) := by
  intro a
  by_cases ha : a = .ofNat d
  · rw [ha,UInt64.toNat_ofNat_of_lt' hd,Function.update_self,Function.update_self]
  · have hne : a.toNat ≠ d := by
      rintro rfl
      exact ha a.ofNat_toNat.symm
    rw [Function.update_of_ne ha,Function.update_of_ne hne,h]

theorem Agree.copyUp (h : Agree mem m) (hd : d+n ≤ 2^64) (hs : s+n ≤ 2^64) :
    Agree (copyUp n mem (.ofNat d) (.ofNat s)) (Ulib.copyUp n m d s) := by
  induction n generalizing mem m d s with
  | zero => exact h
  | succ n ih =>
    have hstep := ih (h.update (d := d) (by omega) (m s)) (d := d+1) (s := s+1) (by omega) (by omega)
    rw [UInt64.ofNat_add,UInt64.ofNat_add] at hstep
    rw [Memmove.copyUp,Ulib.copyUp,h.at (by omega)]
    exact hstep

theorem Agree.copyDown (h : Agree mem m) (hd : d+n ≤ 2^64) (hs : s+n ≤ 2^64) :
    Agree (copyDown n mem (.ofNat (d+n)) (.ofNat (s+n))) (Ulib.copyDown n m (d+n) (s+n)) := by
  induction n generalizing mem m with
  | zero => exact h
  | succ n ih =>
    have hback : ∀ k : ℕ, UInt64.ofNat (k+(n+1))-1 = .ofNat (k+n) := by
      intro k
      rw [← Nat.add_assoc,UInt64.ofNat_add (k+n) 1]
      exact UInt64.add_sub_cancel _ _
    rw [Memmove.copyDown,Ulib.copyDown,hback,hback,h.at (by omega)]
    exact ih (h.update (by omega) (m (s+n))) (by omega) (by omega)

end Loops

section Copies

variable {mem : Memory} {m : Mem} {dst src : UInt64} {n : ℕ}

theorem toNat_count (hn : n < 2^31) : (UInt32.ofNat n).toNat = n :=
  UInt32.toNat_ofNat_of_lt' (hn.trans (by decide))

theorem toUInt64_count (hn : n < 2^31) : (UInt32.ofNat n).toUInt64 = .ofNat n := by
  apply UInt64.toNat_inj.mp
  rw [UInt32.toNat_toUInt64,toNat_count hn,UInt64.toNat_ofNat_of_lt' (hn.trans (by decide))]

theorem toInt_count (hn : n < 2^31) : (Int32.ofNat n).toInt = n := by
  rw [← Int32.ofInt_eq_ofNat,Int32.toInt_ofInt_of_le (by omega) (by omega)]

theorem toInt64_count (hn : n < 2^31) : (Int32.ofNat n).toInt64.toUInt64 = .ofNat n := by
  have hext : (Int32.ofNat n).toInt64 = Int64.ofNat n := by
    apply Int64.toInt_inj.mp
    rw [Int32.toInt_toInt64,toInt_count hn,← Int64.ofInt_eq_ofNat,
      Int64.toInt_ofInt_of_le (by omega) (by omega)]
  rw [hext]
  rfl

theorem Agree.up (h : Agree mem m) (hd : dst.toNat+n ≤ 2^64) (hs : src.toNat+n ≤ 2^64) :
    Agree (Memmove.copyUp n mem dst src) (Ulib.copyUp n m dst.toNat src.toNat) := by
  have hup := h.copyUp hd hs
  rwa [UInt64.ofNat_toNat,UInt64.ofNat_toNat] at hup

theorem Agree.down (h : Agree mem m) (hd : dst.toNat+n ≤ 2^64) (hs : src.toNat+n ≤ 2^64) :
    Agree (Memmove.copyDown n mem (dst+.ofNat n) (src+.ofNat n))
      (Ulib.copyDown n m (dst.toNat+n) (src.toNat+n)) := by
  have hdown := h.copyDown hd hs
  rwa [UInt64.ofNat_add,UInt64.ofNat_add,UInt64.ofNat_toNat,UInt64.ofNat_toNat] at hdown

theorem Agree.unique {mem' : Memory} (h : Agree mem m) (h' : Agree mem' m) : mem = mem' := by
  funext a
  rw [h,h']

/-- If the kernel copies upwards, the source is not below the destination or ends below it; the
sum in the test does not wrap when the source is below. -/
theorem Kernel.memmove_agree (h : Agree mem m) (hn : n < 2^31) (hd : dst.toNat+n ≤ 2^64)
    (hs : src.toNat+n ≤ 2^64) : Agree (Kernel.memmove mem dst src (.ofNat n)).2
      (blit m dst.toNat n fun i => m (src.toNat+i)) := by
  unfold Kernel.memmove
  rw [toUInt64_count hn,toNat_count hn]
  split
  case isTrue hzero =>
    have hn0 : n = 0 := by
      rw [← toNat_count hn,hzero]
      rfl
    rwa [hn0,blit_zero]
  case isFalse hpos =>
    split
    case isTrue hover =>
      have hlt : src.toNat < dst.toNat := UInt64.lt_iff_toNat_lt.mp hover.1
      rw [← copyDown_eq n m hlt.le]
      exact h.down hd hs
    case isFalse hno =>
      have hap : dst.toNat ≤ src.toNat ∨ src.toNat+n ≤ dst.toNat := by
        by_contra hin
        have hlt : src < dst := UInt64.lt_iff_toNat_lt.mpr (by omega)
        have hsum : (src+UInt64.ofNat n).toNat = src.toNat+n := by
          rw [UInt64.toNat_add,UInt64.toNat_ofNat_of_lt' (hn.trans (by decide)),
            Nat.mod_eq_of_lt (by omega)]
        refine hno ⟨hlt,UInt64.lt_iff_toNat_lt.mpr ?_⟩
        rw [hsum]
        omega
      rw [← copyUp_eq n m hap]
      exact h.up hd hs

theorem User.memmove_agree (h : Agree mem m) (hn : n < 2^31) (hd : dst.toNat+n ≤ 2^64)
    (hs : src.toNat+n ≤ 2^64) : Agree (User.memmove mem dst src (.ofNat n)).2
      (Ulib.memmove m dst.toNat src.toNat n) := by
  have hcount : (Int32.ofNat n).toInt.toNat = n := by rw [toInt_count hn,Int.toNat_natCast]
  unfold User.memmove Ulib.memmove
  rw [toInt64_count hn,hcount]
  by_cases hlt : src > dst
  · rw [if_pos hlt,if_pos (UInt64.lt_iff_toNat_lt.mp hlt)]
    exact h.up hd hs
  · rw [if_neg hlt,if_neg fun hlt' => hlt (UInt64.lt_iff_toNat_lt.mpr hlt')]
    exact h.down hd hs

end Copies

/-- On ranges that do not wrap around, both versions return `dst` and the same memory: the bytes
that were at `src` are at `dst`, and no other byte changed. -/
theorem memmove_simultaneous (mem : Memory) (dst src : UInt64) (n : ℕ) (hn : n < 2^31)
    (hdst : dst.toNat+n ≤ 2^64) (hsrc : src.toNat+n ≤ 2^64) :
    Kernel.memmove mem dst src (.ofNat n) = User.memmove mem dst src (.ofNat n) ∧
      (∀ i < n, (Kernel.memmove mem dst src (.ofNat n)).2 (dst+.ofNat i) = mem (src+.ofNat i)) ∧
      ∀ a, (∀ i < n, a ≠ dst+.ofNat i) → (Kernel.memmove mem dst src (.ofNat n)).2 a = mem a := by
  have hmem := agree_ofNat mem
  have hk := Kernel.memmove_agree hmem hn hdst hsrc
  have hu := User.memmove_agree hmem hn hdst hsrc
  rw [memmove_eq] at hu
  refine ⟨Prod.ext ?_ (hk.unique hu),fun i hi => ?_,fun a ha => ?_⟩
  · unfold Kernel.memmove User.memmove
    split_ifs <;> rfl
  · have hin : (dst+UInt64.ofNat i).toNat = dst.toNat+i := by
      rw [UInt64.toNat_add,UInt64.toNat_ofNat_of_lt' ((hi.trans hn).trans (by decide)),
        Nat.mod_eq_of_lt (by omega)]
    rw [hk,hin,blit_add hi,UInt64.ofNat_add,UInt64.ofNat_toNat]
  · have hout : a.toNat < dst.toNat ∨ dst.toNat+n ≤ a.toNat := by
      by_contra hin
      refine ha (a.toNat-dst.toNat) (by omega) ?_
      rw [← dst.ofNat_toNat,← UInt64.ofNat_add,UInt64.ofNat_toNat,Nat.add_sub_of_le (by omega),
        UInt64.ofNat_toNat]
    rw [hk,blit_outside hout,UInt64.ofNat_toNat]

/-- Three bytes up to the end of the address space, moved by one byte over themselves. -/
theorem memmove_simultaneous_top :
    (∀ i < 3, (Kernel.memmove UInt64.toUInt8 (-3) (-4) 3).2 (-3+.ofNat i) = 252+.ofNat i) ∧
    Kernel.memmove UInt64.toUInt8 (-3) (-4) 3 = User.memmove UInt64.toUInt8 (-3) (-4) 3 := by
  have h := memmove_simultaneous UInt64.toUInt8 (-3) (-4) 3 (by decide) (by decide) (by decide)
  refine ⟨fun i hi => (h.2.1 i hi).trans ?_,h.1⟩
  interval_cases i <;> rfl

end Xv6.Memmove
