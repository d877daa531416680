import Xv6.Bytes

/-! `user/ulib.c`: strings that end with a NUL, `strchr` and `memmove`. -/
namespace Xv6
namespace Ulib

open Bytes

/-- The bytes of `s`, none of them NUL, stand at `p` with a NUL behind them. -/
def Str (mem : Mem) : ℕ → List UInt8 → Prop
  | p, [] => mem p = 0
  | p, c::s => mem p = c ∧ c ≠ 0 ∧ Str mem (p+1) s

def At (mem : Mem) : ℕ → List UInt8 → Prop
  | _, [] => True
  | p, c::s => mem p = c ∧ At mem (p+1) s

section Strings

variable {mem mem' : Mem} {p : ℕ} {s t : List UInt8}

theorem at_iff : At mem p s ↔ ∀ i, (h : i < s.length) → mem (p+i) = s[i] := by
  induction s generalizing p with
  | nil => simp [At]
  | cons c s ih =>
    rw [At,ih]
    constructor
    · rintro ⟨hc,hs⟩ i hi
      cases i with
      | zero => exact hc
      | succ i =>
        rw [show p+(i+1) = p+1+i by omega]
        exact hs i (by simpa using hi)
    · intro h
      refine ⟨h 0 (by simp),fun i hi => ?_⟩
      rw [show p+1+i = p+(i+1) by omega]
      exact h (i+1) (by simpa using hi)

theorem at_append : At mem p (s++t) ↔ At mem p s ∧ At mem (p+s.length) t := by
  induction s generalizing p with
  | nil => simp [At]
  | cons c s ih =>
    rw [List.cons_append,At,At,ih,and_assoc,List.length_cons,Nat.add_right_comm,Nat.add_assoc p]

theorem At.congr (h : At mem p s) (hm : ∀ x, p ≤ x → x < p+s.length → mem' x = mem x) : At mem' p s := by
  rw [at_iff] at *
  intro i hi
  rw [hm (p+i) (by omega) (by omega),h i hi]

theorem str_iff : Str mem p s ↔ At mem p s ∧ 0 ∉ s ∧ mem (p+s.length) = 0 := by
  induction s generalizing p with
  | nil => simp [Str,At]
  | cons c s ih =>
    rw [Str,ih,At,List.mem_cons,not_or,List.length_cons,show p+(s.length+1) = p+1+s.length by omega]
    constructor
    · rintro ⟨hp,hc,hs,hn,hz⟩
      exact ⟨⟨hp,hs⟩,⟨hc.symm,hn⟩,hz⟩
    · rintro ⟨⟨hp,hs⟩,⟨hc,hn⟩,hz⟩
      exact ⟨hp,Ne.symm hc,hs,hn,hz⟩

theorem Str.congr (h : Str mem p s) (hm : ∀ x, p ≤ x → x ≤ p+s.length → mem' x = mem x) : Str mem' p s := by
  rw [str_iff] at *
  obtain ⟨hs,hn,hz⟩ := h
  exact ⟨hs.congr fun x hx hx' => hm x hx hx'.le,hn,by rw [hm _ (by omega) le_rfl,hz]⟩

end Strings

/-- The address of the first `c` of the string, if it has one. -/
def strchr (mem : Mem) : ℕ → ℕ → UInt8 → Option (Option ℕ)
  | 0, _, _ => none
  | fuel+1, s, c =>
    if mem s = 0 then some none
    else if mem s = c then some (some s)
    else strchr mem fuel (s+1) c

/-- On bytes that a NUL follows, `strchr` finds the first `c` unless a NUL comes before it. -/
theorem strchr_cases {mem : Mem} {c : UInt8} (s : List UInt8) (p fuel : ℕ)
    (hs : At mem p s) (hz : mem (p+s.length) = 0) (hf : s.length < fuel) :
    (∃ l r, s = l++c::r ∧ c ∉ l ∧ 0 ∉ l ∧ strchr mem fuel p c = some (some (p+l.length))) ∨
    (c ∉ s.takeWhile (· ≠ 0) ∧ strchr mem fuel p c = some none) := by
  induction s generalizing p fuel with
  | nil =>
    obtain ⟨fuel,rfl⟩ : ∃ k, fuel = k+1 := ⟨fuel-1,by simp at hf; omega⟩
    refine .inr ⟨by simp,?_⟩
    have hp : mem p = 0 := hz
    rw [strchr,if_pos hp]
  | cons a s ih =>
    obtain ⟨fuel,rfl⟩ : ∃ k, fuel = k+1 := ⟨fuel-1,by simp at hf; omega⟩
    obtain ⟨ha,hs⟩ := hs
    rw [strchr,ha]
    by_cases ha0 : a = 0
    · exact .inr ⟨by simp [ha0],by rw [if_pos ha0]⟩
    · rw [if_neg ha0]
      by_cases hac : a = c
      · exact .inl ⟨[],s,by rw [hac]; rfl,by simp,by simp,by rw [if_pos hac]; rfl⟩
      · rw [if_neg hac]
        rw [List.length_cons,show p+(s.length+1) = p+1+s.length by omega] at hz
        rcases ih (p+1) fuel hs hz (by simpa using hf) with ⟨l,r,rfl,hcl,h0,hh⟩ | ⟨hn,hh⟩
        · refine .inl ⟨a::l,r,rfl,?_,?_,?_⟩
          · rw [List.mem_cons,not_or]
            exact ⟨Ne.symm hac,hcl⟩
          · rw [List.mem_cons,not_or]
            exact ⟨Ne.symm ha0,h0⟩
          · rw [hh,List.length_cons]
            congr 2
            omega
        · refine .inr ⟨?_,hh⟩
          rw [List.takeWhile_cons_of_pos (by simpa using ha0),List.mem_cons,not_or]
          exact ⟨Ne.symm hac,hn⟩

def copyUp : ℕ → Mem → ℕ → ℕ → Mem
  | 0, mem, _, _ => mem
  | n+1, mem, dst, src => copyUp n (Function.update mem dst (mem src)) (dst+1) (src+1)

def copyDown : ℕ → Mem → ℕ → ℕ → Mem
  | 0, mem, _, _ => mem
  | n+1, mem, dst, src => copyDown n (Function.update mem (dst-1) (mem (src-1))) (dst-1) (src-1)

def memmove (mem : Mem) (dst src n : ℕ) : Mem :=
  if src > dst then copyUp n mem dst src else copyDown n mem (dst+n) (src+n)

/-- Upwards a byte is read before it can be overwritten, if the source is not below, and is never
overwritten, if it ends below. -/
theorem copyUp_eq (n : ℕ) (mem : Mem) {dst src : ℕ} (h : dst ≤ src ∨ src+n ≤ dst) :
    copyUp n mem dst src = blit mem dst n fun i => mem (src+i) := by
  induction n generalizing mem dst src with
  | zero => simp [copyUp]
  | succ n ih =>
    rw [copyUp,ih _ (by omega)]
    funext x
    rcases lt_trichotomy x dst with hx | rfl | hx
    · rw [blit_outside (by omega),blit_outside (by omega),Function.update_of_ne (by omega)]
    · rw [blit_outside (by omega),blit_inside (by omega) (by omega),Function.update_self,Nat.sub_self]
      rfl
    · by_cases hr : x < dst+1+n
      · rw [blit_inside (by omega) hr,blit_inside (by omega) (by omega),Function.update_of_ne (by omega)]
        congr 1
        omega
      · rw [blit_outside (by omega),blit_outside (by omega),Function.update_of_ne (by omega)]

theorem copyDown_eq (n : ℕ) (mem : Mem) {dst src : ℕ} (h : src ≤ dst) :
    copyDown n mem (dst+n) (src+n) = blit mem dst n fun i => mem (src+i) := by
  induction n generalizing mem with
  | zero => simp [copyDown]
  | succ n ih =>
    rw [copyDown,show dst+(n+1)-1 = dst+n by omega,show src+(n+1)-1 = src+n by omega,ih]
    funext x
    by_cases hx : x = dst+n
    · subst hx
      rw [blit_outside (by omega),blit_inside (by omega) (by omega),Function.update_self,
        Nat.add_sub_cancel_left]
    · by_cases hi : dst ≤ x ∧ x < dst+n
      · rw [blit_inside hi.1 hi.2,blit_inside hi.1 (by omega),Function.update_of_ne (by omega)]
      · rw [blit_outside (by omega),blit_outside (by omega),Function.update_of_ne hx]

/-- All bytes are copied as if they were read before the first is written. -/
theorem memmove_eq (mem : Mem) (dst src n : ℕ) :
    memmove mem dst src n = blit mem dst n fun i => mem (src+i) := by
  unfold memmove
  split
  · exact copyUp_eq n mem (by omega)
  · exact copyDown_eq n mem (by omega)

end Ulib
end Xv6
