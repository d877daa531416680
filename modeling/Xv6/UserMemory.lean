import Xv6.Bytes

/-! Physical memory seen through a page table: Sv39 page-table entries, `walk` without
allocation, `walkaddr`, and the copies between kernel and user space of `kernel/vm.c`. Physical
and virtual addresses are natural numbers. -/
namespace Xv6

open Bytes

def PGSIZE : ℕ := 4096
def PGROUNDUP (sz : ℕ) : ℕ := (sz+PGSIZE-1)/PGSIZE*PGSIZE
def PGROUNDDOWN (a : ℕ) : ℕ := a/PGSIZE*PGSIZE

def PTE_V : ℕ := 1
def PTE_R : ℕ := 2
def PTE_W : ℕ := 4
def PTE_X : ℕ := 8
def PTE_U : ℕ := 16

def PA2PTE (pa : ℕ) : ℕ := (pa >>> 12) <<< 10
def PTE2PA (pte : ℕ) : ℕ := (pte >>> 10) <<< 12
def PTE_FLAGS (pte : ℕ) : ℕ := pte &&& 0x3FF
/-- The nine-bit index of `va` into a page table of the given level. -/
def PX (level va : ℕ) : ℕ := (va >>> (12+9*level)) &&& 0x1FF
def MAXVA : ℕ := 1 <<< 38

namespace Vm

def pteAt (mem : Mem) (pagetable i : ℕ) : ℕ := readLE mem (pagetable+8*i) 8

/-- The loop of `walk` for `alloc == 0` from the given level down: the address of the level-0
entry. -/
def walkFrom (mem : Mem) (va : ℕ) : ℕ → ℕ → Option ℕ
  | 0, pagetable => some (pagetable+8*PX 0 va)
  | level+1, pagetable =>
    let pte := pteAt mem pagetable (PX (level+1) va)
    if pte &&& PTE_V = 0 then none else walkFrom mem va level (PTE2PA pte)

def walk0 (mem : Mem) (pagetable va : ℕ) : Option ℕ := walkFrom mem va 2 pagetable

def walkaddr (mem : Mem) (pagetable va : ℕ) : ℕ :=
  if MAXVA ≤ va then 0
  else match walk0 mem pagetable va with
    | none => 0
    | some pte =>
      let e := readLE mem pte 8
      if e &&& PTE_V = 0 then 0
      else if e &&& PTE_U = 0 then 0
      else PTE2PA e

/-- The loop of `copyout`; every round copies at least one byte, so `len` rounds are enough. -/
def copyoutLoop (pagetable : ℕ) : ℕ → Mem → ℕ → Mem → ℕ → Mem × Bool
  | 0, mem, _, _, _ => (mem,true)
  | fuel+1, mem, dstva, src, len =>
    if len = 0 then (mem,true)
    else
      let va0 := PGROUNDDOWN dstva
      let pa0 := walkaddr mem pagetable va0
      if pa0 = 0 then (mem,false)
      else
        let n := min (PGSIZE-(dstva-va0)) len
        copyoutLoop pagetable fuel (blit mem (pa0+(dstva-va0)) n src) (va0+PGSIZE)
          (fun i => src (n+i)) (len-n)

/-- Copy `len` bytes of `src` to the user address `dstva`; `false` stands for -1. -/
def copyout (mem : Mem) (pagetable dstva : ℕ) (src : Mem) (len : ℕ) : Mem × Bool :=
  copyoutLoop pagetable len mem dstva src len

def copyinLoop (mem : Mem) (pagetable : ℕ) : ℕ → Mem → ℕ → ℕ → ℕ → Mem × Bool
  | 0, dst, _, _, _ => (dst,true)
  | fuel+1, dst, d, srcva, len =>
    if len = 0 then (dst,true)
    else
      let va0 := PGROUNDDOWN srcva
      let pa0 := walkaddr mem pagetable va0
      if pa0 = 0 then (dst,false)
      else
        let n := min (PGSIZE-(srcva-va0)) len
        copyinLoop mem pagetable fuel
          (blit dst d n fun i => mem (pa0+(srcva-va0)+i)) (d+n) (va0+PGSIZE) (len-n)

/-- Copy `len` bytes from the user address `srcva` to `dst` at offset `d`. -/
def copyin (mem : Mem) (pagetable : ℕ) (dst : Mem) (d srcva len : ℕ) : Mem × Bool :=
  copyinLoop mem pagetable len dst d srcva len

def eitherCopyout (mem : Mem) (pagetable : ℕ) (userDst : Bool) (dst : ℕ) (src : Mem)
    (len : ℕ) : Mem × Bool :=
  if userDst then copyout mem pagetable dst src len else (blit mem dst len src,true)

def eitherCopyin (mem : Mem) (pagetable : ℕ) (dst : Mem) (d : ℕ) (userSrc : Bool)
    (src len : ℕ) : Mem × Bool :=
  if userSrc then copyin mem pagetable dst d src len
  else (blit dst d len fun i => mem (src+i),true)

/-- Memory with a page table at 4096 that maps user page 0 to the frame at 16384, and no other
page. The last byte of the frame is 65. -/
def onePage : Mem := fun a =>
  match a with
  | 4096 => 0x01
  | 4097 => 0x08
  | 8192 => 0x01
  | 8193 => 0x0c
  | 12288 => 0x17
  | 12289 => 0x10
  | 20479 => 65
  | _ => 0

section Copyin

variable (mem : Mem) (pagetable : ℕ) (userSrc : Bool)

def canLoad (a : ℕ) : Prop := userSrc = true → walkaddr mem pagetable (PGROUNDDOWN a) ≠ 0

instance (a : ℕ) : Decidable (canLoad mem pagetable userSrc a) :=
  inferInstanceAs (Decidable (_ → _))

def loadByte (a : ℕ) : UInt8 :=
  if userSrc then mem (walkaddr mem pagetable (PGROUNDDOWN a)+a%PGSIZE) else mem a

/-- How many of the `len` bytes from `src` on come before the first one that cannot be loaded. -/
def loadable (src : ℕ) : ℕ → ℕ
  | 0 => 0
  | len+1 => if canLoad mem pagetable userSrc src then 1+loadable (src+1) len else 0

end Copyin

section CopyinLemmas

variable {mem : Mem} {pagetable : ℕ} {userSrc : Bool} {src len : ℕ}

theorem loadable_le : loadable mem pagetable userSrc src len ≤ len := by
  induction len generalizing src with
  | zero => exact le_rfl
  | succ len ih =>
    rw [loadable]
    split
    · have h := @ih (src+1)
      omega
    · omega

theorem canLoad_of_lt_loadable {i : ℕ} (hi : i < loadable mem pagetable userSrc src len) :
    canLoad mem pagetable userSrc (src+i) := by
  induction len generalizing src i with
  | zero => simp [loadable] at hi
  | succ len ih =>
    rw [loadable] at hi
    split at hi
    case isFalse => omega
    case isTrue h =>
      cases i with
      | zero => exact h
      | succ i =>
        have hh := @ih (src+1) i (by omega)
        rwa [Nat.add_assoc,Nat.add_comm 1 i] at hh

theorem not_canLoad_loadable (h : loadable mem pagetable userSrc src len < len) :
    ¬ canLoad mem pagetable userSrc (src+loadable mem pagetable userSrc src len) := by
  induction len generalizing src with
  | zero => omega
  | succ len ih =>
    rw [loadable] at h ⊢
    split
    case isFalse hn => simpa using hn
    case isTrue hc =>
      rw [if_pos hc] at h
      have hh := @ih (src+1) (by omega)
      rwa [Nat.add_assoc] at hh

theorem loadable_eq_self (h : ∀ i < len, canLoad mem pagetable userSrc (src+i)) :
    loadable mem pagetable userSrc src len = len := by
  by_contra hne
  have hlt : loadable mem pagetable userSrc src len < len := lt_of_le_of_ne loadable_le hne
  exact not_canLoad_loadable hlt (h _ hlt)

theorem loadable_add {n : ℕ} (h : ∀ i < n, canLoad mem pagetable userSrc (src+i))
    (hn : n ≤ len) : loadable mem pagetable userSrc src len =
      n+loadable mem pagetable userSrc (src+n) (len-n) := by
  induction n generalizing src len with
  | zero => simp
  | succ n ih =>
    obtain ⟨len,rfl⟩ : ∃ l, len = l+1 := ⟨len-1,by omega⟩
    have h0 : canLoad mem pagetable userSrc src := h 0 (by omega)
    have hrest : ∀ i < n, canLoad mem pagetable userSrc (src+1+i) := by
      intro i hi
      have hh := h (i+1) (by omega)
      rwa [Nat.add_comm i 1,← Nat.add_assoc] at hh
    rw [loadable,if_pos h0,ih hrest (by omega),show src+1+n = src+(n+1) by omega,
      show len+1-(n+1) = len-n by omega]
    omega

theorem loadable_of_short {m : ℕ} (h : loadable mem pagetable userSrc src m < m) (hm : m ≤ len) :
    loadable mem pagetable userSrc src len = loadable mem pagetable userSrc src m := by
  have hfirst := fun i hi => (@canLoad_of_lt_loadable mem pagetable userSrc src m i hi)
  rw [loadable_add hfirst (h.le.trans hm)]
  obtain ⟨l,hl⟩ : ∃ l, len-loadable mem pagetable userSrc src m = l+1 :=
    ⟨len-loadable mem pagetable userSrc src m-1,by omega⟩
  rw [hl,loadable,if_neg (not_canLoad_loadable h),Nat.add_zero]

theorem PGROUNDDOWN_le (a : ℕ) : PGROUNDDOWN a ≤ a := Nat.div_mul_le_self a PGSIZE

theorem sub_PGROUNDDOWN (a : ℕ) : a-PGROUNDDOWN a = a%PGSIZE := by
  have h := Nat.div_add_mod' a PGSIZE
  unfold PGROUNDDOWN
  omega

theorem PGROUNDDOWN_add {a i : ℕ} (h : a%PGSIZE+i < PGSIZE) :
    PGROUNDDOWN (a+i) = PGROUNDDOWN a ∧ (a+i)%PGSIZE = a%PGSIZE+i := by
  unfold PGROUNDDOWN PGSIZE at *
  omega

theorem copyinLoop_eq {fuel : ℕ} {dst : Mem} {d : ℕ} (hfuel : len ≤ fuel) :
    copyinLoop mem pagetable fuel dst d src len =
      (blit dst d (loadable mem pagetable true src len)
        (fun i => loadByte mem pagetable true (src+i)),
       decide (loadable mem pagetable true src len = len)) := by
  induction fuel generalizing dst d src len with
  | zero =>
    obtain rfl : len = 0 := by omega
    simp [copyinLoop,loadable]
  | succ fuel ih =>
    rw [copyinLoop]
    by_cases hlen : len = 0
    · subst hlen
      simp [loadable]
    · simp only [if_neg hlen]
      by_cases hpa : walkaddr mem pagetable (PGROUNDDOWN src) = 0
      · have hno : ¬ canLoad mem pagetable true src := by simp [canLoad,hpa]
        obtain ⟨l,rfl⟩ : ∃ l, len = l+1 := ⟨len-1,by omega⟩
        simp [hpa,loadable,hno]
      · simp only [if_neg hpa,sub_PGROUNDDOWN]
        have hmod : src%PGSIZE < PGSIZE := Nat.mod_lt _ (by decide)
        set n := min (PGSIZE-src%PGSIZE) len with hn
        have hn1 : 1 ≤ n := by omega
        have hpage : ∀ i < n, PGROUNDDOWN (src+i) = PGROUNDDOWN src ∧
            (src+i)%PGSIZE = src%PGSIZE+i := fun i hi => PGROUNDDOWN_add (by omega)
        have hload : ∀ i < n, canLoad mem pagetable true (src+i) := by
          intro i hi _
          rwa [(hpage i hi).1]
        have hbytes : ∀ i < n, mem (walkaddr mem pagetable (PGROUNDDOWN src)+src%PGSIZE+i) =
            loadByte mem pagetable true (src+i) := by
          intro i hi
          simp [loadByte,hpage i hi,Nat.add_assoc]
        have hnext : n = len ∨ PGROUNDDOWN src+PGSIZE = src+n := by
          have hsub := sub_PGROUNDDOWN src
          have hle := PGROUNDDOWN_le src
          omega
        rw [loadable_add hload (by omega),blit_congr hbytes,
          ← blit_append _ (fun i => loadByte mem pagetable true (src+i))]
        rcases hnext with hall | hnext
        · rw [hall]
          cases fuel with
          | zero => simp [copyinLoop,loadable]
          | succ fuel => simp [copyinLoop,loadable]
        · rw [hnext,ih (by omega)]
          simp only [Nat.add_assoc,Prod.mk.injEq,true_and,decide_eq_decide]
          omega

/-- `either_copyin` copies the loadable bytes before the first bad address, and succeeds when
there is none. -/
theorem eitherCopyin_eq {dst : Mem} {d : ℕ} :
    eitherCopyin mem pagetable dst d userSrc src len =
      (blit dst d (loadable mem pagetable userSrc src len)
        (fun i => loadByte mem pagetable userSrc (src+i)),
       decide (loadable mem pagetable userSrc src len = len)) := by
  cases userSrc with
  | true => exact copyinLoop_eq le_rfl
  | false =>
    have hall : loadable mem pagetable false src len = len :=
      loadable_eq_self fun _ _ h => by simp at h
    simp [eitherCopyin,hall,loadByte]

end CopyinLemmas
section Copyout

variable {mem : Mem} {pagetable : ℕ}

theorem copyoutLoop_congr {fuel dstva len : ℕ} {src src' : Mem} (h : ∀ i < len, src i = src' i) :
    copyoutLoop pagetable fuel mem dstva src len = copyoutLoop pagetable fuel mem dstva src' len := by
  induction fuel generalizing mem dstva src src' len with
  | zero => rfl
  | succ fuel ih =>
    have hblit : blit mem (walkaddr mem pagetable (PGROUNDDOWN dstva)+(dstva-PGROUNDDOWN dstva))
        (min (PGSIZE-(dstva-PGROUNDDOWN dstva)) len) src =
        blit mem (walkaddr mem pagetable (PGROUNDDOWN dstva)+(dstva-PGROUNDDOWN dstva))
        (min (PGSIZE-(dstva-PGROUNDDOWN dstva)) len) src' :=
      blit_congr fun i hi => h i (by omega)
    simp only [copyoutLoop,hblit]
    split
    · rfl
    · split
      · rfl
      · exact ih fun i hi => h _ (by omega)

theorem eitherCopyout_congr {userDst : Bool} {dst len : ℕ} {src src' : Mem}
    (h : ∀ i < len, src i = src' i) :
    eitherCopyout mem pagetable userDst dst src len =
      eitherCopyout mem pagetable userDst dst src' len := by
  unfold eitherCopyout copyout
  rw [copyoutLoop_congr h,blit_congr h]

/-- The `n` bytes at `dst` can be stored to, byte `i` at physical address `tr i`; storing there
does not change the mapping. -/
structure Accessible (mem : Mem) (pagetable : ℕ) (userDst : Bool) (dst n : ℕ) (tr : ℕ → ℕ) :
    Prop where
  kernel : userDst = false → ∀ i < n, tr i = dst+i
  user : userDst = true → ∀ mem' : Mem, (∀ a, (∀ j < n, a ≠ tr j) → mem' a = mem a) →
    ∀ i < n, walkaddr mem' pagetable (PGROUNDDOWN (dst+i)) ≠ 0 ∧
      tr i = walkaddr mem' pagetable (PGROUNDDOWN (dst+i))+(dst+i)%PGSIZE
  inj : ∀ i < n, ∀ j < n, tr i = tr j → i = j

/-- From `mem`, the bytes of `src` have been stored at `tr k`, `tr (k+1)`, … , `tr (k+m-1)`. -/
structure Stored (tr : ℕ → ℕ) (k m : ℕ) (src : Mem) (mem mem' : Mem) : Prop where
  at_tr : ∀ i < m, mem' (tr (k+i)) = src i
  elsewhere : ∀ a, (∀ i < m, a ≠ tr (k+i)) → mem' a = mem a

theorem Stored.refl {tr : ℕ → ℕ} {k : ℕ} {src : Mem} : Stored tr k 0 src mem mem where
  at_tr i hi := by omega
  elsewhere _ _ := rfl

variable {userDst : Bool} {dst n : ℕ} {tr : ℕ → ℕ}

theorem Stored.append {mem' mem'' : Mem} {src : Mem} {k m l : ℕ}
    (hinj : ∀ i < n, ∀ j < n, tr i = tr j → i = j) (hn : k+m+l ≤ n)
    (h : Stored tr k m src mem mem') (h' : Stored tr (k+m) l (fun i => src (m+i)) mem' mem'') :
    Stored tr k (m+l) src mem mem'' where
  at_tr i hi := by
    rcases lt_or_ge i m with him | him
    · rw [h'.elsewhere _ fun j hj heq => ?_,h.at_tr i him]
      have := hinj _ (by omega) _ (by omega) heq
      omega
    · have hh := h'.at_tr (i-m) (by omega)
      rwa [show k+m+(i-m) = k+i by omega,show m+(i-m) = i by omega] at hh
  elsewhere a ha := by
    rw [h'.elsewhere a fun j hj => ?_,h.elsewhere a fun i hi => ha i (by omega)]
    have hh := ha (m+j) (by omega)
    rwa [← Nat.add_assoc] at hh

theorem Stored.outside {mem' : Mem} {src : Mem} {k m : ℕ} (hn : k+m ≤ n)
    (h : Stored tr k m src mem mem') {a : ℕ} (ha : ∀ j < n, a ≠ tr j) : mem' a = mem a :=
  h.elsewhere a fun _ _ => ha _ (by omega)

private theorem stored_blit {k m a : ℕ} {src : Mem} (htr : ∀ i < m, tr (k+i) = a+i) :
    Stored tr k m src mem (blit mem a m src) where
  at_tr i hi := by rw [htr i hi,blit_add hi]
  elsewhere x hx := by
    apply blit_outside
    by_contra hin
    have hlt : x-a < m := by omega
    apply hx (x-a) hlt
    rw [htr _ hlt]
    omega

/-- The loop stores up to the end of the accessible bytes and fails if there are more to store. -/
theorem copyoutLoop_stored (hacc : Accessible mem pagetable true dst n tr) {fuel k len : ℕ}
    {mem' : Mem} {src : Mem} (hfuel : len ≤ fuel) (hk : k ≤ n)
    (hstop : n < k+len → ∀ mem' : Mem, (∀ a, (∀ j < n, a ≠ tr j) → mem' a = mem a) →
      walkaddr mem' pagetable (PGROUNDDOWN (dst+n)) = 0)
    (hmem : ∀ a, (∀ j < n, a ≠ tr j) → mem' a = mem a) :
    ∃ mem'', copyoutLoop pagetable fuel mem' (dst+k) src len = (mem'',decide (k+len ≤ n)) ∧
      Stored tr k (min len (n-k)) src mem' mem'' := by
  induction fuel generalizing k len mem' src with
  | zero =>
    obtain rfl : len = 0 := by omega
    exact ⟨mem',by simp [copyoutLoop,hk],by rw [Nat.zero_min]; exact .refl⟩
  | succ fuel ih =>
    rw [copyoutLoop]
    by_cases hzero : len = 0
    · subst hzero
      exact ⟨mem',by simp [hk],by rw [Nat.zero_min]; exact .refl⟩
    rcases hk.eq_or_lt with rfl | hlt
    · refine ⟨mem',?_,by rw [Nat.sub_self,Nat.min_zero]; exact .refl⟩
      simp [hzero,hstop (by omega) mem' hmem]
    have hpa := (hacc.user rfl mem' hmem k hlt).1
    have hsub := sub_PGROUNDDOWN (dst+k)
    have hmod : (dst+k)%PGSIZE < PGSIZE := Nat.mod_lt _ (by decide)
    simp only [if_neg hzero,if_neg hpa,hsub]
    set m := min (PGSIZE-(dst+k)%PGSIZE) len with hm
    -- the first byte out of reach starts a page, so this round does not pass it
    have hkm : k+m ≤ n := by
      by_contra hpass
      obtain ⟨hdown,-⟩ := PGROUNDDOWN_add (a := dst+k) (i := n-k) (by omega)
      rw [show dst+k+(n-k) = dst+n by omega] at hdown
      exact hpa (hdown ▸ hstop (by omega) mem' hmem)
    set pa := walkaddr mem' pagetable (PGROUNDDOWN (dst+k)) with hpadef
    have htr : ∀ i < m, tr (k+i) = pa+(dst+k)%PGSIZE+i := by
      intro i hi
      obtain ⟨hdown,hmod'⟩ := PGROUNDDOWN_add (a := dst+k) (i := i) (by omega)
      have hh := (hacc.user rfl mem' hmem (k+i) (by omega)).2
      rw [← Nat.add_assoc,hdown,hmod',← hpadef,← Nat.add_assoc] at hh
      exact hh
    have hst : Stored tr k m src mem' (blit mem' (pa+(dst+k)%PGSIZE) m src) := stored_blit htr
    have hmem' : ∀ a, (∀ j < n, a ≠ tr j) →
        blit mem' (pa+(dst+k)%PGSIZE) m src a = mem a := by
      intro a ha
      rw [hst.outside hkm ha,hmem a ha]
    have hnext : m = len ∨ PGROUNDDOWN (dst+k)+PGSIZE = dst+(k+m) := by
      have hle := PGROUNDDOWN_le (dst+k)
      omega
    rcases hnext with hall | hnext
    · rw [hall,Nat.sub_self]
      refine ⟨blit mem' (pa+(dst+k)%PGSIZE) len src,?_,?_⟩
      · have hle : k+len ≤ n := by omega
        cases fuel <;> simp [copyoutLoop,hle]
      · rw [Nat.min_eq_left (by omega),← hall]
        exact hst
    · rw [hnext]
      obtain ⟨mem'',heq,hst'⟩ := @ih (k+m) (len-m) _ (fun i => src (m+i)) (by omega) hkm
        (fun h => hstop (by omega)) hmem'
      refine ⟨mem'',?_,?_⟩
      · rw [heq,show k+m+(len-m) = k+len by omega]
      · have hh := Stored.append hacc.inj (by omega) hst hst'
        rwa [show m+min (len-m) (n-(k+m)) = min len (n-k) by omega] at hh

/-- A copy to accessible memory succeeds and stores its bytes where they belong. -/
theorem eitherCopyout_stored (hacc : Accessible mem pagetable userDst dst n tr) {k len : ℕ}
    {mem' : Mem} {src : Mem} (hlen : k+len ≤ n)
    (hmem : ∀ a, (∀ j < n, a ≠ tr j) → mem' a = mem a) :
    ∃ mem'', eitherCopyout mem' pagetable userDst (dst+k) src len = (mem'',true) ∧
      Stored tr k len src mem' mem'' := by
  cases userDst with
  | true =>
    obtain ⟨mem'',heq,hst⟩ : ∃ mem'', copyoutLoop pagetable len mem' (dst+k) src len =
        (mem'',decide (k+len ≤ n)) ∧ Stored tr k (min len (n-k)) src mem' mem'' :=
      copyoutLoop_stored hacc le_rfl (by omega) (fun h => absurd h hlen.not_gt) hmem
    rw [Nat.min_eq_left (by omega)] at hst
    exact ⟨mem'',by rwa [decide_eq_true hlen] at heq,hst⟩
  | false =>
    refine ⟨_,rfl,stored_blit ?_⟩
    intro i hi
    rw [hacc.kernel rfl _ (by omega),Nat.add_assoc]

end Copyout
end Vm
end Xv6
