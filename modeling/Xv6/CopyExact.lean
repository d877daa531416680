import Xv6.Protection

/-! `copyout`, `copyin` and `copyinstr` with the 64-bit addresses of the source: which ranges they
accept and which bytes they move. An address that has passed `MAXVA` is refused before it can
wrap. -/
namespace Xv6.Vm

open Bytes

/-- The page of `va` lies below `MAXVA` and is mapped with `PTE_V` and `PTE_U`. Physical page 0 is
no frame. -/
def UserPage (mem : Mem) (pagetable va : ℕ) : Prop :=
  PGROUNDDOWN va < MAXVA ∧ leaf mem pagetable (PGROUNDDOWN va) &&& PTE_V ≠ 0 ∧
    leaf mem pagetable (PGROUNDDOWN va) &&& PTE_U ≠ 0 ∧
    PTE2PA (leaf mem pagetable (PGROUNDDOWN va)) ≠ 0

instance (mem : Mem) (pagetable va : ℕ) : Decidable (UserPage mem pagetable va) :=
  inferInstanceAs (Decidable (_ ∧ _ ∧ _ ∧ _))

namespace Uint64

def copyoutLoop (pagetable : ℕ) : ℕ → Mem → ℕ → Mem → ℕ → Mem × Bool
  | 0, mem, _, _, _ => (mem,true)
  | fuel+1, mem, dstva, src, len =>
    if len = 0 then (mem,true)
    else
      let va0 := PGROUNDDOWN dstva
      let pa0 := walkaddr mem pagetable va0
      if pa0 = 0 then (mem,false)
      else
        let n := min (PGSIZE-(dstva-va0)) len
        copyoutLoop pagetable fuel (blit mem (pa0+(dstva-va0)) n src) ((va0+PGSIZE)%2^64)
          (fun i => src (n+i)) (len-n)

def copyout (mem : Mem) (pagetable dstva : ℕ) (src : Mem) (len : ℕ) : Mem × Bool :=
  copyoutLoop pagetable len mem dstva src len

def copyinLoop (mem : Mem) (pagetable : ℕ) : ℕ → Mem → ℕ → ℕ → ℕ → Mem × Bool
  | 0, dst, _, _, _ => (dst,true)
  | fuel+1, dst, d, srcva, len =>
    if len = 0 then (dst,true)
    else
      let va0 := PGROUNDDOWN srcva
      let pa0 := walkaddr mem pagetable va0
      if pa0 = 0 then (dst,false)
      else
        let n := min (PGSIZE-(srcva-va0)) len
        copyinLoop mem pagetable fuel
          (blit dst d n fun i => mem (pa0+(srcva-va0)+i)) (d+n) ((va0+PGSIZE)%2^64) (len-n)

def copyin (mem : Mem) (pagetable : ℕ) (dst : Mem) (d srcva len : ℕ) : Mem × Bool :=
  copyinLoop mem pagetable len dst d srcva len

end Uint64

/-- What `copyinstr` has done: the destination, whether it found the NUL, and the physical
addresses it has read. -/
structure StrCopy where
  dst : Mem
  ok : Bool
  reads : List ℕ

/-- The inner loop of `copyinstr` over `n` bytes at `p`: `got_null`, `max`, `dst` with its contents,
and the addresses read. -/
def copyinstrBytes (mem : Mem) : ℕ → ℕ → ℕ → Mem → ℕ → List ℕ → Bool × ℕ × Mem × ℕ × List ℕ
  | 0, max, _, dst, d, reads => (false,max,dst,d,reads)
  | n+1, max, p, dst, d, reads =>
    if mem p = 0 then (true,max,Function.update dst d 0,d,reads++[p])
    else copyinstrBytes mem n (max-1) (p+1) (Function.update dst d (mem p)) (d+1) (reads++[p])

/-- The outer loop; every round uses up at least one byte of `max`. -/
def copyinstrLoop (mem : Mem) (pagetable : ℕ) : ℕ → ℕ → ℕ → Mem → ℕ → List ℕ → StrCopy
  | 0, _, _, dst, _, reads => ⟨dst,false,reads⟩
  | fuel+1, srcva, max, dst, d, reads =>
    if max = 0 then ⟨dst,false,reads⟩
    else
      let va0 := PGROUNDDOWN srcva
      let pa0 := walkaddr mem pagetable va0
      if pa0 = 0 then ⟨dst,false,reads⟩
      else
        let n := min (PGSIZE-(srcva-va0)) max
        match copyinstrBytes mem n max (pa0+(srcva-va0)) dst d reads with
        | (true,_,dst,_,reads) => ⟨dst,true,reads⟩
        | (false,max,dst,d,reads) =>
          copyinstrLoop mem pagetable fuel ((va0+PGSIZE)%2^64) max dst d reads

/-- Copy a NUL-terminated string of at most `max` bytes to `dst`. -/
def copyinstr (mem : Mem) (pagetable : ℕ) (dst : Mem) (srcva max : ℕ) : StrCopy :=
  copyinstrLoop mem pagetable (max+1) srcva max dst 0 []

/-- `strlen`, for a string that ends within `fuel` bytes. -/
def strlen (s : Mem) : ℕ → ℕ → ℕ
  | 0, n => n
  | fuel+1, n => if s n = 0 then n else strlen s fuel (n+1)

def toUint64 (n : Int32) : ℕ := (n.toInt%2^64).toNat

def fetchstr (mem : Mem) (pagetable : ℕ) (buf : Mem) (addr : ℕ) (max : Int32) : ℤ :=
  let r := copyinstr mem pagetable buf addr (toUint64 max)
  if r.ok then (Int32.ofNat (strlen r.dst (toUint64 max) 0)).toInt else -1

section Accessible

variable {mem : Mem} {pagetable va : ℕ}

theorem walkaddr_ne_zero_iff :
    walkaddr mem pagetable (PGROUNDDOWN va) ≠ 0 ↔ UserPage mem pagetable va := by
  unfold UserPage walkaddr leaf
  by_cases hmax : MAXVA ≤ PGROUNDDOWN va
  · simp [hmax,hmax.not_gt]
  · simp only [if_neg hmax]
    rw [and_iff_right (not_le.mp hmax)]
    cases walk0 mem pagetable (PGROUNDDOWN va) with
    | none => simp
    | some pte =>
      simp only
      split
      case isTrue hv => simp [hv]
      case isFalse hv =>
        split
        case isTrue hu => simp [hu]
        case isFalse hu => simp [hv,hu]

theorem canLoad_iff : canLoad mem pagetable true va ↔ UserPage mem pagetable va := by
  rw [← walkaddr_ne_zero_iff]
  simp [canLoad]

theorem next_page (h : walkaddr mem pagetable (PGROUNDDOWN va) ≠ 0) :
    (PGROUNDDOWN va+PGSIZE)%2^64 = PGROUNDDOWN va+PGSIZE := by
  have hlt := (walkaddr_ne_zero_iff.mp h).1
  have hmax : MAXVA+PGSIZE < 2^64 := by decide
  exact Nat.mod_eq_of_lt (by omega)

theorem loadable_eq_len_iff {len : ℕ} :
    loadable mem pagetable true va len = len ↔ ∀ i < len, UserPage mem pagetable (va+i) := by
  constructor
  · intro h i hi
    exact canLoad_iff.mp (canLoad_of_lt_loadable (by rwa [h]))
  · intro h
    exact loadable_eq_self fun i hi => canLoad_iff.mpr (h i hi)

end Accessible

section Copies

variable {mem : Mem} {pagetable : ℕ}

theorem Uint64.copyoutLoop_eq {fuel dstva len : ℕ} {src : Mem} :
    Uint64.copyoutLoop pagetable fuel mem dstva src len =
      Vm.copyoutLoop pagetable fuel mem dstva src len := by
  induction fuel generalizing mem dstva src len with
  | zero => rfl
  | succ fuel ih =>
    rw [Uint64.copyoutLoop,Vm.copyoutLoop]
    by_cases hpa : walkaddr mem pagetable (PGROUNDDOWN dstva) = 0
    · simp only [hpa,if_true]
    · simp only [if_neg hpa,next_page hpa,ih]

theorem Uint64.copyinLoop_eq {fuel d srcva len : ℕ} {dst : Mem} :
    Uint64.copyinLoop mem pagetable fuel dst d srcva len =
      Vm.copyinLoop mem pagetable fuel dst d srcva len := by
  induction fuel generalizing dst d srcva len with
  | zero => rfl
  | succ fuel ih =>
    rw [Uint64.copyinLoop,Vm.copyinLoop]
    by_cases hpa : walkaddr mem pagetable (PGROUNDDOWN srcva) = 0
    · simp only [hpa,if_true]
    · simp only [if_neg hpa,next_page hpa,ih]

theorem Uint64.copyin_eq {dst : Mem} {d srcva len : ℕ} :
    Uint64.copyin mem pagetable dst d srcva len =
      (blit dst d (loadable mem pagetable true srcva len)
        (fun i => mem (frameByte mem pagetable (srcva+i))),
       decide (loadable mem pagetable true srcva len = len)) := by
  rw [Uint64.copyin,Uint64.copyinLoop_eq,Vm.copyinLoop_eq le_rfl]
  rfl

theorem Uint64.copyin_of_stored (h : UserTable mem pagetable) {va len : ℕ} {src mem' : Mem}
    (hall : ∀ i < len, UserPage mem pagetable (va+i))
    (hst : Stored (fun i => frameByte mem pagetable (va+i)) 0 len src mem mem') (dst : Mem) (d : ℕ) :
    Uint64.copyin mem' pagetable dst d va len = (blit dst d len src,true) := by
  have hload : ∀ i < len, walkaddr mem pagetable (PGROUNDDOWN (va+i)) ≠ 0 :=
    fun i hi => walkaddr_ne_zero_iff.mpr (hall i hi)
  have helse : ∀ a, (∀ j < len, a ≠ frameByte mem pagetable (va+j)) → mem' a = mem a := by
    intro a ha
    apply hst.elsewhere
    intro i hi
    rw [Nat.zero_add]
    exact ha i hi
  have hwalk := h.walkaddr_eq (UserTable.stores_in_frames hload helse)
  have hfull : loadable mem' pagetable true va len = len := by
    apply loadable_eq_self
    intro i hi _
    rw [hwalk]
    exact hload i hi
  rw [Uint64.copyin_eq,hfull,decide_eq_true rfl]
  congr 1
  apply blit_congr
  intro i hi
  have hat := hst.at_tr i hi
  rw [Nat.zero_add] at hat
  rw [frameByte,hwalk]
  exact hat

end Copies

/-- Both copies accept a range exactly when the user may access all of it. A copy that succeeds moves
all bytes and no others, and can be read back; one that fails has moved those before the first page
out of reach. -/
theorem copy_exact {mem : Mem} {pagetable : ℕ} (h : UserTable mem pagetable) (va len : ℕ)
    (src dst : Mem) (d : ℕ) :
    let out := Uint64.copyout mem pagetable va src len
    let inp := Uint64.copyin mem pagetable dst d va len
    (out.2 = true ↔ ∀ i < len, UserPage mem pagetable (va+i)) ∧
    (inp.2 = true ↔ ∀ i < len, UserPage mem pagetable (va+i)) ∧
    (out.2 = true → Stored (fun i => frameByte mem pagetable (va+i)) 0 len src mem out.1 ∧
      Uint64.copyin out.1 pagetable dst d va len = (blit dst d len src,true) ∧
      inp.1 = blit dst d len fun i => mem (frameByte mem pagetable (va+i))) ∧
    (out.2 = false → ∃ m < len, ¬ UserPage mem pagetable (va+m) ∧
      (∀ i < m, UserPage mem pagetable (va+i)) ∧
      Stored (fun i => frameByte mem pagetable (va+i)) 0 m src mem out.1 ∧
      inp.1 = blit dst d m fun i => mem (frameByte mem pagetable (va+i))) := by
  obtain ⟨mem',heq,hst⟩ := h.copyout_stored va len src
  have hout : Uint64.copyout mem pagetable va src len =
      (mem',decide (loadable mem pagetable true va len = len)) := by
    rw [Uint64.copyout,Uint64.copyoutLoop_eq]
    exact heq
  intro out inp
  have hinp : inp = _ := Uint64.copyin_eq
  have hout1 : out.1 = mem' := congrArg Prod.fst hout
  have hout2 : out.2 = true ↔ ∀ i < len, UserPage mem pagetable (va+i) := by
    rw [← loadable_eq_len_iff,show out = _ from hout,decide_eq_true_eq]
  refine ⟨hout2,?_,?_,?_⟩
  · rw [hinp,decide_eq_true_eq,loadable_eq_len_iff]
  · intro hok
    have hall := hout2.mp hok
    rw [loadable_eq_len_iff.mpr hall] at hst hinp
    rw [hout1,hinp]
    exact ⟨hst,Uint64.copyin_of_stored h hall hst dst d,rfl⟩
  · intro hno
    have hlt : loadable mem pagetable true va len < len := by
      refine lt_of_le_of_ne loadable_le fun hfull => ?_
      rw [hout2.mpr (loadable_eq_len_iff.mp hfull)] at hno
      cases hno
    rw [hout1,hinp]
    refine ⟨_,hlt,?_,?_,hst,rfl⟩
    · intro hpage
      exact not_canLoad_loadable hlt (canLoad_iff.mpr hpage)
    · intro i hi
      exact canLoad_iff.mp (canLoad_of_lt_loadable hi)

/-- One byte at the end of the only page, and two bytes that reach beyond it. -/
theorem copy_exact_textPage :
    (Uint64.copyout textPage 4096 4095 (fun _ => 7) 1).2 = true ∧
    (Uint64.copyout textPage 4096 4095 (fun _ => 7) 2).2 = false ∧
    ∃ m < 2, ¬ UserPage textPage 4096 (4095+m) := by
  have hone : ∀ i < 1, UserPage textPage 4096 (4095+i) := by decide +kernel
  have htwo : ¬ ∀ i < 2, UserPage textPage 4096 (4095+i) := by decide +kernel
  have h1 := copy_exact textPage_userTable 4095 1 (fun _ => 7) (fun _ => 0) 0
  have h2 := copy_exact textPage_userTable 4095 2 (fun _ => 7) (fun _ => 0) 0
  have hfail : (Uint64.copyout textPage 4096 4095 (fun _ => 7) 2).2 = false := by
    rw [← Bool.not_eq_true,h2.1]
    exact htwo
  obtain ⟨m,hm,hbad,-⟩ := h2.2.2.2 hfail
  exact ⟨h1.1.mpr hone,hfail,m,hm,hbad⟩

section Strings

variable {mem : Mem} {pagetable : ℕ}

theorem update_eq_blit (dst : Mem) (d : ℕ) (src : Mem) :
    Function.update dst d (src 0) = blit dst d 1 src := by
  funext x
  by_cases hx : x = d
  · subst hx
    rw [Function.update_self,blit_inside le_rfl (by omega),Nat.sub_self]
  · rw [Function.update_of_ne hx,blit_outside (by omega)]

theorem blit_succ (dst : Mem) (d k : ℕ) (src : Mem) :
    blit (Function.update dst d (src 0)) (d+1) k (fun i => src (i+1)) = blit dst d (k+1) src := by
  rw [update_eq_blit,Nat.add_comm k 1,← blit_append]
  simp only [Nat.add_comm 1]

theorem map_range_succ (f : ℕ → ℕ) (k : ℕ) :
    (List.range (k+1)).map f = f 0 :: (List.range k).map fun i => f (i+1) := by
  rw [List.range_succ_eq_map,List.map_cons,List.map_map]
  rfl

theorem copyinstrBytes_none {n max p d : ℕ} {dst : Mem} {reads : List ℕ}
    (h : ∀ i < n, mem (p+i) ≠ 0) :
    copyinstrBytes mem n max p dst d reads =
      (false,max-n,blit dst d n fun i => mem (p+i),d+n,reads++(List.range n).map (p+·)) := by
  induction n generalizing max p d dst reads with
  | zero => simp [copyinstrBytes]
  | succ n ih =>
    have hshift : ∀ i, p+1+i = p+(i+1) := fun i => by omega
    have h0 : mem p ≠ 0 := h 0 (by omega)
    rw [copyinstrBytes,if_neg h0,ih fun i hi => hshift i ▸ h (i+1) (by omega)]
    simp only [hshift,map_range_succ,List.append_assoc,List.singleton_append]
    rw [show mem p = (fun i => mem (p+i)) 0 from rfl,blit_succ dst d n fun i => mem (p+i)]
    simp only [Nat.add_zero,Prod.mk.injEq,true_and,and_true]
    omega

theorem copyinstrBytes_some {n k max p d : ℕ} {dst : Mem} {reads : List ℕ} (hk : k < n)
    (h : ∀ i < k, mem (p+i) ≠ 0) (hnul : mem (p+k) = 0) :
    copyinstrBytes mem n max p dst d reads =
      (true,max-k,blit dst d (k+1) fun i => mem (p+i),d+k,reads++(List.range (k+1)).map (p+·)) := by
  induction k generalizing n max p d dst reads with
  | zero =>
    obtain ⟨n,rfl⟩ : ∃ m, n = m+1 := ⟨n-1,by omega⟩
    have h0 : mem p = 0 := hnul
    have hupd := update_eq_blit dst d fun i => mem (p+i)
    rw [Nat.add_zero,h0] at hupd
    rw [copyinstrBytes,if_pos h0,hupd]
    rfl
  | succ k ih =>
    obtain ⟨n,rfl⟩ : ∃ m, n = m+1 := ⟨n-1,by omega⟩
    have hshift : ∀ i, p+1+i = p+(i+1) := fun i => by omega
    have h0 : mem p ≠ 0 := h 0 (by omega)
    rw [copyinstrBytes,if_neg h0,ih (by omega)
      (fun i hi => hshift i ▸ h (i+1) (by omega)) (hshift k ▸ hnul)]
    simp only [hshift,map_range_succ _ (k+1),List.append_assoc,List.singleton_append]
    rw [show mem p = (fun i => mem (p+i)) 0 from rfl,blit_succ dst d (k+1) fun i => mem (p+i)]
    simp only [Nat.add_zero,Prod.mk.injEq,true_and,and_true]
    omega

/-- `t` bytes from `srcva` are accessible and not NUL, and then comes the NUL, the end of `max` or a
byte out of reach. -/
structure StrRun (mem : Mem) (pagetable srcva max t : ℕ) (nul : Bool) : Prop where
  le : t ≤ max
  page : ∀ i < t, UserPage mem pagetable (srcva+i)
  ne : ∀ i < t, mem (frameByte mem pagetable (srcva+i)) ≠ 0
  at_nul : nul = true → t < max ∧ UserPage mem pagetable (srcva+t) ∧
    mem (frameByte mem pagetable (srcva+t)) = 0
  stop : nul = false → t = max ∨ ¬ UserPage mem pagetable (srcva+t)

theorem StrRun.drop {srcva max t n : ℕ} {nul : Bool} (h : StrRun mem pagetable srcva max t nul)
    (hn : n ≤ t) : StrRun mem pagetable (srcva+n) (max-n) (t-n) nul := by
  have hlt := h.le
  have hadd : ∀ i, srcva+n+i = srcva+(n+i) := fun i => by omega
  have hend : srcva+n+(t-n) = srcva+t := by omega
  refine ⟨by omega,fun i hi => ?_,fun i hi => ?_,fun hz => ?_,fun hz => ?_⟩
  · rw [hadd]
    exact h.page _ (by omega)
  · rw [hadd]
    exact h.ne _ (by omega)
  · rw [hend]
    exact ⟨by have := (h.at_nul hz).1; omega,(h.at_nul hz).2⟩
  · rw [hend]
    exact (h.stop hz).imp (fun ht => by omega) id

theorem frameByte_add {a i : ℕ} (h : a%PGSIZE+i < PGSIZE) :
    frameByte mem pagetable (a+i) = frameByte mem pagetable a+i := by
  obtain ⟨hdown,hmod⟩ := PGROUNDDOWN_add h
  rw [frameByte,frameByte,hdown,hmod,Nat.add_assoc]

theorem userPage_add {a i : ℕ} (h : a%PGSIZE+i < PGSIZE) :
    UserPage mem pagetable (a+i) ↔ UserPage mem pagetable a := by
  rw [UserPage,UserPage,(PGROUNDDOWN_add h).1]

theorem copyinstrLoop_eq {fuel srcva max t d : ℕ} {nul : Bool} {dst : Mem} {reads : List ℕ}
    (h : StrRun mem pagetable srcva max t nul) (hfuel : max < fuel) :
    copyinstrLoop mem pagetable fuel srcva max dst d reads =
      ⟨blit dst d (t+nul.toNat) fun i => mem (frameByte mem pagetable (srcva+i)),nul,
        reads++(List.range (t+nul.toNat)).map fun i => frameByte mem pagetable (srcva+i)⟩ := by
  induction fuel generalizing srcva max t d dst reads with
  | zero => omega
  | succ fuel ih =>
    rw [copyinstrLoop]
    by_cases hmax : max = 0
    · have ht : t = 0 := by have := h.le; omega
      cases nul with
      | true => have := (h.at_nul rfl).1; omega
      | false => simp [hmax,ht]
    by_cases hpa : walkaddr mem pagetable (PGROUNDDOWN srcva) = 0
    · have hbad : ¬ UserPage mem pagetable (srcva+0) := by
        rw [Nat.add_zero,← walkaddr_ne_zero_iff]
        exact not_not.mpr hpa
      have ht : t = 0 := by
        by_contra hne
        exact hbad (h.page 0 (by omega))
      subst ht
      cases nul with
      | true => exact absurd (h.at_nul rfl).2.1 hbad
      | false => simp [hmax,hpa]
    · simp only [if_neg hmax,if_neg hpa,next_page hpa,sub_PGROUNDDOWN]
      have hmod : srcva%PGSIZE < PGSIZE := Nat.mod_lt _ (by decide)
      set n := min (PGSIZE-srcva%PGSIZE) max with hn
      have hframe : ∀ i < n, frameByte mem pagetable (srcva+i) =
          walkaddr mem pagetable (PGROUNDDOWN srcva)+srcva%PGSIZE+i :=
        fun i hi => frameByte_add (by omega)
      rcases lt_or_ge t n with htn | hnt
      · cases nul with
        | false =>
          rcases h.stop rfl with hend | hbad
          · omega
          · rw [userPage_add (by omega),← walkaddr_ne_zero_iff] at hbad
            exact absurd hpa hbad
        | true =>
          rw [copyinstrBytes_some htn (fun i hi => hframe i (by omega) ▸ h.ne i hi)
            (hframe t htn ▸ (h.at_nul rfl).2.2)]
          simp only [Bool.toNat_true]
          congr 1
          · exact blit_congr fun i hi => by rw [hframe i (by omega)]
          · congr 1
            exact List.map_congr_left fun i hi => (hframe i (by
              have := List.mem_range.mp hi
              omega)).symm
      · rw [copyinstrBytes_none fun i hi => hframe i hi ▸ h.ne i (by omega)]
        simp only
        have hshift : ∀ i, srcva+n+i = srcva+(n+i) := fun i => by omega
        have hsplit : t+nul.toNat = n+(t-n+nul.toNat) := by omega
        have hdrop := h.drop hnt
        have hmap : (List.range n).map
            (fun i => walkaddr mem pagetable (PGROUNDDOWN srcva)+srcva%PGSIZE+i) =
            (List.range n).map fun i => frameByte mem pagetable (srcva+i) :=
          List.map_congr_left fun i hi => (hframe i (List.mem_range.mp hi)).symm
        have hblit : blit dst d n
            (fun i => mem (walkaddr mem pagetable (PGROUNDDOWN srcva)+srcva%PGSIZE+i)) =
            blit dst d n fun i => mem (frameByte mem pagetable (srcva+i)) :=
          blit_congr fun i hi => by rw [hframe i hi]
        have hnext : max-n = 0 ∨ PGROUNDDOWN srcva+PGSIZE = srcva+n := by
          have hsub := sub_PGROUNDDOWN srcva
          have hle := PGROUNDDOWN_le srcva
          omega
        rw [hmap,hblit,hsplit,List.range_add,List.map_append,List.map_map,← List.append_assoc,
          ← blit_append]
        rcases hnext with hall | hnext
        · cases nul with
          | true =>
            have := (h.at_nul rfl).1
            omega
          | false =>
            have hlt := h.le
            obtain ⟨fuel,rfl⟩ : ∃ f, fuel = f+1 := ⟨fuel-1,by omega⟩
            rw [copyinstrLoop,if_pos hall,show t-n+Bool.toNat false = 0 by simp; omega]
            simp
        · rw [hnext,ih hdrop (by omega)]
          simp only [hshift]
          rfl

theorem exists_strRun (mem : Mem) (pagetable srcva max : ℕ) :
    ∃ t nul, StrRun mem pagetable srcva max t nul := by
  induction max generalizing srcva with
  | zero =>
    exact ⟨0,false,le_rfl,fun i hi => absurd hi (by omega),fun i hi => absurd hi (by omega),
      fun h => absurd h (by decide),fun _ => .inl rfl⟩
  | succ max ih =>
    by_cases hpage : UserPage mem pagetable srcva
    · by_cases hnul : mem (frameByte mem pagetable srcva) = 0
      · exact ⟨0,true,by omega,fun i hi => absurd hi (by omega),fun i hi => absurd hi (by omega),
          fun _ => ⟨by omega,hpage,hnul⟩,fun h => absurd h (by decide)⟩
      · obtain ⟨t,nul,h⟩ := ih (srcva+1)
        have hshift : ∀ i, srcva+1+i = srcva+(i+1) := fun i => by omega
        refine ⟨t+1,nul,by have := h.le; omega,?_,?_,?_,?_⟩
        · rintro (_ | i) hi
          · exact hpage
          · exact hshift i ▸ h.page i (by omega)
        · rintro (_ | i) hi
          · exact hnul
          · exact hshift i ▸ h.ne i (by omega)
        · intro hz
          have hn := h.at_nul hz
          rw [hshift] at hn
          exact ⟨by omega,hn.2⟩
        · intro hz
          rw [← hshift]
          exact (h.stop hz).imp (fun ht => by omega) id
    · exact ⟨0,false,by omega,fun i hi => absurd hi (by omega),fun i hi => absurd hi (by omega),
        fun h => absurd h (by decide),fun _ => .inr hpage⟩

/-- The bytes from `srcva` to `srcva+k` are accessible and the last of them is the first NUL. -/
structure FirstNul (mem : Mem) (pagetable srcva k : ℕ) : Prop where
  page : ∀ i ≤ k, UserPage mem pagetable (srcva+i)
  ne : ∀ i < k, mem (frameByte mem pagetable (srcva+i)) ≠ 0
  nul : mem (frameByte mem pagetable (srcva+k)) = 0

theorem FirstNul.strRun {srcva max k : ℕ} (h : FirstNul mem pagetable srcva k) (hk : k < max) :
    StrRun mem pagetable srcva max k true :=
  ⟨hk.le,fun i hi => h.page i hi.le,h.ne,fun _ => ⟨hk,h.page k le_rfl,h.nul⟩,
    fun hz => absurd hz (by decide)⟩

theorem StrRun.firstNul {srcva max t : ℕ} (h : StrRun mem pagetable srcva max t true) :
    t < max ∧ FirstNul mem pagetable srcva t := by
  obtain ⟨hlt,hpage,hnul⟩ := h.at_nul rfl
  refine ⟨hlt,fun i hi => ?_,h.ne,hnul⟩
  rcases hi.lt_or_eq with hi | rfl
  · exact h.page i hi
  · exact hpage

theorem StrRun.not_firstNul {srcva max t k : ℕ} (h : StrRun mem pagetable srcva max t false)
    (hk : k < max) : ¬ FirstNul mem pagetable srcva k := by
  intro hf
  rcases lt_or_ge k t with hlt | hge
  · exact h.ne k hlt hf.nul
  · rcases h.stop rfl with rfl | hbad
    · omega
    · exact hbad (hf.page t hge)

theorem StrRun.copyinstr_eq {srcva max t : ℕ} {nul : Bool} (h : StrRun mem pagetable srcva max t nul)
    (dst : Mem) : copyinstr mem pagetable dst srcva max =
      ⟨blit dst 0 (t+nul.toNat) fun i => mem (frameByte mem pagetable (srcva+i)),nul,
        (List.range (t+nul.toNat)).map fun i => frameByte mem pagetable (srcva+i)⟩ := by
  rw [copyinstr,copyinstrLoop_eq h (by omega),List.nil_append]

theorem strlen_eq {s : Mem} {k : ℕ} (hne : ∀ i < k, s i ≠ 0) (hnul : s k = 0) {fuel n : ℕ}
    (hn : n ≤ k) (hfuel : k ≤ n+fuel) : strlen s fuel n = k := by
  induction fuel generalizing n with
  | zero => exact le_antisymm hn hfuel
  | succ fuel ih =>
    rw [strlen]
    rcases hn.lt_or_eq with hlt | rfl
    · rw [if_neg (hne n hlt)]
      exact ih hlt (by omega)
    · rw [if_pos hnul]

theorem toUint64_lt {n : Int32} (hn : 0 ≤ n.toInt) : toUint64 n < 2^31 := by
  have hlt := n.toInt_lt
  unfold toUint64
  omega

theorem fetchstr_eq {srcva k : ℕ} {n : Int32} (h : FirstNul mem pagetable srcva k)
    (hk : k < toUint64 n) (hint : 0 ≤ n.toInt ∨ k < 2^31) (buf : Mem) :
    fetchstr mem pagetable buf srcva n = k := by
  have hk31 : k < 2^31 := hint.elim (fun hn => hk.trans (toUint64_lt hn)) id
  have hbyte : ∀ i ≤ k, blit buf 0 (k+1) (fun i => mem (frameByte mem pagetable (srcva+i))) i =
      mem (frameByte mem pagetable (srcva+i)) := by
    intro i hi
    rw [blit_inside (by omega) (by omega),Nat.sub_zero]
  simp only [fetchstr,(h.strRun hk).copyinstr_eq,if_true,Bool.toNat_true]
  rw [strlen_eq (fun i hi => by rw [hbyte i hi.le]; exact h.ne i hi)
    (by rw [hbyte k le_rfl]; exact h.nul) (Nat.zero_le k) (by omega)]
  exact Int32.toInt_ofNat_of_lt hk31

end Strings

/-- `copyinstr` succeeds exactly when the string ends within `max` accessible bytes; it then holds
the string, whose length `fetchstr` returns. It never writes more than `max` bytes and never reads
beyond the NUL. A string longer than an `int` can only be asked for with a negative `max`. -/
theorem copyinstr_exact (mem : Mem) (pagetable srcva max : ℕ) (dst : Mem) :
    let r := copyinstr mem pagetable dst srcva max
    (r.ok = true ↔ ∃ k < max, FirstNul mem pagetable srcva k) ∧
    (∀ k < max, FirstNul mem pagetable srcva k →
      (∀ i ≤ k, r.dst i = mem (frameByte mem pagetable (srcva+i))) ∧
      (∀ i, k < i → r.dst i = dst i) ∧
      ∀ n, toUint64 n = max → 0 ≤ n.toInt ∨ k < 2^31 → fetchstr mem pagetable dst srcva n = k) ∧
    (∀ i, max ≤ i → r.dst i = dst i) ∧
    ∀ a ∈ r.reads, ∃ i < max, a = frameByte mem pagetable (srcva+i) ∧
      UserPage mem pagetable (srcva+i) ∧ ∀ j < i, mem (frameByte mem pagetable (srcva+j)) ≠ 0 := by
  obtain ⟨t,nul,h⟩ := exists_strRun mem pagetable srcva max
  intro r
  have hr : r = _ := h.copyinstr_eq dst
  have hle : t+nul.toNat ≤ max := by
    cases nul with
    | true => exact h.firstNul.1
    | false => exact h.le
  refine ⟨?_,?_,?_,?_⟩
  · rw [hr]
    cases nul with
    | true => exact ⟨fun _ => ⟨t,h.firstNul⟩,fun _ => rfl⟩
    | false =>
      refine ⟨fun hz => absurd hz Bool.false_ne_true,?_⟩
      rintro ⟨k,hk,hf⟩
      exact absurd hf (h.not_firstNul hk)
  · intro k hk hf
    have hrk : r = _ := (hf.strRun hk).copyinstr_eq dst
    simp only [hrk,Bool.toNat_true]
    refine ⟨fun i hi => ?_,fun i hi => blit_outside (by omega),?_⟩
    · rw [blit_inside (by omega) (by omega),Nat.sub_zero]
    · rintro n rfl hint
      exact fetchstr_eq hf hk hint dst
  · intro i hi
    simp only [hr]
    exact blit_outside (by omega)
  · rw [hr]
    intro a ha
    obtain ⟨i,hi,rfl⟩ := List.mem_map.mp ha
    have hi := List.mem_range.mp hi
    refine ⟨i,by omega,rfl,?_,fun j hj => ?_⟩
    · cases nul with
      | true => exact h.firstNul.2.page i (by simpa using Nat.le_of_lt_succ hi)
      | false => exact h.page i (by simpa using hi)
    · have hnul := nul.toNat_le
      exact h.ne j (by omega)

end Xv6.Vm
