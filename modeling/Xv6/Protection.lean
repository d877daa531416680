import Xv6.UserMemory

/-! Which physical bytes `copyout` can change. `walkaddr` tests `PTE_V` and `PTE_U` but not
`PTE_W`, and the kernel stores through the physical address, so the hardware does not test it
either. -/
namespace Xv6.Vm

open Bytes

/-- The permissions `exec` asks for a segment with the given ELF flags. -/
def flags2perm (flags : ℕ) : ℕ :=
  (if flags &&& 0x1 ≠ 0 then PTE_X else 0) ||| (if flags &&& 0x2 ≠ 0 then PTE_W else 0)

/-- The page at the address is a page-table page of the given level of the table at `root`. -/
inductive TablePage (mem : Mem) (root : ℕ) : ℕ → ℕ → Prop
  | root : TablePage mem root 2 root
  | next {level p i : ℕ} : TablePage mem root (level+1) p → i < 512 →
      pteAt mem p i &&& PTE_V ≠ 0 → TablePage mem root level (PTE2PA (pteAt mem p i))

/-- The level-0 entry for `va`, 0 if there is none. -/
def leaf (mem : Mem) (pagetable va : ℕ) : ℕ :=
  if MAXVA ≤ va then 0
  else match walk0 mem pagetable va with
    | none => 0
    | some pte => readLE mem pte 8

/-- A user page table as the kernel keeps it: the frames behind user pages are not page-table
pages, and no frame is mapped twice. -/
structure UserTable (mem : Mem) (pagetable : ℕ) : Prop where
  aligned : pagetable%PGSIZE = 0
  apart : ∀ level p va, TablePage mem pagetable level p → walkaddr mem pagetable va ≠ 0 →
    walkaddr mem pagetable va ≠ p
  inj : ∀ va va', walkaddr mem pagetable (PGROUNDDOWN va) ≠ 0 →
    walkaddr mem pagetable (PGROUNDDOWN va) = walkaddr mem pagetable (PGROUNDDOWN va') →
    PGROUNDDOWN va = PGROUNDDOWN va'

def Writable (mem : Mem) (pagetable va : ℕ) : Prop :=
  leaf mem pagetable (PGROUNDDOWN va) &&& PTE_V ≠ 0 ∧
    leaf mem pagetable (PGROUNDDOWN va) &&& PTE_U ≠ 0 ∧
    leaf mem pagetable (PGROUNDDOWN va) &&& PTE_W ≠ 0

instance (mem : Mem) (pagetable va : ℕ) : Decidable (Writable mem pagetable va) :=
  inferInstanceAs (Decidable (_ ∧ _ ∧ _))

def frameByte (mem : Mem) (pagetable va : ℕ) : ℕ :=
  walkaddr mem pagetable (PGROUNDDOWN va)+va%PGSIZE

theorem PTE2PA_mod (pte : ℕ) : PTE2PA pte%PGSIZE = 0 := by
  rw [PTE2PA,Nat.shiftLeft_eq]
  exact Nat.mul_mod_left _ _

theorem walkaddr_mod (mem : Mem) (pagetable va : ℕ) : walkaddr mem pagetable va%PGSIZE = 0 := by
  unfold walkaddr
  split
  · rfl
  · split
    · rfl
    · dsimp only
      split
      · rfl
      · split
        · rfl
        · exact PTE2PA_mod _

theorem PX_lt (level va : ℕ) : PX level va < 512 := by
  rw [PX,show 0x1FF = 2^9-1 from rfl,Nat.and_two_pow_sub_one_eq_mod]
  exact Nat.mod_lt _ (by decide)

theorem TablePage.mod {mem : Mem} {root level p : ℕ} (hroot : root%PGSIZE = 0)
    (h : TablePage mem root level p) : p%PGSIZE = 0 := by
  cases h with
  | root => exact hroot
  | next _ _ _ => exact PTE2PA_mod _

theorem frameByte_eq_iff {mem : Mem} {pagetable va va' : ℕ} :
    frameByte mem pagetable va = frameByte mem pagetable va' ↔
      walkaddr mem pagetable (PGROUNDDOWN va) = walkaddr mem pagetable (PGROUNDDOWN va') ∧
        va%PGSIZE = va'%PGSIZE := by
  have h := walkaddr_mod mem pagetable (PGROUNDDOWN va)
  have h' := walkaddr_mod mem pagetable (PGROUNDDOWN va')
  unfold frameByte PGSIZE at *
  omega

namespace UserTable

variable {mem mem' : Mem} {pagetable : ℕ}

/-- Stores to user frames do not change an entry of a page-table page. -/
theorem readLE_eq (h : UserTable mem pagetable)
    (hmem : ∀ a, (∀ va, walkaddr mem pagetable va ≠ 0 →
      a-a%PGSIZE ≠ walkaddr mem pagetable va) → mem' a = mem a)
    {level p i : ℕ} (hp : TablePage mem pagetable level p) (hi : i < 512) :
    readLE mem' (p+8*i) 8 = readLE mem (p+8*i) 8 := by
  refine readLE_congr fun x hx => hmem _ fun va hva => ?_
  have hmod := hp.mod h.aligned
  rw [show p+8*i+x-(p+8*i+x)%PGSIZE = p by unfold PGSIZE at *; omega]
  exact (h.apart level p va hp hva).symm

theorem walkFrom_eq (h : UserTable mem pagetable)
    (hmem : ∀ a, (∀ va, walkaddr mem pagetable va ≠ 0 →
      a-a%PGSIZE ≠ walkaddr mem pagetable va) → mem' a = mem a)
    {level p va : ℕ} (hp : TablePage mem pagetable level p) :
    walkFrom mem' va level p = walkFrom mem va level p ∧
      ∀ pte, walkFrom mem va level p = some pte → readLE mem' pte 8 = readLE mem pte 8 := by
  induction level generalizing p with
  | zero =>
    refine ⟨rfl,?_⟩
    rintro pte ⟨⟩
    exact h.readLE_eq hmem hp (PX_lt 0 va)
  | succ level ih =>
    have hpte : pteAt mem' p (PX (level+1) va) = pteAt mem p (PX (level+1) va) :=
      h.readLE_eq hmem hp (PX_lt (level+1) va)
    simp only [walkFrom,hpte]
    by_cases hv : pteAt mem p (PX (level+1) va) &&& PTE_V = 0
    · simp [hv]
    · simp only [if_neg hv]
      exact ih (hp.next (PX_lt (level+1) va) hv)

theorem walkaddr_eq (h : UserTable mem pagetable)
    (hmem : ∀ a, (∀ va, walkaddr mem pagetable va ≠ 0 →
      a-a%PGSIZE ≠ walkaddr mem pagetable va) → mem' a = mem a) (va : ℕ) :
    walkaddr mem' pagetable va = walkaddr mem pagetable va := by
  have hroot : TablePage mem pagetable 2 pagetable := .root
  obtain ⟨hwalk,hread⟩ : walkFrom mem' va 2 pagetable = walkFrom mem va 2 pagetable ∧ _ :=
    h.walkFrom_eq hmem hroot
  unfold walkaddr walk0
  rw [hwalk]
  cases hw : walkFrom mem va 2 pagetable with
  | none => rfl
  | some pte => simp only [hread pte hw]

theorem stores_in_frames {dst n : ℕ}
    (hload : ∀ i < n, walkaddr mem pagetable (PGROUNDDOWN (dst+i)) ≠ 0)
    (hmem : ∀ a, (∀ j < n, a ≠ frameByte mem pagetable (dst+j)) → mem' a = mem a) (a : ℕ)
    (ha : ∀ va, walkaddr mem pagetable va ≠ 0 → a-a%PGSIZE ≠ walkaddr mem pagetable va) :
    mem' a = mem a := by
  refine hmem a fun j hj heq => ha _ (hload j hj) ?_
  have hmod := walkaddr_mod mem pagetable (PGROUNDDOWN (dst+j))
  rw [heq]
  unfold frameByte PGSIZE at *
  omega

/-- Bytes that `walkaddr` reaches lie at different places, and storing them does not change where
the others lie. -/
theorem accessible (h : UserTable mem pagetable) {dst n : ℕ}
    (hload : ∀ i < n, walkaddr mem pagetable (PGROUNDDOWN (dst+i)) ≠ 0) :
    Accessible mem pagetable true dst n fun i => frameByte mem pagetable (dst+i) where
  kernel := by simp
  user _ mem' hmem i hi := by
    rw [h.walkaddr_eq (stores_in_frames hload hmem)]
    exact ⟨hload i hi,rfl⟩
  inj i hi j hj heq := by
    obtain ⟨hframe,hoff⟩ := frameByte_eq_iff.mp heq
    have hpage := h.inj _ _ (hload i hi) hframe
    have hi' := Nat.div_add_mod' (dst+i) PGSIZE
    have hj' := Nat.div_add_mod' (dst+j) PGSIZE
    unfold PGROUNDDOWN at hpage
    omega

/-- `copyout` stores the bytes before the first page without `PTE_V` or `PTE_U`, and fails if
there is such a page. -/
theorem copyout_stored (h : UserTable mem pagetable) (dst len : ℕ) (src : Mem) :
    ∃ mem', copyout mem pagetable dst src len =
        (mem',decide (loadable mem pagetable true dst len = len)) ∧
      Stored (fun i => frameByte mem pagetable (dst+i)) 0 (loadable mem pagetable true dst len)
        src mem mem' := by
  set n := loadable mem pagetable true dst len with hn
  have hle : n ≤ len := loadable_le
  have hload : ∀ i < n, walkaddr mem pagetable (PGROUNDDOWN (dst+i)) ≠ 0 :=
    fun i hi => canLoad_of_lt_loadable hi rfl
  have hstop : n < 0+len → ∀ mem' : Mem,
      (∀ a, (∀ j < n, a ≠ frameByte mem pagetable (dst+j)) → mem' a = mem a) →
      walkaddr mem' pagetable (PGROUNDDOWN (dst+n)) = 0 := by
    intro hlt mem' hmem
    rw [h.walkaddr_eq (stores_in_frames hload hmem)]
    have hno : ¬ canLoad mem pagetable true (dst+n) := not_canLoad_loadable (by omega)
    simpa [canLoad] using hno
  obtain ⟨mem',heq,hst⟩ : ∃ mem', copyoutLoop pagetable len mem (dst+0) src len =
      (mem',decide (0+len ≤ n)) ∧
      Stored (fun i => frameByte mem pagetable (dst+i)) 0 (min len (n-0)) src mem mem' :=
    copyoutLoop_stored (h.accessible hload) le_rfl (Nat.zero_le n) hstop fun _ _ => rfl
  refine ⟨mem',?_,?_⟩
  · rw [copyout,show dst = dst+0 from rfl,heq]
    simp only [Prod.mk.injEq,true_and,decide_eq_decide]
    omega
  · rwa [show min len (n-0) = n by omega] at hst

end UserTable

/-- Every byte that changes lies behind an address of the range that the user may write, and the
call fails if the user may not write all of the range. -/
structure Protected (mem : Mem) (pagetable dstva : ℕ) (src : Mem) (len : ℕ) : Prop where
  only : ∀ a, (copyout mem pagetable dstva src len).1 a ≠ mem a →
    ∃ i < len, Writable mem pagetable (dstva+i) ∧ a = frameByte mem pagetable (dstva+i)
  fails : (∃ i < len, ¬ Writable mem pagetable (dstva+i)) →
    (copyout mem pagetable dstva src len).2 = false

/-- Whatever the bytes are, `copyout` respects `PTE_W` exactly when every page of the range that
it gets to, before the first one without `PTE_V` or `PTE_U`, has `PTE_W`. -/
theorem copyout_protected_iff {mem : Mem} {pagetable dstva len : ℕ}
    (h : UserTable mem pagetable) :
    (∀ src, Protected mem pagetable dstva src len) ↔
      ∀ i < len, (∀ j ≤ i, walkaddr mem pagetable (PGROUNDDOWN (dstva+j)) ≠ 0) →
        Writable mem pagetable (dstva+i) := by
  constructor
  · intro hprot i hi hreach
    have hin : i < loadable mem pagetable true dstva len := by
      by_contra hout
      have hno : ¬ canLoad mem pagetable true (dstva+loadable mem pagetable true dstva len) :=
        not_canLoad_loadable (by omega)
      exact hno fun _ => hreach _ (by omega)
    let src : Mem := fun j => mem (frameByte mem pagetable (dstva+j))+1
    obtain ⟨mem',heq,hst⟩ := h.copyout_stored dstva len src
    have hchanged : mem' (frameByte mem pagetable (dstva+i)) ≠
        mem (frameByte mem pagetable (dstva+i)) := by
      have hat := hst.at_tr i hin
      rw [Nat.zero_add] at hat
      rw [hat]
      simp [src]
    obtain ⟨k,-,hw,hk⟩ := (hprot src).only _ (by rw [heq]; exact hchanged)
    obtain ⟨hframe,-⟩ := frameByte_eq_iff.mp hk
    have hpage := h.inj _ _ (hreach i le_rfl) hframe
    unfold Writable
    rwa [hpage]
  · intro hall src
    obtain ⟨mem',heq,hst⟩ := h.copyout_stored dstva len src
    have hw : ∀ i < loadable mem pagetable true dstva len, Writable mem pagetable (dstva+i) :=
      fun i hi => hall i (hi.trans_le loadable_le) fun j hj =>
        canLoad_of_lt_loadable (hj.trans_lt hi) rfl
    constructor
    · intro a ha
      by_contra hnone
      rw [heq] at ha
      refine ha (hst.elsewhere a fun i hi hai => hnone ⟨i,?_,hw i hi,?_⟩)
      · exact hi.trans_le loadable_le
      · rwa [Nat.zero_add] at hai
    · rintro ⟨i,hi,hno⟩
      rw [heq]
      refine decide_eq_false fun hfull => hno (hw i ?_)
      rwa [hfull]

/-- The memory of `onePage` with the page mapped as `exec` maps a segment of code. -/
def textPage : Mem := Function.update onePage 12288
  (UInt8.ofNat (flags2perm 1 ||| PTE_R ||| PTE_U ||| PTE_V))

/-- The three pages of the table have no bytes but those of their first entries. -/
private theorem textPage_eq_zero {a : ℕ} (ha : a < 16384) (hoff : 8 ≤ a%4096) : textPage a = 0 := by
  rw [textPage,Function.update_of_ne (by omega),onePage]
  all_goals omega

private theorem textPage_entries (i : ℕ) (hi : i < 512) (h0 : i ≠ 0) :
    pteAt textPage 4096 i = 0 ∧ pteAt textPage 8192 i = 0 ∧ pteAt textPage 12288 i = 0 := by
  have hentry : ∀ p, p%4096 = 0 → p ≤ 12288 → pteAt textPage p i = 0 := by
    intro p hp hle
    apply readLE_eq_zero
    intro j hj
    exact textPage_eq_zero (by omega) (by omega)
  exact ⟨hentry 4096 rfl (by decide),hentry 8192 rfl (by decide),hentry 12288 rfl le_rfl⟩

private theorem textPage_tablePage {level p : ℕ} (h : TablePage textPage 4096 level p) :
    level = 2 ∧ p = 4096 ∨ level = 1 ∧ p = 8192 ∨ level = 0 ∧ p = 12288 := by
  induction h with
  | root => simp
  | @next level p i _ hi hv ih =>
    by_cases h0 : i = 0
    · subst h0
      rcases ih with ⟨hl,rfl⟩ | ⟨hl,rfl⟩ | ⟨hl,-⟩
      · exact .inr (.inl ⟨by omega,by decide⟩)
      · exact .inr (.inr ⟨by omega,by decide⟩)
      · omega
    · obtain ⟨h2,h1,-⟩ := textPage_entries i hi h0
      rcases ih with ⟨-,rfl⟩ | ⟨-,rfl⟩ | ⟨hl,-⟩
      · simp [h2] at hv
      · simp [h1] at hv
      · omega

private theorem textPage_walkaddr {va : ℕ} (h : walkaddr textPage 4096 va ≠ 0) :
    walkaddr textPage 4096 va = 16384 ∧ va < PGSIZE := by
  have hva : ¬ MAXVA ≤ va := by
    intro hge
    simp [walkaddr,hge] at h
  have hentry : pteAt textPage 4096 0 = 0x801 ∧ pteAt textPage 8192 0 = 0xc01 ∧
      readLE textPage 12288 8 = 0x101b := by decide +kernel
  obtain ⟨h2,h1,h0⟩ := hentry
  have hne := fun level => textPage_entries (PX level va) (PX_lt level va)
  simp only [walkaddr,if_neg hva,walk0,walkFrom,PTE_V,PTE_U] at h ⊢
  by_cases hx2 : PX 2 va = 0
  case neg => simp [(hne 2 hx2).1] at h
  simp only [hx2,h2,show PTE2PA 0x801 = 8192 from rfl] at h ⊢
  by_cases hx1 : PX 1 va = 0
  case neg => simp [(hne 1 hx1).2.1] at h
  simp only [hx1,h1,show PTE2PA 0xc01 = 12288 from rfl] at h ⊢
  by_cases hx0 : PX 0 va = 0
  case neg =>
    have hzero : readLE textPage (12288+8*PX 0 va) 8 = 0 := (hne 0 hx0).2.2
    simp [hzero] at h
  constructor
  · simp [hx0,h0,PTE2PA]
  · rw [PX,show 0x1FF = 2^9-1 from rfl,Nat.and_two_pow_sub_one_eq_mod,
      Nat.shiftRight_eq_div_pow] at hx0 hx1 hx2
    rw [MAXVA,Nat.shiftLeft_eq] at hva
    unfold PGSIZE
    omega

theorem textPage_userTable : UserTable textPage 4096 where
  aligned := rfl
  apart level p va hp hva := by
    rw [(textPage_walkaddr hva).1]
    rcases textPage_tablePage hp with ⟨-,rfl⟩ | ⟨-,rfl⟩ | ⟨-,rfl⟩ <;> decide
  inj va va' h heq := by
    have h1 := (textPage_walkaddr h).2
    have h2 := (textPage_walkaddr (heq ▸ h)).2
    unfold PGROUNDDOWN PGSIZE at *
    omega

theorem copyout_protected_iff_textPage :
    (∀ src, Protected textPage 4096 0 src 1) ↔
      ∀ i < 1, (∀ j ≤ i, walkaddr textPage 4096 (PGROUNDDOWN (0+j)) ≠ 0) →
        Writable textPage 4096 (0+i) :=
  copyout_protected_iff textPage_userTable

/-- One byte to the start of the code: the call reports success and the byte has changed. -/
theorem copyout_text_changed : ¬ Writable textPage 4096 0 ∧
    (copyout textPage 4096 0 (fun _ => 7) 1).2 = true ∧
    (copyout textPage 4096 0 (fun _ => 7) 1).1 16384 ≠ textPage 16384 ∧
    ¬ Protected textPage 4096 0 (fun _ => 7) 1 := by
  have hno : ¬ Writable textPage 4096 0 := by decide +kernel
  have hok : (copyout textPage 4096 0 (fun _ => 7) 1).2 = true := by decide +kernel
  refine ⟨hno,hok,by decide +kernel,fun h => ?_⟩
  have hfail := h.fails ⟨0,by decide,hno⟩
  rw [hok] at hfail
  exact absurd hfail (by decide)

end Xv6.Vm
