import Mathlib.Data.Finset.Union
import Xv6.Protection

/-! Page tables as trees in physical memory. A table of a level is a page of 512 entries together
with the tables its valid entries point to; its pages are all different. What a table says is the
level-0 entry for each address. -/
namespace Xv6.Vm

open Bytes

def PTE_RWX : ℕ := PTE_R ||| PTE_W ||| PTE_X

def Outside (S : Finset ℕ) (mem mem' : Mem) : Prop := ∀ a, PGROUNDDOWN a ∉ S → mem' a = mem a

theorem Outside.trans {S T : Finset ℕ} {mem mem' mem'' : Mem} (h : Outside S mem mem')
    (h' : Outside T mem' mem'') : Outside (S ∪ T) mem mem'' := by
  intro a ha
  rw [Finset.mem_union,not_or] at ha
  rw [h' a ha.2,h a ha.1]

theorem Outside.mono {S T : Finset ℕ} {mem mem' : Mem} (h : Outside S mem mem') (hST : S ⊆ T) :
    Outside T mem mem' := fun a ha => h a fun hS => ha (hST hS)

/-- The level-0 entry for `va` in a table of the given level, 0 if `walk` finds none. -/
def entry (mem : Mem) (va level p : ℕ) : ℕ :=
  match walkFrom mem va level p with
  | none => 0
  | some e => readLE mem e 8

section Entries

variable {mem mem' : Mem} {va l p i : ℕ}

theorem PGROUNDDOWN_page (hp : p%PGSIZE = 0) (hi : i < PGSIZE) : PGROUNDDOWN (p+i) = p := by
  unfold PGROUNDDOWN PGSIZE at *
  omega

theorem PGROUNDDOWN_aligned (hp : p%PGSIZE = 0) : PGROUNDDOWN p = p := by
  unfold PGROUNDDOWN PGSIZE at *
  omega

theorem PGROUNDDOWN_last (hp : p%PGSIZE = 0) : PGROUNDDOWN (p+PGSIZE-1) = p := by
  unfold PGROUNDDOWN PGSIZE at *
  omega

theorem next_aligned (hp : p%PGSIZE = 0) : (p+PGSIZE)%PGSIZE = 0 := by
  unfold PGSIZE at *
  omega

theorem PGROUNDDOWN_entry {x : ℕ} (hp : p%PGSIZE = 0) (hi : i < 512) (hx : x < 8) :
    PGROUNDDOWN (p+8*i+x) = p := by
  rw [Nat.add_assoc]
  exact PGROUNDDOWN_page hp (by unfold PGSIZE; omega)

theorem pteAt_congr (hp : p%PGSIZE = 0) (hi : i < 512)
    (h : ∀ a, PGROUNDDOWN a = p → mem' a = mem a) : pteAt mem' p i = pteAt mem p i :=
  readLE_congr fun _ hx => h _ (PGROUNDDOWN_entry hp hi hx)

theorem entry_zero : entry mem va 0 p = pteAt mem p (PX 0 va) := rfl

theorem entry_invalid (h : pteAt mem p (PX (l+1) va) &&& PTE_V = 0) :
    entry mem va (l+1) p = 0 := by
  simp only [entry,walkFrom,if_pos h]

theorem walkFrom_valid (h : pteAt mem p (PX (l+1) va) &&& PTE_V ≠ 0) :
    walkFrom mem va (l+1) p = walkFrom mem va l (PTE2PA (pteAt mem p (PX (l+1) va))) := by
  simp only [walkFrom,if_neg h]

theorem entry_valid (h : pteAt mem p (PX (l+1) va) &&& PTE_V ≠ 0) :
    entry mem va (l+1) p = entry mem va l (PTE2PA (pteAt mem p (PX (l+1) va))) := by
  simp only [entry,walkFrom_valid h]

end Entries

/-- A page of entries at `p` with a table of kind `T` behind each valid one; `sub i` has the pages
behind entry `i`. -/
structure Node (mem : Mem) (T : ℕ → Finset ℕ → Prop) (p : ℕ) (sub : ℕ → Finset ℕ) : Prop where
  aligned : p%PGSIZE = 0
  root : ∀ i < 512, p ∉ sub i
  apart : ∀ i < 512, ∀ j < 512, i ≠ j → Disjoint (sub i) (sub j)
  invalid : ∀ i < 512, pteAt mem p i &&& PTE_V = 0 → sub i = ∅
  pointer : ∀ i < 512, pteAt mem p i &&& PTE_V ≠ 0 → pteAt mem p i &&& PTE_RWX = 0
  child : ∀ i < 512, pteAt mem p i &&& PTE_V ≠ 0 → T (PTE2PA (pteAt mem p i)) (sub i)

def pagesBelow (n p : ℕ) (sub : ℕ → Finset ℕ) : Finset ℕ := insert p ((Finset.range n).biUnion sub)

theorem mem_pagesBelow {n p q : ℕ} {sub : ℕ → Finset ℕ} :
    q ∈ pagesBelow n p sub ↔ q = p ∨ ∃ i < n, q ∈ sub i := by
  simp only [pagesBelow,Finset.mem_insert,Finset.mem_biUnion,Finset.mem_range]

@[irreducible] def pagesOf (p : ℕ) (sub : ℕ → Finset ℕ) : Finset ℕ := pagesBelow 512 p sub

theorem mem_pagesOf {p q : ℕ} {sub : ℕ → Finset ℕ} :
    q ∈ pagesOf p sub ↔ q = p ∨ ∃ i < 512, q ∈ sub i := by
  unfold pagesOf
  exact mem_pagesBelow

theorem subset_pagesOf {p i : ℕ} {sub : ℕ → Finset ℕ} (hi : i < 512) : sub i ⊆ pagesOf p sub :=
  fun _ hq => mem_pagesOf.mpr (.inr ⟨i,hi,hq⟩)

/-- The page at `p` is a table of the given level and `N` is the set of its pages. -/
def Table (mem : Mem) : ℕ → ℕ → Finset ℕ → Prop
  | 0, p, N => p%PGSIZE = 0 ∧ N = {p}
  | l+1, p, N => ∃ sub, Node mem (Table mem l) p sub ∧ N = pagesOf p sub

namespace Table

variable {mem mem' : Mem} {l p : ℕ} {N : Finset ℕ}

theorem aligned (h : Table mem l p N) : p%PGSIZE = 0 := by
  cases l with
  | zero => exact h.1
  | succ l =>
    obtain ⟨sub,hnode,-⟩ := h
    exact hnode.aligned

theorem root_mem (h : Table mem l p N) : p ∈ N := by
  cases l with
  | zero => rw [h.2]; exact Finset.mem_singleton_self p
  | succ l =>
    obtain ⟨sub,-,rfl⟩ := h
    exact mem_pagesOf.mpr (.inl rfl)

theorem walkFrom_mem (h : Table mem l p N) {va e : ℕ} (he : walkFrom mem va l p = some e) {x : ℕ}
    (hx : x < 8) : PGROUNDDOWN (e+x) ∈ N := by
  induction l generalizing p N with
  | zero =>
    cases he
    rw [PGROUNDDOWN_entry h.1 (PX_lt 0 va) hx]
    exact h.root_mem
  | succ l ih =>
    obtain ⟨sub,hnode,rfl⟩ := h
    by_cases hv : pteAt mem p (PX (l+1) va) &&& PTE_V = 0
    · simp only [walkFrom,if_pos hv] at he
      cases he
    · rw [walkFrom_valid hv] at he
      exact subset_pagesOf (PX_lt _ _) (ih (hnode.child _ (PX_lt _ _) hv) he)

theorem frame (h : Table mem l p N) (hs : ∀ a, PGROUNDDOWN a ∈ N → mem' a = mem a) :
    Table mem' l p N ∧ ∀ va, walkFrom mem' va l p = walkFrom mem va l p := by
  induction l generalizing p N with
  | zero => exact ⟨h,fun _ => rfl⟩
  | succ l ih =>
    obtain ⟨sub,hnode,rfl⟩ := h
    have hpte : ∀ i < 512, pteAt mem' p i = pteAt mem p i := fun i hi =>
      pteAt_congr hnode.aligned hi fun a ha => hs a (mem_pagesOf.mpr (.inl ha))
    have hchild := fun i (hi : i < 512) hv => ih (hnode.child i hi hv) fun a ha =>
      hs a (subset_pagesOf hi ha)
    refine ⟨⟨sub,⟨hnode.aligned,hnode.root,hnode.apart,?_,?_,?_⟩,rfl⟩,fun va => ?_⟩
    · intro i hi hv
      rw [hpte i hi] at hv
      exact hnode.invalid i hi hv
    · intro i hi hv
      rw [hpte i hi] at hv ⊢
      exact hnode.pointer i hi hv
    · intro i hi hv
      rw [hpte i hi] at hv ⊢
      exact (hchild i hi hv).1
    · simp only [walkFrom,hpte _ (PX_lt _ _)]
      split
      · rfl
      case isFalse hv => exact (hchild _ (PX_lt _ _) hv).2 va

theorem entry_frame (h : Table mem l p N) (hs : ∀ a, PGROUNDDOWN a ∈ N → mem' a = mem a) (va : ℕ) :
    entry mem' va l p = entry mem va l p := by
  rw [entry,entry,(h.frame hs).2 va]
  cases he : walkFrom mem va l p with
  | none => rfl
  | some e => exact readLE_congr fun x hx => hs _ (h.walkFrom_mem he hx)

theorem of_zero (hp : p%PGSIZE = 0) (hz : ∀ a, PGROUNDDOWN a = p → mem a = 0) :
    Table mem l p {p} ∧ ∀ va, entry mem va l p = 0 := by
  have hpte : ∀ i < 512, pteAt mem p i = 0 := by
    intro i hi
    have hread : pteAt mem p i = readLE (fun _ => 0) (p+8*i) 8 :=
      readLE_congr fun x hx => hz _ (PGROUNDDOWN_entry hp hi hx)
    rw [hread]
    rfl
  cases l with
  | zero => exact ⟨⟨hp,rfl⟩,fun va => hpte _ (PX_lt _ _)⟩
  | succ l =>
    refine ⟨⟨fun _ => ∅,⟨hp,by simp,by simp,by simp,?_,?_⟩,by ext q; simp [mem_pagesOf]⟩,
      fun va => entry_invalid ?_⟩
    · intro i hi hv
      rw [hpte i hi] at hv
      exact absurd (Nat.zero_and _) hv
    · intro i hi hv
      rw [hpte i hi] at hv
      exact absurd (Nat.zero_and _) hv
    · rw [hpte _ (PX_lt _ _),Nat.zero_and]

end Table

namespace Node

variable {mem mem' : Mem} {l p i : ℕ} {sub : ℕ → Finset ℕ} {S : Finset ℕ}

/-- The table behind entry `i` becomes one with the pages `S`, and nothing else changes. -/
theorem modify (h : Node mem (Table mem l) p sub) (hi : i < 512)
    (hv : pteAt mem' p i &&& PTE_V ≠ 0) (hrwx : pteAt mem' p i &&& PTE_RWX = 0)
    (hchild : Table mem' l (PTE2PA (pteAt mem' p i)) S) (hp : p ∉ S)
    (hS : ∀ j < 512, j ≠ i → Disjoint S (sub j))
    (hpte : ∀ j < 512, j ≠ i → pteAt mem' p j = pteAt mem p j)
    (hsub : ∀ j < 512, j ≠ i → ∀ a, PGROUNDDOWN a ∈ sub j → mem' a = mem a) :
    Node mem' (Table mem' l) p (Function.update sub i S) := by
  refine ⟨h.aligned,?_,?_,?_,?_,?_⟩
  · intro j hj
    rcases eq_or_ne j i with rfl | hne
    · rwa [Function.update_self]
    · rw [Function.update_of_ne hne]
      exact h.root j hj
  · intro j hj k hk hjk
    rcases eq_or_ne j i with rfl | hne
    · rw [Function.update_self,Function.update_of_ne hjk.symm]
      exact hS k hk hjk.symm
    · rw [Function.update_of_ne hne]
      rcases eq_or_ne k i with rfl | hnek
      · rw [Function.update_self]
        exact (hS j hj hne).symm
      · rw [Function.update_of_ne hnek]
        exact h.apart j hj k hk hjk
  · intro j hj hz
    rcases eq_or_ne j i with rfl | hne
    · exact absurd hz hv
    · rw [hpte j hj hne] at hz
      rw [Function.update_of_ne hne]
      exact h.invalid j hj hz
  · intro j hj hjv
    rcases eq_or_ne j i with rfl | hne
    · exact hrwx
    · rw [hpte j hj hne] at hjv ⊢
      exact h.pointer j hj hjv
  · intro j hj hjv
    rcases eq_or_ne j i with rfl | hne
    · rwa [Function.update_self]
    · rw [hpte j hj hne] at hjv ⊢
      rw [Function.update_of_ne hne]
      exact ((h.child j hj hjv).frame (hsub j hj hne)).1

theorem entry_other (h : Node mem (Table mem l) p sub) {va : ℕ} (hne : PX (l+1) va ≠ i)
    (hpte : ∀ j < 512, j ≠ i → pteAt mem' p j = pteAt mem p j)
    (hsub : ∀ j < 512, j ≠ i → ∀ a, PGROUNDDOWN a ∈ sub j → mem' a = mem a) :
    entry mem' va (l+1) p = entry mem va (l+1) p := by
  have hj := PX_lt (l+1) va
  by_cases hv : pteAt mem p (PX (l+1) va) &&& PTE_V = 0
  · rw [entry_invalid hv,entry_invalid (by rwa [hpte _ hj hne])]
  · rw [entry_valid hv,entry_valid (by rwa [hpte _ hj hne]),hpte _ hj hne]
    exact (h.child _ hj hv).entry_frame (hsub _ hj hne) va

theorem walkFrom_other (h : Node mem (Table mem l) p sub) {va : ℕ} (hne : PX (l+1) va ≠ i)
    (hpte : ∀ j < 512, j ≠ i → pteAt mem' p j = pteAt mem p j)
    (hsub : ∀ j < 512, j ≠ i → ∀ a, PGROUNDDOWN a ∈ sub j → mem' a = mem a) :
    walkFrom mem' va (l+1) p = walkFrom mem va (l+1) p := by
  have hj := PX_lt (l+1) va
  simp only [walkFrom,hpte _ hj hne]
  split
  · rfl
  case isFalse hv => exact ((h.child _ hj hv).frame (hsub _ hj hne)).2 va

theorem pagesOf_update (hi : i < 512) (hS : sub i ⊆ S) :
    pagesOf p (Function.update sub i S) = pagesOf p sub ∪ S := by
  ext q
  simp only [Finset.mem_union,mem_pagesOf]
  constructor
  · rintro (rfl | ⟨j,hj,hq⟩)
    · exact .inl (.inl rfl)
    · rcases eq_or_ne j i with rfl | hne
      · rw [Function.update_self] at hq
        exact .inr hq
      · rw [Function.update_of_ne hne] at hq
        exact .inl (.inr ⟨j,hj,hq⟩)
  · rintro ((rfl | ⟨j,hj,hq⟩) | hq)
    · exact .inl rfl
    · rcases eq_or_ne j i with rfl | hne
      · exact .inr ⟨j,hj,by rw [Function.update_self]; exact hS hq⟩
      · exact .inr ⟨j,hj,by rwa [Function.update_of_ne hne]⟩
    · exact .inr ⟨i,hi,by rwa [Function.update_self]⟩

end Node

/-- The addresses have the same indices down from level `l`. -/
def SameIndex (l va va' : ℕ) : Prop := ∀ k ≤ l, PX k va = PX k va'

theorem sameIndex_succ {l va va' : ℕ} :
    SameIndex (l+1) va va' ↔ PX (l+1) va = PX (l+1) va' ∧ SameIndex l va va' := by
  constructor
  · intro h
    exact ⟨h _ le_rfl,fun k hk => h k (by omega)⟩
  · rintro ⟨htop,h⟩ k hk
    rcases hk.lt_or_eq with hk | rfl
    · exact h k (by omega)
    · exact htop

theorem PX_eq (k va : ℕ) : PX k va = va/2^(12+9*k)%512 := by
  rw [PX,show 0x1FF = 2^9-1 from rfl,Nat.and_two_pow_sub_one_eq_mod,Nat.shiftRight_eq_div_pow]

/-- What three indices can tell apart, twice `MAXVA`. -/
def SVTOP : ℕ := 2^39

theorem lt_SVTOP {va : ℕ} (h : va < MAXVA) : va < SVTOP := h.trans (by decide)

theorem sameIndex_iff {va va' : ℕ} (h : va < SVTOP) (h' : va' < SVTOP) :
    SameIndex 2 va va' ↔ PGROUNDDOWN va = PGROUNDDOWN va' := by
  unfold SVTOP at h h'
  unfold PGROUNDDOWN PGSIZE
  constructor
  · intro hs
    have h0 := hs 0 (by omega)
    have h1 := hs 1 (by omega)
    have h2 := hs 2 (by omega)
    simp only [PX_eq] at h0 h1 h2
    omega
  · intro hpage k hk
    have hdiv : va/4096 = va'/4096 := by omega
    rw [PX_eq,PX_eq,Nat.pow_add,← Nat.div_div_eq_div_mul,← Nat.div_div_eq_div_mul]
    simp only [show 2^12 = 4096 from rfl,hdiv]

theorem walkFrom_congr {mem : Mem} {l va va' p : ℕ} (h : SameIndex l va va') :
    walkFrom mem va l p = walkFrom mem va' l p := by
  induction l generalizing p with
  | zero => rw [walkFrom,walkFrom,h 0 le_rfl]
  | succ l ih =>
    obtain ⟨htop,hlow⟩ := sameIndex_succ.mp h
    simp only [walkFrom,htop,ih hlow]

theorem entry_congr {mem : Mem} {l va va' p : ℕ} (h : SameIndex l va va') :
    entry mem va l p = entry mem va' l p := by
  rw [entry,entry,walkFrom_congr h]

theorem writeLE_outside {mem : Mem} {e v a : ℕ} (h : ∀ x < 8, a ≠ e+x) :
    writeLE mem e 8 v a = mem a := by
  apply blit_outside
  by_contra hin
  exact h (a-e) (by omega) (by omega)

theorem Table.write_outside {mem : Mem} {l p va e : ℕ} {N : Finset ℕ} (h : Table mem l p N)
    (he : walkFrom mem va l p = some e) (v : ℕ) : Outside N mem (writeLE mem e 8 v) := by
  intro a ha
  apply Vm.writeLE_outside
  rintro x hx rfl
  exact ha (h.walkFrom_mem he hx)

/-- Writing the entry that `walk` finds for `va` changes what the table says there only. -/
theorem Table.write {mem : Mem} {l p va e v : ℕ} {N : Finset ℕ} (h : Table mem l p N)
    (he : walkFrom mem va l p = some e) (hv : v < 2^64) :
    Table (writeLE mem e 8 v) l p N ∧
      (∀ va', walkFrom (writeLE mem e 8 v) va' l p = walkFrom mem va' l p) ∧
      ∀ va', (SameIndex l va va' → entry (writeLE mem e 8 v) va' l p = v) ∧
        (¬ SameIndex l va va' → entry (writeLE mem e 8 v) va' l p = entry mem va' l p) := by
  induction l generalizing p N with
  | zero =>
    cases he
    refine ⟨h,fun _ => rfl,fun va' => ?_⟩
    rw [entry_zero,entry_zero,pteAt,pteAt]
    constructor
    · intro hs
      rw [← hs 0 le_rfl,readLE_writeLE]
      exact Nat.mod_eq_of_lt hv
    · intro hs
      have hne : PX 0 va ≠ PX 0 va' := by
        intro heq
        apply hs
        intro k hk
        rwa [Nat.le_zero.mp hk]
      exact readLE_writeLE_disjoint (by omega)
  | succ l ih =>
    obtain ⟨sub,hnode,rfl⟩ := h
    set i := PX (l+1) va with hi
    have hi512 : i < 512 := PX_lt _ _
    have hvalid : pteAt mem p i &&& PTE_V ≠ 0 := by
      intro hz
      simp only [walkFrom,← hi,if_pos hz] at he
      cases he
    rw [walkFrom_valid hvalid,← hi] at he
    have hchild := hnode.child i hi512 hvalid
    have hout := hchild.write_outside he v
    have hroot : ∀ j < 512, pteAt (writeLE mem e 8 v) p j = pteAt mem p j := fun j hj =>
      pteAt_congr hnode.aligned hj fun a ha => hout a (by rw [ha]; exact hnode.root i hi512)
    have hsub : ∀ j < 512, j ≠ i → ∀ a, PGROUNDDOWN a ∈ sub j →
        writeLE mem e 8 v a = mem a := fun j hj hne a ha =>
      hout a (Finset.disjoint_left.mp (hnode.apart j hj i hi512 hne) ha)
    obtain ⟨htab,hwalk,hent⟩ := ih hchild he
    refine ⟨⟨Function.update sub i (sub i),hnode.modify hi512 (by rwa [hroot i hi512])
        (by rw [hroot i hi512]; exact hnode.pointer i hi512 hvalid) (by rwa [hroot i hi512])
        (hnode.root i hi512) (fun j hj hne => hnode.apart i hi512 j hj hne.symm)
        (fun j hj _ => hroot j hj) hsub,by rw [Function.update_eq_self]⟩,?_,?_⟩
    · intro va'
      by_cases hidx : PX (l+1) va' = i
      · rw [walkFrom_valid (by rwa [hidx,hroot i hi512]),walkFrom_valid (by rwa [hidx]),hidx,
          hroot i hi512]
        exact hwalk va'
      · exact hnode.walkFrom_other hidx (fun j hj _ => hroot j hj) hsub
    · intro va'
      rw [sameIndex_succ]
      by_cases hidx : PX (l+1) va' = i
      · rw [entry_valid (by rwa [hidx,hroot i hi512]),entry_valid (by rwa [hidx]),hidx,
          hroot i hi512,and_iff_right hi.symm]
        exact hent va'
      · exact ⟨fun hs => absurd hs.1.symm hidx,
          fun _ => hnode.entry_other hidx (fun j hj _ => hroot j hj) hsub⟩

theorem shiftLeft_and_low {a k m : ℕ} (hm : m < 2^k) : a <<< k &&& m = 0 := by
  apply Nat.eq_of_testBit_eq
  intro j
  rw [Nat.testBit_and,Nat.testBit_shiftLeft,Nat.zero_testBit]
  by_cases hj : k ≤ j
  · rw [Nat.testBit_lt_two_pow (hm.trans_le (Nat.pow_le_pow_right (by omega) hj)),Bool.and_false]
  · simp [hj]

section Pack

variable {pa f : ℕ}

theorem PA2PTE_or (hf : f < 2^10) : PA2PTE pa ||| f = pa/2^12*2^10+f := by
  rw [PA2PTE,← Nat.shiftLeft_add_eq_or_of_lt hf,Nat.shiftLeft_eq,Nat.shiftRight_eq_div_pow]

theorem PTE2PA_pack (hpa : pa%PGSIZE = 0) (hf : f < 2^10) : PTE2PA (PA2PTE pa ||| f) = pa := by
  rw [PA2PTE_or hf,PTE2PA,Nat.shiftLeft_eq,Nat.shiftRight_eq_div_pow]
  unfold PGSIZE at hpa
  omega

theorem pack_and {m : ℕ} (hm : m < 2^10) : (PA2PTE pa ||| f) &&& m = f &&& m := by
  rw [Nat.and_or_distrib_right,PA2PTE,shiftLeft_and_low hm,Nat.zero_or]

theorem PTE_FLAGS_pack (hf : f < 2^10) : PTE_FLAGS (PA2PTE pa ||| f) = f := by
  rw [PTE_FLAGS,pack_and (by decide),show 0x3FF = 2^10-1 from rfl,Nat.and_two_pow_sub_one_eq_mod]
  exact Nat.mod_eq_of_lt hf

theorem pack_lt (hpa : pa < 2^57) (hf : f < 2^10) : PA2PTE pa ||| f < 2^64 := by
  rw [PA2PTE_or hf]
  omega

end Pack

theorem or_PTE_V_and (f : ℕ) : (f ||| PTE_V) &&& PTE_V ≠ 0 := by
  rw [Nat.and_or_distrib_right,Nat.and_self]
  intro hz
  exact absurd (Nat.or_eq_zero_iff.mp hz).2 (by decide)

theorem or_PTE_V {f : ℕ} (h : f &&& PTE_V ≠ 0) : f ||| PTE_V = f := by
  apply Nat.eq_of_testBit_eq
  intro j
  rw [Nat.testBit_or]
  cases j with
  | zero =>
    have hbit : f.testBit 0 = true := by
      by_contra hno
      apply h
      rw [PTE_V,Nat.and_one_is_mod]
      simpa using hno
    rw [hbit,Bool.true_or]
  | succ j => simp [PTE_V,Nat.testBit_succ]

theorem PTE_FLAGS_lt (pte : ℕ) : PTE_FLAGS pte < 2^10 := by
  rw [PTE_FLAGS,show 0x3FF = 2^10-1 from rfl,Nat.and_two_pow_sub_one_eq_mod]
  exact Nat.mod_lt _ (by decide)

theorem PTE_FLAGS_and {pte m : ℕ} (hm : m < 2^10) : PTE_FLAGS pte &&& m = pte &&& m := by
  rw [PTE_FLAGS,Nat.and_assoc,Nat.and_comm 0x3FF,show 0x3FF = 2^10-1 from rfl,
    Nat.and_two_pow_sub_one_eq_mod,Nat.mod_eq_of_lt hm]

/-- The table has got the pages `new` and says the same as before. -/
structure Ext (mem mem' : Mem) (l p : ℕ) (N new : Finset ℕ) : Prop where
  table : Table mem' l p (N ∪ new)
  outside : Outside (N ∪ new) mem mem'
  same : ∀ va, entry mem' va l p = entry mem va l p

namespace Ext

variable {mem mem' mem'' : Mem} {l p i : ℕ} {N new new' : Finset ℕ} {sub : ℕ → Finset ℕ}

theorem refl (h : Table mem l p N) : Ext mem mem l p N ∅ :=
  ⟨by rwa [Finset.union_empty],fun _ _ => rfl,fun _ => rfl⟩

theorem trans (h : Ext mem mem' l p N new) (h' : Ext mem' mem'' l p (N ∪ new) new') :
    Ext mem mem'' l p N (new ∪ new') := by
  refine ⟨by rw [← Finset.union_assoc]; exact h'.table,?_,fun va => by rw [h'.same,h.same]⟩
  have hout := h.outside.trans h'.outside
  rwa [← Finset.union_assoc,Finset.union_self,Finset.union_assoc] at hout

theorem descend (hnode : Node mem (Table mem l) p sub) (hi : i < 512)
    (hv : pteAt mem p i &&& PTE_V ≠ 0) (hnew : Disjoint new (pagesOf p sub))
    (h : Ext mem mem' l (PTE2PA (pteAt mem p i)) (sub i) new) :
    Ext mem mem' (l+1) p (pagesOf p sub) new ∧ pteAt mem' p i = pteAt mem p i := by
  have hp : p ∉ sub i ∪ new := by
    rw [Finset.mem_union,not_or]
    exact ⟨hnode.root i hi,fun hp => Finset.disjoint_left.mp hnew hp (mem_pagesOf.mpr (.inl rfl))⟩
  have hdisj : ∀ j < 512, j ≠ i → Disjoint (sub i ∪ new) (sub j) := by
    intro j hj hne
    rw [Finset.disjoint_union_left]
    exact ⟨hnode.apart i hi j hj hne.symm,hnew.mono_right (subset_pagesOf hj)⟩
  have hpte : ∀ j < 512, pteAt mem' p j = pteAt mem p j := fun j hj =>
    pteAt_congr hnode.aligned hj fun a ha => h.outside a (by rwa [ha])
  have hsub : ∀ j < 512, j ≠ i → ∀ a, PGROUNDDOWN a ∈ sub j → mem' a = mem a :=
    fun j hj hne a ha => h.outside a (Finset.disjoint_right.mp (hdisj j hj hne) ha)
  have hpages : pagesOf p (Function.update sub i (sub i ∪ new)) = pagesOf p sub ∪ new := by
    rw [Node.pagesOf_update hi Finset.subset_union_left,← Finset.union_assoc,
      Finset.union_eq_left.mpr (subset_pagesOf hi)]
  refine ⟨⟨⟨_,hnode.modify hi (by rwa [hpte i hi]) (by rw [hpte i hi]; exact hnode.pointer i hi hv)
    (by rw [hpte i hi]; exact h.table) hp hdisj (fun j hj _ => hpte j hj) hsub,hpages.symm⟩,
    h.outside.mono (Finset.union_subset_union_left (subset_pagesOf hi)),fun va => ?_⟩,hpte i hi⟩
  by_cases hidx : PX (l+1) va = i
  · rw [entry_valid (by rwa [hidx,hpte i hi]),entry_valid (by rwa [hidx]),hidx,hpte i hi]
    exact h.same va
  · exact hnode.entry_other hidx (fun j hj _ => hpte j hj) hsub

theorem grow (h : Table mem (l+1) p N) (hi : i < 512) (hz : pteAt mem p i &&& PTE_V = 0) {q : ℕ}
    (hq : q%PGSIZE = 0) (hqN : q ∉ N) (hq57 : q < 2^57) (hout : Outside {q} mem mem')
    (hzero : ∀ a, PGROUNDDOWN a = q → mem' a = 0) :
    Ext mem (writeLE mem' (p+8*i) 8 (PA2PTE q ||| PTE_V)) (l+1) p N {q} ∧
      pteAt (writeLE mem' (p+8*i) 8 (PA2PTE q ||| PTE_V)) p i = PA2PTE q ||| PTE_V := by
  have hmem := h.root_mem
  obtain ⟨sub,hnode,rfl⟩ := h
  set mem'' := writeLE mem' (p+8*i) 8 (PA2PTE q ||| PTE_V) with hmem''
  have hpq : p ≠ q := by
    rintro rfl
    exact hqN hmem
  have hwrite : Outside {p} mem' mem'' := by
    intro a ha
    apply writeLE_outside
    rintro x hx rfl
    exact ha (Finset.mem_singleton.mpr (PGROUNDDOWN_entry hnode.aligned hi hx))
  have hself : pteAt mem'' p i = PA2PTE q ||| PTE_V := by
    rw [pteAt,hmem'',readLE_writeLE]
    exact Nat.mod_eq_of_lt (pack_lt hq57 (by decide))
  have hother : ∀ j < 512, j ≠ i → pteAt mem'' p j = pteAt mem p j := by
    intro j hj hne
    have hsame : pteAt mem' p j = pteAt mem p j := pteAt_congr hnode.aligned hj fun a ha =>
      hout a (by rw [ha]; simpa using hpq)
    rw [← hsame]
    exact readLE_writeLE_disjoint (by omega)
  have hsubq : ∀ j < 512, q ∉ sub j := fun j hj hmem => hqN (subset_pagesOf hj hmem)
  have hsub : ∀ j < 512, j ≠ i → ∀ a, PGROUNDDOWN a ∈ sub j → mem'' a = mem a := by
    intro j hj _ a ha
    rw [hwrite a fun hp => hnode.root j hj (by rwa [← Finset.mem_singleton.mp hp]),
      hout a fun hq => hsubq j hj (by rwa [← Finset.mem_singleton.mp hq])]
  have hempty := @Table.of_zero mem'' l q hq fun a ha => by
    rw [hwrite a (by rw [ha]; simpa using hpq.symm)]
    exact hzero a ha
  have hPA : PTE2PA (pteAt mem'' p i) = q := by
    rw [hself]
    exact PTE2PA_pack hq (by decide)
  have hvalid : pteAt mem'' p i &&& PTE_V ≠ 0 := by
    rw [hself,pack_and (by decide)]
    decide
  have hpages : pagesOf p (Function.update sub i {q}) = pagesOf p sub ∪ {q} :=
    Node.pagesOf_update hi (by rw [hnode.invalid i hi hz]; exact Finset.empty_subset _)
  refine ⟨⟨⟨_,hnode.modify hi hvalid ?_ (by rw [hPA]; exact hempty.1) (by simpa using hpq)
    (fun j hj _ => Finset.disjoint_singleton_left.mpr (hsubq j hj)) hother hsub,hpages.symm⟩,?_,
    fun va => ?_⟩,hself⟩
  · rw [hself,pack_and (by decide)]
    decide
  · refine (hout.trans hwrite).mono ?_
    rw [Finset.union_comm]
    exact Finset.union_subset_union_left (Finset.singleton_subset_iff.mpr hmem)
  · by_cases hidx : PX (l+1) va = i
    · have hold : entry mem va (l+1) p = 0 := entry_invalid (by rw [hidx]; exact hz)
      have hnew : entry mem'' va (l+1) p = entry mem'' va l q := by
        rw [entry_valid (by rw [hidx]; exact hvalid),hidx,hPA]
      rw [hnew,hold]
      exact hempty.2 va
    · exact hnode.entry_other hidx hother hsub

end Ext

def Clear (mem : Mem) : ℕ → ℕ → Prop
  | 0, p => ∀ i < 512, pteAt mem p i &&& PTE_V = 0
  | l+1, p => ∀ i < 512, pteAt mem p i &&& PTE_V ≠ 0 → Clear mem l (PTE2PA (pteAt mem p i))

theorem clear_of_entries {mem : Mem} {p : ℕ} (h : ∀ va < SVTOP, entry mem va 2 p &&& PTE_V = 0) :
    Clear mem 2 p := by
  intro i hi hv j hj hv' k hk
  set va := i*2^30+j*2^21+k*2^12 with hva
  have h2 : PX 2 va = i := by rw [PX_eq]; omega
  have h1 : PX 1 va = j := by rw [PX_eq]; omega
  have h0 : PX 0 va = k := by rw [PX_eq]; omega
  have hent := h va (by unfold SVTOP; omega)
  rw [entry_valid (by rw [h2]; exact hv),h2,entry_valid (by rw [h1]; exact hv'),h1,entry_zero,h0]
    at hent
  exact hent

theorem Clear.frame {mem mem' : Mem} {l p : ℕ} {N : Finset ℕ} (hc : Clear mem l p)
    (h : Table mem l p N) (hs : ∀ a, PGROUNDDOWN a ∈ N → mem' a = mem a) : Clear mem' l p := by
  have hpte : ∀ i < 512, pteAt mem' p i = pteAt mem p i := fun i hi =>
    pteAt_congr h.aligned hi fun a ha => hs a (by rw [ha]; exact h.root_mem)
  induction l generalizing p N with
  | zero =>
    intro i hi
    rw [hpte i hi]
    exact hc i hi
  | succ l ih =>
    obtain ⟨sub,hnode,rfl⟩ := h
    intro i hi hv
    rw [hpte i hi] at hv ⊢
    have hchild := hnode.child i hi hv
    have hs' : ∀ a, PGROUNDDOWN a ∈ sub i → mem' a = mem a :=
      fun a ha => hs a (subset_pagesOf hi ha)
    exact ih (hc i hi hv) hchild hs' fun j hj =>
      pteAt_congr hchild.aligned hj fun a ha => hs' a (by rw [ha]; exact hchild.root_mem)

end Xv6.Vm
