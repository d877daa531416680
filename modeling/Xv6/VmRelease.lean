import Xv6.VmRules

/-! What `uvmunmap` and `freewalk` give back. -/
namespace Xv6.Vm

open Bytes Command

variable {E : VmPanic → Prop} {s t : Ram}

def frames (mem : Mem) (p a n : ℕ) : List ℕ :=
  (List.range n).map fun i => PTE2PA (entry mem (a+i*PGSIZE) 2 p)

def released (mem : Mem) (p a n : ℕ) (doFree : Bool) : List ℕ :=
  if doFree then (frames mem p a n).reverse else []

theorem frames_add (mem : Mem) (p a n m : ℕ) :
    frames mem p a (n+m) = frames mem p a n++frames mem p (a+n*PGSIZE) m := by
  simp only [frames,List.range_add,List.map_append,List.map_map]
  refine congrArg _ (List.map_congr_left fun i _ => ?_)
  rw [Function.comp_apply,Nat.add_mul,Nat.add_assoc]

theorem frames_congr {mem mem' : Mem} {p a n : ℕ}
    (h : ∀ i < n, entry mem' (a+i*PGSIZE) 2 p = entry mem (a+i*PGSIZE) 2 p) :
    frames mem' p a n = frames mem p a n :=
  List.map_congr_left fun i hi => by rw [h i (List.mem_range.mp hi)]

theorem released_add (mem : Mem) (p a n m : ℕ) (doFree : Bool) :
    released mem p a (n+m) doFree =
      released mem p (a+n*PGSIZE) m doFree++released mem p a n doFree := by
  cases doFree with
  | false => rfl
  | true => rw [released,if_pos rfl,frames_add,List.reverse_append]; rfl

/-- `n` pages from `a` on have lost their mapping, and no other entry has changed. -/
structure Unmapping (s t : Ram) (p : ℕ) (N : Finset ℕ) (a n : ℕ) (doFree : Bool) : Prop where
  table : Table t.mem 2 p N
  inside : ∀ va, a ≤ va → va < a+n*PGSIZE → entry t.mem va 2 p = 0
  other : ∀ va < SVTOP, va < a ∨ a+n*PGSIZE ≤ va → entry t.mem va 2 p = entry s.mem va 2 p
  free : t.free = released s.mem p a n doFree++s.free
  outside : Outside (N ∪ (released s.mem p a n doFree).toFinset) s.mem t.mem

namespace Unmapping

variable {p a n m : ℕ} {N : Finset ℕ} {doFree : Bool} {u : Ram}

theorem refl (h : Table s.mem 2 p N) : Unmapping s s p N a 0 doFree := by
  have hnil : released s.mem p a 0 doFree = [] := by cases doFree <;> rfl
  exact ⟨h,fun va _ _ => by omega,fun _ _ _ => rfl,by rw [hnil]; rfl,fun _ _ => rfl⟩

theorem trans (h : Unmapping s t p N a n doFree) (h' : Unmapping t u p N (a+n*PGSIZE) m doFree)
    (hmax : a+(n+m)*PGSIZE ≤ MAXVA) : Unmapping s u p N a (n+m) doFree := by
  have hsum : a+(n+m)*PGSIZE = a+n*PGSIZE+m*PGSIZE := by rw [Nat.add_mul,Nat.add_assoc]
  have hlater : released t.mem p (a+n*PGSIZE) m doFree =
      released s.mem p (a+n*PGSIZE) m doFree := by
    unfold released
    rw [frames_congr fun i hi => h.other _ (lt_SVTOP ?_) (.inr (by omega))]
    have hpg : 0 < PGSIZE := by decide
    have := Nat.mul_lt_mul_of_pos_right hi hpg
    omega
  refine ⟨h'.table,?_,?_,?_,?_⟩
  · intro va hl hr
    rcases lt_or_ge va (a+n*PGSIZE) with hlt | hge
    · rw [h'.other va (lt_SVTOP (by omega)) (.inl hlt)]
      exact h.inside va hl hlt
    · exact h'.inside va hge (by omega)
  · intro va hva hout
    rw [h'.other va hva (by omega),h.other va hva (by omega)]
  · rw [h'.free,h.free,hlater,released_add,List.append_assoc]
  · have hout := h.outside.trans h'.outside
    rw [hlater] at hout
    refine hout.mono ?_
    rw [released_add,List.toFinset_append]
    intro q hq
    simp only [Finset.mem_union] at hq ⊢
    rcases hq with (hN | hfirst) | hN | hsecond
    · exact .inl hN
    · exact .inr (.inr hfirst)
    · exact .inl hN
    · exact .inr (.inl hsecond)

end Unmapping

theorem exists_walkFrom {mem : Mem} {va l p : ℕ} (h : entry mem va l p ≠ 0) :
    ∃ e, walkFrom mem va l p = some e ∧ readLE mem e 8 = entry mem va l p := by
  unfold entry at *
  cases he : walkFrom mem va l p with
  | none =>
    rw [he] at h
    exact absurd rfl h
  | some e => exact ⟨e,rfl,rfl⟩

theorem ne_zero_of_and {v m : ℕ} (h : v &&& m ≠ 0) : v ≠ 0 := by
  rintro rfl
  exact h (Nat.zero_and m)

/-- The pages of `N` have been put on the free list, each once, and only those of `M` are
changed. -/
structure Freed (s t : Ram) (N M : Finset ℕ) : Prop where
  free : ∃ pages : List ℕ, pages.Nodup ∧ pages.toFinset = N ∧ t.free = pages++s.free
  outside : Outside M s.mem t.mem

theorem Freed.trans {u : Ram} {N N' M M' : Finset ℕ} (h : Freed s t N M) (h' : Freed t u N' M')
    (hd : Disjoint N N') : Freed s u (N ∪ N') (M ∪ M') := by
  obtain ⟨pages,hnodup,rfl,hfree⟩ := h.free
  obtain ⟨pages',hnodup',rfl,hfree'⟩ := h'.free
  refine ⟨⟨pages'++pages,?_,?_,by rw [hfree',hfree,List.append_assoc]⟩,h.outside.trans h'.outside⟩
  · rw [List.nodup_append']
    refine ⟨hnodup',hnodup,fun q hq' hq => ?_⟩
    exact Finset.disjoint_left.mp hd (List.mem_toFinset.mpr hq) (List.mem_toFinset.mpr hq')
  · rw [List.toFinset_append,Finset.union_comm]

theorem Freed.of_outside {N M : Finset ℕ} {mem : Mem} (h : Freed s t N M)
    (hout : Outside M t.mem mem) : Freed s {t with mem := mem} N M := by
  refine ⟨h.free,?_⟩
  have hboth := h.outside.trans hout
  rw [Finset.union_self] at hboth
  exact hboth

theorem Freed.mono {N M M' : Finset ℕ} (h : Freed s t N M) (hM : M ⊆ M') : Freed s t N M' :=
  ⟨h.free,h.outside.mono hM⟩

def behind (sub : ℕ → Finset ℕ) (n : ℕ) : Finset ℕ := (Finset.range n).biUnion sub

theorem mem_behind {sub : ℕ → Finset ℕ} {n q : ℕ} : q ∈ behind sub n ↔ ∃ i < n, q ∈ sub i := by
  simp only [behind,Finset.mem_biUnion,Finset.mem_range]

theorem behind_succ (sub : ℕ → Finset ℕ) (n : ℕ) : behind sub (n+1) = behind sub n ∪ sub n := by
  rw [behind,Finset.range_add_one,Finset.biUnion_insert,Finset.union_comm]
  rfl

theorem insert_behind {p : ℕ} {sub : ℕ → Finset ℕ} : insert p (behind sub 512) = pagesOf p sub := by
  apply Finset.ext
  intro q
  rw [Finset.mem_insert,mem_behind,mem_pagesOf]

/-- The loop of `freewalk` before entry `i`: the tables behind earlier entries are freed and later
entries are as they were. -/
structure FreeLoop (s : Ram) (p : ℕ) (sub : ℕ → Finset ℕ) (i : ℕ) (t : Ram) : Prop where
  freed : Freed s t (behind sub i) (insert p (behind sub i))
  later : ∀ j, i ≤ j → j < 512 → pteAt t.mem p j = pteAt s.mem p j

theorem FreeLoop.skip {p i : ℕ} {sub : ℕ → Finset ℕ} (h : FreeLoop s p sub i t) (hi : sub i = ∅) :
    FreeLoop s p sub (i+1) t := by
  refine ⟨?_,fun j hj hlt => h.later j (by omega) hlt⟩
  rw [behind_succ,hi,Finset.union_empty]
  exact h.freed

section Node

variable {l p i : ℕ} {sub : ℕ → Finset ℕ}

theorem FreeLoop.child_same (h : FreeLoop s p sub i t) (hnode : Node s.mem (Table s.mem l) p sub)
    (hi : i < 512) : ∀ a, PGROUNDDOWN a ∈ sub i → t.mem a = s.mem a := by
  intro a ha
  apply h.freed.outside
  rw [Finset.mem_insert,not_or]
  refine ⟨fun hp => hnode.root i hi (hp ▸ ha),fun hb => ?_⟩
  obtain ⟨j,hj,hmem⟩ := mem_behind.mp hb
  exact Finset.disjoint_left.mp (hnode.apart i hi j (by omega) (by omega)) ha hmem

theorem FreeLoop.next {u : Ram} (h : FreeLoop s p sub i t)
    (hnode : Node s.mem (Table s.mem l) p sub) (hi : i < 512)
    (hchild : Freed t u (sub i) (sub i)) :
    FreeLoop s p sub (i+1) {u with mem := writeLE u.mem (p+8*i) 8 0} := by
  have hd : Disjoint (behind sub i) (sub i) := by
    rw [Finset.disjoint_left]
    intro q hq
    obtain ⟨j,hj,hmem⟩ := mem_behind.mp hq
    exact Finset.disjoint_left.mp (hnode.apart j (by omega) i hi (by omega)) hmem
  refine ⟨Freed.of_outside ?_ ?_,?_⟩
  · rw [behind_succ,← Finset.insert_union]
    exact h.freed.trans hchild hd
  · intro a ha
    apply Vm.writeLE_outside
    rintro x hx rfl
    exact ha (by rw [PGROUNDDOWN_entry hnode.aligned hi hx]; exact Finset.mem_insert_self _ _)
  · intro j hj hlt
    have hread : pteAt (writeLE u.mem (p+8*i) 8 0) p j = pteAt u.mem p j :=
      readLE_writeLE_disjoint (by omega)
    rw [hread,← h.later j (by omega) hlt]
    exact pteAt_congr hnode.aligned hlt fun a ha => hchild.outside a
      (by rw [ha]; exact hnode.root i hi)

end Node

variable [KernelImage]

structure Removable (mem : Mem) (p : ℕ) (N : Finset ℕ) (va : ℕ) (doFree : Bool) : Prop where
  lt : va < MAXVA
  valid : entry mem va 2 p &&& PTE_V ≠ 0
  leaf : PTE_FLAGS (entry mem va 2 p) ≠ PTE_V
  ram : doFree = true → RamPage (PTE2PA (entry mem va 2 p)) ∧ PTE2PA (entry mem va 2 p) ∉ N

/-- One round of `uvmunmap`, from the state in which the frame has been released. -/
theorem unmapping_one {p a e : ℕ} {N : Finset ℕ} {doFree : Bool} (h : Table s.mem 2 p N)
    (ha : a%PGSIZE = 0) (hr : Removable s.mem p N a doFree) (he : walkFrom s.mem a 2 p = some e)
    {mem : Mem} (hmem : Outside (released s.mem p a 1 doFree).toFinset s.mem mem) :
    Unmapping s ⟨writeLE mem e 8 0,released s.mem p a 1 doFree++s.free⟩ p N a 1 doFree := by
  have hframe : ∀ q, PGROUNDDOWN q ∈ N → mem q = s.mem q := by
    intro q hq
    apply hmem
    intro hrel
    cases doFree with
    | false => simp [released] at hrel
    | true =>
      simp [released,frames] at hrel
      exact (hr.ram rfl).2 (hrel ▸ hq)
  have htab := h.frame hframe
  have he' : walkFrom mem a 2 p = some e := by rw [htab.2]; exact he
  obtain ⟨hwr,-,hent⟩ := htab.1.write he' (show 0 < 2^64 by decide)
  have hpage : ∀ va < SVTOP, SameIndex 2 a va ↔ a ≤ va ∧ va < a+1*PGSIZE := by
    intro va hva
    rw [sameIndex_iff (lt_SVTOP hr.lt) hva]
    unfold PGROUNDDOWN PGSIZE at *
    omega
  refine ⟨hwr,?_,?_,rfl,?_⟩
  · intro va hl hlt
    refine (hent va).1 ((hpage va (lt_SVTOP ?_)).mpr ⟨hl,hlt⟩)
    have hmax := hr.lt
    have : MAXVA = 2^38 := by decide
    unfold PGSIZE at *
    omega
  · intro va hva hout
    rw [(hent va).2 fun hs => by have := (hpage va hva).mp hs; omega]
    exact h.entry_frame hframe va
  · have hout := hmem.trans (htab.1.write_outside he' 0)
    rw [Finset.union_comm] at hout
    exact hout

theorem wp_unmapLoop {p a n stop : ℕ} {N : Finset ℕ} {doFree : Bool} (h : Table s.mem 2 p N)
    (ha : a%PGSIZE = 0) (hstop : stop = a+n*PGSIZE) (hmax : stop ≤ MAXVA)
    (hr : ∀ i < n, Removable s.mem p N (a+i*PGSIZE) doFree) :
    wp (unmapLoop p stop doFree n a) (fun _ t => Unmapping s t p N a n doFree) E s := by
  induction n generalizing s a with
  | zero => exact .refl h
  | succ n ih =>
    have hfirst := hr 0 (by omega)
    rw [Nat.zero_mul,Nat.add_zero] at hfirst
    obtain ⟨e,he,hval⟩ := exists_walkFrom (ne_zero_of_and hfirst.valid)
    have hpg : 0 < PGSIZE := by decide
    have hsplit : a+(n+1)*PGSIZE = a+PGSIZE+n*PGSIZE := by rw [Nat.add_mul]; omega
    rw [unmapLoop,if_pos (by omega),wp_bind]
    apply wp_walk_read hfirst.lt
    rw [he]
    simp only [wp_bind,wp_get,hval]
    rw [if_neg hfirst.valid,if_neg hfirst.leaf,wp_bind]
    have hgo : ∀ mem, Outside (released s.mem p a 1 doFree).toFinset s.mem mem →
        wp (do
          setPte e 0
          unmapLoop p stop doFree n (a+PGSIZE)) (fun _ t => Unmapping s t p N a (n+1) doFree) E
          ⟨mem,released s.mem p a 1 doFree++s.free⟩ := by
      intro mem hmem
      have hone := unmapping_one h ha hfirst he hmem
      rw [wp_bind,setPte,wp_modify]
      refine wp_conseq (ih hone.table ?_ (by omega) ?_) fun _ t hrest => ?_
      · unfold PGSIZE at *
        omega
      · intro i hi
        have hri := hr (i+1) (by omega)
        rw [show a+(i+1)*PGSIZE = a+PGSIZE+i*PGSIZE by rw [Nat.add_mul]; omega] at hri
        have hsame := hone.other (a+PGSIZE+i*PGSIZE) (lt_SVTOP hri.lt) (.inr (by omega))
        exact ⟨hri.lt,by rw [hsame]; exact hri.valid,by rw [hsame]; exact hri.leaf,
          by rw [hsame]; exact hri.ram⟩
      · rw [← Nat.one_mul PGSIZE] at hrest
        rw [Nat.add_comm n]
        exact hone.trans hrest (by rw [Nat.add_comm 1]; omega)
    cases doFree with
    | false =>
      rw [when,if_neg (by decide)]
      exact hgo s.mem fun _ _ => rfl
    | true =>
      obtain ⟨hram,-⟩ := hfirst.ram rfl
      rw [when,if_pos rfl]
      apply wp_kfree hram
      have hrel : released s.mem p a 1 true = [PTE2PA (entry s.mem a 2 p)] := by
        simp [released,frames]
      have hout := memsetPage_outside s.mem hram.aligned 1
      have := hgo (memsetPage s.mem (PTE2PA (entry s.mem a 2 p)) 1) (by rw [hrel]; simpa using hout)
      rw [hrel] at this
      exact this

theorem wp_uvmunmap {p a n : ℕ} {N : Finset ℕ} {doFree : Bool} (h : Table s.mem 2 p N)
    (ha : a%PGSIZE = 0) (hmax : a+n*PGSIZE ≤ MAXVA)
    (hr : ∀ i < n, Removable s.mem p N (a+i*PGSIZE) doFree) :
    wp (uvmunmap p a n doFree) (fun _ t => Unmapping s t p N a n doFree) E s := by
  have hlt : a+n*PGSIZE < 2^64 := lt_of_le_of_lt hmax (by decide)
  rw [uvmunmap,if_neg (not_not.mpr ha),Nat.mod_eq_of_lt hlt]
  exact wp_unmapLoop h ha rfl hmax hr

theorem wp_kfree_root {p : ℕ} {N M : Finset ℕ} {u : Ram} (h : Freed s u N M) (hp : RamPage p)
    (hpN : p ∉ N) : wp (kfree p) (fun _ t => Freed s t (insert p N) (insert p M)) E u := by
  apply wp_kfree hp
  have hone : Freed u ⟨memsetPage u.mem p 1,p::u.free⟩ {p} {p} :=
    ⟨⟨[p],List.nodup_singleton p,by simp,rfl⟩,memsetPage_outside u.mem hp.aligned 1⟩
  have hboth := h.trans hone (Finset.disjoint_singleton_right.mpr hpN)
  rw [Finset.union_comm,Finset.union_comm M,← Finset.insert_eq,← Finset.insert_eq] at hboth
  exact hboth

theorem wp_freewalk {l p : ℕ} {N : Finset ℕ} (h : Table s.mem l p N) (hc : Clear s.mem l p)
    (hram : ∀ q ∈ N, RamPage q) : wp (freewalk (l+1) p) (fun _ t => Freed s t N N) E s := by
  have hp := hram p h.root_mem
  have hnone : Freed s s ∅ ∅ := ⟨⟨[],List.nodup_nil,rfl,rfl⟩,fun _ _ => rfl⟩
  induction l generalizing p N s with
  | zero =>
    rw [freewalk,wp_bind]
    refine wp_conseq (wp_forUp (fun _ t => t = s) ?_ rfl) ?_
    · rintro i t - hi rfl
      have hz := hc i (by omega)
      rw [wp_bind,wp_get,if_neg fun hv => hv.1 hz,if_neg (not_not.mpr hz)]
      rfl
    · rintro - t rfl
      have hroot := @wp_kfree_root E t _ p ∅ ∅ t hnone hp (Finset.notMem_empty p)
      rw [h.2]
      exact hroot
  | succ l ih =>
    obtain ⟨sub,hnode,rfl⟩ := h
    rw [freewalk,wp_bind]
    refine wp_conseq (wp_forUp (FreeLoop s p sub) ?_ ⟨?_,fun _ _ _ => rfl⟩) ?_
    · intro i t _ hi hloop
      have hi : i < 512 := by omega
      have hpte := hloop.later i le_rfl hi
      rw [wp_bind,wp_get,hpte]
      by_cases hv : pteAt s.mem p i &&& PTE_V = 0
      · rw [if_neg fun h => h.1 hv,if_neg (not_not.mpr hv)]
        exact hloop.skip (hnode.invalid i hi hv)
      · have hsame := hloop.child_same hnode hi
        have hchild := hnode.child i hi hv
        rw [if_pos ⟨hv,hnode.pointer i hi hv⟩,wp_bind]
        refine wp_conseq (ih (hchild.frame hsame).1 ((hc i hi hv).frame hchild hsame)
          (fun q hq => hram q (subset_pagesOf hi hq)) ?_ ?_) fun _ u hfreed => hloop.next hnode hi hfreed
        · exact hram _ (subset_pagesOf hi hchild.root_mem)
        · exact ⟨⟨[],List.nodup_nil,rfl,rfl⟩,fun _ _ => rfl⟩
    · exact hnone.mono (Finset.empty_subset _)
    · intro _ t hloop
      have hpN : p ∉ behind sub 512 := by
        rw [mem_behind]
        rintro ⟨i,hi,hmem⟩
        exact hnode.root i hi hmem
      have hroot := @wp_kfree_root E s _ p _ _ t hloop.freed hp (by rw [Nat.zero_add]; exact hpN)
      rw [Nat.zero_add,Finset.insert_idem,insert_behind] at hroot
      exact hroot

end Xv6.Vm
