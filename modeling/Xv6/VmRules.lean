import Mathlib.Data.List.Nodup
import Mathlib.Data.List.Perm.Basic
import Xv6.Vm

/-! What the functions on page tables do to the entries, the pages of the table and the free
list. -/
namespace Xv6.Vm

open Bytes Command

variable {E : VmPanic → Prop} {s t : Ram}

theorem memsetPage_outside (mem : Mem) {pa : ℕ} (hpa : pa%PGSIZE = 0) (c : UInt8) :
    Outside {pa} mem (memsetPage mem pa c) := by
  intro a ha
  apply blit_outside
  by_contra hin
  apply ha
  rw [Finset.mem_singleton]
  unfold PGROUNDDOWN PGSIZE at *
  omega

theorem memsetPage_inside (mem : Mem) {pa : ℕ} (c : UInt8) {a : ℕ} (ha : PGROUNDDOWN a = pa) :
    memsetPage mem pa c a = c := by
  unfold PGROUNDDOWN PGSIZE at *
  exact blit_inside (by omega) (by unfold PGSIZE; omega)

theorem wp_kalloc {Q : Option ℕ → Ram → Prop} (hnone : s.free = [] → Q none s)
    (hsome : ∀ q free, s.free = q::free → Q (some q) ⟨memsetPage s.mem q 5,free⟩) :
    wp kalloc Q E s := by
  rw [kalloc,wp_bind,wp_get]
  cases hs : s.free with
  | nil => exact hnone hs
  | cons q free => exact hsome q free hs

def Held (N : Finset ℕ) (s : Ram) : Prop := ∀ q ∈ s.free, q ∉ N

/-- The table has taken `new` off the free list and says the same. -/
structure Grown (s t : Ram) (l p : ℕ) (N : Finset ℕ) (new : List ℕ) : Prop where
  free : s.free = new++t.free
  ext : Ext s.mem t.mem l p N new.toFinset

theorem Grown.trans {u : Ram} {l p : ℕ} {N : Finset ℕ} {new new' : List ℕ}
    (h : Grown s t l p N new) (h' : Grown t u l p (N ∪ new.toFinset) new') :
    Grown s u l p N (new++new') := by
  refine ⟨by rw [h.free,h'.free,List.append_assoc],?_⟩
  rw [List.toFinset_append]
  exact h.ext.trans h'.ext

/-- How `walk` ends: with the entry for `va`, or without memory. -/
def Found (va l p : ℕ) (r : Option ℕ) (t : Ram) : Prop :=
  match r with
  | some e => walkFrom t.mem va l p = some e
  | none => t.free = []

theorem wp_walkLoop_read {va l p : ℕ} {Q : Option ℕ → Ram → Prop}
    (hQ : Q (walkFrom s.mem va l p) s) : wp (walkLoop va false l p) Q E s := by
  induction l generalizing p with
  | zero => exact hQ
  | succ l ih =>
    rw [walkLoop,wp_bind,wp_get]
    simp only [walkFrom] at hQ
    by_cases hv : pteAt s.mem p (PX (l+1) va) &&& PTE_V = 0
    · rw [if_neg (not_not.mpr hv),if_pos rfl]
      rwa [if_pos hv] at hQ
    · rw [if_pos hv]
      rw [if_neg hv] at hQ
      exact ih hQ

theorem wp_walk_read {va p : ℕ} (hva : va < MAXVA) {Q : Option ℕ → Ram → Prop}
    (hQ : Q (walkFrom s.mem va 2 p) s) : wp (walk p va false) Q E s := by
  rw [walk,if_neg (not_le.mpr hva)]
  exact wp_walkLoop_read hQ

/-- `k` pages from `a` on, which had no mapping, are mapped to the pages from `pa` on with the given
flags, and no other entry has changed. -/
structure Mapping (s t : Ram) (p : ℕ) (N : Finset ℕ) (a pa flags k : ℕ) (new : List ℕ) : Prop where
  free : s.free = new++t.free
  table : Table t.mem 2 p (N ∪ new.toFinset)
  outside : Outside (N ∪ new.toFinset) s.mem t.mem
  fresh : ∀ va, a ≤ va → va < a+k*PGSIZE → va < MAXVA ∧ entry s.mem va 2 p &&& PTE_V = 0
  inside : ∀ va, a ≤ va → va < a+k*PGSIZE →
    entry t.mem va 2 p = PA2PTE (pa+(PGROUNDDOWN va-a)) ||| flags
  other : ∀ va < SVTOP, va < a ∨ a+k*PGSIZE ≤ va → entry t.mem va 2 p = entry s.mem va 2 p

namespace Mapping

variable {p a pa flags k k' : ℕ} {N : Finset ℕ} {new new' : List ℕ} {u : Ram}

theorem of_grown (h : Grown s t 2 p N new) : Mapping s t p N a pa flags 0 new :=
  ⟨h.free,h.ext.table,h.ext.outside,fun va _ _ => by omega,fun va _ _ => by omega,
    fun va _ _ => h.ext.same va⟩

theorem trans (h : Mapping s t p N a pa flags k new)
    (h' : Mapping t u p (N ∪ new.toFinset) (a+k*PGSIZE) (pa+k*PGSIZE) flags k' new')
    (ha : a%PGSIZE = 0) : Mapping s u p N a pa flags (k+k') (new++new') := by
  have hsum : a+(k+k')*PGSIZE = a+k*PGSIZE+k'*PGSIZE := by rw [Nat.add_mul,Nat.add_assoc]
  have hpages : N ∪ (new++new').toFinset = N ∪ new.toFinset ∪ new'.toFinset := by
    rw [List.toFinset_append,Finset.union_assoc]
  refine ⟨by rw [h.free,h'.free,List.append_assoc],by rw [hpages]; exact h'.table,?_,?_,?_,?_⟩
  · have hout := h.outside.trans h'.outside
    rwa [← Finset.union_assoc,Finset.union_self,← hpages] at hout
  · intro va hl hr
    rcases lt_or_ge va (a+k*PGSIZE) with hlt | hge
    · exact h.fresh va hl hlt
    · obtain ⟨hmax,hz⟩ := h'.fresh va hge (by omega)
      rw [h.other va (lt_SVTOP hmax) (.inr hge)] at hz
      exact ⟨hmax,hz⟩
  · intro va hl hr
    rcases lt_or_ge va (a+k*PGSIZE) with hlt | hge
    · rw [h'.other va (lt_SVTOP (h.fresh va hl hlt).1) (.inl hlt)]
      exact h.inside va hl hlt
    · rw [h'.inside va hge (by omega)]
      congr 2
      unfold PGROUNDDOWN PGSIZE at *
      omega
  · intro va hmax hout
    rw [h'.other va hmax (by omega),h.other va hmax (by omega)]

end Mapping

theorem Grown.mapping {p a pa flags e : ℕ} {N : Finset ℕ} {new : List ℕ} (h : Grown s t 2 p N new)
    (ha : a%PGSIZE = 0) (hmax : a < MAXVA) (he : walkFrom t.mem a 2 p = some e)
    (hz : entry s.mem a 2 p &&& PTE_V = 0) (hpa : pa < 2^57) (hflags : flags < 2^10) :
    Mapping s {t with mem := writeLE t.mem e 8 (PA2PTE pa ||| flags)} p N a pa flags 1 new := by
  obtain ⟨htab,-,hent⟩ := h.ext.table.write he (pack_lt hpa hflags)
  have hpage : ∀ va < SVTOP, SameIndex 2 a va ↔ a ≤ va ∧ va < a+1*PGSIZE := by
    intro va hva
    rw [sameIndex_iff (lt_SVTOP hmax) hva]
    unfold PGROUNDDOWN PGSIZE at *
    omega
  have hmaxpage : ∀ va, va < a+1*PGSIZE → va < MAXVA := by
    intro va hva
    have : MAXVA = 2^38 := by decide
    unfold PGSIZE at *
    omega
  refine ⟨h.free,htab,?_,?_,?_,?_⟩
  · have hout := h.ext.outside.trans (h.ext.table.write_outside he (PA2PTE pa ||| flags))
    rwa [Finset.union_self] at hout
  · intro va hl hr
    have hva := hmaxpage va hr
    refine ⟨hva,?_⟩
    rw [← entry_congr ((hpage va (lt_SVTOP hva)).mpr ⟨hl,hr⟩)]
    exact hz
  · intro va hl hr
    have hdown : PGROUNDDOWN va-a = 0 := by
      unfold PGROUNDDOWN PGSIZE at *
      omega
    rw [hdown]
    exact (hent va).1 ((hpage va (lt_SVTOP (hmaxpage va hr))).mpr ⟨hl,hr⟩)
  · intro va hva hout
    rw [(hent va).2 fun hs => by have := (hpage va hva).mp hs; omega]
    exact h.ext.same va

variable [KernelImage]

theorem RamPage.lt_two_pow {q : ℕ} (h : RamPage q) : q < 2^57 :=
  h.lt.trans (by decide)

theorem RamPage.ne_zero {q : ℕ} (h : RamPage q) : q ≠ 0 := by
  have hbase : 0 < KERNBASE := by decide
  have hle := KernelImage.le_kend
  have := h.le
  omega

theorem FreeOk.drop (h : FreeOk s) {new : List ℕ} (hnew : s.free = new++t.free) : FreeOk t := by
  have hnodup := h.nodup
  rw [hnew] at hnodup
  refine ⟨hnodup.of_append_right,fun q hq => h.ram q ?_⟩
  rw [hnew]
  exact List.mem_append_right _ hq

theorem FreeOk.cons (h : FreeOk s) {pa : ℕ} (hpa : RamPage pa) (hfree : pa ∉ s.free)
    (ht : t.free = pa::s.free) : FreeOk t := by
  refine ⟨by rw [ht]; exact List.nodup_cons.mpr ⟨hfree,h.nodup⟩,fun q hq => ?_⟩
  rw [ht] at hq
  rcases List.mem_cons.mp hq with rfl | hq
  · exact hpa
  · exact h.ram q hq

theorem wp_kfree {pa : ℕ} (hpa : RamPage pa) {Q : Unit → Ram → Prop}
    (hQ : Q () ⟨memsetPage s.mem pa 1,pa::s.free⟩) : wp (kfree pa) Q E s := by
  rw [kfree,if_neg]
  · exact hQ
  · rintro (h | h | h)
    · exact h hpa.aligned
    · exact absurd hpa.le (not_le.mpr h)
    · exact absurd hpa.lt (not_lt.mpr h)

theorem Held.drop {N : Finset ℕ} (h : Held N s) (hok : FreeOk s) {new : List ℕ}
    (hnew : s.free = new++t.free) : Held (N ∪ new.toFinset) t := by
  intro q hq hN
  rcases Finset.mem_union.mp hN with hN | hN
  · exact h q (by rw [hnew]; exact List.mem_append_right _ hq) hN
  · have hnodup := hok.nodup
    rw [hnew] at hnodup
    exact List.disjoint_of_nodup_append hnodup (List.mem_toFinset.mp hN) hq

theorem wp_walkLoop_alloc {va l p : ℕ} {N : Finset ℕ} (hok : FreeOk s) (h : Table s.mem l p N)
    (hheld : Held N s) :
    wp (walkLoop va true l p) (fun r t => ∃ new, Grown s t l p N new ∧ Found va l p r t) E s := by
  induction l generalizing p N s with
  | zero => exact ⟨[],⟨rfl,.refl h⟩,rfl⟩
  | succ l ih =>
    have hi := PX_lt (l+1) va
    have hvalid : ∀ {s : Ram} {N : Finset ℕ}, FreeOk s → Table s.mem (l+1) p N → Held N s →
        pteAt s.mem p (PX (l+1) va) &&& PTE_V ≠ 0 →
        wp (walkLoop va true l (PTE2PA (pteAt s.mem p (PX (l+1) va))))
          (fun r t => ∃ new, Grown s t (l+1) p N new ∧ Found va (l+1) p r t) E s := by
      intro s N hok h hheld hv
      obtain ⟨sub,hnode,rfl⟩ := h
      refine wp_conseq (ih hok (hnode.child _ hi hv)
        fun q hq hsub => hheld q hq (subset_pagesOf hi hsub)) ?_
      rintro r t ⟨new,hgrown,hfound⟩
      have hnew : Disjoint new.toFinset (pagesOf p sub) := by
        rw [Finset.disjoint_left]
        intro q hq
        apply hheld q
        rw [hgrown.free]
        exact List.mem_append_left _ (List.mem_toFinset.mp hq)
      obtain ⟨hext,hpte⟩ := hgrown.ext.descend hnode hi hv hnew
      refine ⟨new,⟨hgrown.free,hext⟩,?_⟩
      cases r with
      | none => exact hfound
      | some e =>
        rw [Found,walkFrom_valid (by rwa [hpte]),hpte]
        exact hfound
    rw [walkLoop,wp_bind,wp_get]
    by_cases hv : pteAt s.mem p (PX (l+1) va) &&& PTE_V ≠ 0
    · rw [if_pos hv]
      exact hvalid hok h hheld hv
    rw [if_neg hv,if_neg (by decide),wp_bind]
    refine wp_kalloc (fun hnil => ⟨[],⟨rfl,.refl h⟩,hnil⟩) fun q free hs => ?_
    have hram : RamPage q := hok.ram q (by rw [hs]; exact List.mem_cons_self)
    have hqN : q ∉ N := hheld q (by rw [hs]; exact List.mem_cons_self)
    set mem' := memsetPage (memsetPage s.mem q 5) q 0 with hmem'
    have hout : Outside {q} s.mem mem' := by
      have hboth := (memsetPage_outside s.mem hram.aligned 5).trans
        (memsetPage_outside (memsetPage s.mem q 5) hram.aligned 0)
      rwa [Finset.union_self] at hboth
    obtain ⟨hext,hself⟩ := Ext.grow h hi (not_not.mp hv) hram.aligned hqN hram.lt_two_pow hout
      fun a ha => memsetPage_inside _ 0 ha
    set s' : Ram := ⟨writeLE mem' (p+8*PX (l+1) va) 8 (PA2PTE q ||| PTE_V),free⟩ with hs'
    have hgrown : Grown s s' (l+1) p N [q] := ⟨hs,hext⟩
    have hgo := hvalid (hok.drop hgrown.free) hext.table (hheld.drop hok hgrown.free)
      (by rw [hself,pack_and (by decide)]; decide)
    rw [hself,PTE2PA_pack hram.aligned (by decide)] at hgo
    refine wp_conseq hgo ?_
    rintro r t ⟨new,hnew,hfound⟩
    exact ⟨q::new,hgrown.trans hnew,hfound⟩

theorem wp_walk_alloc {va p : ℕ} {N : Finset ℕ} (hE : E .walk ∨ va < MAXVA) (hok : FreeOk s)
    (h : Table s.mem 2 p N) (hheld : Held N s) :
    wp (walk p va true) (fun r t => va < MAXVA ∧ ∃ new, Grown s t 2 p N new ∧ Found va 2 p r t)
      E s := by
  rw [walk,wp_ite]
  refine ⟨fun hmax => hE.resolve_right (not_lt.mpr hmax),fun hmax => ?_⟩
  refine wp_conseq (wp_walkLoop_alloc hok h hheld) fun r t hpost => ⟨not_le.mp hmax,hpost⟩

/-- How `mappages` of the pages from `a` to `last` ends. -/
def Mapped (s : Ram) (p : ℕ) (N : Finset ℕ) (a last pa flags : ℕ) (ok : Bool) (t : Ram) : Prop :=
  ∃ k new, Mapping s t p N a pa flags k new ∧ (ok = true → k*PGSIZE = last-a+PGSIZE) ∧
    (ok = false → k*PGSIZE ≤ last-a ∧ t.free = [])

theorem wp_mapLoop {p last perm fuel a pa : ℕ} {N : Finset ℕ} (hok : FreeOk s)
    (h : Table s.mem 2 p N) (hheld : Held N s) (ha : a%PGSIZE = 0) (hlast : last%PGSIZE = 0)
    (hle : a ≤ last) (hlt : last < 2^64) (hpa : pa+(MAXVA-a) < 2^57) (hperm : perm ||| PTE_V < 2^10)
    (hfuel : E .walk ∨ last-a < fuel*PGSIZE) (hwalk : E .walk ∨ last < MAXVA)
    (hremap : E .mappagesRemap ∨
      ∀ va < MAXVA, a ≤ va → va ≤ last → entry s.mem va 2 p &&& PTE_V = 0) :
    wp (mapLoop p last perm fuel a pa) (Mapped s p N a last pa (perm ||| PTE_V)) E s := by
  induction fuel generalizing s N a pa with
  | zero =>
    rcases hfuel with hfuel | hfuel
    · exact hfuel
    · omega
  | succ fuel ih =>
    rw [mapLoop,wp_bind]
    refine wp_conseq (wp_walk_alloc (hwalk.imp_right hle.trans_lt) hok h hheld) ?_
    rintro r t ⟨hmax,new,hgrown,hfound⟩
    cases r with
    | none => exact ⟨0,new,.of_grown hgrown,fun h => absurd h (by decide),fun _ => ⟨by omega,hfound⟩⟩
    | some e =>
      have he : readLE t.mem e 8 = entry s.mem a 2 p := by
        rw [← hgrown.ext.same a,entry,show walkFrom t.mem a 2 p = some e from hfound]
      simp only [wp_bind,wp_get,he]
      rw [wp_ite]
      constructor
      · intro hv
        exact hremap.resolve_right fun hz => hv (hz a hmax le_rfl hle)
      intro hz
      have hone : Mapping s _ p N a pa (perm ||| PTE_V) 1 new :=
        hgrown.mapping ha hmax hfound (not_not.mp hz) (by omega) hperm
      rw [wp_bind,setPte,wp_modify,wp_ite]
      constructor
      · rintro rfl
        exact ⟨1,new,hone,fun _ => by omega,fun h => absurd h (by decide)⟩
      · intro hne
        have hpg : a+PGSIZE ≤ last := by
          unfold PGSIZE at *
          omega
        rw [Nat.mod_eq_of_lt (show a+PGSIZE < 2^64 by omega),
          Nat.mod_eq_of_lt (show pa+PGSIZE < 2^64 by unfold PGSIZE; omega)]
        refine wp_conseq (ih (hok.drop hone.free) hone.table (hheld.drop hok hone.free) ?_ hpg ?_ ?_ ?_) ?_
        · unfold PGSIZE at *
          omega
        · have : MAXVA = 2^38 := by decide
          unfold PGSIZE at *
          omega
        · refine hfuel.imp_right fun hf => ?_
          rw [Nat.add_mul] at hf
          omega
        · refine hremap.imp_right fun hall va hva hl hr => ?_
          rw [hone.other va (lt_SVTOP hva) (by omega)]
          exact hall va hva (by omega) hr
        · rintro ok u ⟨k,new',hrest,hdone,hfail⟩
          rw [← Nat.one_mul PGSIZE] at hrest
          refine ⟨1+k,new++new',hone.trans hrest ha,fun h => ?_,fun h => ?_⟩
          · have := hdone h
            rw [Nat.add_mul]
            omega
          · obtain ⟨hk,hnil⟩ := hfail h
            refine ⟨?_,hnil⟩
            rw [Nat.add_mul]
            omega

end Xv6.Vm
