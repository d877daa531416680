import Xv6.InodeOps
import Xv6.Sysfile

/-! Rules for the functions on directories. Each reads or writes entries of the node that the
locked directory shows. -/
namespace Xv6
namespace Fs

open Bytes Command ByteFile Ownership

variable {sb : Geometry} {E : FsPanic → Prop} {s : Fs} {F : Multiset ℕ} {L : Finset ℕ} {dp : ℕ}

theorem count_nodeAt :
    (nodeAt s dp).count = (s.itable dp).d.size.toNat/Dirent.bytes := by
  rw [Node.count,nodeAt,nodeOf,length_fileOf]

theorem toNat_ofNat_offset (hsz : Sized s.blk (s.itable dp).d) {off : ℕ}
    (hoff : off ≤ (s.itable dp).d.size.toNat) : (UInt32.ofNat off).toNat = off := by
  have hle := hsz.size_le
  have hmax : MAXFILE*BSIZE < 2^32 := by decide
  exact UInt32.toNat_ofNat_of_lt' (by simp only [UInt32.size]; omega)

theorem readCount_inside {size off n : UInt32} (h : off.toNat+n.toNat ≤ size.toNat) :
    readCount size off n = n.toNat := by
  have hsize := size.toNat_lt
  rw [readCount,if_neg]
  · omega
  · rw [not_or,UInt32.lt_iff_toNat_lt,UInt32.lt_iff_toNat_lt,UInt32.toNat_add,
      Nat.mod_eq_of_lt (by omega)]
    omega

/-- A read inside the directory returns the entry there; the caller panics if the last one is cut
off. -/
theorem wp_readDirent {e : FsPanic} (hE : ¬ Dirent.bytes ∣ (s.itable dp).d.size.toNat → E e) (hsz : Sized s.blk (s.itable dp).d) {k : ℕ}
    (hk : Dirent.bytes*k < (s.itable dp).d.size.toNat) :
    wp (readDirent sb e dp (Dirent.bytes*k)) (fun de t => t = s ∧ k < (nodeAt s dp).count ∧
      de = (nodeAt s dp).ent k) E s := by
  have hoff := toNat_ofNat_offset hsz hk.le
  rw [readDirent,wp_bind]
  refine wp_conseq (wp_readi_kernel (hsz.readable _ _)) ?_
  rintro ⟨r,mem⟩ t ⟨rfl,hr,hm⟩
  simp only at hr hm
  rw [wp_ite]
  have h16 : (UInt32.ofNat Dirent.bytes).toNat = 16 := rfl
  refine ⟨fun hne => hE fun hdvd => hne ?_,fun hr16 => ?_⟩
  · have hfit : Dirent.bytes*k+16 ≤ (t.itable dp).d.size.toNat := by
      simp only [Dirent.bytes_eq] at hdvd hk ⊢
      omega
    rw [hr,readCount_inside (by rw [hoff,h16]; exact hfit),h16]
    rfl
  have hcount : readCount (t.itable dp).d.size (UInt32.ofNat (Dirent.bytes*k))
      (UInt32.ofNat Dirent.bytes) = Dirent.bytes := by
    simp only [ne_eq,not_not] at hr16
    omega
  have hfit : Dirent.bytes*k+Dirent.bytes ≤ (t.itable dp).d.size.toNat := by
    unfold readCount at hcount
    split at hcount
    · cases hcount
    · rw [hoff,h16] at hcount
      simp only [Dirent.bytes_eq] at *
      omega
  refine ⟨rfl,?_,?_⟩
  · rw [count_nodeAt]
    simp only [Dirent.bytes_eq] at *
    omega
  · change Dirent.decode mem = _
    rw [hm,hcount,hoff]
    apply Dirent.decode_congr
    intro i hi
    rw [blit_inside (Nat.zero_le _) (by omega),nodeAt,nodeOf,List.getD_eq_getElem?_getD,
      getElem?_fileOf,if_pos (by omega)]
    rfl

theorem badRange_iff {size off n : UInt32} (hoff : off.toNat ≤ size.toNat)
    (hsum : off.toNat+n.toNat < 2^32) :
    BadRange size off n ↔ MAXFILE*BSIZE < off.toNat+n.toNat := by
  have hadd : (off+n).toNat = off.toNat+n.toNat := by
    rw [UInt32.toNat_add]
    exact Nat.mod_eq_of_lt hsum
  rw [BadRange,UInt32.lt_iff_toNat_lt,UInt32.lt_iff_toNat_lt,hadd]
  omega

/-- Directory `d` can have an entry `k`: it may be that long, and there are blocks for the pointers
on the way to the entry that are not set. -/
def EntryFits (sb : Geometry) (blk : ℕ → Block) (d k : ℕ) : Prop :=
  Dirent.bytes*(k+1) ≤ MAXFILE*BSIZE ∧
    ((needed (Dirent.bytes*k) 0).filter fun j => named sb blk (d,j) = none).card ≤
      (freeBlocks sb blk).card

theorem freeBlocks_congr {blk blk' : ℕ → Block} (h : Consistent sb blk) (h' : Consistent sb blk')
    (hnamed : named sb blk' = named sb blk) : freeBlocks sb blk' = freeBlocks sb blk := by
  have hown : Exact (· < nmeta sb) (fun b => b < sb.size ∧ bitOf sb blk b = true)
    (named sb blk) := h.own
  have hown' : Exact (· < nmeta sb) (fun b => b < sb.size ∧ bitOf sb blk' b = true)
    (named sb blk') := h'.own
  rw [hnamed] at hown'
  ext b
  rw [mem_freeBlocks,mem_freeBlocks,hown.used_congr hown' b]

theorem entryFits_congr {blk blk' : ℕ → Block} (h : Consistent sb blk) (h' : Consistent sb blk')
    (hnamed : named sb blk' = named sb blk) {d k : ℕ} :
    EntryFits sb blk' d k ↔ EntryFits sb blk d k := by
  rw [EntryFits,EntryFits,hnamed,freeBlocks_congr h h' hnamed]

theorem Loaded.entryFits_iff (hl : Loaded sb s dp) {k : ℕ} :
    EntryFits sb s.blk (s.itable dp).inum k ↔ Dirent.bytes*(k+1) ≤ MAXFILE*BSIZE ∧
      (missing s dp (Dirent.bytes*k) 0).card ≤ (freeBlocks sb s.blk).card := by
  have hnone : ∀ j, named sb s.blk ((s.itable dp).inum,j) = none ↔
      ptr s.blk (s.itable dp).d j = 0 := by
    intro j
    have htyped := hl.typed
    simp only [named,owner,← hl.same]
    simp [hl.inum_lt,htyped]
  rw [EntryFits,missing]
  simp only [hnone]

/-- All pointers are as before, except that inode `d` may have got an indirect block. -/
def OnlyIndirect (sb : Geometry) (d : ℕ) (s t : Fs) : Prop :=
  ∀ p : ℕ × ℕ, named sb t.blk p = named sb s.blk p ∨ p = (d,NDIRECT) ∧ named sb s.blk p = none

theorem Wrote.onlyIndirect {src : Mem} {off : ℕ} (hl : Loaded sb s dp)
    (hw : Wrote sb dp src off 0 0 s t)
    (hnamed : Elsewhere sb (s.itable dp).inum s t)
    (hzero : ptr t.blk (t.itable dp).d (slotOf (off/BSIZE)) = 0) :
    OnlyIndirect sb (s.itable dp).inum s t := by
  rintro ⟨i,k⟩
  by_cases hi : i = (s.itable dp).inum
  swap
  · exact .inl (hnamed _ hi)
  subst hi
  obtain ⟨z,a,hslot⟩ := hw.slot
  have hinum : (t.itable dp).inum = (s.itable dp).inum := by rw [hslot,Function.update_self]
  have htype : (t.itable dp).d.type = (s.itable dp).d.type := by rw [hslot,Function.update_self]
  have hlast := hw.loaded.same
  rw [hinum] at hlast
  simp only [named,owner,← hlast,← hl.same,htype,Prod.mk.injEq,true_and]
  by_cases hold : ptr s.blk (s.itable dp).d k = 0
  · by_cases hnew : ptr t.blk (t.itable dp).d k = 0
    · left
      simp [hold,hnew]
    · obtain ⟨bn,hge,hle,hthrough⟩ := hw.fills k hold hnew
      rw [Nat.add_zero] at hle
      obtain rfl : bn = off/BSIZE := le_antisymm hle hge
      rcases hthrough with rfl | ⟨hk,-⟩
      · exact absurd hzero hnew
      · exact .inr ⟨hk,by simp [hold]⟩
  · left
    rw [hw.keep_self k hold]

theorem wp_writeDirent (hE : ∀ e, LogFull e → E e) (h : Wf sb s F L) (hdp : dp ∈ L) {k : ℕ}
    (hk : Dirent.bytes*k ≤ (s.itable dp).d.size.toNat) {de : Dirent}
    (hname : de.name.length = DIRSIZ) (hin : de.inum.toNat < sb.ninodes) :
    wp (writeDirent sb dp (Dirent.bytes*k) de) (fun r t => Wf sb t F L ∧ Kept F s t ∧
      (r = Dirent.bytes ∧ EntryFits sb s.blk (s.itable dp).inum k ∧
        tree sb t.blk = Function.update (tree sb s.blk) (s.itable dp).inum
          (some ((nodeAt s dp).setEnt k de)) ∨
       r ≠ Dirent.bytes ∧ ¬ EntryFits sb s.blk (s.itable dp).inum k ∧ (nodeAt s dp).count ≤ k ∧
        tree sb t.blk = tree sb s.blk ∧ OnlyIndirect sb (s.itable dp).inum s t) ∧
      Elsewhere sb (s.itable dp).inum s t) E s := by
  have hl := h.loaded hdp
  have hsz := h.sized hdp
  have hoff := toNat_ofNat_offset hsz hk
  have h16 : (UInt32.ofNat Dirent.bytes).toNat = Dirent.bytes := rfl
  have hle := hsz.size_le
  have hsrc : srcBytes de.encode 0 false 0 = de.encode := by
    funext i
    simp [srcBytes,Vm.loadByte]
  have hmax : MAXFILE*BSIZE < 2^31 := by decide
  have hrange : BadRange (s.itable dp).d.size (UInt32.ofNat (Dirent.bytes*k))
      (UInt32.ofNat Dirent.bytes) ↔ _ := badRange_iff (by rwa [hoff]) (by
      rw [hoff,h16]
      simp only [Dirent.bytes_eq] at *
      omega)
  rw [hoff,h16] at hrange
  rw [count_nodeAt,writeDirent,hl.entryFits_iff]
  refine wp_conseq (wp_writei hE h.disk hl) ?_
  rintro r t ⟨⟨hbad,rfl,rfl⟩ | ⟨hgood,m,hm,rfl,-,hdone | hfault⟩,hnamed⟩
  · rw [hrange] at hbad
    refine ⟨h,.refl F _,.inr ⟨by decide,fun hfits => ?_,?_,rfl,fun _ => .inl rfl⟩,hnamed⟩
    · have hlong := hfits.1
      rw [Nat.mul_succ] at hlong
      omega
    · simp only [Dirent.bytes_eq] at *
      omega
  · have hw := hdone.wrote
    have htree := hw.tree_eq (by rwa [hoff]) le_rfl
    rw [hoff,hsrc] at htree
    rw [h16] at hm
    by_cases hfull : m = Dirent.bytes
    · have hmin : min m (max (s.itable dp).d.size.toNat (Dirent.bytes*k+m)-Dirent.bytes*k) =
          Dirent.bytes := by omega
      rw [hmin] at htree
      obtain ⟨hwf,hkept⟩ := h.wrote (h.held dp hdp) hw (by
        rw [htree]
        refine h.range.setEnt (h.tree_nodeAt hdp) ?_ hname hin
        rw [count_nodeAt]
        simp only [Dirent.bytes_eq] at *
        omega)
      refine ⟨hwf,hkept,.inl ⟨by rw [hfull],⟨?_,?_⟩,htree⟩,hnamed⟩
      · rw [hrange] at hgood
        rw [Nat.mul_succ]
        omega
      · rw [hoff] at hw
        refine hw.missing_le (Nat.zero_le m) (hw.mapped _ le_rfl ?_)
        rw [hfull]
        exact Nat.lt_add_of_pos_right (by decide)
    · -- an entry does not cross a block boundary, so nothing has been written
      obtain ⟨halign,-,hzero⟩ := hdone.full.resolve_left (by rwa [h16])
      rw [hoff] at halign hzero
      have hm0 : m = 0 := by
        unfold BSIZE at halign
        simp only [Dirent.bytes_eq] at *
        omega
      subst hm0
      have hsame : tree sb t.blk = tree sb s.blk := by
        rw [htree,Nat.zero_min,Function.update_eq_self_iff,h.tree_nodeAt hdp]
        simp [overwrite,srcList,nodeAt,nodeOf]
      obtain ⟨hwf,hkept⟩ := h.wrote (h.held dp hdp) hw (by rw [hsame]; exact h.range)
      have hnoroom := hdone.no_room hfull le_rfl
      rw [hoff] at hw hnoroom
      rw [Nat.add_zero] at hzero
      refine ⟨hwf,hkept,.inr ⟨by decide,fun hfits => ?_,?_,hsame,
        hw.onlyIndirect hl hnamed hzero⟩,hnamed⟩
      · exact absurd hfits.2 (not_le.mpr hnoroom)
      by_contra hlt
      have hin : Dirent.bytes*k < (s.itable dp).d.size.toNat := by
        simp only [Dirent.bytes_eq] at *
        omega
      have hne := hsz.ptr_ne_zero hin
      rw [hw.keep_self _ hne] at hzero
      exact hne hzero
  · have hall : stored de.encode 0 false 0 Dirent.bytes (Dirent.bytes*k) m =
        piece Dirent.bytes (Dirent.bytes*k) m := by
      apply Vm.loadable_eq_self
      intro i _ hfalse
      cases hfalse
    have hshort := hfault.short
    rw [hoff,h16] at hshort
    omega

structure Stops (E : FsPanic → Prop) : Prop where
  log : ∀ e, LogFull e → E e
  noInodes : E .igetNoInodes
  blocked : E .blocked
  dirlookup : E .dirlookupRead
  dirlink : E .dirlinkRead
  isdirempty : E .isdiremptyReadi

theorem stops_true : Stops fun _ => True :=
  ⟨fun _ _ => trivial,trivial,trivial,trivial,trivial,trivial⟩

/-- The outcome of `dirlookup`: the entry found, or none under this name. -/
def Looked (sb : Geometry) (F : Multiset ℕ) (L : Finset ℕ) (dp : ℕ) (name : List UInt8) (s : Fs) :
    Option (ℕ × ℕ) → Fs → Prop
  | none, t => t = s ∧ (nodeAt s dp).find name = none
  | some (ip,off), t => ∃ k, (nodeAt s dp).find name = some k ∧ off = Dirent.bytes*k ∧
      Got sb F L ((nodeAt s dp).ent k).inum.toNat ip s t

theorem Wf.ent_lt (h : Wf sb s F L) (hdp : dp ∈ L) (htype : (s.itable dp).d.type = T_DIR) {k : ℕ}
    (hk : k < (nodeAt s dp).count) : ((nodeAt s dp).ent k).inum.toNat < sb.ninodes :=
  h.range _ _ (h.tree_nodeAt hdp) htype k hk

theorem wp_dirlookupLoop (hread : ¬ Dirent.bytes ∣ (s.itable dp).d.size.toNat → E .dirlookupRead)
    (hino : (∀ k < NINODE, k ∈ F) → E .igetNoInodes) (h : Wf sb s F L) (hdp : dp ∈ L)
    (htype : (s.itable dp).d.type = T_DIR) {name : List UInt8} {fuel k : ℕ}
    (hfuel : (nodeAt s dp).count+1 ≤ k+fuel)
    (hbefore : ∀ j < k, ¬ (nodeAt s dp).Matches name j) :
    wp (dirlookupLoop sb dp name fuel (Dirent.bytes*k)) (Looked sb F L dp name s) E s := by
  induction fuel generalizing k with
  | zero => exact ⟨rfl,Node.find_eq_none_iff.mpr fun j hj => hbefore j (by omega)⟩
  | succ fuel ih =>
    rw [dirlookupLoop,wp_bind,wp_get]
    simp only
    by_cases hin : Dirent.bytes*k < (s.itable dp).d.size.toNat
    · rw [if_pos hin,wp_bind]
      refine wp_conseq (wp_readDirent hread (h.sized hdp) hin) ?_
      rintro de t ⟨rfl,hk,rfl⟩
      have hnext : ¬ (nodeAt t dp).Matches name k →
          wp (dirlookupLoop sb dp name fuel (Dirent.bytes*k+Dirent.bytes))
            (Looked sb F L dp name t) E t := by
        intro hmiss
        apply ih (k := k+1) (by omega)
        intro j hj
        rcases Nat.lt_succ_iff_lt_or_eq.mp hj with hlt | rfl
        · exact hbefore j hlt
        · exact hmiss
      by_cases h0 : ((nodeAt t dp).ent k).inum = 0
      · rw [if_pos h0]
        exact hnext fun hh => hh.1 h0
      · rw [if_neg h0]
        by_cases hcmp : namecmp name ((nodeAt t dp).ent k).name = 0
        · rw [if_pos hcmp,wp_bind,h.dev dp (h.held dp hdp)]
          refine wp_conseq (wp_iget hino h (h.ent_lt hdp htype hk)) ?_
          intro ip u hgot
          exact ⟨k,Node.find_eq_some_iff.mpr ⟨hk,⟨h0,hcmp⟩,hbefore⟩,rfl,hgot⟩
        · rw [if_neg hcmp]
          exact hnext fun hh => hcmp hh.2
    · rw [if_neg hin]
      refine ⟨rfl,Node.find_eq_none_iff.mpr fun j hj => hbefore j ?_⟩
      rw [count_nodeAt] at hj
      simp only [Dirent.bytes_eq] at *
      omega

/-- `dirlookup` panics only at an entry that is cut off or for lack of a slot. -/
theorem wp_dirlookup_of (hread : ¬ Dirent.bytes ∣ (s.itable dp).d.size.toNat → E .dirlookupRead)
    (hino : (∀ k < NINODE, k ∈ F) → E .igetNoInodes) (h : Wf sb s F L) (hdp : dp ∈ L)
    (htype : (s.itable dp).d.type = T_DIR) {name : List UInt8} :
    wp (dirlookup sb dp name) (Looked sb F L dp name s) E s := by
  rw [dirlookup,wp_bind,wp_get]
  simp only
  rw [if_neg (by simp [htype])]
  refine wp_dirlookupLoop hread hino h hdp htype (k := 0) ?_ fun j hj => absurd hj (Nat.not_lt_zero j)
  rw [count_nodeAt,rounds]
  omega

theorem wp_dirlookup (hE : Stops E) (h : Wf sb s F L) (hdp : dp ∈ L)
    (htype : (s.itable dp).d.type = T_DIR) {name : List UInt8} :
    wp (dirlookup sb dp name) (Looked sb F L dp name s) E s :=
  wp_dirlookup_of (fun _ => hE.dirlookup) (fun _ => hE.noInodes) h hdp htype

theorem wp_emptyDirentLoop (hE : Stops E) (h : Wf sb s F L) (hdp : dp ∈ L) {fuel k : ℕ}
    (hfuel : (nodeAt s dp).count+1 ≤ k+fuel) (hk : k ≤ (nodeAt s dp).count)
    (hbefore : ∀ j < k, ((nodeAt s dp).ent j).inum ≠ 0) :
    wp (emptyDirentLoop sb dp fuel (Dirent.bytes*k)) (fun off t => t = s ∧
      off = Dirent.bytes*(nodeAt s dp).emptyAt) E s := by
  induction fuel generalizing k with
  | zero => omega
  | succ fuel ih =>
    rw [emptyDirentLoop,wp_bind,wp_get]
    simp only
    by_cases hin : Dirent.bytes*k < (s.itable dp).d.size.toNat
    · rw [if_pos hin,wp_bind]
      refine wp_conseq (wp_readDirent (fun _ => hE.dirlink) (h.sized hdp) hin) ?_
      rintro de t ⟨rfl,hlt,rfl⟩
      by_cases h0 : ((nodeAt t dp).ent k).inum = 0
      · rw [if_pos h0]
        exact ⟨rfl,by rw [Node.emptyAt_eq_iff.mpr ⟨.inl ⟨hlt,h0⟩,hbefore⟩]⟩
      · rw [if_neg h0]
        apply ih (k := k+1) (by omega) (by omega)
        intro j hj
        rcases Nat.lt_succ_iff_lt_or_eq.mp hj with hlt | rfl
        · exact hbefore j hlt
        · exact h0
    · rw [if_neg hin]
      have hend : k = (nodeAt s dp).count := by
        rw [count_nodeAt] at *
        simp only [Dirent.bytes_eq] at *
        omega
      exact ⟨rfl,by rw [Node.emptyAt_eq_iff.mpr ⟨.inr hend,hbefore⟩]⟩

theorem wp_dirlink (hE : Stops E) (h : Wf sb s F L) (hdp : dp ∈ L)
    (htype : (s.itable dp).d.type = T_DIR) {name : List UInt8} {inum : ℕ}
    (hinum : inum < sb.ninodes) :
    wp (dirlink sb dp name inum) (fun r t => Wf sb t F L ∧ Kept F s t ∧
      (r = 0 ∧ (nodeAt s dp).find name = none ∧
        EntryFits sb s.blk (s.itable dp).inum (nodeAt s dp).emptyAt ∧
        tree sb t.blk = Function.update (tree sb s.blk) (s.itable dp).inum
          (some ((nodeAt s dp).enter name inum)) ∨
       r = -1 ∧ ((nodeAt s dp).find name = none →
          ¬ EntryFits sb s.blk (s.itable dp).inum (nodeAt s dp).emptyAt) ∧
        tree sb t.blk = tree sb s.blk ∧ OnlyIndirect sb (s.itable dp).inum s t) ∧
      Elsewhere sb (s.itable dp).inum s t) E s := by
  rw [dirlink,wp_bind]
  refine wp_conseq (wp_dirlookup hE h hdp htype) ?_
  rintro (- | ⟨ip,off⟩) t hlook
  · obtain ⟨rfl,hnone⟩ := hlook
    have hcount := (nodeAt t dp).emptyAt_le
    have hoff : Dirent.bytes*(nodeAt t dp).emptyAt ≤ (t.itable dp).d.size.toNat := by
      rw [count_nodeAt] at hcount
      simp only [Dirent.bytes_eq] at *
      omega
    have hin : (UInt16.ofNat inum).toNat < sb.ninodes := by
      rw [UInt16.toNat_ofNat']
      exact lt_of_le_of_lt (Nat.mod_le _ _) hinum
    simp only
    rw [wp_bind,wp_get,wp_bind]
    refine wp_conseq (wp_emptyDirentLoop hE h hdp (k := 0) ?_ (Nat.zero_le _)
      fun j hj => absurd hj (Nat.not_lt_zero j)) ?_
    · rw [count_nodeAt,rounds]
      omega
    rintro off u ⟨rfl,rfl⟩
    rw [wp_bind]
    refine wp_conseq (wp_writeDirent hE.log h hdp hoff (length_strncpy _ _) hin) ?_
    rintro r v ⟨hwf,hkept,⟨hr,hfits,htree⟩ | ⟨hr,hfits,-,htree,hind⟩,hnamed⟩
    · rw [if_neg (not_not.mpr hr)]
      exact ⟨hwf,hkept,.inl ⟨rfl,hnone,hfits,htree⟩,hnamed⟩
    · rw [if_pos hr]
      exact ⟨hwf,hkept,.inr ⟨rfl,fun _ => hfits,htree,hind⟩,hnamed⟩
  · obtain ⟨k,hfound,-,hgot⟩ := hlook
    simp only
    rw [wp_bind]
    refine wp_conseq (wp_iput hE.log hgot.wf (h.held ip)) ?_
    rintro - u ⟨hwf,hkept,hreap,hsame,hspared⟩
    have htree : tree sb u.blk = tree sb t.blk := by
      by_cases hv : (t.itable ip).valid = true
      · rcases hreap hv with ⟨htree,-⟩ | ⟨-,hnot,-⟩
        · exact htree
        · exact absurd (hgot.of_valid hv).1 hnot
      · exact hsame (by simpa using hv)
    have hnamed : named sb u.blk = named sb s.blk := by rw [hspared.named_eq htree,hgot.blk]
    rw [hgot.blk] at htree
    refine ⟨hwf,hgot.kept.trans hkept,.inr ⟨rfl,fun hnone => ?_,htree,
      fun p => .inl (by rw [hnamed])⟩,fun p _ => by rw [hnamed]⟩
    rw [hnone] at hfound
    cases hfound

theorem wp_isdiremptyLoop (hE : Stops E) (h : Wf sb s F L) (hdp : dp ∈ L) {fuel k : ℕ}
    (hfuel : (nodeAt s dp).count+1 ≤ k+fuel)
    (hbefore : ∀ j, 2 ≤ j → j < k → ((nodeAt s dp).ent j).inum = 0) (hk : 2 ≤ k) :
    wp (isdiremptyLoop sb dp fuel (Dirent.bytes*k)) (fun r t => t = s ∧
      (r = true ↔ ∀ j, 2 ≤ j → j < (nodeAt s dp).count → ((nodeAt s dp).ent j).inum = 0)) E s := by
  induction fuel generalizing k with
  | zero => exact ⟨rfl,by simp only [true_iff]; exact fun j h2 hj => hbefore j h2 (by omega)⟩
  | succ fuel ih =>
    rw [isdiremptyLoop,wp_bind,wp_get]
    by_cases hin : Dirent.bytes*k < (s.itable dp).d.size.toNat
    · rw [if_pos hin,wp_bind]
      refine wp_conseq (wp_readDirent (fun _ => hE.isdirempty) (h.sized hdp) hin) ?_
      rintro de t ⟨rfl,hlt,rfl⟩
      by_cases h0 : ((nodeAt t dp).ent k).inum = 0
      · rw [if_neg (not_not.mpr h0)]
        apply ih (k := k+1) (by omega) _ (by omega)
        intro j h2 hj
        rcases Nat.lt_succ_iff_lt_or_eq.mp hj with hlt | rfl
        · exact hbefore j h2 hlt
        · exact h0
      · rw [if_pos h0]
        refine ⟨rfl,?_⟩
        simp only [Bool.false_eq_true,false_iff,not_forall]
        exact ⟨k,hk,hlt,h0⟩
    · rw [if_neg hin]
      refine ⟨rfl,?_⟩
      simp only [true_iff]
      intro j h2 hj
      apply hbefore j h2
      rw [count_nodeAt] at hj
      simp only [Dirent.bytes_eq] at *
      omega

theorem wp_isdirempty (hE : Stops E) (h : Wf sb s F L) (hdp : dp ∈ L) :
    wp (isdirempty sb dp) (fun r t => t = s ∧
      (r = true ↔ ∀ j, 2 ≤ j → j < (nodeAt s dp).count → ((nodeAt s dp).ent j).inum = 0)) E s := by
  rw [isdirempty,wp_bind,wp_get]
  rw [Nat.mul_comm]
  refine wp_isdiremptyLoop hE h hdp ?_ (fun j h2 hj => by omega) le_rfl
  rw [count_nodeAt,rounds]
  omega

end Fs
end Xv6
