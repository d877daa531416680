import Xv6.Writei

/-! `itrunc` gives up the blocks of an inode one by one, the entries of the indirect block before
the block itself. In between, pointers on disk name blocks that are free already; the positions
given up are counted out. -/
namespace Xv6
namespace Fs

open Bytes Command Ownership

section Released

variable {sb : Geometry} {E : FsPanic → Prop} {ip : ℕ} {s t : Fs}

theorem bitOf_released {b c : ℕ} :
    bitOf sb (released sb t b).blk c = (bitOf sb t.blk c && !decide (b = c)) := by
  rw [← bitOf_clearBit]
  rfl

/-- Owners without those pointers of inode `i` that are in `K`. -/
def ownOff (sb : Geometry) (blk : ℕ → Block) (f : ℕ → Dinode) (i : ℕ) (K : Finset ℕ)
    (p : ℕ × ℕ) : Option ℕ :=
  if p.1 = i ∧ p.2 ∈ K then none else owner sb blk f p

/-- From `s`, the blocks that pointers in `K` of `ip` name have been freed. -/
structure Released (sb : Geometry) (ip : ℕ) (K : Finset ℕ) (s t : Fs) : Prop where
  exact : Exact (· < nmeta sb) (fun b => b < sb.size ∧ bitOf sb t.blk b = true)
    (ownOff sb s.blk (live sb s ip) (s.itable ip).inum K)
  blk : ∀ b, (∀ c < sb.size, b ≠ BBLOCK c sb) → t.blk b = s.blk b
  lh_mono : ∀ b ∈ s.lh, b ∈ t.lh
  disk_eq : t.disk = s.disk
  outstanding_eq : t.outstanding = s.outstanding

variable {K : Finset ℕ}

theorem Released.refl (hs : Serving sb s ip) : Released sb ip ∅ s s where
  exact := hs.own.congr (fun _ => Iff.rfl) fun p => by simp [ownOff]
  blk _ _ := rfl
  lh_mono _ h := h
  disk_eq := rfl
  outstanding_eq := rfl

theorem Released.data (h : Released sb ip K s t) {b : ℕ} (hb : nmeta sb ≤ b) :
    t.blk b = s.blk b := by
  apply h.blk
  intro c hc
  have := BBLOCK_lt_nmeta hc
  omega

theorem Released.dinodes (h : Released sb ip K s t) {j : ℕ} (hj : j < sb.ninodes) :
    dinodeOf sb t.blk j = dinodeOf sb s.blk j :=
  dinodeOf_congr (h.blk _ fun _ _ => IBLOCK_ne_BBLOCK hj)

theorem Released.skip (h : Released sb ip K s t) {k : ℕ}
    (h0 : ptr s.blk (s.itable ip).d k = 0) : Released sb ip (insert k K) s t where
  exact := by
    refine h.exact.congr (fun _ => Iff.rfl) ?_
    rintro ⟨i,l⟩
    by_cases hi : i = (s.itable ip).inum ∧ l = k
    · obtain ⟨rfl,rfl⟩ := hi
      have hnone : owner sb s.blk (live sb s ip) ((s.itable ip).inum,l) = none := by
        simp [owner,h0]
      simp [ownOff,hnone]
    · have hiff : (i = (s.itable ip).inum ∧ l ∈ insert k K) ↔ i = (s.itable ip).inum ∧ l ∈ K := by
        rw [Finset.mem_insert]
        tauto
      simp only [ownOff,hiff]
  blk := h.blk
  lh_mono := h.lh_mono
  disk_eq := h.disk_eq
  outstanding_eq := h.outstanding_eq

theorem ownOff_of_notMem (hs : Serving sb s ip) {k : ℕ} (hk : k ∉ K)
    (hne : ptr s.blk (s.itable ip).d k ≠ 0) :
    ownOff sb s.blk (live sb s ip) (s.itable ip).inum K ((s.itable ip).inum,k) =
      some (ptr s.blk (s.itable ip).d k) := by
  rw [ownOff,if_neg fun hh => hk hh.2]
  exact hs.owner_slot hne

theorem Released.free (hs : Serving sb s ip) (h : Released sb ip K s t) {k : ℕ} (hk : k ∉ K)
    (hne : ptr s.blk (s.itable ip).d k ≠ 0) :
    Released sb ip (insert k K) s (released sb t (ptr s.blk (s.itable ip).d k)) := by
  set b := ptr s.blk (s.itable ip).d k with hb
  have hown := ownOff_of_notMem hs hk hne
  have hused := h.exact.used_of_own hown
  exact {
    exact := by
      refine h.exact.free hown ?_ ?_ ?_
      · intro c
        rw [bitOf_released,Bool.and_eq_true,Bool.not_eq_true',decide_eq_false_iff_not]
        tauto
      · simp [ownOff]
      · rintro ⟨i,l⟩ hne'
        have hiff : (i = (s.itable ip).inum ∧ l ∈ insert k K) ↔
            i = (s.itable ip).inum ∧ l ∈ K := by
          rw [Finset.mem_insert]
          constructor
          · rintro ⟨rfl,rfl | hl⟩
            · exact absurd rfl hne'
            · exact ⟨rfl,hl⟩
          · exact fun hh => ⟨hh.1,.inr hh.2⟩
        simp only [ownOff,hiff]
    blk := by
      intro c hc
      rw [released,logged_blk,Function.update_of_ne (hc _ hused.1),h.blk c hc]
    lh_mono := fun c hc => mem_recordBlock.mpr (.inl (h.lh_mono c hc))
    disk_eq := h.disk_eq
    outstanding_eq := h.outstanding_eq }

theorem wp_release (hE : ∀ e, LogFull e → E e) (hs : Serving sb s ip)
    (h : Released sb ip K s t) {k : ℕ} (hk : k ∉ K) {Q : Unit → Fs → Prop}
    (hQ : ∀ u, u.itable = t.itable → Released sb ip (insert k K) s u → Q () u) :
    wp (when (ptr s.blk (s.itable ip).d k ≠ 0) (bfree sb (ptr s.blk (s.itable ip).d k))) Q E t := by
  rw [wp_when]
  constructor
  · intro hne
    apply wp_bfree hE
    · exact (h.exact.used_of_own (ownOff_of_notMem hs hk hne)).2
    · exact hQ _ rfl (h.free hs hk hne)
  · intro h0
    exact hQ _ rfl (h.skip (not_not.mp h0))

end Released

def zeroBelow (i : ℕ) (addrs : Fin (NDIRECT+1) → UInt32) : Fin (NDIRECT+1) → UInt32 := fun k =>
  if k.val < i then 0 else addrs k

theorem zeroBelow_succ (addrs : Fin (NDIRECT+1) → UInt32) (k : Fin (NDIRECT+1)) :
    zeroBelow (k+1) addrs = Function.update (zeroBelow k addrs) k 0 := by
  funext l
  by_cases hl : l = k
  · rw [hl,Function.update_self,zeroBelow,if_pos (Nat.lt_succ_self _)]
  · have hval : l.val ≠ k.val := fun h => hl (Fin.ext h)
    have hiff : l.val < k.val+1 ↔ l.val < k.val := by omega
    rw [Function.update_of_ne hl,zeroBelow,zeroBelow]
    simp only [hiff]

def withAddrs (s : Fs) (ip : ℕ) (addrs : Fin (NDIRECT+1) → UInt32) : ℕ → Inode :=
  Function.update s.itable ip {s.itable ip with d := {(s.itable ip).d with addrs := addrs}}

section Loops

variable {sb : Geometry} {E : FsPanic → Prop} {ip : ℕ} {s t : Fs}

theorem withAddrs_self {addrs : Fin (NDIRECT+1) → UInt32} :
    withAddrs s ip addrs ip = {s.itable ip with d := {(s.itable ip).d with addrs := addrs}} := by
  simp [withAddrs]

theorem wp_setAddr_zero {Q : Unit → Fs → Prop} {addrs : Fin (NDIRECT+1) → UInt32}
    {k : Fin (NDIRECT+1)} (ht : t.itable = withAddrs s ip addrs)
    (hQ : ∀ u, u.itable = withAddrs s ip (Function.update addrs k 0) → u.blk = t.blk →
      u.lh = t.lh → u.disk = t.disk → u.outstanding = t.outstanding → Q () u) :
    wp (setAddr ip k 0) Q E t := by
  refine hQ _ ?_ rfl rfl rfl rfl
  change Function.update t.itable ip _ = _
  rw [ht]
  simp only [withAddrs,Function.update_self,Function.update_idem]
  rfl

theorem Released.of_eq {K : Finset ℕ} {u : Fs} (h : Released sb ip K s t) (hblk : u.blk = t.blk)
    (hlh : u.lh = t.lh) (hdisk : u.disk = t.disk) (hout : u.outstanding = t.outstanding) :
    Released sb ip K s u := by
  obtain ⟨h1,h2,h3,h4,h5⟩ := h
  exact ⟨by rwa [hblk],by rwa [hblk],by rwa [hlh],by rwa [hdisk],by rwa [hout]⟩

theorem wp_itruncDirect (hE : ∀ e, LogFull e → E e) (hs : Serving sb s ip) {i : ℕ}
    (hi : i < NDIRECT) (h : Released sb ip (Finset.range i) s t)
    (ht : t.itable = withAddrs s ip (zeroBelow i (s.itable ip).d.addrs)) :
    wp (itruncDirect sb ip i) (fun _ u => Released sb ip (Finset.range (i+1)) s u ∧
      u.itable = withAddrs s ip (zeroBelow (i+1) (s.itable ip).d.addrs)) E t := by
  set k : Fin (NDIRECT+1) := ⟨i,Nat.lt_succ_of_lt hi⟩ with hk
  have hread : zeroBelow i (s.itable ip).d.addrs k = (s.itable ip).d.addrs k :=
    if_neg (lt_irrefl i)
  have hptr : ptr s.blk (s.itable ip).d i = ((s.itable ip).d.addrs k).toNat := ptr_addr k
  have hval : ((t.itable ip).d.addrs k).toNat = ptr s.blk (s.itable ip).d i := by
    rw [ht,withAddrs_self,hptr,← hread]
  have hnot : i ∉ Finset.range i := Finset.notMem_range_self
  have hsucc : zeroBelow (i+1) (s.itable ip).d.addrs =
      Function.update (zeroBelow i (s.itable ip).d.addrs) k 0 := zeroBelow_succ _ k
  rw [itruncDirect,dif_pos hi,wp_bind,wp_get]
  change wp (when (((t.itable ip).d.addrs k).toNat ≠ 0) do
    bfree sb ((t.itable ip).d.addrs k).toNat
    setAddr ip k 0) _ E t
  rw [hval,wp_when,Finset.range_add_one]
  constructor
  · intro hne
    rw [wp_bind]
    apply wp_bfree hE
    · exact (h.exact.used_of_own (ownOff_of_notMem hs hnot hne)).2
    · have hfree := h.free hs hnot hne
      apply wp_setAddr_zero (t := released sb t _) ht
      intro u hu hblk hlh hdisk hout
      exact ⟨hfree.of_eq hblk hlh hdisk hout,by rw [hu,hsucc]⟩
  · intro h0
    rw [not_not] at h0
    refine ⟨h.skip h0,?_⟩
    have hzero : (s.itable ip).d.addrs k = 0 := UInt32.toNat_inj.mp (by rw [← hptr,h0]; rfl)
    rw [ht,hsucc,← hzero,← hread,Function.update_eq_self]

theorem wp_itruncEntries (hE : ∀ e, LogFull e → E e) (hs : Serving sb s ip)
    (hind : (s.itable ip).d.addrs indirect ≠ 0)
    (h : Released sb ip (Finset.range NDIRECT) s t) {data : Block}
    (hdata : data = s.blk ((s.itable ip).d.addrs indirect).toNat) :
    wp (forUp (fun j => when (entryOf data j ≠ 0) (bfree sb (entryOf data j))) 0 NINDIRECT)
      (fun _ u => Released sb ip ((Finset.range (NDIRECT+1+NINDIRECT)).erase NDIRECT) s u ∧
        u.itable = t.itable) E t := by
  set K : ℕ → Finset ℕ := fun j => (Finset.range (NDIRECT+1+j)).erase NDIRECT with hK
  have hstart : K 0 = Finset.range NDIRECT := by
    rw [hK]
    ext k
    simp only [Finset.mem_erase,Finset.mem_range]
    omega
  have hloop : wp (forUp (fun j => when (entryOf data j ≠ 0) (bfree sb (entryOf data j))) 0
      NINDIRECT) (fun _ u => Released sb ip (K (0+NINDIRECT)) s u ∧ u.itable = t.itable) E t := by
    refine wp_forUp (fun j u => Released sb ip (K j) s u ∧ u.itable = t.itable) ?_
      ⟨by rwa [hstart],rfl⟩
    rintro j u - hj ⟨hrel,htab⟩
    have hptr : entryOf data j = ptr s.blk (s.itable ip).d (NDIRECT+1+j) := by
      rw [ptr_entry (by omega) hind,hdata]
    have hnext : K (j+1) = insert (NDIRECT+1+j) (K j) := by
      rw [hK]
      ext k
      simp only [Finset.mem_erase,Finset.mem_range,Finset.mem_insert]
      omega
    rw [hptr,hnext]
    apply wp_release hE hs hrel
    · simp [hK]
    · intro v hv hrel'
      exact ⟨hrel',hv.trans htab⟩
  rwa [Nat.zero_add] at hloop

end Loops

structure Truncated (sb : Geometry) (ip : ℕ) (s u : Fs) : Prop where
  consistent : Consistent sb u.blk
  loaded : Loaded sb u ip
  slot : u.itable = Function.update s.itable ip
    {s.itable ip with d := {(s.itable ip).d with size := 0, addrs := fun _ => 0}}
  dinodes : ∀ j < sb.ninodes, j ≠ (s.itable ip).inum →
    dinodeOf sb u.blk j = dinodeOf sb s.blk j
  content_ne : ∀ j < sb.ninodes, (dinodeOf sb s.blk j).type ≠ 0 → j ≠ (s.itable ip).inum →
    content u.blk (dinodeOf sb s.blk j) = content s.blk (dinodeOf sb s.blk j)
  disk_eq : u.disk = s.disk
  outstanding_eq : u.outstanding = s.outstanding

section Itrunc

variable {sb : Geometry} {E : FsPanic → Prop} {ip : ℕ} {s t : Fs}

def hollow (d : Dinode) : Dinode := {d with size := 0, addrs := fun _ => 0}

theorem ptr_hollow (blk : ℕ → Block) (d : Dinode) (k : ℕ) : ptr blk (hollow d) k = 0 := by
  rcases ptr_cases k with ⟨a,rfl⟩ | ⟨j,hj,rfl⟩ | hge
  · rw [ptr_addr]
    rfl
  · exact ptr_eq_zero_of_no_indirect (by omega) rfl
  · exact ptr_eq_zero_of_ge hge

theorem Released.finish (hc : Consistent sb s.blk) (hl : Loaded sb s ip)
    (h : Released sb ip (Finset.range (NDIRECT+1+NINDIRECT)) s t)
    (ht : t.itable = Function.update s.itable ip {s.itable ip with d := hollow (s.itable ip).d}) :
    Truncated sb ip s (flush sb t ip) ∧ Elsewhere sb (s.itable ip).inum s (flush sb t ip) := by
  have hs := hl.serving hc
  have htip : t.itable ip = {s.itable ip with d := hollow (s.itable ip).d} := by
    rw [ht,Function.update_self]
  have hinum : (t.itable ip).inum = (s.itable ip).inum := by rw [htip]
  have hlivei : live sb t ip (s.itable ip).inum = hollow (s.itable ip).d := by
    rw [← hinum,live_self,htip]
  have hlive : ∀ j < sb.ninodes, j ≠ (s.itable ip).inum →
      live sb t ip j = dinodeOf sb s.blk j := by
    intro j hj hne
    rw [live_of_ne (by rwa [hinum]),h.dinodes hj]
  have hinlt : (t.itable ip).inum < sb.ninodes := by rw [hinum]; exact hl.inum_lt
  have hsame : ∀ p b, owner sb s.blk (dinodeOf sb s.blk) p = some b →
      (flush sb t ip).blk b = s.blk b := by
    intro p b hp
    have hdata := hc.own.data (i := p.1) (k := p.2) hp
    have hlt := IBLOCK_lt_nmeta hinlt
    rw [flush_blk (by omega),h.data hdata.1]
  have hown : ∀ p, owner sb (flush sb t ip).blk (live sb t ip) p =
      ownOff sb s.blk (live sb s ip) (s.itable ip).inum
        (Finset.range (NDIRECT+1+NINDIRECT)) p := by
    rintro ⟨j,k⟩
    by_cases hj : j = (s.itable ip).inum
    · subst hj
      have hnone : owner sb s.blk (live sb s ip) ((s.itable ip).inum,k) = none ∨
          k < NDIRECT+1+NINDIRECT := by
        by_cases hk : k < NDIRECT+1+NINDIRECT
        · exact .inr hk
        · left
          simp [owner,ptr_eq_zero_of_ge (not_lt.mp hk)]
      rw [owner,hlivei,ptr_hollow]
      rcases hnone with hnone | hk
      · simp [ownOff,hnone]
      · simp [ownOff,hk]
    · rw [ownOff,if_neg fun hh => hj hh.1]
      by_cases hlt : j < sb.ninodes
      · have hframe := congrFun (owner_frame hsame) (j,k)
        rw [hl.live_eq,← hframe]
        simp only [owner,hlive j hlt hj]
      · simp [owner,hlt]
  refine ⟨?_,fun p hp => by
    rw [named,flush_dinodes,hown,ownOff,if_neg fun hh => hp hh.1,hl.live_eq,named]⟩
  exact {
    consistent := {
      own := by
        rw [flush_dinodes]
        refine h.exact.congr ?_ hown
        intro b
        rw [flush_bit hinlt]
      sized := by
        intro j hj
        rw [flush_dinodes]
        by_cases hji : j = (s.itable ip).inum
        · subst hji
          rw [hlivei]
          intro _
          exact ⟨Nat.zero_le _,fun bn hbn => absurd hbn (Nat.not_lt_zero _)⟩
        · rw [hlive j hj hji]
          intro hty
          have hold := hc.sized j hj hty
          refine ⟨hold.size_le,?_⟩
          intro bn hbn
          rw [ptr_frame hj hty fun _ _ hp => hsame _ _ hp]
          exact hold.mapped bn hbn }
    loaded := {
      inum_lt := hinlt
      same := by rw [flush_dinodes,flush_itable,live_self]
      typed := by
        rw [flush_itable,htip]
        exact hl.typed }
    slot := ht
    dinodes := by
      intro j hj hne
      rw [flush_dinodes,hlive j hj hne]
    content_ne := by
      intro j hj hty hne
      exact content_frame hj hty fun _ _ hp => hsame _ _ hp
    disk_eq := h.disk_eq
    outstanding_eq := h.outstanding_eq }

/-- `itrunc` frees the blocks of the inode and no others; the free bits it clears are all set. -/
theorem wp_itrunc_named (hE : ∀ e, LogFull e → E e) (hc : Consistent sb s.blk)
    (hl : Loaded sb s ip) :
    wp (itrunc sb ip) (fun _ u => Truncated sb ip s u ∧
      Elsewhere sb (s.itable ip).inum s u) E s := by
  have hs := hl.serving hc
  have hdirect : wp (forUp (itruncDirect sb ip) 0 NDIRECT) (fun _ t =>
      Released sb ip (Finset.range (0+NDIRECT)) s t ∧
        t.itable = withAddrs s ip (zeroBelow (0+NDIRECT) (s.itable ip).d.addrs)) E s := by
    refine wp_forUp (fun i t => Released sb ip (Finset.range i) s t ∧
      t.itable = withAddrs s ip (zeroBelow i (s.itable ip).d.addrs)) ?_ ⟨.refl hs,?_⟩
    · rintro i t - hi ⟨hrel,htab⟩
      exact wp_itruncDirect hE hs (by omega) hrel htab
    · have hnone : zeroBelow 0 (s.itable ip).d.addrs = (s.itable ip).d.addrs := rfl
      rw [withAddrs,hnone,Function.update_eq_self]
  rw [itrunc,wp_bind]
  refine wp_conseq hdirect ?_
  rintro - t ⟨hrel,htab⟩
  rw [Nat.zero_add] at hrel htab
  have hread : (t.itable ip).d.addrs indirect = (s.itable ip).d.addrs indirect := by
    rw [htab,withAddrs_self]
    change (if NDIRECT < NDIRECT then 0 else (s.itable ip).d.addrs indirect) = _
    exact if_neg (lt_irrefl NDIRECT)
  have hzero : Function.update (zeroBelow NDIRECT (s.itable ip).d.addrs) indirect 0 =
      fun _ => 0 := by
    have hsucc : zeroBelow (NDIRECT+1) (s.itable ip).d.addrs =
        Function.update (zeroBelow NDIRECT (s.itable ip).d.addrs) indirect 0 :=
      zeroBelow_succ _ indirect
    rw [← hsucc]
    funext k
    exact if_pos k.isLt
  have hend : ∀ u, Released sb ip (Finset.range (NDIRECT+1+NINDIRECT)) s u →
      u.itable = withAddrs s ip (fun _ => 0) →
      wp (do
        assignDisk ip fun d => {d with size := 0}
        iupdate sb ip) (fun _ u => Truncated sb ip s u ∧
          Elsewhere sb (s.itable ip).inum s u) E u := by
    intro u hu hutab
    rw [wp_bind]
    apply wp_iupdate hE
    refine Released.finish hc hl ?_ ?_
    · exact hu.of_eq rfl rfl rfl rfl
    · change Function.update u.itable ip _ = _
      rw [hutab,withAddrs_self,withAddrs,Function.update_idem]
      rfl
  rw [wp_bind,wp_get,wp_bind,wp_when,hread]
  have hptr : ptr s.blk (s.itable ip).d NDIRECT = ((s.itable ip).d.addrs indirect).toNat :=
    ptr_indirect
  constructor
  · intro hne
    have hind : (s.itable ip).d.addrs indirect ≠ 0 := fun h => hne (by rw [h]; rfl)
    have hiown := hs.owner_slot (by rwa [hptr] : ptr s.blk (s.itable ip).d NDIRECT ≠ 0)
    rw [hptr] at hiown
    rw [wp_bind,bread,wp_bind,wp_get,wp_pure,wp_bind]
    refine wp_conseq (wp_itruncEntries hE hs hind hrel (hrel.data (hs.own.data hiown).1)) ?_
    rintro - u ⟨hrel',htab'⟩
    have hnot : NDIRECT ∉ (Finset.range (NDIRECT+1+NINDIRECT)).erase NDIRECT :=
      Finset.notMem_erase _ _
    rw [wp_bind]
    apply wp_bfree hE
    · have hused := hrel'.exact.used_of_own (ownOff_of_notMem hs hnot (by rwa [hptr]))
      rw [hptr] at hused
      exact hused.2
    · have hfree := hrel'.free hs hnot (by rwa [hptr])
      rw [Finset.insert_erase (Finset.mem_range.mpr (by omega)),hptr] at hfree
      apply wp_setAddr_zero (t := released sb u _) (htab'.trans htab)
      intro v hv hblk hlh hdisk hout
      exact hend v (hfree.of_eq hblk hlh hdisk hout) (by rw [hv,hzero])
  · intro h0
    rw [not_not] at h0
    have hind : (s.itable ip).d.addrs indirect = 0 := UInt32.toNat_inj.mp h0
    apply hend t
    · have hall : ∀ n, Released sb ip (Finset.range (NDIRECT+n)) s t := by
        intro n
        induction n with
        | zero => exact hrel
        | succ n ih =>
          rw [← Nat.add_assoc,Finset.range_add_one]
          apply ih.skip
          cases n with
          | zero => rw [Nat.add_zero,hptr,h0]
          | succ n => exact ptr_eq_zero_of_no_indirect (by omega) hind
      have hh := hall (1+NINDIRECT)
      rwa [← Nat.add_assoc] at hh
    · rw [htab,← hzero,← hind,← hread,htab,withAddrs_self,Function.update_eq_self]

end Itrunc
end Fs
end Xv6
