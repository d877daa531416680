import Xv6.Bmap

/-! The loop of `writei`: what one round does to the blocks, the pointers and the content of every
inode, and the ways in which the loop ends. -/
namespace Xv6
namespace Fs

open Bytes Command Ownership

structure Sized (blk : ℕ → Block) (d : Dinode) : Prop where
  size_le : d.size.toNat ≤ MAXFILE*BSIZE
  mapped : ∀ bn, bn*BSIZE < d.size.toNat → ptr blk d (slotOf bn) ≠ 0

theorem Sized.ptr_ne_zero {blk : ℕ → Block} {d : Dinode} (h : Sized blk d) {p : ℕ}
    (hp : p < d.size.toNat) : ptr blk d (slotOf (p/BSIZE)) ≠ 0 :=
  h.mapped _ (lt_of_le_of_lt (Nat.div_mul_le_self p BSIZE) hp)

theorem div_lt_MAXFILE {p : ℕ} (hp : p < MAXFILE*BSIZE) : p/BSIZE < MAXFILE :=
  Nat.div_lt_of_lt_mul (by rwa [Nat.mul_comm])

section StoreData

variable {sb : Geometry} {s : Fs} {ip bn : ℕ} {blk' : ℕ → Block} {data : Block}

theorem Serving.owner_slot (hs : Serving sb s ip) {k : ℕ} (ha : ptr s.blk (s.itable ip).d k ≠ 0) :
    owner sb s.blk (live sb s ip) ((s.itable ip).inum,k) = some (ptr s.blk (s.itable ip).d k) :=
  owner_eq_some.mpr ⟨hs.inum_lt,hs.typed_live,ha,by rw [live_self]⟩

variable (hs : Serving sb s ip) (ha : ptr s.blk (s.itable ip).d (slotOf bn) ≠ 0)
  (hblk : blk' = Function.update s.blk (ptr s.blk (s.itable ip).d (slotOf bn)) data)

include hs ha hblk

theorem Serving.store_data_same {q : ℕ × ℕ} {c : ℕ} (hq : q ≠ ((s.itable ip).inum,slotOf bn))
    (hc : owner sb s.blk (live sb s ip) q = some c) : blk' c = s.blk c := by
  rw [hblk,Function.update_of_ne]
  rintro rfl
  exact hq (hs.own.unique hc (hs.owner_slot ha))

theorem Serving.store_data_meta {c : ℕ} (hc : c < nmeta sb) : blk' c = s.blk c := by
  have hdata := hs.own.data (hs.owner_slot ha)
  rw [hblk,Function.update_of_ne (by omega)]

/-- The pointers of all inodes stay: the block written is no indirect block. -/
theorem Serving.store_data_ptr {j : ℕ} (hj : j < sb.ninodes) (ht : (live sb s ip j).type ≠ 0)
    (k : ℕ) : ptr blk' (live sb s ip j) k = ptr s.blk (live sb s ip j) k := by
  apply ptr_congr
  intro hind
  apply hs.store_data_same ha hblk (q := (j,NDIRECT)) _ (owner_indirect hj ht hind)
  intro h
  exact slotOf_ne_indirect bn (Prod.mk.inj h).2.symm

theorem Serving.store_data_ptr_self (k : ℕ) :
    ptr blk' (s.itable ip).d k = ptr s.blk (s.itable ip).d k := by
  have h := hs.store_data_ptr ha hblk hs.inum_lt hs.typed_live k
  rwa [live_self] at h

theorem Serving.store_data_own : Own sb blk' (live sb s ip) := by
  refine Exact.congr hs.own ?_ ?_
  · intro b
    apply and_congr_right
    intro hb
    rw [bitOf_congr (hs.store_data_meta ha hblk (BBLOCK_lt_nmeta hb))]
  · rintro ⟨j,k⟩
    by_cases hj : j < sb.ninodes ∧ (live sb s ip j).type ≠ 0
    · simp only [owner,hs.store_data_ptr ha hblk hj.1 hj.2 k]
    · have hno : ∀ blk, ¬ (j < sb.ninodes ∧ (live sb s ip j).type ≠ 0 ∧
          ptr blk (live sb s ip j) k ≠ 0) := fun _ h => hj ⟨h.1,h.2.1⟩
      simp only [owner,if_neg (hno _)]

theorem Serving.store_data_content_ne {j : ℕ} (hj : j < sb.ninodes)
    (ht : (live sb s ip j).type ≠ 0) (hne : j ≠ (s.itable ip).inum) :
    content blk' (live sb s ip j) = content s.blk (live sb s ip j) := by
  apply content_frame hj ht
  intro k c hc
  exact hs.store_data_same ha hblk (fun h => hne (Prod.mk.inj h).1) hc

theorem Serving.store_data_content {o m : ℕ} {src : Mem} (hom : o+m ≤ BSIZE)
    (hdata : data = blit (s.blk (ptr s.blk (s.itable ip).d (slotOf bn))) o m src) :
    content blk' (s.itable ip).d =
      blit (content s.blk (s.itable ip).d) (bn*BSIZE+o) m src := by
  have hB : 0 < BSIZE := by decide
  funext p
  have hdm := Nat.div_add_mod' p BSIZE
  have hmod := Nat.mod_lt p hB
  unfold content
  rw [hs.store_data_ptr_self ha hblk]
  by_cases hbn : p/BSIZE = bn
  · rw [hbn] at hdm ⊢
    rw [if_neg ha,hblk,Function.update_self,hdata]
    by_cases hin : o ≤ p%BSIZE ∧ p%BSIZE < o+m
    · rw [blit_inside hin.1 hin.2,blit_inside (by omega) (by omega)]
      congr 1
      omega
    · rw [blit_outside (by omega),blit_outside (by omega),hbn,if_neg ha]
  · have hout : p < bn*BSIZE+o ∨ bn*BSIZE+o+m ≤ p := by
      rcases lt_or_gt_of_ne hbn with hlt | hgt
      · have hle : (p/BSIZE+1)*BSIZE ≤ bn*BSIZE := Nat.mul_le_mul_right _ hlt
        rw [Nat.add_mul,Nat.one_mul] at hle
        omega
      · have hle : (bn+1)*BSIZE ≤ p/BSIZE*BSIZE := Nat.mul_le_mul_right _ hgt
        rw [Nat.add_mul,Nat.one_mul] at hle
        omega
    rw [blit_outside hout]
    by_cases h0 : ptr s.blk (s.itable ip).d (slotOf (p/BSIZE)) = 0
    · simp [h0]
    · simp only [if_neg h0]
      rw [hs.store_data_same ha hblk _ (hs.owner_slot h0)]
      intro h
      exact hbn (slotOf_inj (Prod.mk.inj h).2)

end StoreData

/-- From `s`, `tot` bytes have been written at `off` through `ip`. -/
structure Written (sb : Geometry) (ip : ℕ) (src : Mem) (off tot : ℕ) (s t : Fs) : Prop where
  serving : Serving sb t ip
  slot : ∃ a, t.itable = Function.update s.itable ip
    {s.itable ip with d := {(s.itable ip).d with addrs := a}}
  dinodes : ∀ j < sb.ninodes, dinodeOf sb t.blk j = dinodeOf sb s.blk j
  keep : ∀ j < sb.ninodes, (live sb s ip j).type ≠ 0 → ∀ k, ptr s.blk (live sb s ip j) k ≠ 0 →
    ptr t.blk (live sb t ip j) k = ptr s.blk (live sb s ip j) k
  mapped : ∀ p, off ≤ p → p < off+tot → ptr t.blk (t.itable ip).d (slotOf (p/BSIZE)) ≠ 0
  content_self : content t.blk (t.itable ip).d =
    blit (content s.blk (s.itable ip).d) off tot src
  content_ne : ∀ j < sb.ninodes, (live sb s ip j).type ≠ 0 → j ≠ (s.itable ip).inum →
    content t.blk (live sb t ip j) = content s.blk (live sb s ip j)
  bits : ∀ b < sb.size, bitOf sb s.blk b = true → bitOf sb t.blk b = true
  balance : (freeBlocks sb t.blk).card+(mappedSlots t.blk (t.itable ip).d).card =
    (freeBlocks sb s.blk).card+(mappedSlots s.blk (s.itable ip).d).card
  fills : FillsOnly ip (fun k => ∃ bn, off/BSIZE ≤ bn ∧ bn ≤ (off+tot)/BSIZE ∧ Through bn k) s t
  lh_mono : ∀ b ∈ s.lh, b ∈ t.lh
  fresh : ∀ k, ptr s.blk (s.itable ip).d k = 0 → ptr t.blk (t.itable ip).d k ≠ 0 →
    ptr t.blk (t.itable ip).d k ∈ t.lh
  lh_new : ∀ b ∈ t.lh, b ∈ s.lh ∨ b < nmeta sb ∨ (b < sb.size ∧ bitOf sb s.blk b = false) ∨
    b = ptr t.blk (t.itable ip).d NDIRECT ∨
    ∃ p, off ≤ p ∧ p < off+tot ∧ b = ptr t.blk (t.itable ip).d (slotOf (p/BSIZE))
  disk_eq : t.disk = s.disk
  outstanding_eq : t.outstanding = s.outstanding

namespace Written

variable {sb : Geometry} {ip : ℕ} {src : Mem} {off tot : ℕ} {s t u : Fs}

theorem refl (h : Serving sb s ip) : Written sb ip src off 0 s s where
  serving := h
  slot := ⟨(s.itable ip).d.addrs,by simp⟩
  dinodes _ _ := rfl
  keep _ _ _ _ _ := rfl
  mapped p hl hr := by omega
  content_self := by simp
  content_ne _ _ _ _ := rfl
  bits _ _ h := h
  balance := rfl
  fills _ h h' := absurd h h'
  lh_mono _ h := h
  fresh _ h h' := absurd h h'
  lh_new _ h := .inl h
  disk_eq := rfl
  outstanding_eq := rfl

theorem itable_self (h : Written sb ip src off tot s t) : ∃ a, t.itable ip =
    {s.itable ip with d := {(s.itable ip).d with addrs := a}} := by
  obtain ⟨a,ha⟩ := h.slot
  exact ⟨a,by rw [ha,Function.update_self]⟩

theorem inum_eq (h : Written sb ip src off tot s t) :
    (t.itable ip).inum = (s.itable ip).inum := by
  obtain ⟨a,ha⟩ := h.itable_self
  rw [ha]

theorem size_eq (h : Written sb ip src off tot s t) :
    (t.itable ip).d.size = (s.itable ip).d.size := by
  obtain ⟨a,ha⟩ := h.itable_self
  rw [ha]

theorem type_eq (h : Written sb ip src off tot s t) :
    (t.itable ip).d.type = (s.itable ip).d.type := by
  obtain ⟨a,ha⟩ := h.itable_self
  rw [ha]

theorem live_type (h : Written sb ip src off tot s t) {j : ℕ} (hj : j < sb.ninodes) :
    (live sb t ip j).type = (live sb s ip j).type :=
  live_type_congr h.inum_eq h.type_eq (h.dinodes j hj)

theorem keep_self (hs : Serving sb s ip) (h : Written sb ip src off tot s t) {k : ℕ}
    (hk : ptr s.blk (s.itable ip).d k ≠ 0) :
    ptr t.blk (t.itable ip).d k = ptr s.blk (s.itable ip).d k := by
  have hh := h.keep (s.itable ip).inum hs.inum_lt hs.typed_live k
  rw [live_self,← h.inum_eq,live_self] at hh
  exact hh hk

theorem keep_owner (h : Written sb ip src off tot s t) {p : ℕ × ℕ} {b : ℕ}
    (hp : owner sb s.blk (live sb s ip) p = some b) :
    owner sb t.blk (live sb t ip) p = some b := by
  obtain ⟨i,k⟩ := p
  obtain ⟨hi,ht,hb,hptr⟩ := owner_eq_some.mp hp
  refine owner_eq_some.mpr ⟨hi,by rwa [h.live_type hi],hb,?_⟩
  rw [h.keep i hi ht k (by rw [hptr]; exact hb),hptr]

theorem owner_self (h : Written sb ip src off tot s t) {k : ℕ}
    (hk : ptr t.blk (t.itable ip).d k ≠ 0) : owner sb t.blk (live sb t ip) ((s.itable ip).inum,k) =
      some (ptr t.blk (t.itable ip).d k) := by
  rw [← h.inum_eq]
  exact h.serving.owner_slot hk

theorem newSlots_free (hs : Serving sb s ip) (h : Written sb ip src off tot s t) {k : ℕ}
    (hk : k ∈ newSlots ip s t) :
    ptr t.blk (t.itable ip).d k ∈ freeBlocks sb s.blk \ freeBlocks sb t.blk := by
  obtain ⟨hne,h0⟩ := mem_newSlots.mp hk
  have hdata := h.serving.own.data (h.owner_self hne)
  have hbit := h.serving.own.bit (h.owner_self hne)
  rw [Finset.mem_sdiff,mem_freeBlocks,mem_freeBlocks]
  refine ⟨⟨hdata.2,?_⟩,fun hfree => hfree.2 ⟨hdata.2,hbit⟩⟩
  intro hused
  rcases (hs.own.used_iff _).mp hused with hmeta | ⟨q,hq⟩
  · exact absurd hdata.1 (not_le.mpr hmeta)
  · obtain rfl := h.serving.own.unique (h.keep_owner hq) (h.owner_self hne)
    obtain ⟨-,-,hb,hptr⟩ := owner_eq_some.mp hq
    rw [live_self,h0] at hptr
    exact hb hptr.symm

theorem card_taken (hs : Serving sb s ip) (h : Written sb ip src off tot s t) :
    (freeBlocks sb s.blk \ freeBlocks sb t.blk).card = (newSlots ip s t).card := by
  have hslots : mappedSlots s.blk (s.itable ip).d ⊆ mappedSlots t.blk (t.itable ip).d := by
    intro k hk
    rw [mappedSlots,Finset.mem_filter] at hk ⊢
    exact ⟨hk.1,by rw [h.keep_self hs hk.2]; exact hk.2⟩
  have hblocks : freeBlocks sb t.blk ⊆ freeBlocks sb s.blk := by
    intro c hc
    rw [mem_freeBlocks] at hc ⊢
    exact ⟨hc.1,fun hused => hc.2 ⟨hc.1,h.bits c hc.1 hused.2⟩⟩
  have hbalance := h.balance
  have hle := Finset.card_le_card hslots
  rw [newSlots,Finset.card_sdiff_of_subset hslots,Finset.card_sdiff_of_subset hblocks]
  omega

/-- A block in use that was free before is named by a new pointer of `ip`. -/
theorem used_new (hs : Serving sb s ip) (h : Written sb ip src off tot s t) {b : ℕ}
    (hb : b < sb.size) (hfree : bitOf sb s.blk b = false) (hused : bitOf sb t.blk b = true) :
    ∃ k, owner sb t.blk (live sb t ip) ((s.itable ip).inum,k) = some b := by
  have hinj : Set.InjOn (ptr t.blk (t.itable ip).d) (newSlots ip s t) := by
    intro k hk l hl heq
    have hkl := h.owner_self (mem_newSlots.mp hl).1
    rw [← heq] at hkl
    exact (Prod.mk.inj (h.serving.own.unique (h.owner_self (mem_newSlots.mp hk).1) hkl)).2
  have hsurj := Finset.surjOn_of_injOn_of_card_le (ptr t.blk (t.itable ip).d)
    (fun k hk => h.newSlots_free hs hk) hinj (h.card_taken hs).le
  have hmem : b ∈ freeBlocks sb s.blk \ freeBlocks sb t.blk := by
    rw [Finset.mem_sdiff,mem_freeBlocks,mem_freeBlocks]
    exact ⟨⟨hb,fun hh => by simp [hfree] at hh⟩,fun hh => hh.2 ⟨hb,hused⟩⟩
  obtain ⟨k,hk,rfl⟩ := hsurj hmem
  exact ⟨k,h.owner_self (mem_newSlots.mp hk).1⟩

/-- The pointers of other inodes stay as they are, those that are not set too. -/
theorem owner_ne (hs : Serving sb s ip) (h : Written sb ip src off tot s t) {p : ℕ × ℕ}
    (hp : p.1 ≠ (s.itable ip).inum) :
    owner sb t.blk (live sb t ip) p = owner sb s.blk (live sb s ip) p := by
  rcases hold : owner sb s.blk (live sb s ip) p with - | b
  · rcases hnew : owner sb t.blk (live sb t ip) p with - | c
    · rfl
    · have hdata := h.serving.own.data (i := p.1) (k := p.2) hnew
      rcases hbit : bitOf sb s.blk c with - | -
      · obtain ⟨k,hk⟩ := h.used_new hs hdata.2 hbit
          (h.serving.own.bit (i := p.1) (k := p.2) hnew)
        exact absurd (congrArg Prod.fst (h.serving.own.unique hnew hk)) hp
      · rcases (hs.own.used_iff c).mp ⟨hdata.2,hbit⟩ with hmeta | ⟨q,hq⟩
        · exact absurd hdata.1 (not_le.mpr hmeta)
        · rw [h.serving.own.unique hnew (h.keep_owner hq),hq] at hold
          cases hold
  · exact h.keep_owner hold

end Written

theorem Grown.content_self {sb : Geometry} {ip : ℕ} {s t : Fs} (hs : Serving sb s ip)
    (h : Grown sb ip s t) :
    content t.blk (t.itable ip).d = content s.blk (s.itable ip).d := by
  have hh := h.content_eq (s.itable ip).inum hs.inum_lt hs.typed_live
  rwa [live_self,← h.inum_eq,live_self] at hh

namespace Written

variable {sb : Geometry} {ip : ℕ} {src : Mem} {off tot : ℕ} {s t u : Fs}

theorem grow (h : Written sb ip src off tot s t) (g : Grown sb ip t u)
    (hfill : FillsOnly ip (Through ((off+tot)/BSIZE)) t u) : Written sb ip src off tot s u where
  serving := g.serving
  slot := by
    obtain ⟨a,ha⟩ := h.slot
    obtain ⟨a',ha'⟩ := g.slot
    exact ⟨a',by rw [ha',ha]; simp⟩
  dinodes j hj := (g.dinodes j hj).trans (h.dinodes j hj)
  keep j hj ht k hk := by
    have hstep := h.keep j hj ht k hk
    have htype : (live sb t ip j).type ≠ 0 := by rwa [h.live_type hj]
    rw [g.keep j hj htype k (by rwa [hstep]),hstep]
  mapped p hl hr := by
    have hp := h.mapped p hl hr
    rwa [g.keep_self h.serving hp]
  content_self := by rw [g.content_self h.serving,h.content_self]
  content_ne j hj ht hne := by
    have htype : (live sb t ip j).type ≠ 0 := by rwa [h.live_type hj]
    rw [g.content_eq j hj htype,h.content_ne j hj ht hne]
  bits b hb hset := g.bits b hb (h.bits b hb hset)
  balance := g.balance.trans h.balance
  fills k h0 hk := by
    by_cases hkt : ptr t.blk (t.itable ip).d k = 0
    · exact ⟨_,Nat.div_le_div_right (Nat.le_add_right _ _),le_rfl,hfill k hkt hk⟩
    · exact h.fills k h0 hkt
  lh_mono b hb := g.lh_mono b (h.lh_mono b hb)
  fresh k h0 hk := by
    by_cases hkt : ptr t.blk (t.itable ip).d k = 0
    · exact g.fresh k hkt hk
    · rw [g.keep_self h.serving hkt]
      exact g.lh_mono _ (h.fresh k h0 hkt)
  lh_new b hb := by
    rcases g.lh_new b hb with hb | hb | hb | hb
    · rcases h.lh_new b hb with hb | hb | hb | hb | ⟨p,hl,hr,hb⟩
      · exact .inl hb
      · exact .inr (.inl hb)
      · exact .inr (.inr (.inl hb))
      · by_cases h0 : ptr t.blk (t.itable ip).d NDIRECT = 0
        · exact .inr (.inl (by rw [hb,h0]; exact nmeta_pos sb))
        · exact .inr (.inr (.inr (.inl (by rw [hb,g.keep_self h.serving h0]))))
      · exact .inr (.inr (.inr (.inr ⟨p,hl,hr,by
          rw [hb,g.keep_self h.serving (h.mapped p hl hr)]⟩)))
    · exact .inr (.inl hb)
    · refine .inr (.inr (.inl ⟨hb.1,?_⟩))
      by_contra hne
      have hset := h.bits b hb.1 (by simpa using hne)
      simp [hb.2] at hset
    · exact .inr (.inr (.inr (.inl hb)))
  disk_eq := g.disk_eq.trans h.disk_eq
  outstanding_eq := g.outstanding_eq.trans h.outstanding_eq

/-- One more piece of a block, whether its buffer is then logged or not. -/
theorem write (h : Written sb ip src off tot s t) {m : ℕ}
    (ha : ptr t.blk (t.itable ip).d (slotOf ((off+tot)/BSIZE)) ≠ 0)
    (hom : (off+tot)%BSIZE+m ≤ BSIZE)
    (hblk : u.blk = Function.update t.blk (ptr t.blk (t.itable ip).d (slotOf ((off+tot)/BSIZE)))
      (blit (t.blk (ptr t.blk (t.itable ip).d (slotOf ((off+tot)/BSIZE)))) ((off+tot)%BSIZE) m
        fun i => src (tot+i)))
    (htab : u.itable = t.itable) (hlh : ∀ b ∈ t.lh, b ∈ u.lh)
    (hlh' : m = 0 ∧ u.lh = t.lh ∨ 0 < m ∧ ∀ b ∈ u.lh, b ∈ t.lh ∨
      b = ptr t.blk (t.itable ip).d (slotOf ((off+tot)/BSIZE)))
    (hdisk : u.disk = t.disk) (hout : u.outstanding = t.outstanding) :
    Written sb ip src off (tot+m) s u := by
  have hdin : ∀ j < sb.ninodes, dinodeOf sb u.blk j = dinodeOf sb t.blk j := by
    intro j hj
    exact dinodeOf_congr (h.serving.store_data_meta ha hblk (IBLOCK_lt_nmeta hj))
  have hlive : ∀ j < sb.ninodes, live sb u ip j = live sb t ip j := by
    intro j hj
    by_cases hji : j = (t.itable ip).inum
    · subst hji
      simp [live,htab]
    · exact live_congr_of_ne (by rw [htab]) (hdin j hj) hji
  have hdm := Nat.div_add_mod' (off+tot) BSIZE
  have hself := fun k => h.serving.store_data_ptr_self ha hblk k
  exact {
    serving := {
      inum_lt := by rw [htab]; exact h.serving.inum_lt
      typed := by rw [htab]; exact h.serving.typed
      own := (h.serving.store_data_own ha hblk).congr_inodes hlive }
    slot := by rw [htab]; exact h.slot
    dinodes := fun j hj => (hdin j hj).trans (h.dinodes j hj)
    keep := by
      intro j hj ht k hk
      have htype : (live sb t ip j).type ≠ 0 := by rwa [h.live_type hj]
      rw [hlive j hj,h.serving.store_data_ptr ha hblk hj htype k,h.keep j hj ht k hk]
    mapped := by
      intro p hl hr
      rw [htab,hself]
      by_cases hp : p < off+tot
      · exact h.mapped p hl hp
      · have hbn : p/BSIZE = (off+tot)/BSIZE := by
          unfold BSIZE at *
          omega
        rwa [hbn]
    content_self := by
      rw [htab,h.serving.store_data_content ha hblk hom rfl,hdm,h.content_self,blit_append]
    content_ne := by
      intro j hj ht hne
      have htype : (live sb t ip j).type ≠ 0 := by rwa [h.live_type hj]
      rw [hlive j hj,h.serving.store_data_content_ne ha hblk hj htype (by rwa [h.inum_eq]),
        h.content_ne j hj ht hne]
    bits := by
      intro b hb hset
      rw [bitOf_congr (h.serving.store_data_meta ha hblk (BBLOCK_lt_nmeta hb))]
      exact h.bits b hb hset
    balance := by
      have hfree : freeBlocks sb u.blk = freeBlocks sb t.blk := by
        apply Finset.filter_congr
        intro b hb
        rw [bitOf_congr (h.serving.store_data_meta ha hblk
          (BBLOCK_lt_nmeta (Finset.mem_range.mp hb)))]
      have hmap : mappedSlots u.blk (u.itable ip).d = mappedSlots t.blk (t.itable ip).d := by
        simp only [mappedSlots,htab,hself]
      rw [hfree,hmap,h.balance]
    fills := by
      intro k h0 hk
      rw [htab,hself] at hk
      obtain ⟨bn,hl,hr,hthrough⟩ := h.fills k h0 hk
      exact ⟨bn,hl,hr.trans (Nat.div_le_div_right (by omega)),hthrough⟩
    lh_mono := fun b hb => hlh b (h.lh_mono b hb)
    fresh := by
      intro k h0 hk
      rw [htab,hself] at hk ⊢
      exact hlh _ (h.fresh k h0 hk)
    lh_new := by
      have hold : ∀ b ∈ t.lh, b ∈ s.lh ∨ b < nmeta sb ∨
          (b < sb.size ∧ bitOf sb s.blk b = false) ∨ b = ptr u.blk (u.itable ip).d NDIRECT ∨
          ∃ p, off ≤ p ∧ p < off+(tot+m) ∧ b = ptr u.blk (u.itable ip).d (slotOf (p/BSIZE)) := by
        intro b hb
        rw [htab]
        simp only [hself]
        rcases h.lh_new b hb with hb | hb | hb | hb | ⟨p,hl,hr,hb⟩
        · exact .inl hb
        · exact .inr (.inl hb)
        · exact .inr (.inr (.inl hb))
        · exact .inr (.inr (.inr (.inl hb)))
        · exact .inr (.inr (.inr (.inr ⟨p,hl,by omega,hb⟩)))
      intro b hb
      rcases hlh' with ⟨-,heq⟩ | ⟨hm,hnew⟩
      · exact hold b (by rwa [heq] at hb)
      · rcases hnew b hb with hb | rfl
        · exact hold b hb
        · exact .inr (.inr (.inr (.inr ⟨off+tot,by omega,by omega,by rw [htab,hself]⟩)))
    disk_eq := hdisk.trans h.disk_eq
    outstanding_eq := hout.trans h.outstanding_eq }

end Written

def Logs (s t : Fs) : Prop := ∀ b, t.blk b = s.blk b ∨ b ∈ t.lh

theorem Logs.trans {s t u : Fs} (h : Logs s t) (h' : Logs t u) (hmono : ∀ b ∈ t.lh, b ∈ u.lh) :
    Logs s u := by
  intro b
  rcases h' b with hb | hb
  · rcases h b with hb' | hb'
    · exact .inl (hb.trans hb')
    · exact .inr (hmono b hb')
  · exact .inr hb

theorem Logs.logged (s : Fs) (b : ℕ) (data : Block) : Logs s (s.logged b data) := by
  intro c
  by_cases hc : c = b
  · exact .inr (mem_recordBlock.mpr (.inr hc))
  · exact .inl (by simp [hc])

/-- Outside what an earlier transaction has logged, a write leaves the pointers of all other
inodes. -/
theorem Written.ptr_other {sb : Geometry} {ip : ℕ} {src : Mem} {off tot : ℕ} {s t : Fs}
    (hs : Serving sb s ip) (hlh : s.lh = []) (h : Written sb ip src off tot s t) (hl : Logs s t)
    {j : ℕ} (hj : j < sb.ninodes) (ht : (live sb s ip j).type ≠ 0) (hne : j ≠ (s.itable ip).inum)
    (k : ℕ) : ptr t.blk (live sb s ip j) k = ptr s.blk (live sb s ip j) k := by
  apply ptr_congr
  intro hind
  have hlive : live sb t ip j = live sb s ip j :=
    live_congr_of_ne h.inum_eq (h.dinodes j hj) hne
  have hown : owner sb s.blk (live sb s ip) (j,NDIRECT) = _ := owner_indirect hj ht hind
  have hown' : owner sb t.blk (live sb t ip) (j,NDIRECT) = _ :=
    owner_indirect hj (by rwa [hlive]) (by rwa [hlive])
  rw [hlive] at hown'
  have hself : ∀ k, ((live sb s ip j).addrs indirect).toNat ≠ ptr t.blk (t.itable ip).d k := by
    intro k hk
    have hk0 : ptr t.blk (t.itable ip).d k ≠ 0 := by
      rw [← hk]
      exact fun h0 => hind (UInt32.toNat_inj.mp h0)
    rw [hk] at hown'
    have hpair := h.serving.own.unique hown' (h.serving.owner_slot hk0)
    exact hne ((Prod.mk.inj hpair).1.trans h.inum_eq)
  rcases hl ((live sb s ip j).addrs indirect).toNat with heq | hmem
  · exact heq
  · exfalso
    have hdata := hs.own.data hown
    have hbit := hs.own.bit hown
    rcases h.lh_new _ hmem with hb | hb | hb | hb | ⟨p,-,-,hb⟩
    · simp [hlh] at hb
    · omega
    · simp [hbit] at hb
    · exact hself _ hb
    · exact hself _ hb

def piece (n off tot : ℕ) : ℕ := min (n-tot) (BSIZE-(off+tot)%BSIZE)

section Writei

variable {sb : Geometry} {E : FsPanic → Prop} {s : Fs} {pagetable : ℕ} {mem : Mem} {ip : ℕ}
  {userSrc : Bool} {src off n : ℕ}

def srcBytes (mem : Mem) (pagetable : ℕ) (userSrc : Bool) (src : ℕ) : Mem := fun i =>
  Vm.loadByte mem pagetable userSrc (src+i)

/-- How many bytes of the piece after the first `r` can be loaded. -/
def stored (mem : Mem) (pagetable : ℕ) (userSrc : Bool) (src n off r : ℕ) : ℕ :=
  Vm.loadable mem pagetable userSrc (src+r) (piece n off r)

/-- After `r` bytes a copy has failed: the bytes before the bad address are in the buffer, which
has not been logged. -/
structure Fault (mem : Mem) (pagetable ip : ℕ) (userSrc : Bool) (src off n r : ℕ) (t u : Fs) :
    Prop where
  lt : r < n
  aligned : r = 0 ∨ (off+r)%BSIZE = 0
  short : stored mem pagetable userSrc src n off r < piece n off r
  ptr_ne : ptr t.blk (t.itable ip).d (slotOf ((off+r)/BSIZE)) ≠ 0
  eq : u = t.store (ptr t.blk (t.itable ip).d (slotOf ((off+r)/BSIZE)))
    (blit (t.blk (ptr t.blk (t.itable ip).d (slotOf ((off+r)/BSIZE)))) ((off+r)%BSIZE)
      (stored mem pagetable userSrc src n off r)
      fun i => srcBytes mem pagetable userSrc src (r+i))

/-- The loop ends after all bytes, on a full disk, or on a copy that failed. -/
theorem wp_writeiLoop (hE : ∀ e, LogFull e → E e) (hmax : off+n ≤ MAXFILE*BSIZE) {fuel tot : ℕ}
    (hfuel : n-tot ≤ fuel) (htot : tot ≤ n)
    (halign : tot = 0 ∨ (off+tot)%BSIZE = 0 ∨ tot = n) {t : Fs}
    (hw : Written sb ip (srcBytes mem pagetable userSrc src) off tot s t) (hl : Logs s t)
    (hload : ∀ i < tot, Vm.canLoad mem pagetable userSrc (src+i)) :
    wp (writeiLoop sb pagetable mem ip userSrc n fuel (src+tot) (off+tot) tot)
      (fun r u => r ≤ n ∧ (∀ i < r, Vm.canLoad mem pagetable userSrc (src+i)) ∧
        ∃ t, Written sb ip (srcBytes mem pagetable userSrc src) off r s t ∧
        Logs s t ∧ (u = t ∧ (r = n ∨ (r = 0 ∨ (off+r)%BSIZE = 0) ∧ Full sb t ∧
            ptr t.blk (t.itable ip).d (slotOf ((off+r)/BSIZE)) = 0) ∨
          Fault mem pagetable ip userSrc src off n r t u)) E t := by
  induction fuel generalizing tot t with
  | zero =>
    rw [writeiLoop,wp_pure]
    exact ⟨htot,hload,t,hw,hl,.inl ⟨rfl,.inl (by omega)⟩⟩
  | succ fuel ih =>
    rw [writeiLoop]
    by_cases hlt : tot < n
    case neg =>
      rw [if_neg hlt,wp_pure]
      exact ⟨htot,hload,t,hw,hl,.inl ⟨rfl,.inl (by omega)⟩⟩
    rw [if_pos hlt,wp_bind]
    refine wp_conseq (wp_bmap hE hw.serving (div_lt_MAXFILE (by omega))) ?_
    rintro addr v ⟨hgrown,haddr,hfull,hfill⟩
    have hwv := hw.grow hgrown hfill
    have hlv := hl.trans hgrown.changed hgrown.lh_mono
    by_cases h0 : addr = 0
    · rw [if_pos h0,wp_pure]
      exact ⟨htot,hload,v,hwv,hlv,.inl ⟨rfl,.inr ⟨by omega,hfull h0,by rw [← haddr,h0]⟩⟩⟩
    rw [if_neg h0,wp_bind,bread,wp_bind,wp_get,wp_pure]
    have ha : ptr v.blk (v.itable ip).d (slotOf ((off+tot)/BSIZE)) ≠ 0 := by rwa [← haddr]
    have hmod : (off+tot)%BSIZE < BSIZE := Nat.mod_lt _ (by decide)
    have hpiece : min (n-tot) (BSIZE-(off+tot)%BSIZE) = piece n off tot := rfl
    have hpos : 0 < piece n off tot := by
      unfold piece
      omega
    have hbytes : (fun i => Vm.loadByte mem pagetable userSrc (src+tot+i)) =
        fun i => srcBytes mem pagetable userSrc src (tot+i) := by
      funext i
      rw [srcBytes,Nat.add_assoc]
    simp only [Vm.eitherCopyin_eq,hpiece,hbytes,decide_eq_false_iff_not]
    by_cases hcopy : Vm.loadable mem pagetable userSrc (src+tot) (piece n off tot) =
        piece n off tot
    · rw [if_neg (not_not.mpr hcopy),wp_bind]
      apply wp_logWrite hE
      have hstep : Written sb ip (srcBytes mem pagetable userSrc src) off
          (tot+piece n off tot) s (v.logged addr (blit (v.blk addr) ((off+tot)%BSIZE)
            (piece n off tot) fun i => srcBytes mem pagetable userSrc src (tot+i))) := by
        refine hwv.write ha ?_ ?_ rfl ?_ (.inr ⟨hpos,?_⟩) rfl rfl
        · unfold piece
          omega
        · rw [haddr]
          rfl
        · exact fun b hb => mem_recordBlock.mpr (.inl hb)
        · intro b hb
          rw [← haddr]
          exact mem_recordBlock.mp hb
      have hlog : Logs s (v.logged addr (blit (v.blk addr) ((off+tot)%BSIZE)
          (piece n off tot) fun i => srcBytes mem pagetable userSrc src (tot+i))) :=
        hlv.trans (.logged _ _ _) fun b hb => mem_recordBlock.mpr (.inl hb)
      rw [hcopy,Nat.add_assoc src,Nat.add_assoc off]
      have hload' : ∀ i < tot+piece n off tot, Vm.canLoad mem pagetable userSrc (src+i) := by
        intro i hi
        by_cases hold : i < tot
        · exact hload i hold
        · have hcan : Vm.canLoad mem pagetable userSrc (src+tot+(i-tot)) :=
            Vm.canLoad_of_lt_loadable (by rw [hcopy]; omega)
          rwa [show src+tot+(i-tot) = src+i by omega] at hcan
      refine ih (by omega) (by unfold piece; omega) (.inr ?_) hstep hlog hload'
      unfold piece BSIZE at *
      omega
    · rw [if_pos hcopy,wp_bind,wp_modify,wp_pure]
      refine ⟨htot,hload,v,hwv,hlv,.inr ⟨hlt,by omega,?_,ha,?_⟩⟩
      · exact lt_of_le_of_ne Vm.loadable_le hcopy
      · rw [haddr]
        rfl

end Writei

end Fs
end Xv6
