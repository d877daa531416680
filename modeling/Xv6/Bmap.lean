import Xv6.BlockOwner

/-! `bmap`: pointers that are zero may get fresh, zeroed blocks. Reading a hole as zeros, an
allocation changes the content of no inode. -/
namespace Xv6
namespace Fs

open Bytes Command Ownership

/-- The pointer that block `bn` of an inode goes through. -/
def slotOf (bn : ℕ) : ℕ := if bn < NDIRECT then bn else bn+1

theorem slotOf_ne_indirect (bn : ℕ) : slotOf bn ≠ NDIRECT := by
  unfold slotOf
  split <;> omega

theorem slotOf_inj {m n : ℕ} (h : slotOf m = slotOf n) : m = n := by
  unfold slotOf at h
  split at h <;> split at h <;> omega

def content (blk : ℕ → Block) (d : Dinode) (p : ℕ) : UInt8 :=
  if ptr blk d (slotOf (p/BSIZE)) = 0 then 0 else blk (ptr blk d (slotOf (p/BSIZE))) (p%BSIZE)

section Pointers

variable {blk : ℕ → Block} {d : Dinode}

theorem ptr_addr (k : Fin (NDIRECT+1)) : ptr blk d k = (d.addrs k).toNat := by
  rw [ptr,dif_pos k.isLt]

theorem ptr_entry {j : ℕ} (hj : j < NINDIRECT) (hind : d.addrs indirect ≠ 0) :
    ptr blk d (NDIRECT+1+j) = entryOf (blk (d.addrs indirect).toNat) j := by
  have hnot : ¬ NDIRECT+1+j < NDIRECT+1 := by omega
  have hin : NDIRECT+1+j < NDIRECT+1+NINDIRECT ∧ d.addrs indirect ≠ 0 := ⟨by omega,hind⟩
  rw [ptr,dif_neg hnot,if_pos hin,Nat.add_sub_cancel_left]

theorem ptr_eq_zero_of_no_indirect {k : ℕ} (hk : NDIRECT < k) (hind : d.addrs indirect = 0) :
    ptr blk d k = 0 := by
  have hnot : ¬ k < NDIRECT+1 := by omega
  rw [ptr,dif_neg hnot,if_neg (fun h => h.2 hind)]

theorem ptr_eq_zero_of_ge {k : ℕ} (hk : NDIRECT+1+NINDIRECT ≤ k) : ptr blk d k = 0 := by
  have hnot : ¬ k < NDIRECT+1 := by omega
  rw [ptr,dif_neg hnot,if_neg (fun h => by omega)]

theorem ptr_cases (k : ℕ) : (∃ a : Fin (NDIRECT+1), k = a) ∨
    (∃ j < NINDIRECT, k = NDIRECT+1+j) ∨ NDIRECT+1+NINDIRECT ≤ k := by
  rcases lt_or_ge k (NDIRECT+1) with h | h
  · exact .inl ⟨⟨k,h⟩,rfl⟩
  · rcases lt_or_ge k (NDIRECT+1+NINDIRECT) with h' | h'
    · exact .inr (.inl ⟨k-(NDIRECT+1),by omega,by omega⟩)
    · exact .inr (.inr h')

end Pointers

def withAddr (d : Dinode) (k : Fin (NDIRECT+1)) (b : ℕ) : Dinode :=
  {d with addrs := Function.update d.addrs k (UInt32.ofNat b)}

section WithAddr

variable {blk : ℕ → Block} {d : Dinode} {k : Fin (NDIRECT+1)} {b : ℕ}

theorem withAddr_addrs : (withAddr d k b).addrs = Function.update d.addrs k (UInt32.ofNat b) :=
  rfl

theorem withAddr_addrs_toNat (hb : b < 2^32) : ((withAddr d k b).addrs k).toNat = b := by
  rw [withAddr_addrs,Function.update_self,UInt32.toNat_ofNat']
  exact Nat.mod_eq_of_lt hb

theorem ptr_withAddr_self (hb : b < 2^32) : ptr blk (withAddr d k b) k = b := by
  rw [ptr_addr,withAddr_addrs_toNat hb]

/-- A fresh pointer to a zeroed block leaves every other pointer as it was. -/
theorem ptr_withAddr_ne (hd : d.addrs k = 0) (hzero : blk b = fun _ => 0) (hb : b < 2^32)
    {j : ℕ} (hj : j ≠ k) : ptr blk (withAddr d k b) j = ptr blk d j := by
  rcases ptr_cases j with ⟨a,rfl⟩ | ⟨j,hlt,rfl⟩ | hge
  · have hak : a ≠ k := fun h => hj (by rw [h])
    rw [ptr_addr,ptr_addr,withAddr_addrs,Function.update_of_ne hak]
  · by_cases hk : k = indirect
    · subst hk
      rw [ptr_eq_zero_of_no_indirect (by omega) hd]
      by_cases h0 : (withAddr d indirect b).addrs indirect = 0
      · exact ptr_eq_zero_of_no_indirect (by omega) h0
      · rw [ptr_entry hlt h0,withAddr_addrs_toNat hb,hzero]
        simp [entryOf,readLE]
    · have hsame : (withAddr d k b).addrs indirect = d.addrs indirect := by
        rw [withAddr_addrs,Function.update_of_ne (Ne.symm hk)]
      by_cases h0 : d.addrs indirect = 0
      · rw [ptr_eq_zero_of_no_indirect (by omega) h0,
          ptr_eq_zero_of_no_indirect (by omega) (hsame.trans h0)]
      · rw [ptr_entry hlt h0,ptr_entry hlt (by rwa [hsame]),hsame]
  · rw [ptr_eq_zero_of_ge hge,ptr_eq_zero_of_ge hge]

end WithAddr

section Taken

variable {sb : Geometry} {s : Fs} {f : ℕ → Dinode} {b : ℕ}

theorem Own.nmeta_le_of_free (h : Own sb s.blk f)
    (hbit : bitOf sb s.blk b = false) : nmeta sb ≤ b := by
  by_contra hlt
  have hused := h.used_of_reserved (not_le.mp hlt)
  simp [hbit] at hused

theorem taken_blk_self : (taken sb s b).blk b = fun _ => 0 := by
  simp [taken]

theorem taken_blk {c : ℕ} (hc : c ≠ b) (hbb : c ≠ BBLOCK b sb) :
    (taken sb s b).blk c = s.blk c := by
  simp [taken,hc,hbb]

theorem bitOf_taken {c : ℕ} (hb : nmeta sb ≤ b) (hc : c < sb.size) :
    bitOf sb (taken sb s b).blk c = (bitOf sb s.blk c || decide (b = c)) := by
  have hne : BBLOCK c sb ≠ b := by
    have := BBLOCK_lt_nmeta hc
    omega
  rw [← bitOf_setBit]
  apply bitOf_congr
  simp [taken,hne]

theorem dinodeOf_taken {j : ℕ} (hb : nmeta sb ≤ b) (hj : j < sb.ninodes) :
    dinodeOf sb (taken sb s b).blk j = dinodeOf sb s.blk j := by
  apply dinodeOf_congr
  have hlt := IBLOCK_lt_nmeta hj
  exact taken_blk (by omega) (IBLOCK_ne_BBLOCK hj)

theorem mem_taken_lh {c : ℕ} : c ∈ (taken sb s b).lh ↔ c ∈ s.lh ∨ c = BBLOCK b sb ∨ c = b := by
  simp only [taken,logged_lh,mem_recordBlock]
  tauto

theorem Own.taken_blk_eq (h : Own sb s.blk f) (hb : b < sb.size)
    (hbit : bitOf sb s.blk b = false) {p : ℕ × ℕ} {c : ℕ} (hp : owner sb s.blk f p = some c) :
    (taken sb s b).blk c = s.blk c := by
  have hdata := h.data (i := p.1) (k := p.2) hp
  have hused := h.bit (i := p.1) (k := p.2) hp
  have hlt := BBLOCK_lt_nmeta hb
  apply taken_blk
  · rintro rfl
    simp [hbit] at hused
  · omega

theorem Own.take (h : Own sb s.blk f) (hb : b < sb.size) (hbit : bitOf sb s.blk b = false)
    {blk' : ℕ → Block} {f' : ℕ → Dinode} {p : ℕ × ℕ}
    (hbits : ∀ c < sb.size, bitOf sb blk' c = bitOf sb (taken sb s b).blk c)
    (hp : owner sb s.blk f p = none) (hown : owner sb blk' f' p = some b)
    (ho : ∀ q, q ≠ p → owner sb blk' f' q = owner sb s.blk f q) : Own sb blk' f' := by
  have hmeta := h.nmeta_le_of_free hbit
  refine Exact.alloc h (b := b) ?_ hp ?_ hown ho
  · simp [hbit]
  · intro c
    constructor
    · rintro ⟨hc,hset⟩
      rw [hbits c hc,bitOf_taken hmeta hc,Bool.or_eq_true,decide_eq_true_eq] at hset
      rcases hset with hset | rfl
      · exact .inr ⟨hc,hset⟩
      · exact .inl rfl
    · intro hc
      have hlt : c < sb.size := by
        rcases hc with rfl | hc
        · exact hb
        · exact hc.1
      refine ⟨hlt,?_⟩
      rw [hbits c hlt,bitOf_taken hmeta hlt,Bool.or_eq_true,decide_eq_true_eq]
      rcases hc with rfl | hc
      · exact .inr rfl
      · exact .inl hc.2

end Taken

section Frame

variable {sb : Geometry} {blk blk' : ℕ → Block} {f : ℕ → Dinode} {i : ℕ}

/-- The pointers of an allocated inode are decided by the blocks it names. -/
theorem ptr_frame (hi : i < sb.ninodes) (ht : (f i).type ≠ 0)
    (hsame : ∀ k b, owner sb blk f (i,k) = some b → blk' b = blk b) (k : ℕ) :
    ptr blk' (f i) k = ptr blk (f i) k :=
  ptr_congr (fun hind => hsame _ _ (owner_indirect hi ht hind)) k

theorem content_frame (hi : i < sb.ninodes) (ht : (f i).type ≠ 0)
    (hsame : ∀ k b, owner sb blk f (i,k) = some b → blk' b = blk b) :
    content blk' (f i) = content blk (f i) := by
  funext p
  unfold content
  rw [ptr_frame hi ht hsame]
  by_cases h0 : ptr blk (f i) (slotOf (p/BSIZE)) = 0
  · simp [h0]
  · simp only [if_neg h0]
    rw [hsame _ _ (owner_eq_some.mpr ⟨hi,ht,h0,rfl⟩)]

end Frame

/-- The inodes as they are on disk once `ip` has been written back. -/
def live (sb : Geometry) (s : Fs) (ip : ℕ) : ℕ → Dinode :=
  Function.update (dinodeOf sb s.blk) (s.itable ip).inum (s.itable ip).d

/-- `ip` is the current version of an allocated inode. -/
structure Serving (sb : Geometry) (s : Fs) (ip : ℕ) : Prop where
  inum_lt : (s.itable ip).inum < sb.ninodes
  typed : (s.itable ip).d.type ≠ 0
  own : Own sb s.blk (live sb s ip)

@[simp] theorem live_self (sb : Geometry) (s : Fs) (ip : ℕ) :
    live sb s ip (s.itable ip).inum = (s.itable ip).d := by
  simp [live]

theorem live_of_ne {sb : Geometry} {s : Fs} {ip j : ℕ} (h : j ≠ (s.itable ip).inum) :
    live sb s ip j = dinodeOf sb s.blk j := by
  simp [live,h]

theorem live_congr_of_ne {sb : Geometry} {s t : Fs} {ip j : ℕ}
    (hi : (t.itable ip).inum = (s.itable ip).inum)
    (hd : dinodeOf sb t.blk j = dinodeOf sb s.blk j) (hji : j ≠ (s.itable ip).inum) :
    live sb t ip j = live sb s ip j := by
  rw [live_of_ne hji,live_of_ne (by rwa [hi]),hd]

theorem live_type_congr {sb : Geometry} {s t : Fs} {ip j : ℕ}
    (hi : (t.itable ip).inum = (s.itable ip).inum)
    (ht : (t.itable ip).d.type = (s.itable ip).d.type)
    (hd : dinodeOf sb t.blk j = dinodeOf sb s.blk j) :
    (live sb t ip j).type = (live sb s ip j).type := by
  by_cases hji : j = (s.itable ip).inum
  · rw [hji,live_self,← hi,live_self,ht]
  · rw [live_congr_of_ne hi hd hji]

def freeBlocks (sb : Geometry) (blk : ℕ → Block) : Finset ℕ :=
  (Finset.range sb.size).filter fun b => bitOf sb blk b = false

def mappedSlots (blk : ℕ → Block) (d : Dinode) : Finset ℕ :=
  (Finset.range (NDIRECT+1+NINDIRECT)).filter fun k => ptr blk d k ≠ 0

theorem mem_freeBlocks {sb : Geometry} {blk : ℕ → Block} {b : ℕ} :
    b ∈ freeBlocks sb blk ↔ b < sb.size ∧ ¬ (b < sb.size ∧ bitOf sb blk b = true) := by
  rw [freeBlocks,Finset.mem_filter,Finset.mem_range,← Bool.not_eq_true]
  tauto

def newSlots (ip : ℕ) (s u : Fs) : Finset ℕ :=
  mappedSlots u.blk (u.itable ip).d \ mappedSlots s.blk (s.itable ip).d

theorem mem_newSlots {ip j : ℕ} {s u : Fs} : j ∈ newSlots ip s u ↔
    ptr u.blk (u.itable ip).d j ≠ 0 ∧ ptr s.blk (s.itable ip).d j = 0 := by
  simp only [newSlots,mappedSlots,Finset.mem_sdiff,Finset.mem_filter,Finset.mem_range]
  constructor
  · rintro ⟨⟨hj,hu⟩,hs⟩
    exact ⟨hu,by_contra fun hne => hs ⟨hj,hne⟩⟩
  · rintro ⟨hu,hs⟩
    refine ⟨⟨?_,hu⟩,fun h => h.2 hs⟩
    by_contra hge
    exact hu (ptr_eq_zero_of_ge (not_lt.mp hge))

theorem card_balance {sb : Geometry} {blk blk' : ℕ → Block} {d d' : Dinode} {b k : ℕ}
    (hbits : ∀ c < sb.size, bitOf sb blk' c = (bitOf sb blk c || decide (b = c)))
    (hb : b < sb.size) (hbit : bitOf sb blk b = false) (hk : k < NDIRECT+1+NINDIRECT)
    (hold : ptr blk d k = 0) (hnew : ptr blk' d' k ≠ 0)
    (hrest : ∀ l, l ≠ k → ptr blk' d' l = ptr blk d l) :
    (freeBlocks sb blk').card+(mappedSlots blk' d').card =
      (freeBlocks sb blk).card+(mappedSlots blk d).card := by
  have hfree : freeBlocks sb blk' = (freeBlocks sb blk).erase b := by
    ext c
    simp only [freeBlocks,Finset.mem_filter,Finset.mem_range,Finset.mem_erase]
    constructor
    · rintro ⟨hc,hbc⟩
      rw [hbits c hc,Bool.or_eq_false_iff,decide_eq_false_iff_not] at hbc
      exact ⟨Ne.symm hbc.2,hc,hbc.1⟩
    · rintro ⟨hne,hc,hbc⟩
      refine ⟨hc,?_⟩
      rw [hbits c hc,Bool.or_eq_false_iff,decide_eq_false_iff_not]
      exact ⟨hbc,Ne.symm hne⟩
  have hmapped : mappedSlots blk' d' = insert k (mappedSlots blk d) := by
    ext l
    simp only [mappedSlots,Finset.mem_filter,Finset.mem_range,Finset.mem_insert]
    by_cases hl : l = k
    · subst hl
      simp [hk,hnew]
    · simp [hl,hrest l hl]
  have hmem : b ∈ freeBlocks sb blk := by simp [freeBlocks,hb,hbit]
  have hnot : k ∉ mappedSlots blk d := by simp [mappedSlots,hold]
  have hcard := Finset.card_erase_add_one hmem
  rw [hfree,hmapped,Finset.card_insert_of_notMem hnot]
  omega

/-- What serving `ip` may change: zero pointers of `ip` get fresh blocks. -/
structure Grown (sb : Geometry) (ip : ℕ) (s t : Fs) : Prop where
  serving : Serving sb t ip
  slot : ∃ a, t.itable = Function.update s.itable ip
    {s.itable ip with d := {(s.itable ip).d with addrs := a}}
  dinodes : ∀ j < sb.ninodes, dinodeOf sb t.blk j = dinodeOf sb s.blk j
  keep : ∀ j < sb.ninodes, (live sb s ip j).type ≠ 0 → ∀ k, ptr s.blk (live sb s ip j) k ≠ 0 →
    ptr t.blk (live sb t ip j) k = ptr s.blk (live sb s ip j) k
  content_eq : ∀ j < sb.ninodes, (live sb s ip j).type ≠ 0 →
    content t.blk (live sb t ip j) = content s.blk (live sb s ip j)
  bits : ∀ b < sb.size, bitOf sb s.blk b = true → bitOf sb t.blk b = true
  balance : (freeBlocks sb t.blk).card+(mappedSlots t.blk (t.itable ip).d).card =
    (freeBlocks sb s.blk).card+(mappedSlots s.blk (s.itable ip).d).card
  changed : ∀ b, t.blk b = s.blk b ∨ b ∈ t.lh
  lh_mono : ∀ b ∈ s.lh, b ∈ t.lh
  fresh : ∀ k, ptr s.blk (s.itable ip).d k = 0 → ptr t.blk (t.itable ip).d k ≠ 0 →
    ptr t.blk (t.itable ip).d k ∈ t.lh
  lh_new : ∀ b ∈ t.lh, b ∈ s.lh ∨ b < nmeta sb ∨ (b < sb.size ∧ bitOf sb s.blk b = false) ∨
    b = ptr t.blk (t.itable ip).d NDIRECT
  disk_eq : t.disk = s.disk
  outstanding_eq : t.outstanding = s.outstanding

namespace Grown

variable {sb : Geometry} {ip : ℕ} {s t u : Fs}

theorem refl (h : Serving sb s ip) : Grown sb ip s s where
  serving := h
  slot := ⟨(s.itable ip).d.addrs,by simp⟩
  dinodes _ _ := rfl
  keep _ _ _ _ _ := rfl
  content_eq _ _ _ := rfl
  bits _ _ h := h
  balance := rfl
  changed _ := .inl rfl
  lh_mono _ h := h
  fresh _ h h' := absurd h h'
  lh_new _ h := .inl h
  disk_eq := rfl
  outstanding_eq := rfl

theorem itable_self (h : Grown sb ip s t) : ∃ a, t.itable ip =
    {s.itable ip with d := {(s.itable ip).d with addrs := a}} := by
  obtain ⟨a,ha⟩ := h.slot
  exact ⟨a,by rw [ha,Function.update_self]⟩

theorem inum_eq (h : Grown sb ip s t) : (t.itable ip).inum = (s.itable ip).inum := by
  obtain ⟨a,ha⟩ := h.itable_self
  rw [ha]

theorem type_eq (h : Grown sb ip s t) : (t.itable ip).d.type = (s.itable ip).d.type := by
  obtain ⟨a,ha⟩ := h.itable_self
  rw [ha]

theorem live_type (h : Grown sb ip s t) {j : ℕ} (hj : j < sb.ninodes) :
    (live sb t ip j).type = (live sb s ip j).type :=
  live_type_congr h.inum_eq h.type_eq (h.dinodes j hj)

theorem keep_self (hs : Serving sb s ip) (h : Grown sb ip s t) {k : ℕ}
    (hk : ptr s.blk (s.itable ip).d k ≠ 0) :
    ptr t.blk (t.itable ip).d k = ptr s.blk (s.itable ip).d k := by
  have hh := h.keep (s.itable ip).inum hs.inum_lt (by simpa using hs.typed) k
  rw [live_self,← h.inum_eq,live_self] at hh
  exact hh hk

theorem trans (h : Grown sb ip s t) (h' : Grown sb ip t u) :
    Grown sb ip s u where
  serving := h'.serving
  slot := by
    obtain ⟨a,ha⟩ := h.slot
    obtain ⟨a',ha'⟩ := h'.slot
    exact ⟨a',by rw [ha',ha]; simp⟩
  dinodes j hj := (h'.dinodes j hj).trans (h.dinodes j hj)
  keep j hj ht k hk := by
    have hstep := h.keep j hj ht k hk
    have htype : (live sb t ip j).type ≠ 0 := by rwa [h.live_type hj]
    rw [h'.keep j hj htype k (by rwa [hstep]),hstep]
  content_eq j hj ht := by
    have htype : (live sb t ip j).type ≠ 0 := by rwa [h.live_type hj]
    rw [h'.content_eq j hj htype,h.content_eq j hj ht]
  bits b hb hset := h'.bits b hb (h.bits b hb hset)
  balance := h'.balance.trans h.balance
  changed b := by
    rcases h'.changed b with hb | hb
    · rcases h.changed b with hb' | hb'
      · exact .inl (hb.trans hb')
      · exact .inr (h'.lh_mono b hb')
    · exact .inr hb
  lh_mono b hb := h'.lh_mono b (h.lh_mono b hb)
  fresh k h0 hk := by
    by_cases hkt : ptr t.blk (t.itable ip).d k = 0
    · exact h'.fresh k hkt hk
    · rw [h'.keep_self h.serving hkt]
      exact h'.lh_mono _ (h.fresh k h0 hkt)
  lh_new b hb := by
    rcases h'.lh_new b hb with hb | hb | hb | hb
    · rcases h.lh_new b hb with hb | hb | hb | hb
      · exact .inl hb
      · exact .inr (.inl hb)
      · exact .inr (.inr (.inl hb))
      · by_cases h0 : ptr t.blk (t.itable ip).d NDIRECT = 0
        · exact .inr (.inl (by rw [hb,h0]; exact nmeta_pos sb))
        · exact .inr (.inr (.inr (by rw [hb,h'.keep_self h.serving h0])))
    · exact .inr (.inl hb)
    · refine .inr (.inr (.inl ⟨hb.1,?_⟩))
      by_contra hne
      have hset := h.bits b hb.1 (by simpa using hne)
      simp [hb.2] at hset
    · exact .inr (.inr (.inr hb))
  disk_eq := h'.disk_eq.trans h.disk_eq
  outstanding_eq := h'.outstanding_eq.trans h.outstanding_eq

end Grown

def Full (sb : Geometry) (s : Fs) : Prop := ∀ b < sb.size, bitOf sb s.blk b = true

section Bmap

variable {sb : Geometry} {E : FsPanic → Prop} {ip : ℕ} {s : Fs}

theorem Serving.typed_live (hs : Serving sb s ip) :
    (live sb s ip (s.itable ip).inum).type ≠ 0 := by
  simpa using hs.typed

theorem Serving.take_addr_ptr (hs : Serving sb s ip) {k : Fin (NDIRECT+1)} {b : ℕ}
    (hk : (s.itable ip).d.addrs k = 0) (hb : b < sb.size) (hbit : bitOf sb s.blk b = false)
    {l : ℕ} (hl : l ≠ k) : ptr (taken sb s b).blk (withAddr (s.itable ip).d k b) l =
      ptr s.blk (s.itable ip).d l := by
  have hb32 : b < 2^32 := by
    have := sb.size_lt
    omega
  have hframe := ptr_frame hs.inum_lt hs.typed_live
    (fun _ _ hp => hs.own.taken_blk_eq hb hbit hp) l
  rw [live_self] at hframe
  rw [ptr_withAddr_ne hk taken_blk_self hb32 hl,hframe]

/-- In `t` the free block `b` has become pointer `k` of `ip`. -/
structure Sets (sb : Geometry) (ip k b : ℕ) (s t : Fs) : Prop where
  lt : b < sb.size
  free : bitOf sb s.blk b = false
  unset : ptr s.blk (s.itable ip).d k = 0
  slot : ∃ a, t.itable = Function.update s.itable ip
    {s.itable ip with d := {(s.itable ip).d with addrs := a}}
  dinodes : ∀ j < sb.ninodes, dinodeOf sb t.blk j = dinodeOf sb s.blk j
  bits : ∀ c < sb.size, bitOf sb t.blk c = bitOf sb (taken sb s b).blk c
  self : ptr t.blk (t.itable ip).d k = b
  other : ∀ l, l ≠ k → ptr t.blk (t.itable ip).d l = ptr s.blk (s.itable ip).d l
  owned : ∀ q c, q ≠ ((s.itable ip).inum,NDIRECT) → owner sb s.blk (live sb s ip) q = some c →
    t.blk c = s.blk c
  zeroed : t.blk b = fun _ => 0
  changed : ∀ c, t.blk c = s.blk c ∨ c ∈ t.lh
  lh_taken : ∀ c ∈ (taken sb s b).lh, c ∈ t.lh
  lh_new : ∀ c ∈ t.lh, c ∈ (taken sb s b).lh ∨ c = ptr t.blk (t.itable ip).d NDIRECT
  disk_eq : t.disk = s.disk
  outstanding_eq : t.outstanding = s.outstanding

namespace Sets

variable {k b : ℕ} {t : Fs}

theorem itable_self (h : Sets sb ip k b s t) : ∃ a, t.itable ip =
    {s.itable ip with d := {(s.itable ip).d with addrs := a}} := by
  obtain ⟨a,ha⟩ := h.slot
  exact ⟨a,by rw [ha,Function.update_self]⟩

theorem inum_eq (h : Sets sb ip k b s t) : (t.itable ip).inum = (s.itable ip).inum := by
  obtain ⟨a,ha⟩ := h.itable_self
  rw [ha]

theorem type_eq (h : Sets sb ip k b s t) : (t.itable ip).d.type = (s.itable ip).d.type := by
  obtain ⟨a,ha⟩ := h.itable_self
  rw [ha]

theorem nmeta_le (hs : Serving sb s ip) (h : Sets sb ip k b s t) : nmeta sb ≤ b :=
  hs.own.nmeta_le_of_free h.free

theorem ne_zero (hs : Serving sb s ip) (h : Sets sb ip k b s t) : b ≠ 0 := by
  have hpos := nmeta_pos sb
  have hle := h.nmeta_le hs
  omega

theorem live_eq (h : Sets sb ip k b s t) {j : ℕ} (hj : j < sb.ninodes)
    (hne : j ≠ (s.itable ip).inum) : live sb t ip j = live sb s ip j :=
  live_congr_of_ne h.inum_eq (h.dinodes j hj) hne

theorem live_inum (h : Sets sb ip k b s t) :
    live sb t ip (s.itable ip).inum = (t.itable ip).d := by
  rw [← h.inum_eq,live_self]

theorem live_type (h : Sets sb ip k b s t) {j : ℕ} (hj : j < sb.ninodes) :
    (live sb t ip j).type = (live sb s ip j).type :=
  live_type_congr h.inum_eq h.type_eq (h.dinodes j hj)

theorem owned_of_ne (h : Sets sb ip k b s t) {j : ℕ} (hji : j ≠ (s.itable ip).inum) (l c : ℕ)
    (hc : owner sb s.blk (live sb s ip) (j,l) = some c) : t.blk c = s.blk c :=
  h.owned _ c (fun hq => hji (Prod.mk.inj hq).1) hc

theorem ptr_eq (h : Sets sb ip k b s t) {j l : ℕ} (hj : j < sb.ninodes)
    (ht : (live sb s ip j).type ≠ 0) (hne : (j,l) ≠ ((s.itable ip).inum,k)) :
    ptr t.blk (live sb t ip j) l = ptr s.blk (live sb s ip j) l := by
  by_cases hji : j = (s.itable ip).inum
  · subst hji
    rw [h.live_inum,live_self]
    exact h.other l fun hl => hne (by rw [hl])
  · rw [h.live_eq hj hji]
    exact ptr_frame hj ht (h.owned_of_ne hji) l

theorem owner_ne (h : Sets sb ip k b s t) {q : ℕ × ℕ} (hq : q ≠ ((s.itable ip).inum,k)) :
    owner sb t.blk (live sb t ip) q = owner sb s.blk (live sb s ip) q := by
  obtain ⟨j,l⟩ := q
  by_cases hj : j < sb.ninodes ∧ (live sb s ip j).type ≠ 0
  · simp only [owner,h.live_type hj.1,h.ptr_eq hj.1 hj.2 hq]
  · have hj' : ¬ (j < sb.ninodes ∧ (live sb t ip j).type ≠ 0) := fun hh =>
      hj ⟨hh.1,by rw [← h.live_type hh.1]; exact hh.2⟩
    rw [owner,owner,if_neg fun hh => hj' ⟨hh.1,hh.2.1⟩,if_neg fun hh => hj ⟨hh.1,hh.2.1⟩]

theorem serving (hs : Serving sb s ip) (h : Sets sb ip k b s t) : Serving sb t ip where
  inum_lt := by rw [h.inum_eq]; exact hs.inum_lt
  typed := by rw [h.type_eq]; exact hs.typed
  own := by
    refine hs.own.take h.lt h.free (p := ((s.itable ip).inum,k)) h.bits ?_ ?_ fun _ => h.owner_ne
    · rw [owner,if_neg]
      rintro ⟨-,-,hne⟩
      exact hne (by rw [live_self,h.unset])
    · rw [owner_eq_some,h.live_inum,h.type_eq]
      exact ⟨hs.inum_lt,hs.typed,h.ne_zero hs,h.self⟩

theorem content_eq (hs : Serving sb s ip) (h : Sets sb ip k b s t) {j : ℕ} (hj : j < sb.ninodes)
    (ht : (live sb s ip j).type ≠ 0) :
    content t.blk (live sb t ip j) = content s.blk (live sb s ip j) := by
  by_cases hji : j = (s.itable ip).inum
  · subst hji
    rw [h.live_inum,live_self]
    funext p
    unfold content
    by_cases hslot : slotOf (p/BSIZE) = k
    · rw [hslot,h.self,h.unset,h.zeroed]
      simp
    · rw [h.other _ hslot]
      by_cases hp0 : ptr s.blk (s.itable ip).d (slotOf (p/BSIZE)) = 0
      · simp [hp0]
      · simp only [if_neg hp0]
        rw [h.owned ((s.itable ip).inum,slotOf (p/BSIZE)) _
          (fun hq => slotOf_ne_indirect _ (Prod.mk.inj hq).2)
          (owner_eq_some.mpr ⟨hs.inum_lt,ht,hp0,by rw [live_self]⟩)]
  · rw [h.live_eq hj hji]
    exact content_frame hj ht (h.owned_of_ne hji)

theorem grown (hs : Serving sb s ip) (h : Sets sb ip k b s t) : Grown sb ip s t where
  serving := h.serving hs
  slot := h.slot
  dinodes := h.dinodes
  keep j hj ht l hl := by
    apply h.ptr_eq hj ht
    rintro hpair
    obtain ⟨rfl,rfl⟩ := Prod.mk.inj hpair
    exact hl (by rw [live_self,h.unset])
  content_eq j hj ht := h.content_eq hs hj ht
  bits c hc hset := by rw [h.bits c hc,bitOf_taken (h.nmeta_le hs) hc,hset,Bool.true_or]
  balance := by
    have hself : ptr t.blk (t.itable ip).d k ≠ 0 := by
      rw [h.self]
      exact h.ne_zero hs
    have hk : k < NDIRECT+1+NINDIRECT := by
      by_contra hge
      exact hself (ptr_eq_zero_of_ge (not_lt.mp hge))
    exact card_balance (fun c hc => (h.bits c hc).trans (bitOf_taken (h.nmeta_le hs) hc)) h.lt
      h.free hk h.unset hself h.other
  changed := h.changed
  lh_mono c hc := h.lh_taken c (mem_taken_lh.mpr (.inl hc))
  fresh l h0 hl := by
    by_cases hlk : l = k
    · rw [hlk,h.self]
      exact h.lh_taken b (mem_taken_lh.mpr (.inr (.inr rfl)))
    · exact absurd ((h.other l hlk).trans h0) hl
  lh_new c hc := by
    rcases h.lh_new c hc with hc | hc
    · rcases mem_taken_lh.mp hc with hc | rfl | rfl
      · exact .inl hc
      · exact .inr (.inl (BBLOCK_lt_nmeta h.lt))
      · exact .inr (.inr (.inl ⟨h.lt,h.free⟩))
    · exact .inr (.inr (.inr hc))
  disk_eq := h.disk_eq
  outstanding_eq := h.outstanding_eq

end Sets

theorem taken_changed (sb : Geometry) (s : Fs) (b c : ℕ) :
    (taken sb s b).blk c = s.blk c ∨ c ∈ (taken sb s b).lh := by
  by_cases hcb : c = b
  · exact .inr (mem_taken_lh.mpr (.inr (.inr hcb)))
  · by_cases hcc : c = BBLOCK b sb
    · exact .inr (mem_taken_lh.mpr (.inr (.inl hcc)))
    · exact .inl (taken_blk hcb hcc)

theorem Serving.take_addr (hs : Serving sb s ip) {k : Fin (NDIRECT+1)} {b : ℕ}
    (hk : (s.itable ip).d.addrs k = 0) (hb : b < sb.size) (hbit : bitOf sb s.blk b = false) :
    Grown sb ip s ((taken sb s b).setInode ip
      {s.itable ip with d := withAddr (s.itable ip).d k b}) := by
  have hb32 : b < 2^32 := by
    have := sb.size_lt
    omega
  have hslot : ((taken sb s b).setInode ip
      {s.itable ip with d := withAddr (s.itable ip).d k b}).itable ip =
      {s.itable ip with d := withAddr (s.itable ip).d k b} := by
    simp [setInode]
  apply Sets.grown hs (k := k) (b := b)
  exact {
    lt := hb
    free := hbit
    unset := by
      rw [ptr_addr,hk]
      rfl
    slot := ⟨(withAddr (s.itable ip).d k b).addrs,rfl⟩
    dinodes := fun j hj => dinodeOf_taken (hs.own.nmeta_le_of_free hbit) hj
    bits := fun _ _ => rfl
    self := by
      rw [hslot]
      exact ptr_withAddr_self hb32
    other := fun l hl => by
      rw [hslot]
      exact hs.take_addr_ptr hk hb hbit hl
    owned := fun _ _ _ hc => hs.own.taken_blk_eq hb hbit hc
    zeroed := taken_blk_self
    changed := taken_changed sb s b
    lh_taken := fun _ hc => hc
    lh_new := fun _ hc => .inl hc
    disk_eq := rfl
    outstanding_eq := rfl }

theorem Serving.take_entry (hs : Serving sb s ip) {j b : ℕ} (hj : j < NINDIRECT)
    (hind : (s.itable ip).d.addrs indirect ≠ 0)
    (h0 : entryOf (s.blk ((s.itable ip).d.addrs indirect).toNat) j = 0)
    (hb : b < sb.size) (hbit : bitOf sb s.blk b = false) :
    Grown sb ip s ((taken sb s b).logged ((s.itable ip).d.addrs indirect).toNat
      (setEntry ((taken sb s b).blk ((s.itable ip).d.addrs indirect).toNat) j b)) ∧
    ptr ((taken sb s b).logged ((s.itable ip).d.addrs indirect).toNat
      (setEntry ((taken sb s b).blk ((s.itable ip).d.addrs indirect).toNat) j b)).blk
      (s.itable ip).d (NDIRECT+1+j) = b ∧
    ∀ k, k ≠ NDIRECT+1+j → ptr ((taken sb s b).logged ((s.itable ip).d.addrs indirect).toNat
      (setEntry ((taken sb s b).blk ((s.itable ip).d.addrs indirect).toNat) j b)).blk
      (s.itable ip).d k = ptr s.blk (s.itable ip).d k := by
  set d := (s.itable ip).d with hd
  set ind := (d.addrs indirect).toNat with hindn
  set t := (taken sb s b).logged ind (setEntry ((taken sb s b).blk ind) j b) with ht
  have hmeta := hs.own.nmeta_le_of_free hbit
  have hb32 : b < 2^32 := by
    have := sb.size_lt
    omega
  have hiown : owner sb s.blk (live sb s ip) ((s.itable ip).inum,NDIRECT) = some ind := by
    rw [owner_indirect hs.inum_lt hs.typed_live (by rwa [live_self]),live_self]
  have hinddata := hs.own.data hiown
  have hbind : b ≠ ind := by
    rintro hEq
    have hset := hs.own.bit hiown
    rw [← hEq,hbit] at hset
    simp at hset
  have htind : (taken sb s b).blk ind = s.blk ind := hs.own.taken_blk_eq hb hbit hiown
  have hne : ∀ c, c ≠ ind → t.blk c = (taken sb s b).blk c := by
    intro c hc
    rw [ht,logged_blk,Function.update_of_ne hc]
  have hself : ptr t.blk d (NDIRECT+1+j) = b := by
    rw [ptr_entry hj hind,← hindn,ht,logged_blk,Function.update_self,entryOf_setEntry _ _ hb32]
  have hother : ∀ k, k ≠ NDIRECT+1+j → ptr t.blk d k = ptr s.blk d k := by
    intro k hk
    rcases ptr_cases k with ⟨a,rfl⟩ | ⟨l,hl,rfl⟩ | hge
    · rw [ptr_addr,ptr_addr]
    · have hlj : l ≠ j := fun h => hk (by rw [h])
      rw [ptr_entry hl hind,ptr_entry hl hind,← hindn,ht,logged_blk,Function.update_self,htind,
        entryOf_setEntry_ne hlj]
    · rw [ptr_eq_zero_of_ge hge,ptr_eq_zero_of_ge hge]
  have hsets : Sets sb ip (NDIRECT+1+j) b s t := {
    lt := hb
    free := hbit
    unset := by rw [← hd,ptr_entry hj hind,← hindn,h0]
    slot := ⟨d.addrs,by simp [ht,hd]⟩
    dinodes := by
      intro l hl
      have hlt := IBLOCK_lt_nmeta hl
      exact (dinodeOf_congr (hne _ (by omega))).trans (dinodeOf_taken hmeta hl)
    bits := by
      intro c hc
      have hlt := BBLOCK_lt_nmeta hc
      exact bitOf_congr (hne _ (by omega))
    self := hself
    other := hother
    owned := by
      intro q c hq hc
      have hci : c ≠ ind := by
        rintro rfl
        exact hq (hs.own.unique hc hiown)
      rw [hne c hci,hs.own.taken_blk_eq hb hbit hc]
    zeroed := by rw [hne b hbind,taken_blk_self]
    changed := by
      intro c
      by_cases hci : c = ind
      · exact .inr (mem_recordBlock.mpr (.inr hci))
      · rw [hne c hci]
        exact (taken_changed sb s b c).imp id fun hc => mem_recordBlock.mpr (.inl hc)
    lh_taken := fun c hc => mem_recordBlock.mpr (.inl hc)
    lh_new := fun c hc => (mem_recordBlock.mp hc).imp id fun hci => hci.trans ptr_indirect.symm
    disk_eq := rfl
    outstanding_eq := rfl }
  exact ⟨hsets.grown hs,hself,hother⟩

def Through (bn k : ℕ) : Prop := k = slotOf bn ∨ k = NDIRECT ∧ NDIRECT ≤ bn

def FillsOnly (ip : ℕ) (K : ℕ → Prop) (s t : Fs) : Prop :=
  ∀ k, ptr s.blk (s.itable ip).d k = 0 → ptr t.blk (t.itable ip).d k ≠ 0 → K k

/-- The pointer is found or allocated; a zero result means that no block is free. -/
theorem wp_bmapAddr (hE : ∀ e, LogFull e → E e) (hs : Serving sb s ip) (k : Fin (NDIRECT+1)) :
    wp (bmapAddr sb ip k) (fun r t => Grown sb ip s t ∧ r = ptr t.blk (t.itable ip).d k ∧
      (r = 0 → Full sb t) ∧ FillsOnly ip (· = k.val) s t) E s := by
  rw [bmapAddr,wp_bind,wp_get]
  by_cases h0 : ((s.itable ip).d.addrs k).toNat = 0
  · simp only [if_pos h0]
    have hk : (s.itable ip).d.addrs k = 0 := UInt32.toNat_inj.mp h0
    rw [wp_bind]
    apply wp_balloc hE
    · intro hfull
      simp only [if_pos,wp_pure]
      exact ⟨.refl hs,by rw [ptr_addr,h0],fun _ => hfull,fun _ h h' => absurd h h'⟩
    · intro b hb hbit
      have hmeta := hs.own.nmeta_le_of_free hbit
      have hpos := nmeta_pos sb
      have hb0 : b ≠ 0 := by omega
      have hsize := sb.size_lt
      rw [if_neg hb0,wp_bind]
      refine ⟨hs.take_addr hk hb hbit,?_,fun h => absurd h hb0,?_⟩
      · change b = ptr _ (Function.update s.itable ip _ ip).d k
        rw [Function.update_self]
        exact (ptr_withAddr_self (by omega)).symm
      · intro l hl hne
        by_contra hlk
        change ptr _ (Function.update s.itable ip _ ip).d l ≠ 0 at hne
        rw [Function.update_self] at hne
        exact hne ((hs.take_addr_ptr hk hb hbit hlk).trans hl)
  · simp only [if_neg h0]
    exact ⟨.refl hs,(ptr_addr k).symm,fun h => absurd h h0,fun _ h h' => absurd h h'⟩

theorem wp_bmapEntry (hE : ∀ e, LogFull e → E e) (hs : Serving sb s ip)
    (hind : (s.itable ip).d.addrs indirect ≠ 0) {j : ℕ} (hj : j < NINDIRECT) :
    wp (bmapEntry sb ((s.itable ip).d.addrs indirect).toNat j) (fun r t => Grown sb ip s t ∧
      r = ptr t.blk (t.itable ip).d (NDIRECT+1+j) ∧ (r = 0 → Full sb t) ∧
      FillsOnly ip (· = NDIRECT+1+j) s t) E s := by
  rw [bmapEntry,wp_bind,bread,wp_bind,wp_get,wp_pure]
  by_cases h0 : entryOf (s.blk ((s.itable ip).d.addrs indirect).toNat) j = 0
  · simp only [if_pos h0]
    rw [wp_bind]
    apply wp_balloc hE
    · intro hfull
      rw [wp_bind,wp_when]
      refine ⟨fun h => absurd rfl h,fun _ => ?_⟩
      exact ⟨.refl hs,by rw [ptr_entry hj hind,h0],fun _ => hfull,fun _ h h' => absurd h h'⟩
    · intro b hb hbit
      obtain ⟨hgrown,hptr,honly⟩ := hs.take_entry hj hind h0 hb hbit
      have hmeta := hs.own.nmeta_le_of_free hbit
      have hpos := nmeta_pos sb
      have hb0 : b ≠ 0 := by omega
      rw [wp_bind,wp_when]
      refine ⟨fun _ => ?_,fun h => absurd hb0 h⟩
      rw [wp_bind,wp_bind,wp_get,wp_pure]
      apply wp_logWrite hE
      refine ⟨hgrown,hptr.symm,fun h => absurd h hb0,?_⟩
      intro l hl hne
      by_contra hlj
      exact hne ((honly l hlj).trans hl)
  · simp only [if_neg h0]
    exact ⟨.refl hs,(ptr_entry hj hind).symm,fun h => absurd h h0,fun _ h h' => absurd h h'⟩

/-- `bmap` returns the pointer of the block, and 0 only when the disk is full. -/
theorem wp_bmap (hE : ∀ e, LogFull e → E e) (hs : Serving sb s ip) {bn : ℕ} (hbn : bn < MAXFILE) :
    wp (bmap sb ip bn) (fun r t => Grown sb ip s t ∧
      r = ptr t.blk (t.itable ip).d (slotOf bn) ∧ (r = 0 → Full sb t) ∧
      FillsOnly ip (Through bn) s t) E s := by
  unfold bmap
  by_cases hdir : bn < NDIRECT
  · rw [dif_pos hdir]
    have hslot : slotOf bn = bn := if_pos hdir
    rw [hslot]
    refine wp_conseq (wp_bmapAddr hE hs ⟨bn,Nat.lt_succ_of_lt hdir⟩) ?_
    rintro r t ⟨hgrown,hr,hfull,honly⟩
    exact ⟨hgrown,hr,hfull,fun k h h' => .inl (by rw [hslot]; exact honly k h h')⟩
  · have hlt : bn-NDIRECT < NINDIRECT := by
      unfold MAXFILE at hbn
      omega
    have hslot : slotOf bn = NDIRECT+1+(bn-NDIRECT) := by
      rw [slotOf,if_neg hdir]
      omega
    rw [dif_neg hdir,if_pos hlt,wp_bind,hslot]
    refine wp_conseq (wp_bmapAddr hE hs indirect) ?_
    rintro ind t ⟨hgrown,hind,hfull,honly⟩
    change ind = ptr t.blk (t.itable ip).d NDIRECT at hind
    rw [ptr_indirect] at hind
    have hfirst : FillsOnly ip (Through bn) s t :=
      fun k h h' => .inr ⟨honly k h h',not_lt.mp hdir⟩
    by_cases h0 : ind = 0
    · have hno : (t.itable ip).d.addrs indirect = 0 :=
        UInt32.toNat_inj.mp (by rw [← hind,h0]; rfl)
      simp only [if_pos h0,wp_pure]
      exact ⟨hgrown,(ptr_eq_zero_of_no_indirect (by omega) hno).symm,fun _ => hfull h0,hfirst⟩
    · have hne : (t.itable ip).d.addrs indirect ≠ 0 := by
        intro h
        rw [h] at hind
        exact h0 hind
      rw [if_neg h0,hind]
      refine wp_conseq (wp_bmapEntry hE hgrown.serving hne hlt) ?_
      rintro r u ⟨hgrown',hr,hfull',honly'⟩
      refine ⟨hgrown.trans hgrown',hr,hfull',?_⟩
      intro k hk hk'
      by_cases hkt : ptr t.blk (t.itable ip).d k = 0
      · exact .inl (by rw [hslot]; exact honly' k hkt hk')
      · exact hfirst k hk hkt

end Bmap
end Fs
end Xv6
