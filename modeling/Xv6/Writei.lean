import Xv6.WriteLoop

/-! The specification of `writei`: the bytes it reports are in the file, the inode is on disk, and
no other inode changes. A copy that fails leaves its bytes in one block. -/
namespace Xv6
namespace Fs

open Bytes Command Ownership

def flush (sb : Geometry) (s : Fs) (ip : ℕ) : Fs :=
  s.logged (IBLOCK (s.itable ip).inum sb) (Dinode.encode (s.blk (IBLOCK (s.itable ip).inum sb))
    ((s.itable ip).inum%IPB) (s.itable ip).d)

section Flush

variable {sb : Geometry} {E : FsPanic → Prop} {s : Fs} {ip : ℕ}

theorem wp_iupdate {Q : Unit → Fs → Prop} (hE : ∀ e, LogFull e → E e) (h : Q () (flush sb s ip)) :
    wp (iupdate sb ip) Q E s := by
  rw [iupdate,wp_bind,wp_get]
  exact wp_logWrite hE h

@[simp] theorem flush_itable : (flush sb s ip).itable = s.itable := rfl

theorem flush_dinodes : dinodeOf sb (flush sb s ip).blk = live sb s ip := dinodeOf_encode _

theorem flush_blk {c : ℕ} (hc : c ≠ IBLOCK (s.itable ip).inum sb) :
    (flush sb s ip).blk c = s.blk c := by
  simp [flush,hc]

theorem flush_bit (hi : (s.itable ip).inum < sb.ninodes) {b : ℕ} :
    bitOf sb (flush sb s ip).blk b = bitOf sb s.blk b :=
  bitOf_congr (flush_blk (IBLOCK_ne_BBLOCK hi).symm)

theorem Serving.flush_same (hs : Serving sb s ip) {p : ℕ × ℕ} {c : ℕ}
    (hp : owner sb s.blk (live sb s ip) p = some c) : (flush sb s ip).blk c = s.blk c := by
  have hdata := hs.own.data (i := p.1) (k := p.2) hp
  have hlt := IBLOCK_lt_nmeta hs.inum_lt
  exact flush_blk (by omega)

theorem Serving.flush_own (hs : Serving sb s ip) :
    Own sb (flush sb s ip).blk (dinodeOf sb (flush sb s ip).blk) := by
  rw [flush_dinodes]
  refine Exact.congr hs.own ?_ ?_
  · intro b
    rw [flush_bit hs.inum_lt]
  · intro p
    rw [owner_frame fun _ _ hp => hs.flush_same hp]

theorem Serving.flush_ptr (hs : Serving sb s ip) {j : ℕ} (hj : j < sb.ninodes)
    (ht : (live sb s ip j).type ≠ 0) (k : ℕ) :
    ptr (flush sb s ip).blk (live sb s ip j) k = ptr s.blk (live sb s ip j) k :=
  ptr_frame hj ht (fun _ _ hp => hs.flush_same hp) k

theorem Serving.flush_content (hs : Serving sb s ip) {j : ℕ} (hj : j < sb.ninodes)
    (ht : (live sb s ip j).type ≠ 0) :
    content (flush sb s ip).blk (live sb s ip j) = content s.blk (live sb s ip j) :=
  content_frame hj ht fun _ _ hp => hs.flush_same hp

end Flush

/-- The invariant of the disk: exact ownership, sizes within bounds and no holes. -/
structure Consistent (sb : Geometry) (blk : ℕ → Block) : Prop where
  own : Own sb blk (dinodeOf sb blk)
  sized : ∀ i < sb.ninodes, (dinodeOf sb blk i).type ≠ 0 → Sized blk (dinodeOf sb blk i)

/-- `ip` is a valid in-memory copy of an allocated inode. -/
structure Loaded (sb : Geometry) (s : Fs) (ip : ℕ) : Prop where
  inum_lt : (s.itable ip).inum < sb.ninodes
  same : (s.itable ip).d = dinodeOf sb s.blk (s.itable ip).inum
  typed : (s.itable ip).d.type ≠ 0

theorem Loaded.live_eq {sb : Geometry} {s : Fs} {ip : ℕ} (h : Loaded sb s ip) :
    live sb s ip = dinodeOf sb s.blk := by
  rw [live,h.same,Function.update_eq_self]

theorem Loaded.serving {sb : Geometry} {s : Fs} {ip : ℕ} (h : Loaded sb s ip)
    (hc : Consistent sb s.blk) : Serving sb s ip where
  inum_lt := h.inum_lt
  typed := h.typed
  own := by
    rw [h.live_eq]
    exact hc.own

/-- `writei` through `ip` has replaced `tot` bytes at `off`, `r` of which it reports. -/
structure Wrote (sb : Geometry) (ip : ℕ) (src : Mem) (off r tot : ℕ) (s u : Fs) : Prop where
  consistent : Consistent sb u.blk
  loaded : Loaded sb u ip
  slot : ∃ z a, u.itable = Function.update s.itable ip
    {s.itable ip with d := {(s.itable ip).d with size := z, addrs := a}}
  size_eq : (u.itable ip).d.size.toNat = max (s.itable ip).d.size.toNat (off+r)
  dinodes : ∀ j < sb.ninodes, j ≠ (s.itable ip).inum →
    dinodeOf sb u.blk j = dinodeOf sb s.blk j
  content_self : content u.blk (u.itable ip).d =
    blit (content s.blk (s.itable ip).d) off tot src
  content_ne : ∀ j < sb.ninodes, (dinodeOf sb s.blk j).type ≠ 0 → j ≠ (s.itable ip).inum →
    content u.blk (dinodeOf sb s.blk j) = content s.blk (dinodeOf sb s.blk j)
  keep_self : ∀ k, ptr s.blk (s.itable ip).d k ≠ 0 →
    ptr u.blk (u.itable ip).d k = ptr s.blk (s.itable ip).d k
  mapped : ∀ p, off ≤ p → p < off+tot → ptr u.blk (u.itable ip).d (slotOf (p/BSIZE)) ≠ 0
  balance : (freeBlocks sb u.blk).card+(mappedSlots u.blk (u.itable ip).d).card =
    (freeBlocks sb s.blk).card+(mappedSlots s.blk (s.itable ip).d).card
  fills : FillsOnly ip (fun k => ∃ bn, off/BSIZE ≤ bn ∧ bn ≤ (off+tot)/BSIZE ∧ Through bn k) s u
  lh_mono : ∀ b ∈ s.lh, b ∈ u.lh
  disk_eq : u.disk = s.disk
  outstanding_eq : u.outstanding = s.outstanding

def growTo (off : UInt32) (d : Dinode) : Dinode := if d.size < off then {d with size := off} else d

theorem growTo_eq (off : UInt32) (d : Dinode) :
    growTo off d = {d with size := (growTo off d).size} := by
  unfold growTo
  split <;> rfl

theorem growTo_size {k : ℕ} (hk : k < 2^32) (d : Dinode) :
    (growTo (UInt32.ofNat k) d).size.toNat = max d.size.toNat k := by
  have hof : (UInt32.ofNat k).toNat = k := by
    rw [UInt32.toNat_ofNat']
    exact Nat.mod_eq_of_lt hk
  unfold growTo
  split
  case isTrue h =>
    rw [UInt32.lt_iff_toNat_lt,hof] at h
    change (UInt32.ofNat k).toNat = _
    rw [hof]
    omega
  case isFalse h =>
    rw [UInt32.lt_iff_toNat_lt,hof] at h
    omega

theorem growTo_type (off : UInt32) (d : Dinode) : (growTo off d).type = d.type := by
  rw [growTo_eq]

theorem ptr_growTo (blk : ℕ → Block) (off : UInt32) (d : Dinode) (k : ℕ) :
    ptr blk (growTo off d) k = ptr blk d k := by
  rw [growTo_eq]
  rfl

theorem content_growTo (blk : ℕ → Block) (off : UInt32) (d : Dinode) :
    content blk (growTo off d) = content blk d := by
  funext p
  simp only [content,ptr_growTo]

def sizeUp (off : UInt32) (s : Fs) (ip : ℕ) : Fs :=
  s.setInode ip {s.itable ip with d := growTo off (s.itable ip).d}

section SizeUp

variable {sb : Geometry} {s : Fs} {ip : ℕ} {off : UInt32}

@[simp] theorem sizeUp_blk : (sizeUp off s ip).blk = s.blk := rfl

@[simp] theorem sizeUp_self : (sizeUp off s ip).itable ip =
    {s.itable ip with d := growTo off (s.itable ip).d} := by
  simp [sizeUp,setInode]

theorem live_sizeUp : live sb (sizeUp off s ip) ip =
    Function.update (live sb s ip) (s.itable ip).inum (growTo off (s.itable ip).d) := by
  simp [live]

theorem Serving.sizeUp (hs : Serving sb s ip) : Serving sb (sizeUp off s ip) ip where
  inum_lt := by simpa using hs.inum_lt
  typed := by simpa [growTo_type] using hs.typed
  own := by
    refine Exact.congr hs.own (fun _ => Iff.rfl) ?_
    rintro ⟨j,k⟩
    rw [live_sizeUp]
    by_cases hj : j = (s.itable ip).inum
    · subst hj
      simp only [owner,Function.update_self,live_self,sizeUp_blk,ptr_growTo,growTo_type]
    · simp only [owner,Function.update_of_ne hj,sizeUp_blk]

/-- Pointers and content of `ip` at the end of `writei` are those of the loop. -/
theorem Serving.end_ptr (hs : Serving sb s ip) (k : ℕ) :
    ptr (flush sb (Fs.sizeUp off s ip) ip).blk (growTo off (s.itable ip).d) k =
      ptr s.blk (s.itable ip).d k := by
  have hup : Serving sb (Fs.sizeUp off s ip) ip := hs.sizeUp
  have h := hup.flush_ptr hup.inum_lt hup.typed_live k
  rw [live_self,sizeUp_self,sizeUp_blk] at h
  rw [h,ptr_growTo]

theorem Serving.end_content (hs : Serving sb s ip) :
    content (flush sb (Fs.sizeUp off s ip) ip).blk (growTo off (s.itable ip).d) =
      content s.blk (s.itable ip).d := by
  have hup : Serving sb (Fs.sizeUp off s ip) ip := hs.sizeUp
  have h := hup.flush_content hup.inum_lt hup.typed_live
  rw [live_self,sizeUp_self,sizeUp_blk] at h
  rw [h,content_growTo]

end SizeUp

section Wrote

variable {sb : Geometry} {s : Fs} {ip off r tot : ℕ} {src : Mem}

section End

variable {v : Fs} {z : UInt32}

theorem Written.end_live (hw : Written sb ip src off tot s v) {j : ℕ} (hj : j < sb.ninodes)
    (hne : j ≠ (s.itable ip).inum) :
    live sb (sizeUp z v ip) ip j = dinodeOf sb s.blk j := by
  rw [live_sizeUp,hw.inum_eq,Function.update_of_ne hne,live_of_ne (by rwa [hw.inum_eq]),
    hw.dinodes j hj]

theorem Written.end_live_self (hw : Written sb ip src off tot s v) :
    live sb (sizeUp z v ip) ip (s.itable ip).inum = growTo z (v.itable ip).d := by
  rw [live_sizeUp,hw.inum_eq,Function.update_self]

theorem Written.end_keep (hl : Loaded sb s ip) (hw : Written sb ip src off tot s v) {j k : ℕ}
    (hj : j < sb.ninodes) (ht : (dinodeOf sb s.blk j).type ≠ 0) (hne : j ≠ (s.itable ip).inum)
    (hk : ptr s.blk (dinodeOf sb s.blk j) k ≠ 0) :
    ptr (flush sb (sizeUp z v ip) ip).blk (dinodeOf sb s.blk j) k =
      ptr s.blk (dinodeOf sb s.blk j) k := by
  have hup : Serving sb (sizeUp z v ip) ip := hw.serving.sizeUp
  have hflush := hup.flush_ptr hj (by rwa [hw.end_live hj hne]) k
  have hkeep := hw.keep j hj (by rwa [hl.live_eq]) k (by rwa [hl.live_eq])
  rw [hl.live_eq,live_of_ne (by rwa [hw.inum_eq]),hw.dinodes j hj] at hkeep
  rw [hw.end_live hj hne] at hflush
  exact hflush.trans hkeep

/-- Outside what an earlier transaction has logged, no pointer of another inode changes. -/
theorem Written.end_ptr_other (hc : Consistent sb s.blk) (hl : Loaded sb s ip) (hlh : s.lh = [])
    (hw : Written sb ip src off tot s v) (hlogs : Logs s v) {j : ℕ} (hj : j < sb.ninodes)
    (ht : (dinodeOf sb s.blk j).type ≠ 0) (hne : j ≠ (s.itable ip).inum) (k : ℕ) :
    ptr (flush sb (sizeUp z v ip) ip).blk (dinodeOf sb s.blk j) k =
      ptr s.blk (dinodeOf sb s.blk j) k := by
  have hup : Serving sb (sizeUp z v ip) ip := hw.serving.sizeUp
  have hflush := hup.flush_ptr hj (by rwa [hw.end_live hj hne]) k
  have hother := hw.ptr_other (hl.serving hc) hlh hlogs hj (by rwa [hl.live_eq]) hne k
  rw [hl.live_eq] at hother
  rw [hw.end_live hj hne] at hflush
  exact hflush.trans hother

theorem Written.end_content_ne (hl : Loaded sb s ip) (hw : Written sb ip src off tot s v) {j : ℕ}
    (hj : j < sb.ninodes) (ht : (dinodeOf sb s.blk j).type ≠ 0) (hne : j ≠ (s.itable ip).inum) :
    content (flush sb (sizeUp z v ip) ip).blk (dinodeOf sb s.blk j) =
      content s.blk (dinodeOf sb s.blk j) := by
  have hup : Serving sb (sizeUp z v ip) ip := hw.serving.sizeUp
  have hflush := hup.flush_content hj (by rwa [hw.end_live hj hne])
  have hkeep := hw.content_ne j hj (by rwa [hl.live_eq]) hne
  rw [hl.live_eq,live_of_ne (by rwa [hw.inum_eq]),hw.dinodes j hj] at hkeep
  rw [hw.end_live hj hne] at hflush
  exact hflush.trans hkeep

/-- A file system without holes has none after a write that starts inside the file. -/
theorem Written.end_consistent (hc : Consistent sb s.blk) (hl : Loaded sb s ip)
    (hw : Written sb ip src off tot s v)
    (hsize : (growTo z (v.itable ip).d).size.toNat = max (s.itable ip).d.size.toNat (off+r))
    (hr : r ≤ tot) (hoff : off ≤ (s.itable ip).d.size.toNat) (hmax : off+r ≤ MAXFILE*BSIZE) :
    Consistent sb (flush sb (sizeUp z v ip) ip).blk where
  own := by
    have hup : Serving sb (sizeUp z v ip) ip := hw.serving.sizeUp
    exact hup.flush_own
  sized := by
    have hs := hl.serving hc
    intro j hj
    rw [flush_dinodes]
    by_cases hji : j = (s.itable ip).inum
    · subst hji
      have hold := hc.sized _ hs.inum_lt (by rw [← hl.same]; exact hl.typed)
      rw [← hl.same] at hold
      rw [hw.end_live_self]
      intro _
      refine ⟨?_,?_⟩
      · have := hold.size_le
        rw [hsize]
        omega
      · intro bn hbn
        rw [hw.serving.end_ptr]
        by_cases hbs : bn*BSIZE < (s.itable ip).d.size.toNat
        · rw [hw.keep_self hs (hold.mapped bn hbs)]
          exact hold.mapped bn hbs
        · have hm := hw.mapped (bn*BSIZE) (by omega) (by omega)
          rwa [Nat.mul_div_cancel _ (by decide : 0 < BSIZE)] at hm
    · rw [hw.end_live hj hji]
      intro ht
      have hold := hc.sized j hj ht
      refine ⟨hold.size_le,?_⟩
      intro bn hbn
      rw [hw.end_keep hl hj ht hji (hold.mapped bn hbn)]
      exact hold.mapped bn hbn

end End

/-- The end of `writei`: the size grows and the inode is written back. -/
theorem Written.finish (hc : Consistent sb s.blk) (hl : Loaded sb s ip) {v : Fs}
    (hw : Written sb ip src off tot s v) (hr : r ≤ tot)
    (hoff : off ≤ (s.itable ip).d.size.toNat) (hmax : off+r ≤ MAXFILE*BSIZE) :
    Wrote sb ip src off r tot s (flush sb (sizeUp (UInt32.ofNat (off+r)) v ip) ip) := by
  have hs := hl.serving hc
  have h32 : off+r < 2^32 := lt_of_le_of_lt hmax (by decide)
  have hup : Serving sb (sizeUp (UInt32.ofNat (off+r)) v ip) ip := hw.serving.sizeUp
  have hsize : (growTo (UInt32.ofNat (off+r)) (v.itable ip).d).size.toNat =
      max (s.itable ip).d.size.toNat (off+r) := by
    rw [growTo_size h32,hw.size_eq]
  have hptrs : ∀ k, ptr (flush sb (sizeUp (UInt32.ofNat (off+r)) v ip) ip).blk
      ((flush sb (sizeUp (UInt32.ofNat (off+r)) v ip) ip).itable ip).d k =
        ptr v.blk (v.itable ip).d k := by
    intro k
    rw [flush_itable,sizeUp_self]
    exact hw.serving.end_ptr k
  exact {
    consistent := hw.end_consistent hc hl hsize hr hoff hmax
    loaded := {
      inum_lt := hup.inum_lt
      same := by rw [flush_dinodes,flush_itable,live_self]
      typed := hup.typed }
    slot := by
      obtain ⟨a,ha⟩ := hw.slot
      refine ⟨(growTo (UInt32.ofNat (off+r)) (v.itable ip).d).size,a,?_⟩
      have hvip : v.itable ip = {s.itable ip with d := {(s.itable ip).d with addrs := a}} := by
        rw [ha,Function.update_self]
      change Function.update v.itable ip
        {v.itable ip with d := growTo (UInt32.ofNat (off+r)) (v.itable ip).d} = _
      rw [growTo_eq,hvip,ha,Function.update_idem]
    size_eq := by rw [flush_itable,sizeUp_self,hsize]
    dinodes := by
      intro j hj hne
      rw [flush_dinodes,hw.end_live hj hne]
    content_self := by
      rw [flush_itable,sizeUp_self,hw.serving.end_content,hw.content_self]
    content_ne := fun _ hj ht hne => hw.end_content_ne hl hj ht hne
    keep_self := by
      intro k hk
      rw [hptrs,hw.keep_self hs hk]
    mapped := by
      intro p hl hr
      rw [hptrs]
      exact hw.mapped p hl hr
    balance := by
      have hfree : freeBlocks sb (flush sb (sizeUp (UInt32.ofNat (off+r)) v ip) ip).blk =
          freeBlocks sb v.blk := by
        apply Finset.filter_congr
        intro b _
        rw [flush_bit hup.inum_lt,sizeUp_blk]
      simp only [hfree,mappedSlots,hptrs]
      exact hw.balance
    fills := by
      intro k h0 hk
      rw [hptrs] at hk
      exact hw.fills k h0 hk
    lh_mono := fun b hb => mem_recordBlock.mpr (.inl (hw.lh_mono b hb))
    disk_eq := hw.disk_eq
    outstanding_eq := hw.outstanding_eq }

end Wrote

theorem Written.finish_named {sb : Geometry} {s v : Fs} {ip off tot : ℕ} {src : Mem}
    (hc : Consistent sb s.blk) (hl : Loaded sb s ip) (hw : Written sb ip src off tot s v)
    (z : UInt32) : Elsewhere sb (s.itable ip).inum s (flush sb (sizeUp z v ip) ip) := by
  intro p hp
  have hup : Serving sb (sizeUp z v ip) ip := hw.serving.sizeUp
  have hframe := congrFun (owner_frame fun _ _ hq => hup.flush_same hq) p
  rw [named,flush_dinodes,hframe,named,← hl.live_eq,← hw.owner_ne (hl.serving hc) hp,live_sizeUp]
  simp only [owner,sizeUp_blk,Function.update_of_ne (hw.inum_eq ▸ hp)]

def BadRange (size off n : UInt32) : Prop :=
  size < off ∨ off+n < off ∨ MAXFILE*BSIZE < (off+n).toNat

theorem toNat_add_of_not_lt {off n : UInt32} (h : ¬ off+n < off) :
    (off+n).toNat = off.toNat+n.toNat := by
  have h1 := off.toNat_lt
  have h2 := n.toNat_lt
  rw [UInt32.lt_iff_toNat_lt,UInt32.toNat_add] at h
  rw [UInt32.toNat_add]
  omega

/-- The block in which a copy failed, after `r` bytes: all other changed blocks are logged, and
this one is if it was before or is new. -/
structure Spoiled (ip : ℕ) (src : Mem) (off r stored : ℕ) (s u : Fs) : Prop where
  ne : ptr u.blk (u.itable ip).d (slotOf ((off+r)/BSIZE)) ≠ 0
  logs : ∀ b, b ≠ ptr u.blk (u.itable ip).d (slotOf ((off+r)/BSIZE)) →
    u.blk b = s.blk b ∨ b ∈ u.lh
  block : ptr u.blk (u.itable ip).d (slotOf ((off+r)/BSIZE)) ∉ u.lh →
    u.blk (ptr u.blk (u.itable ip).d (slotOf ((off+r)/BSIZE))) =
      blit (s.blk (ptr u.blk (u.itable ip).d (slotOf ((off+r)/BSIZE)))) ((off+r)%BSIZE) stored
        fun i => src (r+i)
  old : ptr s.blk (s.itable ip).d (slotOf ((off+r)/BSIZE)) ≠ 0 →
    ptr u.blk (u.itable ip).d (slotOf ((off+r)/BSIZE)) =
      ptr s.blk (s.itable ip).d (slotOf ((off+r)/BSIZE)) ∧
    (ptr u.blk (u.itable ip).d (slotOf ((off+r)/BSIZE)) ∈ u.lh →
      ptr u.blk (u.itable ip).d (slotOf ((off+r)/BSIZE)) ∈ s.lh)
  new : ptr s.blk (s.itable ip).d (slotOf ((off+r)/BSIZE)) = 0 →
    ptr u.blk (u.itable ip).d (slotOf ((off+r)/BSIZE)) ∈ u.lh

section WriteiSpec

variable {sb : Geometry} {E : FsPanic → Prop} {s : Fs} {pagetable : ℕ} {mem : Mem} {ip : ℕ}
  {userSrc : Bool} {src : ℕ} {off n : UInt32}

/-- All pieces were copied until the end, or until a block was needed on a full disk. -/
structure WriteDone (sb : Geometry) (ip : ℕ) (src : Mem) (off n r : ℕ) (s u : Fs) : Prop where
  wrote : Wrote sb ip src off r r s u
  logs : Logs s u
  full : r = n ∨ (r = 0 ∨ (off+r)%BSIZE = 0) ∧ Full sb u ∧
    ptr u.blk (u.itable ip).d (slotOf ((off+r)/BSIZE)) = 0

structure WriteFault (sb : Geometry) (mem : Mem) (pagetable ip : ℕ) (userSrc : Bool)
    (src off n r : ℕ) (s u : Fs) : Prop where
  lt : r < n
  aligned : r = 0 ∨ (off+r)%BSIZE = 0
  short : stored mem pagetable userSrc src n off r < piece n off r
  wrote : Wrote sb ip (srcBytes mem pagetable userSrc src) off r
    (r+stored mem pagetable userSrc src n off r) s u
  spoiled : Spoiled ip (srcBytes mem pagetable userSrc src) off r
    (stored mem pagetable userSrc src n off r) s u

theorem Fault.written {off n r : ℕ} {t v : Fs}
    (hw : Written sb ip (srcBytes mem pagetable userSrc src) off r s t)
    (hf : Fault mem pagetable ip userSrc src off n r t v) :
    Written sb ip (srcBytes mem pagetable userSrc src) off
      (r+stored mem pagetable userSrc src n off r) s v := by
  have hshort := hf.short
  have hmod : (off+r)%BSIZE < BSIZE := Nat.mod_lt _ (by decide)
  obtain rfl := hf.eq
  refine hw.write hf.ptr_ne ?_ rfl rfl (fun _ hb => hb) ?_ rfl rfl
  · unfold piece at hshort
    omega
  · by_cases h0 : stored mem pagetable userSrc src n off r = 0
    · exact .inl ⟨h0,rfl⟩
    · exact .inr ⟨by omega,fun _ hb => .inl hb⟩

theorem Fault.spoiled {off n r : ℕ} {t v : Fs} (hs : Serving sb s ip)
    (hw : Written sb ip (srcBytes mem pagetable userSrc src) off r s t) (hlog : Logs s t)
    (hf : Fault mem pagetable ip userSrc src off n r t v) (z : UInt32) :
    Spoiled ip (srcBytes mem pagetable userSrc src) off r
      (stored mem pagetable userSrc src n off r) s (flush sb (sizeUp z v ip) ip) := by
  have hwv := hf.written hw
  have hal := hf.aligned
  have hne := hf.ptr_ne
  have hv := hf.eq
  set a := ptr t.blk (t.itable ip).d (slotOf ((off+r)/BSIZE)) with ha
  have htab : v.itable = t.itable := by rw [hv]; rfl
  have hptr : ptr (flush sb (sizeUp z v ip) ip).blk ((flush sb (sizeUp z v ip) ip).itable ip).d
      (slotOf ((off+r)/BSIZE)) = a := by
    rw [flush_itable,sizeUp_self,hwv.serving.end_ptr,htab]
    exact hw.serving.store_data_ptr_self hne (by rw [hv]; rfl) _
  have hown := hw.serving.owner_slot hne
  have hdata := hw.serving.own.data hown
  have hlh : ∀ b, b ∈ (flush sb (sizeUp z v ip) ip).lh ↔
      b ∈ t.lh ∨ b = IBLOCK ((sizeUp z v ip).itable ip).inum sb := by
    intro b
    have hvlh : (sizeUp z v ip).lh = t.lh := by rw [hv]; rfl
    rw [flush,logged_lh,mem_recordBlock,hvlh]
  have hib : IBLOCK ((sizeUp z v ip).itable ip).inum sb < nmeta sb :=
    IBLOCK_lt_nmeta (by simpa using hwv.serving.inum_lt)
  have hblk : ∀ b, b ≠ IBLOCK ((sizeUp z v ip).itable ip).inum sb →
      (flush sb (sizeUp z v ip) ip).blk b = v.blk b := fun b hb => flush_blk hb
  have hva : v.blk a = blit (t.blk a) ((off+r)%BSIZE)
      (stored mem pagetable userSrc src n off r)
      fun i => srcBytes mem pagetable userSrc src (r+i) := by
    simp [hv,store]
  constructor
  · rwa [hptr]
  · intro b hb
    rw [hptr] at hb
    by_cases hbi : b = IBLOCK ((sizeUp z v ip).itable ip).inum sb
    · exact .inr ((hlh b).mpr (.inr hbi))
    · have hvb : v.blk b = t.blk b := by simp [hv,store,hb]
      rw [hblk b hbi,hvb]
      exact (hlog b).imp id fun h => (hlh b).mpr (.inl h)
  · rw [hptr]
    intro hnot
    have hat : a ∉ t.lh := fun h => hnot ((hlh a).mpr (.inl h))
    rw [hblk a (by omega),hva,(hlog a).resolve_right hat]
  · intro h0
    rw [hptr]
    refine ⟨hw.keep_self hs h0,?_⟩
    intro hin
    rcases (hlh a).mp hin with hin | hin
    · have hkeep : a = ptr s.blk (s.itable ip).d (slotOf ((off+r)/BSIZE)) := hw.keep_self hs h0
      rcases hw.lh_new a hin with h | h | h | h | ⟨p,hl,hr,h⟩
      · exact h
      · omega
      · have hbit := hs.own.bit (hs.owner_slot h0)
        rw [← hkeep,h.2] at hbit
        simp at hbit
      · have hind := hw.serving.owner_slot (k := NDIRECT) (by rw [← h]; exact hne)
        rw [← h] at hind
        have hpair := hw.serving.own.unique hown hind
        exact absurd (Prod.mk.inj hpair).2 (slotOf_ne_indirect _)
      · have hp := hw.serving.owner_slot (hw.mapped p hl hr)
        rw [← h] at hp
        have hpair := hw.serving.own.unique hown hp
        have hdiv := slotOf_inj (Prod.mk.inj hpair).2
        unfold BSIZE at *
        omega
    · omega
  · intro h0
    rw [hptr]
    exact (hlh a).mpr (.inl (hw.fresh _ h0 hne))

theorem wp_writei (hE : ∀ e, LogFull e → E e) (hc : Consistent sb s.blk) (hl : Loaded sb s ip) :
    wp (writei sb pagetable mem ip userSrc src off n) (fun r u =>
      ((BadRange (s.itable ip).d.size off n ∧ r = -1 ∧ u = s) ∨
      (¬ BadRange (s.itable ip).d.size off n ∧ ∃ k ≤ n.toNat, r = k ∧
        (∀ i < k, Vm.canLoad mem pagetable userSrc (src+i)) ∧
        (WriteDone sb ip (srcBytes mem pagetable userSrc src) off.toNat n.toNat k s u ∨
         WriteFault sb mem pagetable ip userSrc src off.toNat n.toNat k s u))) ∧
      Elsewhere sb (s.itable ip).inum s u) E s := by
  have hs := hl.serving hc
  rw [writei,wp_bind,wp_get]
  by_cases hbad : BadRange (s.itable ip).d.size off n
  · by_cases h1 : (s.itable ip).d.size < off ∨ off+n < off
    · rw [if_pos h1]
      exact ⟨.inl ⟨hbad,rfl,rfl⟩,fun _ _ => rfl⟩
    · have h2 : MAXFILE*BSIZE < (off+n).toNat := by
        unfold BadRange at hbad
        tauto
      rw [if_neg h1,if_pos h2]
      exact ⟨.inl ⟨hbad,rfl,rfl⟩,fun _ _ => rfl⟩
  have h1 : ¬ ((s.itable ip).d.size < off ∨ off+n < off) := fun h => hbad (by
    unfold BadRange
    tauto)
  have h2 : ¬ MAXFILE*BSIZE < (off+n).toNat := fun h => hbad (.inr (.inr h))
  have hsum := toNat_add_of_not_lt fun h => h1 (.inr h)
  have hle : off.toNat ≤ (s.itable ip).d.size.toNat := by
    have hnot : ¬ (s.itable ip).d.size < off := fun h => h1 (.inl h)
    rw [UInt32.lt_iff_toNat_lt] at hnot
    omega
  rw [if_neg h1,if_neg h2,wp_bind]
  have hstart : Written sb ip (srcBytes mem pagetable userSrc src) off.toNat 0 s s := .refl hs
  have hloop := wp_writeiLoop hE (by omega : off.toNat+n.toNat ≤ MAXFILE*BSIZE)
    (by omega : n.toNat-0 ≤ n.toNat) (Nat.zero_le _) (.inl rfl) hstart (fun b => .inl rfl)
    fun i hi => absurd hi (Nat.not_lt_zero i)
  refine wp_conseq hloop ?_
  rintro r v ⟨hr,hload,t,hw,hlog,hend⟩
  rw [wp_bind]
  change wp (iupdate sb ip >>= fun _ => pure (r : ℤ)) _ E
    (sizeUp (UInt32.ofNat (off.toNat+r)) v ip)
  rw [wp_bind]
  apply wp_iupdate hE
  have hnamed : Elsewhere sb (s.itable ip).inum s
      (flush sb (sizeUp (UInt32.ofNat (off.toNat+r)) v ip) ip) := by
    rcases hend with ⟨rfl,-⟩ | hfault
    · exact hw.finish_named hc hl _
    · exact (hfault.written hw).finish_named hc hl _
  refine ⟨.inr ⟨hbad,r,hr,rfl,hload,?_⟩,hnamed⟩
  rcases hend with ⟨rfl,hend⟩ | hfault
  · have hfin := hw.finish hc hl le_rfl hle (by omega)
    refine .inl ⟨hfin,?_,?_⟩
    · exact hlog.trans (.logged _ _ _) fun b hb => mem_recordBlock.mpr (.inl hb)
    · refine hend.imp id ?_
      rintro ⟨halign,hfull,hzero⟩
      refine ⟨halign,?_,?_⟩
      · intro b hb
        rw [flush_bit (by simpa using hw.serving.inum_lt)]
        exact hfull b hb
      · rw [flush_itable,sizeUp_self,hw.serving.end_ptr,hzero]
  · exact .inr ⟨hfault.lt,hfault.aligned,hfault.short,
      (hfault.written hw).finish hc hl (Nat.le_add_right _ _) hle (by omega),
      hfault.spoiled hs hw hlog _⟩

end WriteiSpec
/-- The start of the piece in which byte `l` of a write at `off` falls. -/
def pieceStart (off l : ℕ) : ℕ := l-min l ((off+l)%BSIZE)

/-- The pointers that a write at `off` goes through up to its byte `k`. -/
def needed (off k : ℕ) : Finset ℕ :=
  (Finset.Icc (off/BSIZE) ((off+k)/BSIZE)).image slotOf ∪
    if NDIRECT ≤ (off+k)/BSIZE then {NDIRECT} else ∅

def missing (s : Fs) (ip off k : ℕ) : Finset ℕ :=
  (needed off k).filter fun j => ptr s.blk (s.itable ip).d j = 0

section Pieces

variable {off k l : ℕ}

theorem mem_needed {j : ℕ} : j ∈ needed off k ↔
    ∃ bn, off/BSIZE ≤ bn ∧ bn ≤ (off+k)/BSIZE ∧ Through bn j := by
  have hle : off/BSIZE ≤ (off+k)/BSIZE := Nat.div_le_div_right (Nat.le_add_right _ _)
  simp only [needed,Finset.mem_union,Finset.mem_image,Finset.mem_Icc]
  constructor
  · rintro (⟨bn,⟨hl,hr⟩,rfl⟩ | hj)
    · exact ⟨bn,hl,hr,.inl rfl⟩
    · split at hj
      case isTrue hind => exact ⟨_,hle,le_rfl,.inr ⟨Finset.mem_singleton.mp hj,hind⟩⟩
      case isFalse => simp at hj
  · rintro ⟨bn,hl,hr,rfl | ⟨rfl,hind⟩⟩
    · exact .inl ⟨bn,⟨hl,hr⟩,rfl⟩
    · right
      rw [if_pos (hind.trans hr)]
      exact Finset.mem_singleton_self _

theorem le_pieceStart (halign : k = 0 ∨ (off+k)%BSIZE = 0) (hk : k ≤ l) :
    k ≤ pieceStart off l := by
  unfold pieceStart BSIZE at *
  omega

end Pieces

section Wrote

variable {sb : Geometry} {s u : Fs} {ip off n r tot k : ℕ} {src : Mem}

theorem Wrote.card_newSlots (h : Wrote sb ip src off r tot s u) :
    (freeBlocks sb u.blk).card+(newSlots ip s u).card = (freeBlocks sb s.blk).card := by
  have hsub : mappedSlots s.blk (s.itable ip).d ⊆ mappedSlots u.blk (u.itable ip).d := by
    intro j hj
    simp only [mappedSlots,Finset.mem_filter] at hj ⊢
    rw [h.keep_self j hj.2]
    exact hj
  have hcard := Finset.card_sdiff_add_card_eq_card hsub
  have hbal := h.balance
  unfold newSlots
  omega

theorem Wrote.newSlots_subset (h : Wrote sb ip src off r tot s u)
    (hk : (off+tot)/BSIZE ≤ (off+k)/BSIZE) : newSlots ip s u ⊆ missing s ip off k := by
  intro j hj
  obtain ⟨hu,hs⟩ := mem_newSlots.mp hj
  obtain ⟨bn,hl,hr,hthrough⟩ := h.fills j hs hu
  exact Finset.mem_filter.mpr ⟨mem_needed.mpr ⟨bn,hl,hr.trans hk,hthrough⟩,hs⟩

/-- A write that has got past its byte `k` had the blocks for it. -/
theorem Wrote.missing_le (h : Wrote sb ip src off r tot s u) (hk : k ≤ tot)
    (hlast : ptr u.blk (u.itable ip).d (slotOf ((off+k)/BSIZE)) ≠ 0) :
    (missing s ip off k).card ≤ (freeBlocks sb s.blk).card := by
  have hsub : missing s ip off k ⊆ newSlots ip s u := by
    intro j hj
    obtain ⟨hneed,hs⟩ := Finset.mem_filter.mp hj
    obtain ⟨bn,hl,hr,hthrough⟩ := mem_needed.mp hneed
    have hbn : ptr u.blk (u.itable ip).d (slotOf bn) ≠ 0 := by
      by_cases hend : bn = (off+k)/BSIZE
      · rw [hend]
        exact hlast
      · have hmapped := h.mapped (max off (bn*BSIZE)) (le_max_left _ _) (by
          unfold BSIZE at *
          omega)
        rwa [show max off (bn*BSIZE)/BSIZE = bn by unfold BSIZE at *; omega] at hmapped
    refine mem_newSlots.mpr ⟨?_,hs⟩
    rcases hthrough with rfl | ⟨rfl,hind⟩
    · exact hbn
    · intro h0
      rw [ptr_indirect] at h0
      have hslot : NDIRECT < slotOf bn := by
        rw [slotOf,if_neg (not_lt.mpr hind)]
        omega
      exact hbn (ptr_eq_zero_of_no_indirect hslot (UInt32.toNat_inj.mp h0))
  have hcard := h.card_newSlots
  have hle := Finset.card_le_card hsub
  omega

/-- A write that ends early without a failed copy has used up the free blocks. -/
theorem WriteDone.no_room {srcb : Mem} (h : WriteDone sb ip srcb off n k s u) (hkn : k ≠ n)
    {l : ℕ} (hkl : k ≤ l) :
    (freeBlocks sb s.blk).card < (missing s ip off (pieceStart off l)).card := by
  obtain ⟨halign,hfull,hzero⟩ := h.full.resolve_left hkn
  have hle : (off+k)/BSIZE ≤ (off+pieceStart off l)/BSIZE :=
    Nat.div_le_div_right (Nat.add_le_add_left (le_pieceStart halign hkl) off)
  have hnone : (freeBlocks sb u.blk).card = 0 := by
    rw [Finset.card_eq_zero,freeBlocks,Finset.filter_eq_empty_iff]
    intro b hb
    rw [hfull b (Finset.mem_range.mp hb)]
    simp
  have hold : ptr s.blk (s.itable ip).d (slotOf ((off+k)/BSIZE)) = 0 := by
    by_contra hne
    rw [h.wrote.keep_self _ hne] at hzero
    exact hne hzero
  -- the pointer that could not be set is needed and not new
  have hlt : (newSlots ip s u).card < (missing s ip off (pieceStart off l)).card := by
    apply Finset.card_lt_card
    refine ⟨h.wrote.newSlots_subset hle,fun hsub => ?_⟩
    have hmem : slotOf ((off+k)/BSIZE) ∈ missing s ip off (pieceStart off l) :=
      Finset.mem_filter.mpr ⟨mem_needed.mpr ⟨_,Nat.div_le_div_right (Nat.le_add_right _ _),hle,
        .inl rfl⟩,hold⟩
    exact (mem_newSlots.mp (hsub hmem)).1 hzero
  have hcard := h.wrote.card_newSlots
  omega

end Wrote

end Fs
end Xv6
