import Xv6.FileArray

/-! Writes whose source is partly unmapped. `writei` stores what it can load of a block into the
cached buffer, and releases the buffer without logging it when the copy fails. The bytes stored
before the failure are not reported; this module says exactly when they can be seen. -/
namespace Xv6
namespace Fs

open Bytes Command Vm

def Clean (s : Fs) : Prop := ∀ b ∉ s.lh, s.blk b = s.disk b

/-- The state after the buffers of the blocks in `W` have been evicted and read again. The log
pins the buffers of its blocks. -/
def reread (W : ℕ → Bool) (u : Fs) : Fs :=
  {u with blk := fun b => if W b = true ∧ b ∉ u.lh then u.disk b else u.blk b}

theorem reread_of_clean {u : Fs} (h : Clean u) (W : ℕ → Bool) : (reread W u).blk = u.blk := by
  funext b
  simp only [reread]
  split
  case isTrue hb => exact (h b hb.2).symm
  case isFalse => rfl

/-- A write at `off` that returned `r` has changed nothing it does not report: the bytes outside
`[off,off+r)` below the new size, cached or read again, and the blocks outside the log. -/
structure Unseen (ip off : ℕ) (r : ℤ) (s u : Fs) : Prop where
  bytes : ∀ W p, p < (u.itable ip).d.size.toNat → (p < off ∨ off+r ≤ p) →
    content (reread W u).blk (u.itable ip).d p = content s.blk (s.itable ip).d p
  clean : Clean u

/-- Byte `p` would be seen to change: it is in the file, or its block is on disk and not in the
log. -/
def Exposed (s : Fs) (ip p : ℕ) : Prop :=
  p < (s.itable ip).d.size.toNat ∨
    (ptr s.blk (s.itable ip).d (slotOf (p/BSIZE)) ≠ 0 ∧
      ptr s.blk (s.itable ip).d (slotOf (p/BSIZE)) ∉ s.lh)

/-- A write whose source has a byte that cannot be loaded, the disk having room for the piece in
which that byte falls, and an earlier byte of that piece that is new and exposed. -/
structure Torn (sb : Geometry) (s : Fs) (ip : ℕ) (mem : Mem) (pagetable : ℕ) (userSrc : Bool)
    (src : ℕ) (off n : UInt32) : Prop where
  accepted : ¬ BadRange (s.itable ip).d.size off n
  short : Vm.loadable mem pagetable userSrc src n.toNat < n.toNat
  room : (missing s ip off.toNat
      (pieceStart off.toNat (Vm.loadable mem pagetable userSrc src n.toNat))).card ≤
    (freeBlocks sb s.blk).card
  byte : ∃ i, pieceStart off.toNat (Vm.loadable mem pagetable userSrc src n.toNat) ≤ i ∧
    i < Vm.loadable mem pagetable userSrc src n.toNat ∧ Exposed s ip (off.toNat+i) ∧
    srcBytes mem pagetable userSrc src i ≠ content s.blk (s.itable ip).d (off.toNat+i)

section Pieces

variable {off k l : ℕ}

theorem pieceStart_eq {i : ℕ} (halign : k = 0 ∨ (off+k)%BSIZE = 0)
    (hi : (off+k)%BSIZE+i < BSIZE) : pieceStart off (k+i) = k := by
  unfold pieceStart BSIZE at *
  omega

end Pieces

section

variable {sb : Geometry} {s u : Fs} {ip : ℕ} {mem : Mem} {pagetable : ℕ} {userSrc : Bool}
  {src off n k : ℕ}

theorem WriteDone.unseen (hclean : Clean s) {srcb : Mem}
    (h : WriteDone sb ip srcb off n k s u) : Unseen ip off k s u := by
  have hu : Clean u := by
    intro b hb
    rcases h.logs b with heq | hin
    · rw [heq,h.wrote.disk_eq]
      exact hclean b fun hs => hb (h.wrote.lh_mono b hs)
    · exact absurd hin hb
  refine ⟨?_,hu⟩
  intro W p _ hout
  rw [reread_of_clean hu,h.wrote.content_self,blit_outside (by omega)]

namespace WriteFault

variable (h : WriteFault sb mem pagetable ip userSrc src off n k s u)

include h

theorem in_block {i : ℕ} (hi : i ≤ stored mem pagetable userSrc src n off k) :
    (off+k)%BSIZE+i < BSIZE ∧ (off+(k+i))/BSIZE = (off+k)/BSIZE ∧
      (off+(k+i))%BSIZE = (off+k)%BSIZE+i := by
  have hmod : (off+k)%BSIZE < BSIZE := Nat.mod_lt _ (by decide)
  have hshort := h.short
  unfold piece at hshort
  unfold BSIZE at *
  omega

theorem loadable_eq (hload : ∀ i < k, Vm.canLoad mem pagetable userSrc (src+i)) :
    Vm.loadable mem pagetable userSrc src n = k+stored mem pagetable userSrc src n off k := by
  have hshort := h.short
  have hpiece : piece n off k ≤ n-k := Nat.min_le_left _ _
  rw [Vm.loadable_add hload h.lt.le]
  congr 1
  exact Vm.loadable_of_short hshort hpiece

theorem pieceStart_eq_self (hload : ∀ i < k, Vm.canLoad mem pagetable userSrc (src+i)) :
    pieceStart off (Vm.loadable mem pagetable userSrc src n) = k := by
  rw [h.loadable_eq hload]
  exact pieceStart_eq h.aligned (h.in_block le_rfl).1

theorem room : (missing s ip off k).card ≤ (freeBlocks sb s.blk).card :=
  h.wrote.missing_le (Nat.le_add_right k _) h.spoiled.ne

/-- What the failed copy stored is unseen if it is old wherever it is exposed. -/
theorem unseen_iff (hclean : Clean s) : Unseen ip off k s u ↔
    ∀ i < stored mem pagetable userSrc src n off k, Exposed s ip (off+(k+i)) →
      srcBytes mem pagetable userSrc src (k+i) = content s.blk (s.itable ip).d (off+(k+i)) := by
  have hw := h.wrote
  have hsp := h.spoiled
  set a := ptr u.blk (u.itable ip).d (slotOf ((off+k)/BSIZE)) with ha
  have hdiskeq : ∀ b ∉ u.lh, s.blk b = u.disk b := by
    intro b hb
    rw [hw.disk_eq]
    exact hclean b fun hs => hb (hw.lh_mono b hs)
  have hcontent : ∀ i < stored mem pagetable userSrc src n off k,
      ptr s.blk (s.itable ip).d (slotOf ((off+k)/BSIZE)) ≠ 0 →
      content s.blk (s.itable ip).d (off+(k+i)) =
        s.blk (ptr s.blk (s.itable ip).d (slotOf ((off+k)/BSIZE))) ((off+k)%BSIZE+i) := by
    intro i hi hne
    obtain ⟨-,hdiv,hmod⟩ := h.in_block hi.le
    rw [content,hdiv,hmod,if_neg hne]
  constructor
  · intro hun i hi hseen
    have hnew : content u.blk (u.itable ip).d (off+(k+i)) =
        srcBytes mem pagetable userSrc src (k+i) := by
      rw [hw.content_self,blit_inside (by omega) (by omega),Nat.add_sub_cancel_left]
    rcases hseen with hin | ⟨hne,hnot⟩
    · have hsame := hun.bytes (fun _ => false) (off+(k+i)) (by rw [hw.size_eq]; omega)
        (.inr (by omega))
      rw [reread_of_clean hun.clean,hnew] at hsame
      exact hsame
    · rw [(h.in_block hi.le).2.1] at hne hnot
      obtain ⟨hptr,hlog⟩ := hsp.old hne
      have hau : a ∉ u.lh := fun hin => hnot (by rw [← hptr]; exact hlog hin)
      have hblock := hsp.block hau
      rw [hun.clean a hau,← hdiskeq a hau] at hblock
      have hbyte := congrFun hblock ((off+k)%BSIZE+i)
      rw [blit_inside (by omega) (by omega),Nat.add_sub_cancel_left] at hbyte
      rw [hcontent i hi hne,← hbyte,ha,hptr]
  · intro hold
    have hu : Clean u := by
      intro b hb
      by_cases hba : b = a
      · subst hba
        have hne : ptr s.blk (s.itable ip).d (slotOf ((off+k)/BSIZE)) ≠ 0 :=
          fun h0 => hb (hsp.new h0)
        obtain ⟨hptr,-⟩ := hsp.old hne
        have hnot : a ∉ s.lh := fun hs => hb (hw.lh_mono a hs)
        rw [hsp.block hb,← hdiskeq a hb]
        funext j
        by_cases hj : (off+k)%BSIZE ≤ j ∧
            j < (off+k)%BSIZE+stored mem pagetable userSrc src n off k
        · have hi : j-(off+k)%BSIZE < stored mem pagetable userSrc src n off k := by omega
          have hexp : Exposed s ip (off+(k+(j-(off+k)%BSIZE))) := by
            right
            rw [(h.in_block hi.le).2.1]
            exact ⟨hne,by rwa [← hptr]⟩
          rw [blit_inside hj.1 hj.2,hold _ hi hexp,hcontent _ hi hne,← hptr,
            Nat.add_sub_cancel' hj.1]
        · rw [blit_outside (by omega)]
      · rcases hsp.logs b hba with heq | hin
        · rw [heq]
          exact hdiskeq b hb
        · exact absurd hin hb
    refine ⟨?_,hu⟩
    intro W p hp hout
    rw [reread_of_clean hu,hw.content_self]
    rw [hw.size_eq] at hp
    by_cases hin : off+k ≤ p ∧ p < off+(k+stored mem pagetable userSrc src n off k)
    · have hp' : off+(k+(p-(off+k))) = p := by omega
      have hbyte := hold (p-(off+k)) (by omega) (.inl (by omega))
      rw [hp'] at hbyte
      rw [blit_inside (by omega) hin.2,← hbyte]
      congr 1
      omega
    · rw [blit_outside (by omega)]

end WriteFault
end

/-- A write is unseen outside the bytes it reports exactly if it is not torn. -/
theorem write_unseen_iff_not_torn {sb : Geometry} {s : Fs} {ip : ℕ} {mem : Mem}
    {pagetable : ℕ} {userSrc : Bool} {src : ℕ} {off n : UInt32} (hc : Consistent sb s.blk)
    (hl : Loaded sb s ip) (hclean : Clean s) :
    wp (writei sb pagetable mem ip userSrc src off n)
      (fun r u => Unseen ip off.toNat r s u ↔
        ¬ Torn sb s ip mem pagetable userSrc src off n)
      (fun e => LogFull e ∧ ¬ Room sb s (writeiRoom off.toNat n.toNat)) s := by
  have hspec : wp (writei sb pagetable mem ip userSrc src off n)
      (fun r u => Unseen ip off.toNat r s u ↔
        ¬ Torn sb s ip mem pagetable userSrc src off n) LogFull s := by
    refine wp_conseq (wp_writei (fun _ h => h) hc hl) ?_
    rintro r u ⟨⟨hbad,rfl,rfl⟩ | ⟨hgood,k,hk,rfl,hload,hdone | hfault⟩,-⟩
    · refine iff_of_true ⟨fun W p _ _ => ?_,hclean⟩ fun ht => ht.accepted hbad
      rw [reread_of_clean hclean]
    · refine iff_of_true (hdone.unseen hclean) fun ht => ?_
      by_cases hkn : k = n.toNat
      · have hall := Vm.loadable_eq_self (hkn ▸ hload)
        exact absurd ht.short (by omega)
      · have hkl : k ≤ Vm.loadable mem pagetable userSrc src n.toNat := by
          rw [Vm.loadable_add hload hk]
          exact Nat.le_add_right _ _
        exact absurd ht.room (not_le.mpr (hdone.no_room hkn hkl))
    · have hL := hfault.loadable_eq hload
      have hstart := hfault.pieceStart_eq_self hload
      have hle := hfault.short.le.trans (Nat.min_le_left _ _)
      rw [hfault.unseen_iff hclean]
      constructor
      · intro hold ht
        obtain ⟨i,hl,hr,hexp,hne⟩ := ht.byte
        rw [hstart] at hl
        rw [hL] at hr
        have hi : k+(i-k) = i := by omega
        have hh := hold (i-k) (by omega)
        rw [hi] at hh
        exact hne (hh hexp)
      · intro ht i hi hexp
        by_contra hne
        refine ht ⟨hgood,?_,?_,k+i,?_,?_,hexp,hne⟩
        · rw [hL]
          have hshort := hfault.short
          have hlt := hfault.lt
          unfold piece at hshort
          omega
        · rw [hstart]
          exact hfault.room
        · rw [hstart]
          exact Nat.le_add_right _ _
        · rw [hL]
          omega
  by_cases hroom : Room sb s (writeiRoom off.toNat n.toNat)
  · refine wp_mono (wp_and hspec (spends_writei s 0 (hroom.mono (Nat.zero_add _).le))) ?_ ?_
    · exact fun _ _ h => h.1
    · exact fun _ h => absurd h.1 h.2
  · exact wp_mono hspec (fun _ _ h => h) fun _ h => ⟨h,hroom⟩

theorem write_unseen_iff_not_torn_onePage :
    wp (writei Mkfs.geometry 4096 onePage 0 true 4095 0 2)
      (fun r u => Unseen 0 0 r rootLoaded u ↔
        ¬ Torn Mkfs.geometry rootLoaded 0 onePage 4096 true 4095 0 2)
      (fun _ => False) rootLoaded := by
  have hc : Consistent Mkfs.geometry rootLoaded.blk := Mkfs.rootImage_consistent
  have hroom : Room Mkfs.geometry rootLoaded (writeiRoom 0 2) := ⟨by decide,by decide,by decide⟩
  exact wp_mono (write_unseen_iff_not_torn hc (rootLoaded_loaded 0) fun _ _ => rfl)
    (fun _ _ h => h) fun _ h => h.2 hroom

/-- Two bytes at the end of the only page, over the start of the root directory. Nothing is
reported as written, but the first byte of the directory is 65 in the cache and 1 on disk. -/
theorem torn_write_seen : ∃ u, (writei Mkfs.geometry 4096 onePage 0 true 4095 0 2).run rootLoaded =
    .ok (0,u) ∧ ¬ Unseen 0 0 0 rootLoaded u := by
  have h : wp (writei Mkfs.geometry 4096 onePage 0 true 4095 0 2) (fun r u => r = 0 ∧
      46 ∉ u.lh ∧ u.blk 46 0 = 65 ∧ u.disk 46 0 = 1) (fun _ => False) rootLoaded := by
    decide +kernel
  cases hrun : (writei Mkfs.geometry 4096 onePage 0 true 4095 0 2).run rootLoaded with
  | error e => exact (wp_error h hrun).elim
  | ok res =>
    obtain ⟨r,u⟩ := res
    obtain ⟨rfl,hlh,hblk,hdisk⟩ := wp_ok h hrun
    refine ⟨u,rfl,fun hun => ?_⟩
    have hclean := congrFun (hun.clean 46 hlh) 0
    rw [hblk,hdisk] at hclean
    exact absurd hclean (by decide)

end Fs
end Xv6
