import Xv6.TreeOps
import Xv6.Readi

/-! The in-memory inode table between the steps of a call. Every slot is referenced as often as it
occurs in a multiset of holders, no inode is in two slots, and a valid slot shows the inode as it is
on disk. One rule for each function on the table says how the holders, the locks and the tree
change. -/
namespace Xv6
namespace Fs

open Bytes Command ByteFile

/-- Slots are referenced as often as they occur in `F`; those in `L` are locked. -/
structure Wf (sb : Geometry) (s : Fs) (F : Multiset ℕ) (L : Finset ℕ) : Prop where
  disk : Consistent sb s.blk
  range : InRange sb (tree sb s.blk)
  refs : ∀ k, (s.itable k).ref = F.count k
  locks : ∀ k, (s.itable k).locked = true ↔ k ∈ L
  held : ∀ k ∈ L, k ∈ F
  slot_lt : ∀ k ∈ F, k < NINODE
  dev : ∀ k ∈ F, (s.itable k).dev = ROOTDEV
  inum_lt : ∀ k ∈ F, (s.itable k).inum < sb.ninodes
  inj : ∀ k ∈ F, ∀ l ∈ F, (s.itable k).inum = (s.itable l).inum → k = l
  valid : ∀ k ∈ F, (s.itable k).valid = true →
    (s.itable k).d = dinodeOf sb s.blk (s.itable k).inum ∧ (s.itable k).d.type ≠ 0
  locked_valid : ∀ k ∈ L, (s.itable k).valid = true

/-- The slots in `F` still hold the same inodes, those that were valid as valid ones of the same
type. -/
structure Kept (F : Multiset ℕ) (s t : Fs) : Prop where
  inum : ∀ k ∈ F, (t.itable k).inum = (s.itable k).inum
  valid : ∀ k ∈ F, (s.itable k).valid = true →
    (t.itable k).valid = true ∧ (t.itable k).d.type = (s.itable k).d.type

def Held (F : Multiset ℕ) (s : Fs) (i : ℕ) : Prop := ∃ k ∈ F, (s.itable k).inum = i

namespace Kept

variable {F G : Multiset ℕ} {s t u : Fs}

theorem refl (F : Multiset ℕ) (s : Fs) : Kept F s s := ⟨fun _ _ => rfl,fun _ _ h => ⟨h,rfl⟩⟩

theorem trans (h : Kept F s t) (h' : Kept F t u) : Kept F s u where
  inum k hk := (h'.inum k hk).trans (h.inum k hk)
  valid k hk hv := by
    obtain ⟨ht,htype⟩ := h.valid k hk hv
    obtain ⟨hu,hutype⟩ := h'.valid k hk ht
    exact ⟨hu,hutype.trans htype⟩

theorem mono (h : Kept F s t) (hG : ∀ k ∈ G, k ∈ F) : Kept G s t where
  inum k hk := h.inum k (hG k hk)
  valid k hk := h.valid k (hG k hk)

theorem of_cons {k : ℕ} (h : Kept (k ::ₘ F) s t) : Kept F s t :=
  h.mono fun _ hl => Multiset.mem_cons_of_mem hl

theorem held (h : Kept F s t) {i : ℕ} : Held F t i ↔ Held F s i := by
  constructor
  · rintro ⟨k,hk,hi⟩
    exact ⟨k,hk,by rw [← h.inum k hk,hi]⟩
  · rintro ⟨k,hk,hi⟩
    exact ⟨k,hk,by rw [h.inum k hk,hi]⟩

end Kept

section SetInode

variable {s : Fs} {ip k : ℕ} {n : Inode}

@[simp] theorem setInode_blk : (s.setInode ip n).blk = s.blk := rfl
@[simp] theorem setInode_self : (s.setInode ip n).itable ip = n := by simp [setInode]
theorem setInode_ne (h : k ≠ ip) : (s.setInode ip n).itable k = s.itable k := by
  simp [setInode,h]

end SetInode

namespace Wf

variable {sb : Geometry} {s t : Fs} {F : Multiset ℕ} {L M : Finset ℕ} {ip : ℕ}

theorem ref_pos (h : Wf sb s F L) (hip : ip ∈ F) : 0 < (s.itable ip).ref := by
  rw [h.refs]
  exact_mod_cast Multiset.count_pos.mpr hip

theorem mem_of_ref_pos (h : Wf sb s F L) (hip : 0 < (s.itable ip).ref) : ip ∈ F := by
  rw [h.refs] at hip
  exact Multiset.count_pos.mp (by exact_mod_cast hip)

theorem loaded_of_valid (h : Wf sb s F L) (hip : ip ∈ F) (hv : (s.itable ip).valid = true) :
    Loaded sb s ip :=
  ⟨h.inum_lt ip hip,(h.valid ip hip hv).1,(h.valid ip hip hv).2⟩

theorem loaded (h : Wf sb s F L) (hip : ip ∈ L) : Loaded sb s ip :=
  h.loaded_of_valid (h.held ip hip) (h.locked_valid ip hip)

theorem sized (h : Wf sb s F L) (hip : ip ∈ L) : Sized s.blk (s.itable ip).d := by
  have hl := h.loaded hip
  have hsz := h.disk.sized _ hl.inum_lt (by rw [← hl.same]; exact hl.typed)
  rwa [← hl.same] at hsz

theorem congr (h : Wf sb s F L) (hblk : t.blk = s.blk) (htab : t.itable = s.itable) :
    Wf sb t F L where
  disk := hblk ▸ h.disk
  range := hblk ▸ h.range
  refs := htab ▸ h.refs
  locks := htab ▸ h.locks
  held := h.held
  slot_lt := h.slot_lt
  dev := htab ▸ h.dev
  inum_lt := htab ▸ h.inum_lt
  inj := htab ▸ h.inj
  valid := by
    rw [hblk,htab]
    exact h.valid
  locked_valid := htab ▸ h.locked_valid

/-- Blocks and one slot in use change: the other slots still show their inodes. -/
theorem update (h : Wf sb s F L) (hip : ip ∈ F) (hc : Consistent sb t.blk)
    (hrange : InRange sb (tree sb t.blk)) (hne : ∀ k, k ≠ ip → t.itable k = s.itable k)
    (hdin : ∀ j < sb.ninodes, j ≠ (s.itable ip).inum → dinodeOf sb t.blk j = dinodeOf sb s.blk j)
    (hself : (t.itable ip).ref = (s.itable ip).ref ∧ (t.itable ip).dev = (s.itable ip).dev ∧
      (t.itable ip).inum = (s.itable ip).inum)
    (hvalid : (t.itable ip).valid = true →
      (t.itable ip).d = dinodeOf sb t.blk (t.itable ip).inum ∧ (t.itable ip).d.type ≠ 0)
    (hL : ∀ k, k ≠ ip → (k ∈ M ↔ k ∈ L)) (hlock : (t.itable ip).locked = true ↔ ip ∈ M)
    (hlv : ip ∈ M → (t.itable ip).valid = true) : Wf sb t F M := by
  obtain ⟨href,hdev,hinum⟩ := hself
  have hfix : ∀ k, (t.itable k).ref = (s.itable k).ref ∧ (t.itable k).dev = (s.itable k).dev ∧
      (t.itable k).inum = (s.itable k).inum := by
    intro k
    by_cases hk : k = ip
    · rw [hk]
      exact ⟨href,hdev,hinum⟩
    · rw [hne k hk]
      exact ⟨rfl,rfl,rfl⟩
  exact {
    disk := hc
    range := hrange
    refs := fun k => by rw [(hfix k).1,h.refs]
    locks := by
      intro k
      by_cases hk : k = ip
      · rw [hk]
        exact hlock
      · rw [hne k hk,h.locks,hL k hk]
    held := by
      intro k hk
      by_cases hki : k = ip
      · rwa [hki]
      · exact h.held k ((hL k hki).mp hk)
    slot_lt := h.slot_lt
    dev := fun k hk => by rw [(hfix k).2.1,h.dev k hk]
    inum_lt := fun k hk => by rw [(hfix k).2.2]; exact h.inum_lt k hk
    inj := fun k hk l hl heq => by
      rw [(hfix k).2.2,(hfix l).2.2] at heq
      exact h.inj k hk l hl heq
    valid := by
      intro k hk hv
      by_cases hki : k = ip
      · rw [hki] at hv ⊢
        exact hvalid hv
      · have hother : (s.itable k).inum ≠ (s.itable ip).inum :=
          fun heq => hki (h.inj k hk ip hip heq)
        rw [hne k hki] at hv ⊢
        rw [hdin _ (h.inum_lt k hk) hother]
        exact h.valid k hk hv
    locked_valid := by
      intro k hk
      by_cases hki : k = ip
      · rw [hki]
        exact hlv (hki ▸ hk)
      · rw [hne k hki]
        exact h.locked_valid k ((hL k hki).mp hk) }

theorem update_valid (h : Wf sb s F L) (hip : ip ∈ F) (hc : Consistent sb t.blk)
    (hrange : InRange sb (tree sb t.blk)) {d : Dinode}
    (htab : t.itable = Function.update s.itable ip {s.itable ip with d := d})
    (hdin : ∀ j < sb.ninodes, j ≠ (s.itable ip).inum → dinodeOf sb t.blk j = dinodeOf sb s.blk j)
    (hd : d = dinodeOf sb t.blk (s.itable ip).inum) (htype : d.type = (s.itable ip).d.type) :
    Wf sb t F L ∧ Kept F s t := by
  have hself : t.itable ip = {s.itable ip with d := d} := by rw [htab,Function.update_self]
  have hne : ∀ k, k ≠ ip → t.itable k = s.itable k := fun k hk => by
    rw [htab,Function.update_of_ne hk]
  constructor
  · refine h.update hip hc hrange hne hdin ?_ ?_ (fun _ _ => Iff.rfl) ?_ ?_
    · rw [hself]
      exact ⟨rfl,rfl,rfl⟩
    · rw [hself]
      intro hv
      exact ⟨hd,by rw [htype]; exact (h.valid ip hip hv).2⟩
    · rw [hself]
      exact h.locks ip
    · rw [hself]
      exact h.locked_valid ip
  · constructor
    · intro k _
      by_cases hk : k = ip
      · rw [hk,hself]
      · rw [hne k hk]
    · intro k _ hv
      by_cases hk : k = ip
      · rw [hk] at hv ⊢
        rw [hself]
        exact ⟨hv,htype⟩
      · rw [hne k hk]
        exact ⟨hv,rfl⟩

end Wf

section References

variable {sb : Geometry} {E : FsPanic → Prop} {s : Fs} {F G : Multiset ℕ} {L : Finset ℕ} {ip : ℕ}

/-- Only the reference count of one slot changes, and every slot stays in use that has to. -/
theorem Wf.withRef (h : Wf sb s F L) {r : ℤ} (hG : ∀ k ∈ G, k ∈ F) (hL : ∀ k ∈ L, k ∈ G)
    (hr : r = G.count ip) (hne : ∀ k, k ≠ ip → G.count k = F.count k) :
    Wf sb (s.setInode ip {s.itable ip with ref := r}) G L ∧
      Kept F s (s.setInode ip {s.itable ip with ref := r}) := by
  set t := s.setInode ip {s.itable ip with ref := r} with ht
  have hsame : ∀ k, (t.itable k).dev = (s.itable k).dev ∧ (t.itable k).inum = (s.itable k).inum ∧
      (t.itable k).locked = (s.itable k).locked ∧ (t.itable k).valid = (s.itable k).valid ∧
      (t.itable k).d = (s.itable k).d := by
    intro k
    by_cases hk : k = ip
    · rw [hk,ht,setInode_self]
      exact ⟨rfl,rfl,rfl,rfl,rfl⟩
    · rw [ht,setInode_ne hk]
      exact ⟨rfl,rfl,rfl,rfl,rfl⟩
  refine ⟨?_,⟨fun k _ => (hsame k).2.1,
    fun k _ hv => ⟨by rw [(hsame k).2.2.2.1,hv],by rw [(hsame k).2.2.2.2]⟩⟩⟩
  exact {
    disk := h.disk
    range := h.range
    refs := by
      intro k
      by_cases hk : k = ip
      · rw [hk,ht,setInode_self]
        exact hr
      · rw [ht,setInode_ne hk,h.refs,hne k hk]
    locks := fun k => by rw [(hsame k).2.2.1,h.locks]
    held := hL
    slot_lt := fun k hk => h.slot_lt k (hG k hk)
    dev := fun k hk => by rw [(hsame k).1,h.dev k (hG k hk)]
    inum_lt := fun k hk => by rw [(hsame k).2.1]; exact h.inum_lt k (hG k hk)
    inj := fun k hk l hl heq => by
      rw [(hsame k).2.1,(hsame l).2.1] at heq
      exact h.inj k (hG k hk) l (hG l hl) heq
    valid := fun k hk hv => by
      rw [(hsame k).2.2.2.1] at hv
      rw [(hsame k).2.2.2.2,(hsame k).2.1]
      exact h.valid k (hG k hk) hv
    locked_valid := fun k hk => by rw [(hsame k).2.2.2.1,h.locked_valid k hk] }

theorem Wf.addRef (h : Wf sb s F L) (hip : ip ∈ F) :
    Wf sb (s.setInode ip {s.itable ip with ref := (s.itable ip).ref+1}) (ip ::ₘ F) L ∧
      Kept F s (s.setInode ip {s.itable ip with ref := (s.itable ip).ref+1}) := by
  apply h.withRef
  · intro k hk
    rcases Multiset.mem_cons.mp hk with rfl | hk
    · exact hip
    · exact hk
  · exact fun k hk => Multiset.mem_cons_of_mem (h.held k hk)
  · rw [h.refs,Multiset.count_cons_self]
    rfl
  · exact fun k hk => Multiset.count_cons_of_ne hk F

theorem Wf.dropRef (h : Wf sb s (ip ::ₘ F) L) (hip : ip ∈ L → ip ∈ F) :
    Wf sb (s.setInode ip {s.itable ip with ref := (s.itable ip).ref-1}) F L ∧
      Kept F s (s.setInode ip {s.itable ip with ref := (s.itable ip).ref-1}) := by
  refine (h.withRef (fun k hk => Multiset.mem_cons_of_mem hk) ?_ ?_ ?_).imp id Kept.of_cons
  · intro k hk
    rcases Multiset.mem_cons.mp (h.held k hk) with rfl | hF
    · exact hip hk
    · exact hF
  · rw [h.refs,Multiset.count_cons_self]
    push_cast
    omega
  · exact fun k hk => (Multiset.count_cons_of_ne hk F).symm

theorem Wf.takeSlot (h : Wf sb s F L) (hlt : ip < NINODE) (hip : ip ∉ F) {inum : ℕ}
    (hinum : inum < sb.ninodes) (hnew : ∀ k ∈ F, (s.itable k).inum ≠ inum) :
    Wf sb (s.setInode ip {s.itable ip with dev := ROOTDEV, inum := inum, ref := 1, valid := false})
        (ip ::ₘ F) L ∧
      Kept F s (s.setInode ip
        {s.itable ip with dev := ROOTDEV, inum := inum, ref := 1, valid := false}) := by
  set t := s.setInode ip {s.itable ip with dev := ROOTDEV, inum := inum, ref := 1, valid := false}
    with ht
  have hself : t.itable ip =
      {s.itable ip with dev := ROOTDEV, inum := inum, ref := 1, valid := false} := setInode_self
  have hne : ∀ k ∈ F, t.itable k = s.itable k :=
    fun k hk => setInode_ne fun heq => hip (heq ▸ hk)
  have hnotL : ip ∉ L := fun hL => hip (h.held ip hL)
  refine ⟨?_,⟨fun k hk => by rw [hne k hk],fun k hk hv => by rw [hne k hk]; exact ⟨hv,rfl⟩⟩⟩
  exact {
    disk := h.disk
    range := h.range
    refs := by
      intro k
      by_cases hk : k = ip
      · rw [hk,hself,Multiset.count_cons_self,Multiset.count_eq_zero.mpr hip]
        rfl
      · rw [ht,setInode_ne hk,Multiset.count_cons_of_ne hk,h.refs]
    locks := by
      intro k
      rw [← h.locks k]
      by_cases hk : k = ip
      · rw [hk,hself]
      · rw [ht,setInode_ne hk]
    held := fun k hk => Multiset.mem_cons_of_mem (h.held k hk)
    slot_lt := by
      intro k hk
      rcases Multiset.mem_cons.mp hk with rfl | hk
      · exact hlt
      · exact h.slot_lt k hk
    dev := by
      intro k hk
      rcases Multiset.mem_cons.mp hk with rfl | hk
      · rw [hself]
      · rw [hne k hk,h.dev k hk]
    inum_lt := by
      intro k hk
      rcases Multiset.mem_cons.mp hk with rfl | hk
      · rw [hself]
        exact hinum
      · rw [hne k hk]
        exact h.inum_lt k hk
    inj := by
      intro k hk l hl heq
      rcases Multiset.mem_cons.mp hk with hki | hk <;>
        rcases Multiset.mem_cons.mp hl with hli | hl
      · rw [hki,hli]
      · rw [hki,hself,hne l hl] at heq
        exact absurd heq.symm (hnew l hl)
      · rw [hli,hself,hne k hk] at heq
        exact absurd heq (hnew k hk)
      · rw [hne k hk,hne l hl] at heq
        exact h.inj k hk l hl heq
    valid := by
      intro k hk hv
      rcases Multiset.mem_cons.mp hk with rfl | hk
      · rw [hself] at hv
        cases hv
      · rw [hne k hk] at hv ⊢
        exact h.valid k hk hv
    locked_valid := fun k hk => by rw [hne k (h.held k hk),h.locked_valid k hk] }

/-- A reference to inode `i` has been taken, at slot `ip`. -/
structure Got (sb : Geometry) (F : Multiset ℕ) (L : Finset ℕ) (i ip : ℕ) (s t : Fs) : Prop where
  wf : Wf sb t (ip ::ₘ F) L
  kept : Kept F s t
  blk : t.blk = s.blk
  inum : (t.itable ip).inum = i
  of_valid : (t.itable ip).valid = true → ip ∈ F ∧ (s.itable ip).valid = true

theorem wp_iget (hE : (∀ k < NINODE, k ∈ F) → E .igetNoInodes) (h : Wf sb s F L) {inum : ℕ}
    (hinum : inum < sb.ninodes) :
    wp (iget ROOTDEV inum) (fun r t => Got sb F L inum r s t) E s := by
  rw [iget,wp_bind,wp_get]
  split
  case h_1 ip hsome =>
    have hp := List.find?_some hsome
    simp only [decide_eq_true_eq] at hp
    obtain ⟨hwf,hkept⟩ := h.addRef (h.mem_of_ref_pos hp.1)
    rw [wp_bind]
    refine ⟨hwf,hkept,rfl,?_,?_⟩
    · change ((s.setInode ip {s.itable ip with ref := (s.itable ip).ref+1}).itable ip).inum = inum
      rw [setInode_self]
      exact hp.2.2
    · change ((s.setInode ip {s.itable ip with ref := (s.itable ip).ref+1}).itable ip).valid = true → _
      rw [setInode_self]
      exact fun hv => ⟨h.mem_of_ref_pos hp.1,hv⟩
  case h_2 hnone =>
    rw [List.find?_eq_none] at hnone
    have hnew : ∀ k ∈ F, (s.itable k).inum ≠ inum := by
      intro k hk heq
      apply hnone k (List.mem_range.mpr (h.slot_lt k hk))
      simp only [decide_eq_true_eq]
      exact ⟨h.ref_pos hk,h.dev k hk,heq⟩
    split
    case h_1 hfull =>
      refine hE fun k hk => h.mem_of_ref_pos ?_
      have hk0 := List.find?_eq_none.mp hfull k (List.mem_range.mpr hk)
      have href := h.refs k
      simp only [decide_eq_true_eq] at hk0
      omega
    case h_2 ip hsome =>
      have hlt := List.mem_range.mp (List.mem_of_find?_eq_some hsome)
      have h0 := List.find?_some hsome
      simp only [decide_eq_true_eq] at h0
      have hip : ip ∉ F := fun hip => by
        have := h.ref_pos hip
        omega
      obtain ⟨hwf,hkept⟩ := h.takeSlot hlt hip hinum hnew
      rw [wp_bind]
      refine ⟨hwf,hkept,rfl,?_,?_⟩
      · change ((s.setInode ip {s.itable ip with
          dev := ROOTDEV, inum := inum, ref := 1, valid := false}).itable ip).inum = inum
        rw [setInode_self]
      · change ((s.setInode ip {s.itable ip with
          dev := ROOTDEV, inum := inum, ref := 1, valid := false}).itable ip).valid = true → _
        rw [setInode_self]
        exact fun hv => absurd hv Bool.false_ne_true

theorem wp_idup (h : Wf sb s F L) (hip : ip ∈ F) :
    wp (idup ip) (fun r t => r = ip ∧ Wf sb t (ip ::ₘ F) L ∧ Kept F s t ∧ t.blk = s.blk) E s := by
  obtain ⟨hwf,hkept⟩ := h.addRef hip
  exact ⟨rfl,hwf,hkept,rfl⟩

end References

section Locks

variable {sb : Geometry} {E : FsPanic → Prop} {s : Fs} {F : Multiset ℕ} {L M : Finset ℕ} {ip : ℕ}

/-- A slot in use locked or unlocked, and read from disk if it was not valid. -/
theorem Wf.setSlot (h : Wf sb s F L) (hip : ip ∈ F) {n : Inode}
    (hsame : n.ref = (s.itable ip).ref ∧ n.dev = (s.itable ip).dev ∧
      n.inum = (s.itable ip).inum)
    (hvalid : n.valid = true → n.d = dinodeOf sb s.blk n.inum ∧ n.d.type ≠ 0)
    (hkeep : (s.itable ip).valid = true → n.valid = true ∧ n.d.type = (s.itable ip).d.type)
    (hL : ∀ k, k ≠ ip → (k ∈ M ↔ k ∈ L)) (hlock : n.locked = true ↔ ip ∈ M)
    (hlv : ip ∈ M → n.valid = true) :
    Wf sb (s.setInode ip n) F M ∧ Kept F s (s.setInode ip n) := by
  constructor
  · refine h.update hip h.disk h.range (fun k hk => setInode_ne hk) (fun _ _ _ => rfl)
      ?_ ?_ hL ?_ ?_ <;> rw [setInode_self]
    · exact hsame
    · exact hvalid
    · exact hlock
    · exact hlv
  · constructor
    · intro k _
      by_cases hk : k = ip
      · rw [hk,setInode_self]
        exact hsame.2.2
      · rw [setInode_ne hk]
    · intro k _ hv
      by_cases hk : k = ip
      · rw [hk] at hv ⊢
        rw [setInode_self]
        exact hkeep hv
      · rw [setInode_ne hk]
        exact ⟨hv,rfl⟩

/-- `ilock` cannot find a free inode if the slot holds a node of the tree, and waits only for a
slot that is locked. -/
theorem wp_ilock_of (hE : ip ∈ L → E .blocked) (h : Wf sb s F L) (hip : ip ∈ F)
    (hT : E .ilockNoType ∨ tree sb s.blk (s.itable ip).inum ≠ none) :
    wp (ilock sb ip) (fun _ t => ip ∉ L ∧ Wf sb t F (insert ip L) ∧ Kept F s t ∧
      t.blk = s.blk) E s := by
  have href := h.ref_pos hip
  have hL : ∀ k, k ≠ ip → (k ∈ insert ip L ↔ k ∈ L) := by
    intro k hk
    rw [Finset.mem_insert,or_iff_right hk]
  rw [ilock,wp_bind,wp_get]
  simp only
  rw [if_neg (by omega)]
  by_cases hlk : (s.itable ip).locked = true
  · rw [if_pos hlk]
    exact hE ((h.locks ip).mp hlk)
  have hnot : ip ∉ L := fun hL => hlk ((h.locks ip).mpr hL)
  rw [if_neg hlk]
  by_cases hv : (s.itable ip).valid = true
  · rw [if_pos hv]
    obtain ⟨hwf,hkept⟩ := h.setSlot hip (n := {s.itable ip with locked := true}) ⟨rfl,rfl,rfl⟩
      (h.valid ip hip) (fun hv => ⟨hv,rfl⟩) hL (by simp) fun _ => hv
    exact ⟨hnot,hwf,hkept,rfl⟩
  · rw [if_neg hv,wp_bind,wp_set]
    by_cases h0 : (dinodeOf sb s.blk (s.itable ip).inum).type = 0
    · rw [if_pos h0]
      rcases hT with hT | hT
      · exact hT
      · exact absurd (tree_eq_none_iff.mpr fun _ => h0) hT
    · rw [if_neg h0]
      obtain ⟨hwf,hkept⟩ := h.setSlot hip (n := {s.itable ip with
          locked := true, valid := true, d := dinodeOf sb s.blk (s.itable ip).inum})
        ⟨rfl,rfl,rfl⟩ (fun _ => ⟨rfl,h0⟩) (fun hv' => absurd hv' hv) hL (by simp) fun _ => rfl
      exact ⟨hnot,hwf,hkept,rfl⟩

theorem wp_ilock (hE : E .blocked) (h : Wf sb s F L) (hip : ip ∈ F)
    (hT : E .ilockNoType ∨ tree sb s.blk (s.itable ip).inum ≠ none) :
    wp (ilock sb ip) (fun _ t => ip ∉ L ∧ Wf sb t F (insert ip L) ∧ Kept F s t ∧
      t.blk = s.blk) E s :=
  wp_ilock_of (fun _ => hE) h hip hT

theorem wp_iunlock (h : Wf sb s F L) (hip : ip ∈ L) :
    wp (iunlock ip) (fun _ t => Wf sb t F (L.erase ip) ∧ Kept F s t ∧ t.blk = s.blk) E s := by
  have href := h.ref_pos (h.held ip hip)
  have hlk : (s.itable ip).locked = true := (h.locks ip).mpr hip
  rw [iunlock,wp_bind,wp_get,if_neg (by rw [hlk]; simp; omega)]
  obtain ⟨hwf,hkept⟩ := h.setSlot (h.held ip hip) (M := L.erase ip)
    (n := {s.itable ip with locked := false}) ⟨rfl,rfl,rfl⟩ (h.valid ip (h.held ip hip))
    (fun hv => ⟨hv,rfl⟩) (fun k hk => by simp [hk]) (by simp) (by simp)
  exact ⟨hwf,hkept,rfl⟩

end Locks

/-- The blocks after inode `i` has been written as `d`. -/
def putDinode (sb : Geometry) (blk : ℕ → Block) (i : ℕ) (d : Dinode) : ℕ → Block :=
  Function.update blk (IBLOCK i sb) (Dinode.encode (blk (IBLOCK i sb)) (i%IPB) d)

section PutDinode

variable {sb : Geometry} {blk : ℕ → Block} {i : ℕ} {d : Dinode}

theorem dinodeOf_putDinode :
    dinodeOf sb (putDinode sb blk i d) = Function.update (dinodeOf sb blk) i d := dinodeOf_encode d

theorem putDinode_data (hi : i < sb.ninodes) {b : ℕ} (hb : nmeta sb ≤ b) :
    putDinode sb blk i d b = blk b := by
  have hlt := IBLOCK_lt_nmeta hi
  exact Function.update_of_ne (by omega) _ _

theorem owner_update (hown : ∀ k, owner sb blk (Function.update (dinodeOf sb blk) i d) (i,k) =
    owner sb blk (dinodeOf sb blk) (i,k)) :
    owner sb blk (Function.update (dinodeOf sb blk) i d) = owner sb blk (dinodeOf sb blk) := by
  funext ⟨j,k⟩
  by_cases hj : j = i
  · rw [hj,hown]
  · simp only [owner,Function.update_of_ne hj]

theorem Consistent.putDinode_same (hc : Consistent sb blk) (hi : i < sb.ninodes)
    (hown : ∀ k, owner sb blk (Function.update (dinodeOf sb blk) i d) (i,k) =
      owner sb blk (dinodeOf sb blk) (i,k)) (p : ℕ × ℕ) (b : ℕ)
    (hp : owner sb blk (Function.update (dinodeOf sb blk) i d) p = some b) :
    putDinode sb blk i d b = blk b := by
  rw [owner_update hown] at hp
  exact putDinode_data hi (hc.own.data (i := p.1) (k := p.2) hp).1

theorem Consistent.named_putDinode (hc : Consistent sb blk) (hi : i < sb.ninodes)
    (hown : ∀ k, owner sb blk (Function.update (dinodeOf sb blk) i d) (i,k) =
      owner sb blk (dinodeOf sb blk) (i,k)) :
    named sb (putDinode sb blk i d) = named sb blk := by
  rw [named,dinodeOf_putDinode,owner_frame (hc.putDinode_same hi hown),owner_update hown,named]

theorem Consistent.putDinode (hc : Consistent sb blk) (hi : i < sb.ninodes)
    (hown : ∀ k, owner sb blk (Function.update (dinodeOf sb blk) i d) (i,k) =
      owner sb blk (dinodeOf sb blk) (i,k))
    (hsz : d.type ≠ 0 → Sized blk d) :
    Consistent sb (putDinode sb blk i d) ∧
      tree sb (putDinode sb blk i d) = Function.update (tree sb blk) i
        (if d.type = 0 then none else some (nodeOf blk d)) := by
  have howner := owner_update hown
  have hsame := hc.putDinode_same hi hown
  have hnode : ∀ j < sb.ninodes, (Function.update (dinodeOf sb blk) i d j).type ≠ 0 →
      nodeOf (Fs.putDinode sb blk i d) (Function.update (dinodeOf sb blk) i d j) =
        nodeOf blk (Function.update (dinodeOf sb blk) i d j) := by
    intro j hj ht
    rw [nodeOf,nodeOf,fileOf,fileOf,content_frame hj ht fun k b hp => hsame (j,k) b hp]
  constructor
  · constructor
    · rw [dinodeOf_putDinode]
      refine Ownership.Exact.congr hc.own ?_ ?_
      · intro b
        rw [bitOf_congr]
        exact Function.update_of_ne (IBLOCK_ne_BBLOCK hi).symm _ _
      · intro p
        rw [owner_frame hsame,howner]
    · intro j hj ht
      rw [dinodeOf_putDinode] at ht ⊢
      have hsized : Sized blk (Function.update (dinodeOf sb blk) i d j) := by
        by_cases hji : j = i
        · rw [hji,Function.update_self] at ht ⊢
          exact hsz ht
        · rw [Function.update_of_ne hji] at ht ⊢
          exact hc.sized j hj ht
      refine ⟨hsized.size_le,?_⟩
      intro bn hbn
      rw [ptr_frame hj ht fun k b hp => hsame (j,k) b hp]
      exact hsized.mapped bn hbn
  · funext j
    unfold tree
    rw [dinodeOf_putDinode]
    by_cases hji : j = i
    · rw [hji,Function.update_self,Function.update_self]
      by_cases ht : d.type = 0
      · rw [if_neg fun hh => hh.2 ht,if_pos ht]
      · rw [if_pos ⟨hi,ht⟩,if_neg ht]
        have heq := hnode i hi (by rwa [Function.update_self])
        rw [Function.update_self] at heq
        rw [heq]
    · rw [Function.update_of_ne hji,Function.update_of_ne hji]
      by_cases hall : j < sb.ninodes ∧ (dinodeOf sb blk j).type ≠ 0
      · rw [if_pos hall,if_pos hall]
        have heq := hnode j hall.1 (by rw [Function.update_of_ne hji]; exact hall.2)
        rw [Function.update_of_ne hji] at heq
        rw [heq]
      · rw [if_neg hall,if_neg hall]

theorem owner_attributes (htype : d.type = (dinodeOf sb blk i).type)
    (haddrs : d.addrs = (dinodeOf sb blk i).addrs) (k : ℕ) :
    owner sb blk (Function.update (dinodeOf sb blk) i d) (i,k) =
      owner sb blk (dinodeOf sb blk) (i,k) := by
  have hptr : ptr blk d k = ptr blk (dinodeOf sb blk i) k := by simp only [ptr,haddrs]
  simp only [owner,Function.update_self,hptr,htype]

theorem owner_empty (hold : (dinodeOf sb blk i).type ≠ 0 → ∀ k, ptr blk (dinodeOf sb blk i) k = 0)
    (hptr : ∀ k, ptr blk d k = 0) (k : ℕ) :
    owner sb blk (Function.update (dinodeOf sb blk) i d) (i,k) =
      owner sb blk (dinodeOf sb blk) (i,k) := by
  have hnew : ¬ (i < sb.ninodes ∧ d.type ≠ 0 ∧ ptr blk d k ≠ 0) := fun h => h.2.2 (hptr k)
  have hnot : ¬ (i < sb.ninodes ∧ (dinodeOf sb blk i).type ≠ 0 ∧
      ptr blk (dinodeOf sb blk i) k ≠ 0) := fun h => h.2.2 (hold h.2.1 k)
  simp only [owner,Function.update_self,if_neg hnew,if_neg hnot]

theorem Consistent.put_attributes (hc : Consistent sb blk) (hi : i < sb.ninodes)
    (ht : (dinodeOf sb blk i).type ≠ 0) (htype : d.type = (dinodeOf sb blk i).type)
    (hsize : d.size = (dinodeOf sb blk i).size) (haddrs : d.addrs = (dinodeOf sb blk i).addrs) :
    Consistent sb (Fs.putDinode sb blk i d) ∧
      tree sb (Fs.putDinode sb blk i d) = Function.update (tree sb blk) i (some (nodeOf blk d)) := by
  have hptr : ∀ k, ptr blk d k = ptr blk (dinodeOf sb blk i) k := by
    intro k
    simp only [ptr,haddrs]
  have hsized := hc.sized i hi ht
  have hput := hc.putDinode (d := d) hi (owner_attributes htype haddrs)
    fun _ => ⟨by rw [hsize]; exact hsized.size_le,fun bn hbn => by
      rw [hptr]
      exact hsized.mapped bn (by rwa [← hsize])⟩
  rwa [if_neg (by rwa [htype])] at hput

theorem Consistent.put_empty (hc : Consistent sb blk) (hi : i < sb.ninodes)
    (hold : (dinodeOf sb blk i).type ≠ 0 → ∀ k, ptr blk (dinodeOf sb blk i) k = 0)
    (hd : d.size = 0) (hptr : ∀ k, ptr blk d k = 0) :
    Consistent sb (Fs.putDinode sb blk i d) ∧
      tree sb (Fs.putDinode sb blk i d) = Function.update (tree sb blk) i
        (if d.type = 0 then none else some (nodeOf blk d)) := by
  apply hc.putDinode hi (owner_empty hold hptr)
  intro _
  refine ⟨by rw [hd]; exact Nat.zero_le _,?_⟩
  intro bn hbn
  rw [hd] at hbn
  exact absurd hbn (Nat.not_lt_zero _)

end PutDinode

end Fs
end Xv6
