import Xv6.Itable

/-! Rules for the functions that change an inode on disk: its attributes, its content, its
allocation and its release by the last `iput`. -/
namespace Xv6
namespace Fs

open Bytes Command ByteFile FileTree

variable {sb : Geometry} {E : FsPanic → Prop} {s u : Fs} {F : Multiset ℕ} {L : Finset ℕ} {ip : ℕ}

def nodeAt (s : Fs) (ip : ℕ) : Node := nodeOf s.blk (s.itable ip).d

theorem Wf.tree_nodeAt (h : Wf sb s F L) (hip : ip ∈ L) :
    tree sb s.blk (s.itable ip).inum = some (nodeAt s ip) := (h.loaded hip).tree_eq

theorem Wf.nodeAt_eq (h : Wf sb s F L) (hip : ip ∈ L) {n : Node}
    (hn : tree sb s.blk (s.itable ip).inum = some n) : nodeAt s ip = n := by
  rw [h.tree_nodeAt hip] at hn
  exact Option.some.inj hn

theorem named_eq_none {blk : ℕ → Block} {i : ℕ} (h : tree sb blk i = none) (k : ℕ) :
    named sb blk (i,k) = none := by
  rw [named,owner,if_neg]
  rintro ⟨hi,ht,-⟩
  exact ht (tree_eq_none_iff.mp h hi)

/-- All pointers are as before, except that an inode `i` that is gone has none. -/
def Spared (sb : Geometry) (i : ℕ) (s t : Fs) : Prop :=
  ∀ p : ℕ × ℕ, (p.1 = i → tree sb t.blk i ≠ none) → named sb t.blk p = named sb s.blk p

theorem Spared.named_eq {i : ℕ} (h : Spared sb i s u) (htree : tree sb u.blk = tree sb s.blk) :
    named sb u.blk = named sb s.blk := by
  funext ⟨j,k⟩
  by_cases hj : tree sb u.blk j = none
  · rw [named_eq_none hj,named_eq_none (htree ▸ hj)]
  · exact h (j,k) fun hji => by rw [← show j = i from hji]; exact hj

theorem wp_updateDisk (hE : ∀ e, LogFull e → E e) (h : Wf sb s F L) (hip : ip ∈ L)
    {f : Dinode → Dinode} (htype : ∀ d, (f d).type = d.type) (hsize : ∀ d, (f d).size = d.size)
    (haddrs : ∀ d, (f d).addrs = d.addrs) :
    wp (updateDisk sb ip f) (fun _ t => Wf sb t F L ∧ Kept F s t ∧
      tree sb t.blk = Function.update (tree sb s.blk) (s.itable ip).inum
        (some (nodeOf s.blk (f (s.itable ip).d))) ∧ named sb t.blk = named sb s.blk) E s := by
  have hl := h.loaded hip
  have hput := h.disk.put_attributes (d := f (s.itable ip).d) hl.inum_lt
    (by rw [← hl.same]; exact hl.typed) (by rw [htype,hl.same]) (by rw [hsize,hl.same])
    (by rw [haddrs,hl.same])
  set t := s.setInode ip {s.itable ip with d := f (s.itable ip).d} with ht
  have hblk : (flush sb t ip).blk =
      putDinode sb s.blk (s.itable ip).inum (f (s.itable ip).d) := by
    rw [flush,logged_blk,putDinode,ht,setInode_self,setInode_blk]
  rw [updateDisk,wp_bind]
  change wp (iupdate sb ip) _ E t
  apply wp_iupdate hE
  rw [hblk]
  refine and_assoc.mp ⟨?_,hput.2,h.disk.named_putDinode hl.inum_lt
    (owner_attributes (by rw [htype,hl.same]) (by rw [haddrs,hl.same]))⟩
  refine h.update_valid (h.held ip hip) (d := f (s.itable ip).d) (by rw [hblk]; exact hput.1)
    ?_ rfl ?_ ?_ (htype _)
  · rw [hblk,hput.2]
    exact h.range.attributes (h.tree_nodeAt hip) (htype _) (fileOf_congr (hsize _) (haddrs _))
  · intro j _ hne
    rw [hblk,dinodeOf_putDinode,Function.update_of_ne hne]
  · rw [hblk,dinodeOf_putDinode,Function.update_self]

theorem Wf.truncated (h : Wf sb s F L) (hip : ip ∈ F) (ht : Truncated sb ip s u) :
    Wf sb u F L ∧ Kept F s u := by
  have hinum : (u.itable ip).inum = (s.itable ip).inum := by rw [ht.slot,Function.update_self]
  refine h.update_valid hip ht.consistent ?_ ht.slot ht.dinodes ?_ rfl
  · rw [ht.tree_eq]
    apply h.range.update
    rintro n hn - k hk
    obtain rfl := Option.some.inj hn
    exact absurd hk (by simp [Node.count])
  · rw [← hinum,← ht.loaded.same,ht.slot,Function.update_self]

theorem Wf.put_free (h : Wf sb s F L) {i : ℕ} (hi : i < sb.ninodes) {type : Int16}
    (hfree : (dinodeOf sb s.blk i).type = 0) (htype : type ≠ 0)
    (hblk : u.blk = putDinode sb s.blk i {Dinode.zero with type := type})
    (htab : u.itable = s.itable) :
    Wf sb u F L ∧ tree sb u.blk = Function.update (tree sb s.blk) i (some ⟨type,0,0,0,[]⟩) := by
  have hput := h.disk.put_empty (d := {Dinode.zero with type := type}) hi
    (fun ht => absurd hfree ht) rfl fun k => ptr_hollow s.blk {Dinode.zero with type := type} k
  rw [if_neg htype] at hput
  have htree : tree sb u.blk = Function.update (tree sb s.blk) i (some ⟨type,0,0,0,[]⟩) := by
    rw [hblk,hput.2]
    rfl
  refine ⟨?_,htree⟩
  exact {
    disk := by
      rw [hblk]
      exact hput.1
    range := by
      rw [htree]
      apply h.range.update
      rintro n hn - k hk
      obtain rfl := Option.some.inj hn
      exact absurd hk (by simp [Node.count])
    refs := by rw [htab]; exact h.refs
    locks := by rw [htab]; exact h.locks
    held := h.held
    slot_lt := h.slot_lt
    dev := by rw [htab]; exact h.dev
    inum_lt := by rw [htab]; exact h.inum_lt
    inj := by rw [htab]; exact h.inj
    valid := by
      rw [htab,hblk,dinodeOf_putDinode]
      intro k hk hv
      have hval := h.valid k hk hv
      have hne : (s.itable k).inum ≠ i := by
        rintro rfl
        exact hval.2 (by rw [hval.1,hfree])
      rw [Function.update_of_ne hne]
      exact hval
    locked_valid := by rw [htab]; exact h.locked_valid }

theorem wp_ialloc_named (hE : ∀ e, LogFull e → E e) (hE' : E .igetNoInodes) (h : Wf sb s F L)
    {type : Int16} (htype : type ≠ 0) :
    wp (ialloc sb ROOTDEV type) (fun r t =>
      (r = none ∧ t = s ∧ ∀ i, 0 < i → i < sb.ninodes → tree sb s.blk i ≠ none) ∨
      ∃ ip, r = some ip ∧ Wf sb t (ip ::ₘ F) L ∧ Kept F s t ∧ (t.itable ip).valid = false ∧
        0 < (t.itable ip).inum ∧ tree sb s.blk (t.itable ip).inum = none ∧
        tree sb t.blk = Function.update (tree sb s.blk) (t.itable ip).inum
          (some ⟨type,0,0,0,[]⟩) ∧ named sb t.blk = named sb s.blk) E s := by
  rw [ialloc,wp_bind,wp_get]
  split
  case h_1 hnone =>
    refine .inl ⟨rfl,rfl,fun i h0 hi hfree => ?_⟩
    have hmem : i ∈ List.range' 1 (sb.ninodes-1) := List.mem_range'_1.mpr ⟨h0,by omega⟩
    exact List.find?_eq_none.mp hnone i hmem (decide_eq_true (tree_eq_none_iff.mp hfree hi))
  case h_2 i hsome =>
    have hmem := List.mem_range'_1.mp (List.mem_of_find?_eq_some hsome)
    have hfree := List.find?_some hsome
    simp only [decide_eq_true_eq] at hfree
    have hi : i < sb.ninodes := by omega
    rw [wp_bind]
    apply wp_logWrite hE
    obtain ⟨hwf,htree⟩ := h.put_free (u := s.logged (IBLOCK i sb) (Dinode.encode
      (s.blk (IBLOCK i sb)) (i%IPB) {Dinode.zero with type := type})) hi hfree htype rfl rfl
    rw [wp_bind]
    refine wp_conseq (wp_iget (fun _ => hE') hwf hi) ?_
    rintro ip t ⟨hwft,hkept,hblk,hinum,hval⟩
    refine .inr ⟨ip,rfl,hwft,⟨hkept.inum,hkept.valid⟩,?_,?_,?_,?_,?_⟩
    · by_contra hv
      obtain ⟨hF,hvs⟩ := hval (by simpa using hv)
      have hd := h.valid ip hF hvs
      have hsi : (s.itable ip).inum = i := by rw [← hinum]; exact (hkept.inum ip hF).symm
      rw [hsi] at hd
      exact hd.2 (by rw [hd.1,hfree])
    · rw [hinum]
      omega
    · rw [hinum]
      exact tree_eq_none_iff.mpr fun _ => hfree
    · rw [hblk,hinum,htree]
    · rw [hblk]
      exact h.disk.named_putDinode hi (owner_empty (fun ht => absurd hfree ht)
        fun k => ptr_hollow s.blk {Dinode.zero with type := type} k)

theorem Wf.free (h : Wf sb s (ip ::ₘ F) L) (hF : ip ∉ F) (hip : ip ∉ L)
    (ht : Truncated sb ip s u)
    (hnamed : Elsewhere sb (s.itable ip).inum s u) {v : Fs}
    (hblk : v.blk = putDinode sb u.blk (u.itable ip).inum {(u.itable ip).d with type := 0})
    (htab : v.itable = Function.update u.itable ip
      {u.itable ip with d := {(u.itable ip).d with type := 0}, valid := false}) :
    Wf sb v (ip ::ₘ F) L ∧ Kept F s v ∧
      tree sb v.blk = Function.update (tree sb s.blk) (s.itable ip).inum none ∧
      Spared sb (s.itable ip).inum s v := by
  obtain ⟨hwf,hkept⟩ := h.truncated (Multiset.mem_cons_self ip F) ht
  have hinum : (u.itable ip).inum = (s.itable ip).inum := by rw [ht.slot,Function.update_self]
  have hd : (u.itable ip).d = hollow (s.itable ip).d := by
    rw [ht.slot,Function.update_self]
    rfl
  have hself : v.itable ip =
      {u.itable ip with d := {(u.itable ip).d with type := 0}, valid := false} := by
    rw [htab,Function.update_self]
  have hne : ∀ k, k ≠ ip → v.itable k = u.itable k := fun k hk => by
    rw [htab,Function.update_of_ne hk]
  have hput := hwf.disk.put_empty (i := (u.itable ip).inum)
    (d := {(u.itable ip).d with type := 0}) ht.loaded.inum_lt
    (fun _ k => by rw [← ht.loaded.same,hd,ptr_hollow])
    (by rw [hd]; rfl) fun k => by rw [hd]; exact ptr_hollow _ {(s.itable ip).d with type := 0} k
  rw [if_pos rfl] at hput
  have htree : tree sb v.blk = Function.update (tree sb s.blk) (s.itable ip).inum none := by
    rw [hblk,hput.2,ht.tree_eq,hinum,Function.update_idem]
  refine ⟨?_,?_,htree,?_⟩
  · refine hwf.update (Multiset.mem_cons_self ip F) (by rw [hblk]; exact hput.1)
      (by rw [htree]; exact h.range.erase) hne ?_ ?_ ?_ (fun _ _ => Iff.rfl) ?_
      fun hL => absurd hL hip
    · intro j _ hj
      rw [hblk,dinodeOf_putDinode,Function.update_of_ne hj]
    · rw [hself]
      exact ⟨rfl,rfl,rfl⟩
    · rw [hself]
      exact fun hv => absurd hv Bool.false_ne_true
    · rw [hself]
      exact hwf.locks ip
  · refine hkept.of_cons.trans ?_
    have hslot : ∀ k ∈ F, v.itable k = u.itable k := fun k hk =>
      hne k fun heq => hF (heq ▸ hk)
    exact ⟨fun k hk => by rw [hslot k hk],fun k hk hv => by rw [hslot k hk]; exact ⟨hv,rfl⟩⟩
  · intro p hp
    have hne : p.1 ≠ (s.itable ip).inum := fun heq => hp heq (by rw [htree,Function.update_self])
    rw [hblk,hwf.disk.named_putDinode ht.loaded.inum_lt (owner_empty
      (fun _ k => by rw [← ht.loaded.same,hd,ptr_hollow])
      fun k => by rw [hd]; exact ptr_hollow _ {(s.itable ip).d with type := 0} k),hnamed p hne]

theorem wp_iput (hE : ∀ e, LogFull e → E e) (h : Wf sb s (ip ::ₘ F) L)
    (hip : ip ∈ L → ip ∈ F) :
    wp (iput sb ip) (fun _ t => Wf sb t F L ∧ Kept F s t ∧
      ((s.itable ip).valid = true →
        Reaped (tree sb s.blk) (tree sb t.blk) (s.itable ip).inum (ip ∈ F)) ∧
      ((s.itable ip).valid = false → tree sb t.blk = tree sb s.blk) ∧
      Spared sb (s.itable ip).inum s t) E s := by
  have hcount : (s.itable ip).ref = 1 ↔ ip ∉ F := by
    rw [h.refs,Multiset.count_cons_self,← Multiset.count_eq_zero]
    push_cast
    omega
  have hnode : (s.itable ip).valid = true →
      tree sb s.blk (s.itable ip).inum = some (nodeAt s ip) :=
    fun hv => (h.loaded_of_valid (Multiset.mem_cons_self ip F) hv).tree_eq
  rw [iput,wp_bind,wp_get,wp_bind,wp_when,hcount]
  constructor
  · rintro ⟨hF,hv,h0⟩
    have hL : ip ∉ L := fun hL => hF (hip hL)
    have hunlocked : ¬ (s.itable ip).locked = true := fun hlk => hL ((h.locks ip).mp hlk)
    have hl := h.loaded_of_valid (Multiset.mem_cons_self ip F) hv
    rw [if_neg hunlocked,wp_bind]
    refine wp_conseq (wp_itrunc_named hE h.disk hl) ?_
    rintro - u ⟨ht,hnamed⟩
    rw [wp_bind,updateDisk,wp_bind]
    change wp (iupdate sb ip) _ E
      (u.setInode ip {u.itable ip with d := {(u.itable ip).d with type := 0}})
    apply wp_iupdate hE
    set w := flush sb (u.setInode ip {u.itable ip with d := {(u.itable ip).d with type := 0}}) ip
      with hw
    have hwip : w.itable ip = {u.itable ip with d := {(u.itable ip).d with type := 0}} := by
      rw [hw,flush_itable,setInode_self]
    have hwtab : w.itable = Function.update u.itable ip
        {u.itable ip with d := {(u.itable ip).d with type := 0}} := by
      rw [hw,flush_itable]
      rfl
    obtain ⟨hwf,hkept,htree,hspared⟩ := h.free
      (v := w.setInode ip {w.itable ip with valid := false}) hF hL ht hnamed
      (by rw [setInode_blk,hw,flush,logged_blk,putDinode,setInode_self,setInode_blk])
      (by rw [hwip,setInode,hwtab,Function.update_idem])
    obtain ⟨hwf',hkept'⟩ := hwf.dropRef hip
    refine ⟨hwf',hkept.trans hkept',fun _ => .inr ⟨htree,hF,nodeAt s ip,hnode hv,h0⟩,?_,hspared⟩
    rw [hv]
    exact fun hfalse => by cases hfalse
  · intro hnot
    obtain ⟨hwf,hkept⟩ := h.dropRef hip
    refine ⟨hwf,hkept,fun hv => .inl ⟨rfl,?_⟩,fun _ => rfl,fun _ _ => rfl⟩
    rw [or_iff_not_imp_left]
    rintro hF n hn h0
    rw [hnode hv] at hn
    obtain rfl := Option.some.inj hn
    exact hnot ⟨hF,hv,h0⟩

theorem wp_iunlockput (hE : ∀ e, LogFull e → E e) (h : Wf sb s (ip ::ₘ F) L) (hip : ip ∈ L) :
    wp (iunlockput sb ip) (fun _ t => Wf sb t F (L.erase ip) ∧ Kept F s t ∧
      Reaped (tree sb s.blk) (tree sb t.blk) (s.itable ip).inum (ip ∈ F) ∧
      Spared sb (s.itable ip).inum s t) E s := by
  have hmem := Multiset.mem_cons_self ip F
  rw [iunlockput,wp_bind]
  refine wp_conseq (wp_iunlock h hip) ?_
  rintro - t ⟨hwf,hkept,hblk⟩
  refine wp_conseq (wp_iput hE hwf (by simp)) ?_
  rintro - u ⟨hwf',hkept',hreap,-,hspared⟩
  have hreap' := hreap (hkept.valid ip hmem (h.locked_valid ip hip)).1
  rw [hblk,hkept.inum ip hmem] at hreap'
  rw [Spared,hblk,hkept.inum ip hmem] at hspared
  exact ⟨hwf',hkept.of_cons.trans hkept',hreap',hspared⟩

theorem Wf.wrote (h : Wf sb s F L) (hip : ip ∈ F) {src : Mem} {off r tot : ℕ}
    (hw : Wrote sb ip src off r tot s u) (hrange : InRange sb (tree sb u.blk)) :
    Wf sb u F L ∧ Kept F s u := by
  obtain ⟨z,a,hslot⟩ := hw.slot
  have hself : u.itable ip = {s.itable ip with d := {(s.itable ip).d with size := z, addrs := a}} := by
    rw [hslot,Function.update_self]
  refine h.update_valid hip hw.consistent hrange hslot hw.dinodes ?_ rfl
  have hsame := hw.loaded.same
  rwa [hself] at hsame

end Fs
end Xv6
