import Xv6.Paths

/-! The effects of `sys_link` and `sys_unlink` on the tree. -/
namespace Xv6
namespace Fs

open Bytes Command FileTree

variable {sb : Geometry} {E : FsPanic → Prop} {s t : Fs} {F G : Multiset ℕ} {L : Finset ℕ}
  {ip dp cwd : ℕ}

theorem wp_beginOp_same (hE : E .blocked) :
    wp beginOp (fun _ t => t.blk = s.blk ∧ t.itable = s.itable) E s := by
  rw [beginOp,wp_bind,wp_get]
  split
  · exact hE
  · exact ⟨rfl,rfl⟩

theorem wp_endOp_same :
    wp endOp (fun _ t => t.blk = s.blk ∧ t.itable = s.itable) E s := by
  rw [endOp,wp_bind,wp_get]
  split <;> exact ⟨rfl,rfl⟩

theorem steady_of_same (hb : t.blk = s.blk) (ht : t.itable = s.itable) :
    Steady sb F s t :=
  .of_blk ⟨fun i _ => by rw [ht],fun i _ hv => by rw [ht]; exact ⟨hv,rfl⟩⟩ hb

/-- A system call between `begin_op` and `end_op`, which change neither blocks nor inodes. -/
theorem wp_inOp {α : Type} {c : FsM α} {Q : α → Fs → Prop} (hE : E .blocked)
    (hc : ∀ t, t.blk = s.blk → t.itable = s.itable →
      wp c (fun a u => ∀ v, v.blk = u.blk → v.itable = u.itable → Q a v) E t) :
    wp (inOp c) Q E s := by
  rw [inOp,wp_bind]
  refine wp_conseq (wp_beginOp_same hE) ?_
  rintro - t ⟨hb,ht⟩
  rw [wp_bind]
  refine wp_conseq (hc t hb ht) ?_
  intro a u hu
  rw [wp_bind]
  refine wp_conseq wp_endOp_same ?_
  rintro - v ⟨hbv,htv⟩
  exact hu v hbv htv

theorem Wf.mem_iff_held (h : Wf sb s G L) (hip : ip ∈ G) (hF : ∀ k ∈ F, k ∈ G) :
    ip ∈ F ↔ Held F s (s.itable ip).inum := by
  constructor
  · exact fun hip => ⟨ip,hip,rfl⟩
  · rintro ⟨k,hk,hi⟩
    rwa [← h.inj k (hF k hk) ip hip hi]

theorem wp_namei (hE : Stops E) (h : Wf sb s F L) (hcwd : cwd ∈ F)
    (hroot : ROOTINO < sb.ninodes) (hT : E .ilockNoType ∨ Solid sb F s) {path : List UInt8} :
    wp (namei sb cwd path) (fun r t => (∃ x, Walked sb E F L false
      (lookup (tree sb s.blk) false (s.itable cwd).inum path) s (r.map fun ip => (ip,x)) t) ∧
      (Anchored sb F s → named sb t.blk = named sb s.blk)) E s := by
  rw [namei,wp_bind]
  refine wp_conseq (wp_namex_of hE.lookups h hcwd hroot hT) ?_
  rintro (- | ⟨ip,x⟩) t ⟨hw,hnamed⟩
  · exact ⟨⟨[],hw⟩,hnamed⟩
  · exact ⟨⟨x,hw⟩,hnamed⟩

/-- All pointers are as before, except that an inode `i` that is gone has none and that inode `d`
may have got an indirect block. -/
def Undone (sb : Geometry) (i d : ℕ) (s t : Fs) : Prop :=
  ∀ p : ℕ × ℕ, (p.1 = i → tree sb t.blk i ≠ none) → named sb t.blk p = named sb s.blk p ∨
    p = (d,NDIRECT) ∧ named sb s.blk p = none

/-- All pointers are as before, except that the directory to which `path` leads may have got an
indirect block. -/
def Restored (sb : Geometry) (cwd : ℕ) (path : List UInt8) (s t : Fs) : Prop :=
  ∀ p : ℕ × ℕ, named sb t.blk p = named sb s.blk p ∨ named sb s.blk p = none ∧ p.2 = NDIRECT ∧
    ∃ name, lookup (tree sb s.blk) true (s.itable cwd).inum path = some (p.1,name)

theorem wp_linkBad (hE : Stops E) (h : Wf sb s (ip ::ₘ F) ∅)
    (hT : E .ilockNoType ∨ tree sb s.blk (s.itable ip).inum ≠ none) :
    wp (linkBad sb ip) (fun r t => r = -1 ∧ Wf sb t F ∅ ∧ Kept F s t ∧
      ∃ n, tree sb s.blk (s.itable ip).inum = some n ∧
        Reaped (Function.update (tree sb s.blk) (s.itable ip).inum
          (some {n with nlink := n.nlink-1})) (tree sb t.blk) (s.itable ip).inum (ip ∈ F) ∧
        Spared sb (s.itable ip).inum s t) E s := by
  have hmem := Multiset.mem_cons_self ip F
  rw [linkBad,wp_bind]
  refine wp_conseq (wp_ilock hE.blocked h hmem hT) ?_
  rintro - t ⟨hnot,hwf,hkept,hblk⟩
  have hip := Finset.mem_insert_self ip ∅
  rw [wp_bind]
  refine wp_conseq (wp_updateDisk hE.log hwf hip (fun _ => rfl) (fun _ => rfl) fun _ => rfl) ?_
  rintro - u ⟨hwfu,hku,htree,hnamed⟩
  rw [wp_bind]
  refine wp_conseq (wp_iunlockput hE.log hwfu hip) ?_
  rintro - v ⟨hwfv,hkv,hreap,hspared⟩
  rw [Finset.erase_insert hnot] at hwfv
  rw [htree,hku.inum ip hmem,hblk,hkept.inum ip hmem] at hreap
  rw [Spared,hnamed,hku.inum ip hmem,hblk,hkept.inum ip hmem] at hspared
  refine ⟨rfl,hwfv,(hkept.trans hku).of_cons.trans hkv,nodeOf s.blk (t.itable ip).d,?_,hreap,hspared⟩
  rw [← hblk,← hkept.inum ip hmem]
  exact hwf.tree_nodeAt hip

/-- The outcome of the last part of `sys_link`: the entry, or the link count restored. -/
def LinkEntry (sb : Geometry) (F : Multiset ℕ) (ip dp : ℕ) (name : List UInt8) (s : Fs) (r : ℤ)
    (t : Fs) : Prop :=
  r = 0 ∧ (∃ m, tree sb s.blk (s.itable dp).inum = some m ∧ m.find name = none ∧
    Reaped (Function.update (tree sb s.blk) (s.itable dp).inum
      (some (m.enter name (s.itable ip).inum))) (tree sb t.blk) (s.itable ip).inum (ip ∈ F)) ∨
  r = -1 ∧ ∃ n, tree sb s.blk (s.itable ip).inum = some n ∧
    Reaped (Function.update (tree sb s.blk) (s.itable ip).inum (some {n with nlink := n.nlink-1}))
      (tree sb t.blk) (s.itable ip).inum (ip ∈ F)

theorem wp_linkEntry (hE : Stops E) (h : Wf sb s (dp ::ₘ ip ::ₘ F) ∅)
    (hdp : (s.itable dp).valid = true ∧ (s.itable dp).d.type = T_DIR)
    (hip : (s.itable ip).valid = true) {name : List UInt8} :
    wp (linkEntry sb ip dp name) (fun r t => Wf sb t F ∅ ∧ Kept F s t ∧
      (Anchored sb (ip ::ₘ F) s → LinkEntry sb F ip dp name s r t ∧
        (r = -1 → Undone sb (s.itable ip).inum (s.itable dp).inum s t))) E s := by
  have hmd : dp ∈ dp ::ₘ ip ::ₘ F := Multiset.mem_cons_self _ _
  have hmi : ip ∈ dp ::ₘ ip ::ₘ F := Multiset.mem_cons_of_mem (Multiset.mem_cons_self _ _)
  have hmi' : ip ∈ ip ::ₘ F := Multiset.mem_cons_self _ _
  have hTd : tree sb s.blk (s.itable dp).inum ≠ none := by
    rw [(h.loaded_of_valid hmd hdp.1).tree_eq]
    exact Option.some_ne_none _
  rw [linkEntry,wp_bind]
  refine wp_conseq (wp_ilock hE.blocked h hmd (.inr hTd)) ?_
  rintro - t ⟨hnot,hwf,hkept,hblk⟩
  have hdL := Finset.mem_insert_self dp ∅
  have hdir : (t.itable dp).d.type = T_DIR := by rw [(hkept.valid dp hmd hdp.1).2,hdp.2]
  have hbad : ∀ u, Wf sb u (dp ::ₘ ip ::ₘ F) (insert dp ∅) → Kept (dp ::ₘ ip ::ₘ F) s u →
      (Anchored sb (ip ::ₘ F) s → tree sb u.blk = tree sb s.blk) →
      OnlyIndirect sb (s.itable dp).inum s u →
      wp (iunlockput sb dp >>= fun _ => linkBad sb ip) (fun r v => Wf sb v F ∅ ∧ Kept F s v ∧
        (Anchored sb (ip ::ₘ F) s → LinkEntry sb F ip dp name s r v ∧
          (r = -1 → Undone sb (s.itable ip).inum (s.itable dp).inum s v))) E u := by
    intro u hwfu hku htree hind
    rw [wp_bind]
    refine wp_conseq (wp_iunlockput_steady (.inl hE.log) hwfu hnot) ?_
    rintro - v ⟨hwfv,hsv,hnamed⟩
    have hkv := hku.of_cons.trans hsv.kept
    have hTi : tree sb v.blk (v.itable ip).inum ≠ none := by
      rw [(hwfv.loaded_of_valid hmi' (hkv.valid ip hmi' hip).1).tree_eq]
      exact Option.some_ne_none _
    refine wp_conseq (wp_linkBad hE hwfv (.inr hTi)) ?_
    rintro r w ⟨hr,hwfw,hkw,n,hn,hreap,hspared⟩
    refine ⟨hwfw,hkv.of_cons.trans hkw,fun ha => ?_⟩
    have hau : Anchored sb (ip ::ₘ F) u := ha.kept hku.of_cons (htree ha)
    have hvs : tree sb v.blk = tree sb s.blk := by rw [hsv.tree_eq hau,htree ha]
    rw [hvs,hkv.inum ip hmi'] at hn hreap
    rw [hkv.inum ip hmi'] at hspared
    refine ⟨.inr ⟨hr,n,hn,hreap⟩,fun _ p hp => ?_⟩
    rw [hspared p hp,hnamed hau]
    exact hind p
  rw [wp_bind,wp_get,if_neg (by rw [hwf.dev dp hmd,hwf.dev ip hmi]; simp),wp_bind]
  refine wp_conseq (wp_dirlink hE hwf hdL hdir (hwf.inum_lt ip hmi)) ?_
  rintro r u ⟨hwfu,hku,hlink,-⟩
  rcases hlink with ⟨rfl,hfind,-,htree⟩ | ⟨rfl,-,htree,hind⟩
  · rw [if_neg (by decide),wp_bind]
    refine wp_conseq (wp_iunlockput hE.log hwfu hdL) ?_
    rintro - v ⟨hwfv,hkv,hreap,-⟩
    rw [Finset.erase_insert hnot] at hwfv
    have hsv : Kept (ip ::ₘ F) s v := (hkept.trans hku).of_cons.trans hkv
    rw [wp_bind]
    refine wp_conseq (wp_iput hE.log hwfv fun hL => absurd hL (Finset.notMem_empty ip)) ?_
    rintro - w ⟨hwfw,hkw,hreap',-⟩
    refine ⟨hwfw,hsv.of_cons.trans hkw,fun ha => ⟨.inl ⟨rfl,nodeAt t dp,?_,hfind,?_⟩,
      fun hr => absurd hr (by decide)⟩⟩
    · rw [← hblk,← hkept.inum dp hmd]
      exact hwf.tree_nodeAt hdL
    · have hat : Anchored sb (ip ::ₘ F) t := ha.kept hkept.of_cons (by rw [hblk])
      have hau : Anchored sb (ip ::ₘ F) u :=
        hat.update (m := (nodeAt t dp).enter name (t.itable ip).inum) hku.of_cons
          (hwf.tree_nodeAt hdL) rfl htree
      have hreap'' := hreap' (hsv.valid ip hmi' hip).1
      rw [hau.reaped hwfu hreap,htree,hblk,hkept.inum dp hmd,hkept.inum ip hmi,
        hsv.inum ip hmi'] at hreap''
      exact hreap''
  · rw [if_pos (by decide)]
    rw [OnlyIndirect,hblk,hkept.inum dp hmd] at hind
    exact hbad u hwfu (hkept.trans hku) (fun _ => by rw [htree,hblk]) hind

/-- From `s`, the node `n` of slot `ip` has got one link more. -/
structure Bumped (sb : Geometry) (F : Multiset ℕ) (ip : ℕ) (n : Node) (s t : Fs) : Prop where
  kept : Kept (ip ::ₘ F) s t
  valid : (t.itable ip).valid = true
  node : tree sb s.blk (s.itable ip).inum = some n
  tree_eq : tree sb t.blk = Function.update (tree sb s.blk) (s.itable ip).inum
    (some {n with nlink := n.nlink+1})
  named_eq : named sb t.blk = named sb s.blk

namespace Bumped

variable {n : Node}

theorem inum (h : Bumped sb F ip n s t) : (t.itable ip).inum = (s.itable ip).inum :=
  h.kept.inum ip (Multiset.mem_cons_self ip F)

theorem tree_ne (h : Bumped sb F ip n s t) {j : ℕ} (hj : j ≠ (t.itable ip).inum) :
    tree sb t.blk j = tree sb s.blk j := by
  rw [h.inum] at hj
  rw [h.tree_eq,Function.update_of_ne hj]

theorem alike (h : Bumped sb F ip n s t) : Alike (tree sb s.blk) (tree sb t.blk) := by
  rw [h.tree_eq]
  exact .update h.node rfl rfl

theorem solid (h : Bumped sb F ip n s t) (hs : Solid sb F s) : Solid sb (ip ::ₘ F) t := by
  refine hs.bump h.kept.of_cons h.alike (fun j hj => h.tree_ne hj) ?_
  rw [h.inum,h.tree_eq,Function.update_self]
  exact Option.some_ne_none _

theorem anchored (h : Bumped sb F ip n s t) (ha : Anchored sb F s) : Anchored sb (ip ::ₘ F) t :=
  ha.bump h.kept.of_cons fun _ hj => h.tree_ne hj

theorem back (h : Bumped sb F ip n s t) (hwf : Wf sb s (ip ::ₘ F) L) (ha : Anchored sb F s)
    {T : FileTree} (hT : ∃ m, tree sb t.blk (s.itable ip).inum = some m ∧
      Reaped (Function.update (tree sb t.blk) (s.itable ip).inum
        (some {m with nlink := m.nlink-1})) T (s.itable ip).inum (ip ∈ F)) :
    T = tree sb s.blk := by
  obtain ⟨m,hm,hreap⟩ := hT
  rw [h.tree_eq,Function.update_self] at hm
  obtain rfl := Option.some.inj hm
  have hsame : Function.update (tree sb s.blk) (s.itable ip).inum
      (some {n with nlink := n.nlink+1-1}) = tree sb s.blk := by
    rw [Int16.add_sub_cancel,Function.update_eq_self_iff,h.node]
  rw [h.tree_eq,Function.update_idem,hsame] at hreap
  exact ha.reaped hwf hreap

end Bumped

def LinkDone (sb : Geometry) (F : Multiset ℕ) (cwd : ℕ) (old new : List UInt8) (s : Fs) (r : ℤ)
    (t : Fs) : Prop :=
  Wf sb t F ∅ ∧ Kept F s t ∧
  (Anchored sb F s → r = -1 ∧ tree sb t.blk = tree sb s.blk ∨
    r = 0 ∧ Linked (Held F s) (tree sb s.blk) (s.itable cwd).inum old new (tree sb t.blk)) ∧
  (Anchored sb F s → r = -1 → Restored sb cwd new s t)

/-- `link` has found the file `old`, in `t`, and has given it one link more, in `u`. -/
structure Relinked (sb : Geometry) (F : Multiset ℕ) (cwd : ℕ) (old : List UInt8) (s : Fs) (ip : ℕ)
    (n : Node) (t u : Fs) : Prop where
  wf : Wf sb t (ip ::ₘ F) ∅
  steady : Steady sb F s t
  names : Anchored sb F s → named sb t.blk = named sb s.blk
  lookup : Anchored sb F s → ∃ x, FileTree.lookup (tree sb s.blk) false (s.itable cwd).inum old =
    some ((t.itable ip).inum,x)
  file : n.type ≠ T_DIR
  bumped : Bumped sb F ip n t u

namespace Relinked

variable {n : Node} {u v : Fs} {old new name : List UInt8} (h : Relinked sb F cwd old s ip n t u)

include h

theorem anchored (ha : Anchored sb F s) :
    Anchored sb (ip ::ₘ F) u :=
  h.bumped.anchored (h.steady.anchored ha)

theorem node (ha : Anchored sb F s) :
    tree sb s.blk (t.itable ip).inum = some n := by
  rw [← h.steady.tree_eq ha,h.bumped.node]

theorem kept (hv : Steady sb (ip ::ₘ F) u v) {w : Fs}
    (hw : Kept F v w) : Kept F s w :=
  h.steady.kept.trans ((h.bumped.kept.trans hv.kept).of_cons.trans hw)

theorem wp_bad (hE : Stops E)
    (hwf : Wf sb v (ip ::ₘ F) ∅) (hv : Steady sb (ip ::ₘ F) u v)
    (hnv : Anchored sb (ip ::ₘ F) u → named sb v.blk = named sb u.blk) :
    wp (linkBad sb ip) (LinkDone sb F cwd old new s) E v := by
  have hmem := Multiset.mem_cons_self ip F
  have hTv : tree sb v.blk (v.itable ip).inum ≠ none := by
    rw [(hwf.loaded_of_valid hmem (hv.kept.valid ip hmem h.bumped.valid).1).tree_eq]
    exact Option.some_ne_none _
  refine wp_conseq (wp_linkBad hE hwf (.inr hTv)) ?_
  rintro r w ⟨rfl,hwfw,hkw,m,hm,hreap,hspared⟩
  have hend : Anchored sb F s → tree sb w.blk = tree sb s.blk := by
    intro ha
    rw [hv.tree_eq (h.anchored ha),hv.kept.inum ip hmem,h.bumped.inum] at hm hreap
    rw [h.bumped.back h.wf (h.steady.anchored ha) ⟨m,hm,hreap⟩,h.steady.tree_eq ha]
  refine ⟨hwfw,h.kept hv hkw,fun ha => .inl ⟨rfl,hend ha⟩,fun ha _ p => .inl ?_⟩
  rw [Spared,hv.kept.inum ip hmem,h.bumped.inum,hend ha,h.node ha] at hspared
  rw [hspared p fun _ => Option.some_ne_none _,hnv (h.anchored ha),h.bumped.named_eq,h.names ha]

theorem linked (ha : Anchored sb F s) {d : ℕ} {m : Node}
    {T : FileTree} (hnew : FileTree.lookup (tree sb s.blk) true (s.itable cwd).inum new = some (d,name))
    (hm : tree sb u.blk d = some m) (hdir : m.type = T_DIR) (hfind : m.find name = none)
    (hreap : Reaped (Function.update (tree sb u.blk) d (some (m.enter name (t.itable ip).inum))) T
      (t.itable ip).inum (ip ∈ F)) :
    Linked (Held F s) (tree sb s.blk) (s.itable cwd).inum old new T := by
  have hmem := Multiset.mem_cons_self ip F
  obtain ⟨x,hold⟩ := h.lookup ha
  have hdi : d ≠ (t.itable ip).inum := by
    rintro rfl
    rw [h.bumped.tree_eq,Function.update_self] at hm
    rw [← Option.some.inj hm] at hdir
    exact h.file hdir
  rw [h.bumped.tree_eq,h.steady.tree_eq ha] at hreap
  rw [h.bumped.tree_ne (by rwa [h.bumped.inum]),h.steady.tree_eq ha] at hm
  refine .intro hold (h.node ha) h.file hnew hm hdir hfind ?_
  rwa [h.wf.mem_iff_held hmem fun _ => Multiset.mem_cons_of_mem,h.steady.kept.held] at hreap

theorem wp_entry (hE : Stops E) (hcwd : cwd ∈ F)
    (hwf : Wf sb v (dp ::ₘ ip ::ₘ F) ∅) (hv : Steady sb (ip ::ₘ F) u v)
    (hnv : Anchored sb (ip ::ₘ F) u → named sb v.blk = named sb u.blk)
    (hnew : Anchored sb (ip ::ₘ F) u →
      FileTree.lookup (tree sb u.blk) true (u.itable cwd).inum new = some ((v.itable dp).inum,name))
    (hpar : (v.itable dp).valid = true ∧ (v.itable dp).d.type = T_DIR) :
    wp (linkEntry sb ip dp name) (LinkDone sb F cwd old new s) E v := by
  have hmem := Multiset.mem_cons_self ip F
  refine wp_conseq (wp_linkEntry hE hwf hpar (hv.kept.valid ip hmem h.bumped.valid).1) ?_
  rintro r w ⟨hwfw,hkw,hlink⟩
  have hparent : Anchored sb F s → FileTree.lookup (tree sb s.blk) true (s.itable cwd).inum new =
      some ((v.itable dp).inum,name) := by
    intro ha
    have hnew' := hnew (h.anchored ha)
    rwa [h.bumped.alike.lookup,h.steady.tree_eq ha,h.bumped.kept.of_cons.inum cwd hcwd,
      h.steady.kept.inum cwd hcwd] at hnew'
  have hend : Anchored sb F s → r = -1 ∧ tree sb w.blk = tree sb s.blk ∨
      r = 0 ∧ Linked (Held F s) (tree sb s.blk) (s.itable cwd).inum old new (tree sb w.blk) := by
    intro ha
    have hlinked := (hlink (hv.anchored (h.anchored ha))).1
    rw [LinkEntry,hv.tree_eq (h.anchored ha),hv.kept.inum ip hmem,h.bumped.inum] at hlinked
    rcases hlinked with ⟨hr,m,hm,hfind,hreap⟩ | ⟨hr,hreap⟩
    · refine .inr ⟨hr,h.linked ha (hparent ha) hm ?_ hfind hreap⟩
      have hmv := (hwf.loaded_of_valid (Multiset.mem_cons_self dp _) hpar.1).tree_eq
      rw [hv.tree_eq (h.anchored ha),hm] at hmv
      rw [Option.some.inj hmv]
      exact hpar.2
    · exact .inl ⟨hr,by rw [h.bumped.back h.wf (h.steady.anchored ha) hreap,h.steady.tree_eq ha]⟩
  refine ⟨hwfw,h.kept hv hkw,hend,fun ha hr p => ?_⟩
  have hsame : tree sb w.blk = tree sb s.blk := by
    rcases hend ha with ⟨-,hsame⟩ | ⟨hr',-⟩
    · exact hsame
    · rw [hr] at hr'
      exact absurd hr' (by decide)
  have hundone := (hlink (hv.anchored (h.anchored ha))).2 hr
  rw [Undone,hv.kept.inum ip hmem,h.bumped.inum,hsame,hnv (h.anchored ha),h.bumped.named_eq,
    h.names ha,h.node ha] at hundone
  rcases hundone p fun _ => Option.some_ne_none _ with hsame | ⟨rfl,hnone⟩
  · exact .inl hsame
  · exact .inr ⟨hnone,rfl,name,hparent ha⟩

end Relinked

theorem wp_link (hE : Stops E) (h : Wf sb s F ∅) (hcwd : cwd ∈ F)
    (hroot : ROOTINO < sb.ninodes) (hT : E .ilockNoType ∨ Solid sb F s) {old new : List UInt8} :
    wp (link sb cwd old new) (LinkDone sb F cwd old new s) E s := by
  have hrefused : ∀ u, Wf sb u F ∅ → Steady sb F s u →
      (Anchored sb F s → named sb u.blk = named sb s.blk) → LinkDone sb F cwd old new s (-1) u :=
    fun u hwf hst hn => ⟨hwf,hst.kept,fun ha => .inl ⟨rfl,hst.tree_eq ha⟩,
      fun ha _ p => .inl (congrFun (hn ha) p)⟩
  rw [link,wp_bind]
  refine wp_conseq (wp_namei hE h hcwd hroot hT) ?_
  rintro (- | ip) t ⟨⟨x,hw⟩,hnamed⟩
  · exact hrefused t hw.1 hw.2.1 hnamed
  obtain ⟨hwf,hst,hold,hTi,-⟩ := hw
  have hmem := Multiset.mem_cons_self ip F
  simp only
  rw [wp_bind]
  refine wp_conseq (wp_ilock hE.blocked hwf hmem hTi) ?_
  rintro - t₁ ⟨hnot,hwf₁,hk₁,hb₁⟩
  have hip := Finset.mem_insert_self ip ∅
  rw [wp_bind,wp_get]
  by_cases hdir : (t₁.itable ip).d.type = T_DIR
  · rw [if_pos hdir,wp_bind]
    refine wp_conseq (wp_iunlockput_steady (.inl hE.log) hwf₁ hnot) ?_
    rintro - u ⟨hwfu,hu,hnu⟩
    have hs₁ := hst.trans (Steady.of_blk hk₁ hb₁).of_cons
    exact hrefused u hwfu (hs₁.trans hu) fun ha => by rw [hnu (hs₁.anchored ha),hb₁,hnamed ha]
  rw [if_neg hdir,wp_bind]
  refine wp_conseq (wp_updateDisk hE.log hwf₁ hip (fun _ => rfl) (fun _ => rfl) fun _ => rfl) ?_
  rintro - t₂ ⟨hwf₂,hk₂,htree₂,hn₂⟩
  rw [wp_bind]
  refine wp_conseq (wp_iunlock hwf₂ hip) ?_
  rintro - t₃ ⟨hwf₃,hk₃,hb₃⟩
  rw [Finset.erase_insert hnot] at hwf₃
  have hb : Bumped sb F ip (nodeAt t₁ ip) t t₃ := {
    kept := (hk₁.trans hk₂).trans hk₃
    valid := ((hk₂.trans hk₃).valid ip hmem (hwf₁.locked_valid ip hip)).1
    node := by
      rw [← hb₁,← hk₁.inum ip hmem]
      exact hwf₁.tree_nodeAt hip
    tree_eq := by
      rw [hb₃,htree₂,hb₁,hk₁.inum ip hmem,nodeAt,hb₁]
      rfl
    named_eq := by rw [hb₃,hn₂,hb₁] }
  have hre : Relinked sb F cwd old s ip (nodeAt t₁ ip) t t₃ :=
    ⟨hwf,hst,hnamed,fun ha => ⟨x,hold ha⟩,hdir,hb⟩
  have hT₃ : E .ilockNoType ∨ Solid sb (ip ::ₘ F) t₃ := hT.imp id fun hs => hb.solid (hst.solid hs)
  rw [wp_bind,nameiparent]
  refine wp_conseq (wp_namex_of hE.lookups hwf₃ (Multiset.mem_cons_of_mem hcwd) hroot hT₃) ?_
  rintro (- | ⟨dp,name⟩) u ⟨hw,hnu⟩
  · exact hre.wp_bad hE hw.1 hw.2.1 hnu
  · obtain ⟨hwfu,hu,hnew,-,hpar⟩ := hw
    exact hre.wp_entry hE hcwd hwfu hu hnu hnew (hpar rfl)

/-- The directory of the path is found and locked, and nothing else has happened. -/
structure AtParent (sb : Geometry) (F : Multiset ℕ) (cwd : ℕ) (path : List UInt8) (s : Fs) (dp : ℕ)
    (name : List UInt8) (t : Fs) : Prop where
  start : Wf sb s F ∅
  wf : Wf sb t (dp ::ₘ F) (insert dp ∅)
  steady : Steady sb F s t
  names : Anchored sb F s → named sb t.blk = named sb s.blk
  lookup : Anchored sb F s →
    FileTree.lookup (tree sb s.blk) true (s.itable cwd).inum path = some ((t.itable dp).inum,name)
  dir : (t.itable dp).d.type = T_DIR

theorem AtParent.node (h : AtParent sb F cwd path s dp name t) :
    tree sb t.blk (t.itable dp).inum = some (nodeAt t dp) :=
  h.wf.tree_nodeAt (Finset.mem_insert_self dp ∅)

theorem wp_nameiparent_at (hE : Stops E) (h : Wf sb s F ∅) (hcwd : cwd ∈ F)
    (hroot : ROOTINO < sb.ninodes) (hT : E .ilockNoType ∨ Solid sb F s) {path : List UInt8} :
    wp (nameiparent sb cwd path) (fun r t => match r with
      | none => Wf sb t F ∅ ∧ Steady sb F s t ∧
          (Anchored sb F s → named sb t.blk = named sb s.blk) ∧
          (Anchored sb F s → lookup (tree sb s.blk) true (s.itable cwd).inum path = none)
      | some (dp,name) => ∀ Q : Unit → Fs → Prop,
          (∀ u, AtParent sb F cwd path s dp name u → Q () u) → wp (ilock sb dp) Q E t) E s := by
  rw [nameiparent]
  refine wp_conseq (wp_namex_of hE.lookups h hcwd hroot hT) ?_
  rintro (- | ⟨dp,name⟩) t ⟨hw,hnt⟩
  · obtain ⟨hwf,hst,hnone⟩ := hw
    exact ⟨hwf,hst,hnt,hnone⟩
  obtain ⟨hwf,hst,hpath,hTd,hpar⟩ := hw
  have hdF := Multiset.mem_cons_self dp F
  intro Q hQ
  refine wp_conseq (wp_ilock hE.blocked hwf hdF hTd) ?_
  rintro - u ⟨-,hwfu,hk,hblk⟩
  exact hQ u {
    start := h
    wf := hwfu
    steady := hst.trans (Steady.of_blk hk hblk).of_cons
    names := fun ha => by rw [hblk,hnt ha]
    lookup := fun ha => by rw [hpath ha,hk.inum dp hdF]
    dir := by rw [(hk.valid dp hdF (hpar rfl).1).2,(hpar rfl).2] }

/-- The end of `sys_unlink`. The entry lies inside the directory, so the write cannot fail. -/
theorem wp_unlinkEntry (hE : Stops E) (h : Wf sb s (ip ::ₘ dp ::ₘ F) (insert ip (insert dp ∅)))
    (hne : ip ≠ dp) {k : ℕ} (hk : k < (nodeAt s dp).count) :
    wp (unlinkEntry sb dp ip (Dirent.bytes*k)) (fun r t => r = 0 ∧ Wf sb t F ∅ ∧ Kept F s t ∧
      ∃ U, Reaped (Function.update (tree sb s.blk) (s.itable dp).inum
          (some ((nodeAt s dp).cut k (nodeAt s ip).type))) U (s.itable dp).inum (dp ∈ F) ∧
        Reaped (Function.update U (s.itable ip).inum
          (some {nodeAt s ip with nlink := (nodeAt s ip).nlink-1})) (tree sb t.blk)
          (s.itable ip).inum (ip ∈ F)) E s := by
  have hipL : ip ∈ insert ip (insert dp (∅ : Finset ℕ)) := Finset.mem_insert_self _ _
  have hdpL : dp ∈ insert ip (insert dp (∅ : Finset ℕ)) :=
    Finset.mem_insert_of_mem (Finset.mem_insert_self _ _)
  have hipF := h.held ip hipL
  have hdpF := h.held dp hdpL
  have hinum : (s.itable ip).inum ≠ (s.itable dp).inum := fun heq => hne (h.inj ip hipF dp hdpF heq)
  have hoff : Dirent.bytes*k ≤ (s.itable dp).d.size.toNat := by
    rw [count_nodeAt] at hk
    simp only [Dirent.bytes_eq] at *
    omega
  rw [unlinkEntry,wp_bind]
  refine wp_conseq (wp_writeDirent hE.log h hdpL hoff rfl
    (lt_of_le_of_lt (Nat.zero_le _) (h.inum_lt dp hdpF))) ?_
  rintro r t ⟨hwft,hkt,⟨hr,-,htree⟩ | ⟨-,-,hend,-⟩,-⟩
  swap
  · omega
  rw [if_neg (not_not.mpr hr)]
  have htype : (t.itable ip).d.type = (nodeAt s ip).type :=
    (hkt.valid ip hipF (h.locked_valid ip hipL)).2
  have hcut : wp (when ((t.itable ip).d.type = T_DIR)
      (updateDisk sb dp fun d => {d with nlink := d.nlink-1}))
      (fun _ u => Wf sb u (ip ::ₘ dp ::ₘ F) (insert ip (insert dp ∅)) ∧
        Kept (ip ::ₘ dp ::ₘ F) s u ∧ tree sb u.blk = Function.update (tree sb s.blk)
          (s.itable dp).inum (some ((nodeAt s dp).cut k (nodeAt s ip).type))) E t := by
    rw [wp_when,htype]
    constructor
    · intro hd
      refine wp_conseq (wp_updateDisk hE.log hwft hdpL (fun _ => rfl) (fun _ => rfl)
        fun _ => rfl) ?_
      rintro - u ⟨hwfu,hku,hu,-⟩
      refine ⟨hwfu,hkt.trans hku,?_⟩
      have hnode : nodeAt t dp = (nodeAt s dp).setEnt k .zero := hwft.nodeAt_eq hdpL (by
        rw [htree,hkt.inum dp hdpF,Function.update_self])
      have hnew : nodeOf t.blk {(t.itable dp).d with nlink := (t.itable dp).d.nlink-1} =
          {nodeAt t dp with nlink := (nodeAt t dp).nlink-1} := rfl
      rw [hu,htree,hkt.inum dp hdpF,Function.update_idem,hnew,hnode,Node.cut,if_pos hd]
      rfl
    · intro hd
      rw [Node.cut,if_neg hd]
      exact ⟨hwft,hkt,htree⟩
  rw [wp_bind,wp_get,wp_bind]
  refine wp_conseq hcut ?_
  rintro - u ⟨hwfu,hku,hu⟩
  rw [Multiset.cons_swap] at hwfu
  rw [wp_bind]
  refine wp_conseq (wp_iunlockput hE.log hwfu hdpL) ?_
  rintro - v ⟨hwfv,hkv,hreap,-⟩
  have hL : (insert ip (insert dp (∅ : Finset ℕ))).erase dp = insert ip ∅ := by
    rw [Finset.erase_insert_of_ne hne,Finset.erase_insert (Finset.notMem_empty dp)]
  rw [hL] at hwfv
  have hipL' := Finset.mem_insert_self ip ∅
  have hipF' := Multiset.mem_cons_self ip F
  have hks : Kept (ip ::ₘ F) s v := by
    refine Kept.trans (hku.mono fun l hl => ?_) hkv
    rcases Multiset.mem_cons.mp hl with rfl | hl
    · exact hipF
    · exact Multiset.mem_cons_of_mem (Multiset.mem_cons_of_mem hl)
  rw [wp_bind]
  refine wp_conseq (wp_updateDisk hE.log hwfv hipL' (fun _ => rfl) (fun _ => rfl) fun _ => rfl) ?_
  rintro - w ⟨hwfw,hkw,hw,-⟩
  rw [wp_bind]
  refine wp_conseq (wp_iunlockput hE.log hwfw hipL') ?_
  rintro - x ⟨hwfx,hkx,hreap',-⟩
  rw [Finset.erase_insert (Finset.notMem_empty ip)] at hwfx
  rw [hu,hku.inum dp hdpF,Multiset.mem_cons,or_iff_right (Ne.symm hne)] at hreap
  refine ⟨rfl,hwfx,(hks.trans hkw).of_cons.trans hkx,tree sb v.blk,hreap,?_⟩
  have hnode : nodeAt v ip = nodeAt s ip := hwfv.nodeAt_eq hipL' (by
    have hvs : tree sb v.blk (s.itable ip).inum = tree sb s.blk (s.itable ip).inum := by
      rcases hreap with ⟨heq,-⟩ | ⟨heq,-⟩
      · rw [heq,Function.update_of_ne hinum]
      · rw [heq,Function.update_of_ne hinum,Function.update_of_ne hinum]
    rw [hks.inum ip hipF',hvs]
    exact h.tree_nodeAt hipL)
  have hnew : nodeOf v.blk {(v.itable ip).d with nlink := (v.itable ip).d.nlink-1} =
      {nodeAt v ip with nlink := (nodeAt v ip).nlink-1} := rfl
  rw [hw,hkw.inum ip hipF',hks.inum ip hipF',hnew,hnode] at hreap'
  exact hreap'

def UnlinkDone (sb : Geometry) (F : Multiset ℕ) (cwd : ℕ) (path : List UInt8) (s : Fs) (r : ℤ)
    (t : Fs) : Prop :=
  Wf sb t F ∅ ∧ Kept F s t ∧ (Anchored sb F s → r = -1 ∧ tree sb t.blk = tree sb s.blk ∨
    r = 0 ∧ Unlinked (Held F s) (tree sb s.blk) (s.itable cwd).inum path (tree sb t.blk))

theorem UnlinkDone.refused {path : List UInt8} (h : Wf sb t F ∅) (hst : Steady sb F s t) :
    UnlinkDone sb F cwd path s (-1) t :=
  ⟨h,hst.kept,fun ha => .inl ⟨rfl,hst.tree_eq ha⟩⟩

/-- The entry is found: the slot of its inode is taken and locked before the entry goes. -/
theorem AtParent.wp_unlinkFound {path name : List UInt8} (h : AtParent sb F cwd path s dp name t)
    (hE : Stops E) (hT : E .ilockNoType ∨ Solid sb F s)
    (hN : E .unlinkNlink ∨ Anchored sb F s ∧
      ∀ i n, Named (tree sb s.blk) i → tree sb s.blk i = some n → ¬ n.nlink < 1)
    (hdots : ¬ (namecmp name dot = 0 ∨ namecmp name dotdot = 0)) {k : ℕ}
    (hfind : (nodeAt t dp).find name = some k) {u : Fs}
    (hgot : Got sb (dp ::ₘ F) (insert dp ∅) ((nodeAt t dp).ent k).inum.toNat ip t u) :
    wp (do
      ilock sb ip
      let n := (← get).itable ip
      if n.d.nlink < 1 then throw .unlinkNlink
      else if n.d.type = T_DIR then do
        let empty ← isdirempty sb ip
        if empty then unlinkEntry sb dp ip (Dirent.bytes*k)
        else do
          iunlockput sb ip
          iunlockput sb dp
          return -1
      else unlinkEntry sb dp ip (Dirent.bytes*k)) (UnlinkDone sb F cwd path s) E u := by
  obtain ⟨hk,hmatch,-⟩ := Node.find_eq_some_iff.mp hfind
  have hdF := Multiset.mem_cons_self dp F
  have hdL := Finset.mem_insert_self dp ∅
  have hdF₃ : dp ∈ ip ::ₘ dp ::ₘ F := Multiset.mem_cons_of_mem hdF
  have hiF : ip ∈ ip ::ₘ dp ::ₘ F := Multiset.mem_cons_self _ _
  have hFF : ∀ l ∈ F, l ∈ ip ::ₘ dp ::ₘ F :=
    fun l hl => Multiset.mem_cons_of_mem (Multiset.mem_cons_of_mem hl)
  have hTi : E .ilockNoType ∨ tree sb u.blk (u.itable ip).inum ≠ none := by
    refine hT.imp id fun hs => ?_
    rw [hgot.blk,hgot.inum]
    exact (h.steady.solid hs).entries _ _ h.node h.dir k hk hmatch.1
  rw [wp_bind]
  refine wp_conseq (wp_ilock hE.blocked hgot.wf hiF hTi) ?_
  rintro - t₃ ⟨hnot₃,hwf₃,hk₃,hb₃⟩
  have hne : ip ≠ dp := fun heq => hnot₃ (heq ▸ hdL)
  have hiL := Finset.mem_insert_self ip (insert dp (∅ : Finset ℕ))
  have hdL₃ := Finset.mem_insert_of_mem (a := dp) (b := ip) hdL
  have hst₃ : Steady sb F s t₃ := h.steady.trans
    ((Steady.of_blk hgot.kept hgot.blk).of_cons.trans ⟨hk₃.mono hFF,fun _ => by rw [hb₃]⟩)
  have hid : (t₃.itable dp).inum = (t.itable dp).inum := by
    rw [hk₃.inum dp hdF₃,hgot.kept.inum dp hdF]
  have hii : (t₃.itable ip).inum = ((nodeAt t dp).ent k).inum.toNat := by
    rw [hk₃.inum ip hiF,hgot.inum]
  have hnode : nodeAt t₃ dp = nodeAt t dp := hwf₃.nodeAt_eq hdL₃ (by
    rw [hb₃,hgot.blk,hid]
    exact h.node)
  have hdn : Anchored sb F s → tree sb s.blk (t.itable dp).inum = some (nodeAt t dp) := fun ha => by
    rw [← h.steady.tree_eq ha]
    exact h.node
  have hin : Anchored sb F s → tree sb s.blk (t₃.itable ip).inum = some (nodeAt t₃ ip) := fun ha => by
    rw [← hst₃.tree_eq ha]
    exact hwf₃.tree_nodeAt hiL
  have hremove : ((nodeAt t₃ ip).type = T_DIR → ∀ j, 2 ≤ j → j < (nodeAt t₃ ip).count →
      ((nodeAt t₃ ip).ent j).inum = 0) → ¬ (nodeAt t₃ ip).nlink < 1 →
      wp (unlinkEntry sb dp ip (Dirent.bytes*k)) (UnlinkDone sb F cwd path s) E t₃ := by
    intro hempty hnlink
    refine wp_conseq (wp_unlinkEntry hE hwf₃ hne (by rwa [hnode])) ?_
    rintro r v ⟨rfl,hwfv,hkv,U,hreap,hreap'⟩
    refine ⟨hwfv,hst₃.kept.trans hkv,fun ha => .inr ⟨rfl,?_⟩⟩
    rw [hwf₃.mem_iff_held hdF₃ hFF,hst₃.kept.held,hid,hst₃.tree_eq ha,hnode] at hreap
    rw [hwf₃.mem_iff_held hiF hFF,hst₃.kept.held,hii] at hreap'
    refine .intro (h.lookup ha) (hdn ha) h.dir (fun h0 => hdots (.inl h0)) (fun h0 => hdots (.inr h0))
      hfind rfl (by rw [← hii]; exact hin ha) ?_ hnlink hempty hreap hreap'
    rw [← hii,← hid]
    exact fun heq => hne (hwf₃.inj ip hiF dp hdF₃ heq)
  rw [wp_bind,wp_get]
  by_cases hnlink : (t₃.itable ip).d.nlink < 1
  · rw [if_pos hnlink]
    exact hN.resolve_right fun ⟨ha,hpos⟩ => hpos (t₃.itable ip).inum (nodeAt t₃ ip)
      ⟨(t.itable dp).inum,nodeAt t dp,k,name,hdn ha,h.dir,hk,hmatch,fun h0 => hdots (.inl h0),
        fun h0 => hdots (.inr h0),hii.symm⟩ (hin ha) hnlink
  rw [if_neg hnlink]
  by_cases htype : (t₃.itable ip).d.type = T_DIR
  · rw [if_pos htype,wp_bind]
    refine wp_conseq (wp_isdirempty hE hwf₃ hiL) ?_
    rintro empty u ⟨rfl,hempty⟩
    by_cases hyes : empty = true
    · rw [if_pos hyes]
      exact hremove (fun _ => hempty.mp hyes) hnlink
    · rw [if_neg hyes,wp_bind]
      refine wp_conseq (wp_iunlockput_steady (.inl hE.log) hwf₃ hnot₃) ?_
      rintro - v ⟨hwfv,hv,-⟩
      rw [wp_bind]
      refine wp_conseq (wp_iunlockput_steady (.inl hE.log) hwfv (Finset.notMem_empty dp)) ?_
      rintro - w ⟨hwfw,hw,-⟩
      exact .refused hwfw (hst₃.trans (hv.of_cons.trans hw))
  · rw [if_neg htype]
    exact hremove (fun hd => absurd hd htype) hnlink

theorem wp_unlink (hE : Stops E) (h : Wf sb s F ∅) (hcwd : cwd ∈ F)
    (hroot : ROOTINO < sb.ninodes) (hT : E .ilockNoType ∨ Solid sb F s)
    (hN : E .unlinkNlink ∨ Anchored sb F s ∧
      ∀ i n, Named (tree sb s.blk) i → tree sb s.blk i = some n → ¬ n.nlink < 1)
    {path : List UInt8} : wp (unlink sb cwd path) (UnlinkDone sb F cwd path s) E s := by
  rw [unlink,wp_bind]
  refine wp_conseq (wp_nameiparent_at hE h hcwd hroot hT) ?_
  rintro (- | ⟨dp,name⟩) t hw
  · exact .refused hw.1 hw.2.1
  simp only
  rw [wp_bind]
  refine hw _ fun t₁ hat => ?_
  have hdrop : wp (iunlockput sb dp >>= fun _ => pure (-1)) (UnlinkDone sb F cwd path s) E t₁ := by
    rw [wp_bind]
    refine wp_conseq (wp_iunlockput_steady (.inl hE.log) hat.wf (Finset.notMem_empty dp)) ?_
    rintro - u ⟨hwfu,hu,-⟩
    exact .refused hwfu (hat.steady.trans hu)
  by_cases hdots : namecmp name dot = 0 ∨ namecmp name dotdot = 0
  · rw [if_pos hdots]
    exact hdrop
  rw [if_neg hdots,wp_bind]
  refine wp_conseq (wp_dirlookup hE hat.wf (Finset.mem_insert_self dp ∅) hat.dir) ?_
  rintro (- | ⟨ip,off⟩) t₂ hlook
  · obtain ⟨rfl,-⟩ := hlook
    exact hdrop
  · obtain ⟨k,hfind,rfl,hgot⟩ := hlook
    exact hat.wp_unlinkFound hE hT hN hdots hfind hgot

end Fs
end Xv6
