import Xv6.LinkOps
import Xv6.RootTree

/-! Path lookup as a fold over the components of the path. With no lock held and room in the inode
table, `namei` and `nameiparent` return what the fold says and leave everything as it was but for
one reference. -/
namespace Xv6

open FileTree

/-- The nonempty pieces of a path between slashes, cut to `DIRSIZ` bytes. -/
def components (path : List UInt8) : List (List UInt8) :=
  ((path.splitOn slash).filter (· ≠ [])).map (·.take DIRSIZ)

@[simp] theorem components_nil : components [] = [] := rfl

@[simp] theorem components_slash (path : List UInt8) :
    components (slash::path) = components path := by
  have hsplit : (slash::path).splitOn slash = []::path.splitOn slash :=
    List.splitOn_append_cons_self_of_not_mem List.not_mem_nil path
  rw [components,hsplit,List.filter_cons_of_neg (by simp),components]

theorem components_dropWhile (path : List UInt8) :
    components (path.dropWhile (· = slash)) = components path := by
  induction path with
  | nil => rfl
  | cons c cs ih =>
    rw [List.dropWhile_cons]
    split
    · rename_i hc
      rw [of_decide_eq_true hc,components_slash,ih]
    · rfl

theorem components_cons {c : UInt8} {cs : List UInt8} (hc : c ≠ slash) :
    components (c::cs) = ((c::cs).takeWhile (· ≠ slash)).take DIRSIZ::
      components ((c::cs).dropWhile (· ≠ slash)) := by
  set l := (c::cs).takeWhile (· ≠ slash) with hl
  have hsplit : c::cs = l++(c::cs).dropWhile (· ≠ slash) := (List.takeWhile_append_dropWhile).symm
  have hnot : slash ∉ l := fun hmem => by
    simpa using List.all_eq_true.mp List.all_takeWhile slash hmem
  have hne : l ≠ [] := by simp [hl,hc]
  rcases hr : (c::cs).dropWhile (· ≠ slash) with - | ⟨d,ds⟩
  · rw [hr,List.append_nil] at hsplit
    rw [hsplit,components,List.splitOn_eq_singleton hnot]
    simp [hne]
  · have hd : d = slash := by
      have hhead := List.head_dropWhile_not (fun x => decide (x ≠ slash)) (l := c::cs)
        (by rw [hr]; exact List.cons_ne_nil d ds)
      simp only [hr,List.head_cons] at hhead
      simpa using hhead
    subst hd
    rw [hr] at hsplit
    rw [hsplit,components,List.splitOn_append_cons_self_of_not_mem hnot,components_slash,
      List.filter_cons_of_pos (by simpa using hne),List.map_cons,components]

theorem components_of_skipelem_none {path : List UInt8} (h : skipelem path = none) :
    components path = [] := by
  rw [← components_dropWhile]
  unfold skipelem at h
  split at h
  · rename_i hdrop
    rw [hdrop,components_nil]
  · cases h

/-- `skipelem` takes off the first component; nothing is left of the path if nothing is left of
the components. -/
theorem components_of_skipelem {path name rest : List UInt8} (h : skipelem path = some (name,rest)) :
    components path = name::components rest ∧ (rest = [] ↔ components rest = []) := by
  have hslash : ∀ (l : List UInt8) c cs, l.dropWhile (· = slash) = c::cs → c ≠ slash := by
    intro l c cs hdrop
    have hhead := List.head_dropWhile_not (fun x => decide (x = slash)) (l := l) (by simp [hdrop])
    simpa [hdrop] using hhead
  rw [← components_dropWhile]
  unfold skipelem at h
  split at h
  · cases h
  · rename_i c cs hdrop
    obtain ⟨rfl,rfl⟩ := Prod.mk.inj (Option.some.inj h)
    rw [hdrop,components_cons (hslash _ _ _ hdrop),components_dropWhile]
    refine ⟨rfl,?_⟩
    rcases hrest : ((c::cs).dropWhile (· ≠ slash)).dropWhile (· = slash) with - | ⟨d,ds⟩
    · rw [← components_dropWhile,hrest]
      simp
    · rw [← components_dropWhile,hrest,components_cons (hslash _ _ _ hrest)]
      simp

namespace FileTree

def descend (T : FileTree) (i : ℕ) (name : List UInt8) : Option ℕ :=
  (T i).bind fun n => if n.type = T_DIR then (n.find name).map fun k => (n.ent k).inum.toNat else none

def follow (T : FileTree) (i : ℕ) (names : List (List UInt8)) : Option ℕ := names.foldlM T.descend i

def followParent (T : FileTree) (i : ℕ) (names : List (List UInt8)) : Option (ℕ × List UInt8) :=
  (T.follow i names.dropLast).bind fun d => (T d).bind fun n =>
    if n.type = T_DIR then names.getLast?.map fun name => (d,name) else none

variable {T : FileTree}

theorem follow_cons (i : ℕ) (name : List UInt8) (names : List (List UInt8)) :
    T.follow i (name::names) = (T.descend i name).bind fun j => T.follow j names := by
  rw [follow,List.foldlM_cons]
  rfl

theorem follow_eq_parent (i : ℕ) {names : List (List UInt8)} (h : names ≠ []) :
    T.follow i names = (T.followParent i names).bind fun p => T.descend p.1 p.2 := by
  obtain ⟨init,last,rfl⟩ := (List.eq_nil_or_concat' names).resolve_left h
  rw [followParent,List.dropLast_concat,List.getLast?_concat,follow,List.foldlM_append,follow]
  cases hd : init.foldlM T.descend i with
  | none => rfl
  | some d =>
    simp only [Option.bind_eq_bind,Option.bind_some,List.foldlM_cons,List.foldlM_nil,Option.map_some]
    rcases hT : T d with - | n
    · simp [descend,hT]
    · by_cases hdir : n.type = T_DIR
      · simp [hdir]
      · simp [descend,hT,hdir]

theorem walk_false {fuel : ℕ} {path : List UInt8} (h : path.length < fuel) (i : ℕ) :
    walk T false fuel i path = (T.follow i (components path)).map fun j => (j,[]) := by
  induction fuel generalizing i path with
  | zero => exact absurd h (Nat.not_lt_zero _)
  | succ fuel ih =>
    rw [walk]
    rcases hskip : skipelem path with - | ⟨name,rest⟩
    · rw [components_of_skipelem_none hskip]
      rfl
    · have hlen : rest.length < fuel := by
        have := Fs.skipelem_length hskip
        omega
      rw [(components_of_skipelem hskip).1,follow_cons,descend]
      rcases T i with - | n
      · rfl
      · by_cases hdir : n.type = T_DIR
        · rcases hfind : n.find name with - | k
          · simp [hdir,hfind]
          · simp [hdir,hfind,ih hlen]
        · simp [hdir]

theorem followParent_cons (i : ℕ) (name : List UInt8) {names : List (List UInt8)} (h : names ≠ []) :
    T.followParent i (name::names) = (T.descend i name).bind fun j => T.followParent j names := by
  rw [followParent,List.dropLast_cons_of_ne_nil h,follow_cons,List.getLast?_cons_of_ne_nil h,
    Option.bind_assoc]
  rfl

theorem walk_true {fuel : ℕ} {path : List UInt8} (h : path.length < fuel) (i : ℕ) :
    walk T true fuel i path = T.followParent i (components path) := by
  induction fuel generalizing i path with
  | zero => exact absurd h (Nat.not_lt_zero _)
  | succ fuel ih =>
    rw [walk]
    rcases hskip : skipelem path with - | ⟨name,rest⟩
    · rw [components_of_skipelem_none hskip]
      simp [followParent,follow]
    · have hlen : rest.length < fuel := by
        have := Fs.skipelem_length hskip
        omega
      obtain ⟨hcomp,hnil⟩ := components_of_skipelem hskip
      rw [hcomp]
      by_cases hrest : rest = []
      · rw [hnil.1 hrest]
        rcases hT : T i with - | n <;> simp [followParent,follow,hT,hrest]
      · rw [followParent_cons i name fun hh => hrest (hnil.2 hh),descend]
        rcases T i with - | n
        · rfl
        · by_cases hdir : n.type = T_DIR
          · rcases hfind : n.find name with - | k
            · simp [hdir,hfind,hrest]
            · simp [hdir,hfind,hrest,ih hlen]
          · simp [hdir]

end FileTree

namespace Fs

open Command

variable {sb : Geometry} {s t : Fs} {F : Multiset ℕ} {cwd ip : ℕ}

/-- `nameiparent`, then `dirlookup` in the directory found. -/
def viaParent (sb : Geometry) (cwd : ℕ) (path : List UInt8) : FsM (Option ℕ) := do
  match ← nameiparent sb cwd path with
  | none => return none
  | some (dp,name) => do
    ilock sb dp
    let r ← dirlookup sb dp name
    iunlockput sb dp
    return r.map Prod.fst

/-- The only stop of a lookup: the inode table has at most one slot that the caller does not
hold. -/
def Crowded (F : Multiset ℕ) (e : FsPanic) : Prop := e = .igetNoInodes ∧ NINODE ≤ F.toFinset.card+1

/-- No lock is held, and slot `r` has one reference more than before. -/
structure Settled (s t : Fs) (r : Option ℕ) : Prop where
  unlocked : ∀ k, (t.itable k).locked = false
  refs : ∀ k, (t.itable k).ref = (s.itable k).ref+if r = some k then 1 else 0

/-- Nothing has changed but for a reference to slot `r`, which holds inode `w`. -/
structure Found (sb : Geometry) (F : Multiset ℕ) (s : Fs) (w r : Option ℕ) (t : Fs) : Prop where
  inode : r.map (fun ip => (t.itable ip).inum) = w
  settled : Settled s t r
  wf : Wf sb t (r.toList+F) ∅
  kept : Kept F s t
  tree_eq : tree sb t.blk = tree sb s.blk

theorem Wf.unlocked (h : Wf sb t F ∅) (k : ℕ) : (t.itable k).locked = false := by
  rw [← Bool.not_eq_true,h.locks]
  exact Finset.notMem_empty k

theorem Wf.settled_none (h : Wf sb s F ∅) (h' : Wf sb t F ∅) : Settled s t none where
  unlocked := h'.unlocked
  refs k := by rw [h'.refs,h.refs,if_neg (by simp),add_zero]

theorem Wf.settled_some (h : Wf sb s F ∅) (h' : Wf sb t (ip ::ₘ F) ∅) : Settled s t (some ip) where
  unlocked := h'.unlocked
  refs k := by
    rw [h'.refs,h.refs,Multiset.count_cons]
    by_cases hk : k = ip
    · simp [hk]
    · simp [hk,Ne.symm hk]

theorem found_none (h : Wf sb s F ∅) (h' : Wf sb t F ∅) (hst : Steady sb F s t) (ha : Anchored sb F s) :
    Found sb F s none none t :=
  ⟨rfl,h.settled_none h',by simpa using h',hst.kept,hst.tree_eq ha⟩

theorem found_some (h : Wf sb s F ∅) (h' : Wf sb t (ip ::ₘ F) ∅) (hst : Steady sb F s t)
    (ha : Anchored sb F s) : Found sb F s (some (t.itable ip).inum) (some ip) t :=
  ⟨rfl,h.settled_some h',by simpa using h',hst.kept,hst.tree_eq ha⟩

theorem Solid.lookups (hs : Solid sb F s) (hw : Whole (tree sb s.blk)) :
    Lookups sb (Crowded F) F ∅ s :=
  ⟨.inr hs.anchored,fun hfull => ⟨rfl,hfull⟩,by simp,.inr ⟨hs.anchored,hw⟩⟩

section Namei

variable (hroot : ROOTINO < sb.ninodes) (h : Wf sb s F ∅) (hcwd : cwd ∈ F) (hs : Solid sb F s)
  (hw : Whole (tree sb s.blk)) (path : List UInt8)
include hroot h hcwd hs hw

theorem wp_namei_follow : wp (namei sb cwd path) (Found sb F s
    (follow (tree sb s.blk) (startOf (s.itable cwd).inum path) (components path)))
    (Crowded F) s := by
  rw [namei,wp_bind]
  refine wp_conseq (wp_namex_of (hs.lookups hw) h hcwd hroot (.inr hs)) ?_
  have hfold := walk_false (T := tree sb s.blk) (Nat.lt_succ_self path.length)
    (startOf (s.itable cwd).inum path)
  rintro (- | ⟨ip,x⟩) t ⟨hwalk,-⟩
  · obtain ⟨hwf,hst,hnone⟩ := hwalk
    have hlook := hnone hs.anchored
    rw [lookup,hfold,Option.map_eq_none_iff] at hlook
    rw [hlook]
    exact found_none h hwf hst hs.anchored
  · obtain ⟨hwf,hst,hsome,-⟩ := hwalk
    have hlook := hsome hs.anchored
    rw [lookup,hfold,Option.map_eq_some_iff] at hlook
    obtain ⟨j,hj,heq⟩ := hlook
    rw [hj,(Prod.mk.inj heq).1]
    exact found_some h hwf hst hs.anchored

/-- `nameiparent` gives the last component with the directory above it. -/
theorem wp_nameiparent_follow : wp (nameiparent sb cwd path) (fun r t =>
    r.map (fun q => ((t.itable q.1).inum,q.2)) = followParent (tree sb s.blk)
      (startOf (s.itable cwd).inum path) (components path) ∧
    Found sb F s ((followParent (tree sb s.blk) (startOf (s.itable cwd).inum path)
      (components path)).map Prod.fst) (r.map Prod.fst) t ∧
    ∀ q ∈ r, (t.itable q.1).valid = true ∧ (t.itable q.1).d.type = T_DIR) (Crowded F) s := by
  refine wp_conseq (wp_namex_of (hs.lookups hw) h hcwd hroot (.inr hs)) ?_
  have hfold := walk_true (T := tree sb s.blk) (Nat.lt_succ_self path.length)
    (startOf (s.itable cwd).inum path)
  rintro (- | ⟨dp,name⟩) t ⟨hwalk,-⟩
  · obtain ⟨hwf,hst,hnone⟩ := hwalk
    have hlook := hnone hs.anchored
    rw [lookup,hfold] at hlook
    rw [hlook]
    exact ⟨rfl,found_none h hwf hst hs.anchored,by simp⟩
  · obtain ⟨hwf,hst,hsome,-,hpar⟩ := hwalk
    have hlook := hsome hs.anchored
    rw [lookup,hfold] at hlook
    rw [hlook]
    refine ⟨rfl,found_some h hwf hst hs.anchored,?_⟩
    rintro q ⟨⟩
    exact hpar rfl

theorem wp_viaParent_follow (hne : components path ≠ []) : wp (viaParent sb cwd path) (Found sb F s
    (follow (tree sb s.blk) (startOf (s.itable cwd).inum path) (components path)))
    (Crowded F) s := by
  rw [viaParent,wp_bind,follow_eq_parent _ hne]
  refine wp_conseq (wp_nameiparent_follow hroot h hcwd hs hw path) ?_
  rintro (- | ⟨dp,name⟩) t ⟨hparent,hfound,hvalid⟩
  · rw [← hparent]
    exact found_none h (by simpa using hfound.wf) ⟨hfound.kept,fun _ => hfound.tree_eq⟩ hs.anchored
  · rw [← hparent]
    obtain ⟨hv,hdir⟩ := hvalid _ rfl
    have hwf : Wf sb t (dp ::ₘ F) ∅ := by simpa using hfound.wf
    have hst : Steady sb F s t := ⟨hfound.kept,fun _ => hfound.tree_eq⟩
    have hmem := Multiset.mem_cons_self dp F
    have hnode := (hwf.loaded_of_valid hmem hv).tree_eq
    simp only
    rw [wp_bind]
    refine wp_conseq (wp_ilock_of (fun hL => absurd hL (Finset.notMem_empty dp)) hwf hmem
      (.inr (by rw [hnode]; simp))) ?_
    rintro - u ⟨hnot,hwfu,hku,hbu⟩
    have hdiru : (u.itable dp).d.type = T_DIR := by rw [(hku.valid dp hmem hv).2,hdir]
    have hsu : Steady sb F s u := hst.trans (Steady.of_blk hku hbu).of_cons
    have hdp := Finset.mem_insert_self dp ∅
    have hnodeu : tree sb s.blk (t.itable dp).inum = some (nodeAt u dp) := by
      rw [← hsu.tree_eq hs.anchored,← hku.inum dp hmem]
      exact hwfu.tree_nodeAt hdp
    have hread : ¬ Dirent.bytes ∣ (u.itable dp).d.size.toNat → Crowded F .dirlookupRead := by
      intro hcut
      refine absurd ?_ hcut
      have hwhole := hw _ _ hnodeu hdiru
      rwa [nodeAt,nodeOf,length_fileOf] at hwhole
    have hdesc : descend (tree sb s.blk) (t.itable dp).inum name =
        ((nodeAt u dp).find name).map fun k => ((nodeAt u dp).ent k).inum.toNat := by
      rw [descend,hnodeu,Option.bind_some,if_pos (show (nodeAt u dp).type = T_DIR from hdiru)]
    rw [Option.map_some,Option.bind_some,hdesc,wp_bind]
    refine wp_conseq (wp_dirlookup_of hread (fun hfull => ⟨rfl,card_of_full hfull⟩) hwfu hdp hdiru) ?_
    rintro (- | ⟨ip,off⟩) v hlook
    · obtain ⟨rfl,hnone⟩ := hlook
      rw [hnone,wp_bind]
      refine wp_conseq (wp_iunlockput_steady (.inr (hsu.anchored hs.anchored)) hwfu hnot) ?_
      rintro - x ⟨hwfx,hx,-⟩
      exact found_none h hwfx (hsu.trans hx) hs.anchored
    · obtain ⟨k,hfind,-,hgot⟩ := hlook
      have hwfv : Wf sb v (dp ::ₘ ip ::ₘ F) (insert dp ∅) := by
        rw [Multiset.cons_swap]
        exact hgot.wf
      have hsv : Steady sb F s v := hsu.trans (Steady.of_blk hgot.kept hgot.blk).of_cons
      rw [hfind,wp_bind]
      refine wp_conseq (wp_iunlockput_steady (.inr ((hsv.anchored hs.anchored).mono ip)) hwfv hnot) ?_
      rintro - x ⟨hwfx,hx,-⟩
      have hinum : ((nodeAt u dp).ent k).inum.toNat = (x.itable ip).inum := by
        rw [hx.kept.inum ip (Multiset.mem_cons_self ip F),hgot.inum]
      change Found sb F s (some ((nodeAt u dp).ent k).inum.toNat) (some ip) x
      rw [hinum]
      exact found_some h hwfx (hsv.trans hx.of_cons) hs.anchored

/-- Path lookup is a fold over the components: `namei` gives the inode under them, `nameiparent`
the directory above the last one and its name (nothing if there is none), and looking that name up
gives the inode of `namei`. Every one of them leaves the locks, the references but for the one
returned, and the tree as they were. -/
theorem namei_is_fold :
    wp (namei sb cwd path) (Found sb F s (follow (tree sb s.blk)
      (startOf (s.itable cwd).inum path) (components path))) (Crowded F) s ∧
    wp (nameiparent sb cwd path) (fun r t =>
      r.map (fun q => ((t.itable q.1).inum,q.2)) = followParent (tree sb s.blk)
        (startOf (s.itable cwd).inum path) (components path) ∧
      (components path = [] → r = none) ∧
      Settled s t (r.map Prod.fst) ∧ Kept F s t ∧ tree sb t.blk = tree sb s.blk) (Crowded F) s ∧
    (components path ≠ [] → wp (viaParent sb cwd path) (Found sb F s
      (follow (tree sb s.blk) (startOf (s.itable cwd).inum path) (components path)))
      (Crowded F) s) := by
  refine ⟨wp_namei_follow hroot h hcwd hs hw path,?_,wp_viaParent_follow hroot h hcwd hs hw path⟩
  refine wp_conseq (wp_nameiparent_follow hroot h hcwd hs hw path) ?_
  rintro r t ⟨hparent,hfound,-⟩
  refine ⟨hparent,fun hnil => ?_,hfound.settled,hfound.kept,hfound.tree_eq⟩
  rw [hnil] at hparent
  simpa [followParent] using hparent

end Namei

/-- `/.//..` from the root directory of a fresh image. -/
theorem namei_is_fold_root : Wf Mkfs.geometry Mkfs.rootState {0} ∅ ∧
    Solid Mkfs.geometry {0} Mkfs.rootState ∧ Whole (tree Mkfs.geometry Mkfs.rootState.blk) ∧
    components [slash,46,slash,slash,46,46] = [dot,dotdot] ∧
    wp (namei Mkfs.geometry 0 [slash,46,slash,slash,46,46]) (Found Mkfs.geometry {0} Mkfs.rootState
      (follow (tree Mkfs.geometry Mkfs.rootState.blk) ROOTINO [dot,dotdot]))
      (Crowded {0}) Mkfs.rootState := by
  have hroot : ROOTINO < Mkfs.geometry.ninodes := by decide
  have hcomp : components [slash,46,slash,slash,46,46] = [dot,dotdot] := by decide
  have hfold := (namei_is_fold hroot Mkfs.rootState_wf (Multiset.mem_singleton_self 0)
    Mkfs.rootState_solid Mkfs.rootState_whole [slash,46,slash,slash,46,46]).1
  rw [hcomp] at hfold
  exact ⟨Mkfs.rootState_wf,Mkfs.rootState_solid,Mkfs.rootState_whole,hcomp,hfold⟩

end Fs

end Xv6
