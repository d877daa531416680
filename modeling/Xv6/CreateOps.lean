import Xv6.LinkOps

/-! The effects of `create`, and of the calls that open inodes, on the tree. -/
namespace Xv6
namespace Fs

open Bytes Command FileTree

variable {sb : Geometry} {E : FsPanic → Prop} {s t : Fs} {F G : Multiset ℕ} {L : Finset ℕ}
  {ip dp cwd : ℕ} {type major minor : Int16} {name path : List UInt8}

theorem wp_dirlink_node (hE : Stops E) (h : Wf sb s F L) (hdp : dp ∈ L) {m : Node}
    (hm : tree sb s.blk (s.itable dp).inum = some m) (hdir : m.type = T_DIR) {inum : ℕ}
    (hinum : inum < sb.ninodes) :
    wp (dirlink sb dp name inum) (fun r t => Wf sb t F L ∧ Kept F s t ∧
      (¬ r < 0 ∧ m.find name = none ∧ EntryFits sb s.blk (s.itable dp).inum m.emptyAt ∧
        tree sb t.blk =
          Function.update (tree sb s.blk) (s.itable dp).inum (some (m.enter name inum)) ∨
       r < 0 ∧ (m.find name = none → ¬ EntryFits sb s.blk (s.itable dp).inum m.emptyAt) ∧
        tree sb t.blk = tree sb s.blk ∧ OnlyIndirect sb (s.itable dp).inum s t) ∧
      Elsewhere sb (s.itable dp).inum s t) E s := by
  have hnode := h.nodeAt_eq hdp hm
  have htype : (s.itable dp).d.type = T_DIR := by
    rw [← hnode] at hdir
    exact hdir
  refine wp_conseq (wp_dirlink hE h hdp htype hinum) ?_
  rw [hnode]
  rintro r t ⟨hwf,hkept,⟨rfl,hlink⟩ | ⟨rfl,hlink⟩,hnamed⟩
  · exact ⟨hwf,hkept,.inl ⟨by decide,hlink⟩,hnamed⟩
  · exact ⟨hwf,hkept,.inr ⟨by decide,hlink⟩,hnamed⟩

theorem wp_linkDots (hE : Stops E) (h : Wf sb s G L) (hip : ip ∈ L) (hdp : dp ∈ L) {n : Node}
    (hn : tree sb s.blk (s.itable ip).inum = some n) (hdir : n.type = T_DIR) :
    wp (linkDots sb dp ip) (fun r t => Wf sb t G L ∧ Kept G s t ∧
      (r = true ∧ tree sb t.blk = Function.update (tree sb s.blk) (s.itable ip).inum
        (some ((n.enter dot (s.itable ip).inum).enter dotdot (s.itable dp).inum)) ∨
       r = false ∧ ∃ n', tree sb t.blk =
        Function.update (tree sb s.blk) (s.itable ip).inum (some n')) ∧
      Elsewhere sb (s.itable ip).inum s t) E s := by
  have hiG := h.held ip hip
  have hdG := h.held dp hdp
  rw [linkDots,wp_bind,wp_get,wp_bind]
  refine wp_conseq (wp_dirlink_node hE h hip hn hdir (h.inum_lt ip hiG)) ?_
  rintro r t ⟨hwf,hkept,⟨hr,-,-,htree⟩ | ⟨hr,-,htree,-⟩,hnamed⟩
  · rw [if_neg hr,wp_bind]
    have hn' : tree sb t.blk (t.itable ip).inum = some (n.enter dot (s.itable ip).inum) := by
      rw [htree,hkept.inum ip hiG,Function.update_self]
    refine wp_conseq (wp_dirlink_node hE hwf hip hn' hdir (h.inum_lt dp hdG)) ?_
    rintro r u ⟨hwfu,hku,hlink,hnu⟩
    have hboth : Elsewhere sb (s.itable ip).inum s u := by
      intro p hp
      rw [hnu p (by rwa [hkept.inum ip hiG]),hnamed p hp]
    rcases hlink with ⟨hr,-,-,hu⟩ | ⟨hr,-,hu,-⟩
    · refine ⟨hwfu,hkept.trans hku,.inl ⟨by simpa using hr,?_⟩,hboth⟩
      rw [hu,htree,hkept.inum ip hiG,Function.update_idem]
    · exact ⟨hwfu,hkept.trans hku,.inr ⟨by simpa using hr,_,by rw [hu,htree]⟩,hboth⟩
  · rw [if_pos hr]
    refine ⟨hwf,hkept,.inr ⟨rfl,n,?_⟩,hnamed⟩
    rw [htree,eq_comm,Function.update_eq_self_iff,hn]

/-- Outside of inode `i`, pointers are as before except that `d` may have got an indirect block. -/
def Leaves (sb : Geometry) (i d : ℕ) (s t : Fs) : Prop :=
  ∀ p : ℕ × ℕ, p.1 ≠ i → named sb t.blk p = named sb s.blk p ∨
    p = (d,NDIRECT) ∧ named sb s.blk p = none

theorem wp_linkNew (hE : Stops E) (h : Wf sb s G L) (hip : ip ∈ L) (hdp : dp ∈ L) (hne : ip ≠ dp)
    (hn : tree sb s.blk (s.itable ip).inum = some ⟨type,major,minor,1,[]⟩) {m : Node}
    (hm : tree sb s.blk (s.itable dp).inum = some m) (hdir : m.type = T_DIR) :
    wp (linkNew sb dp ip name type) (fun r t => Wf sb t G L ∧ Kept G s t ∧
      (r = true ∧ m.find name = none ∧
        (type ≠ T_DIR → EntryFits sb s.blk (s.itable dp).inum m.emptyAt) ∧ tree sb t.blk =
        Function.update (Function.update (tree sb s.blk) (s.itable ip).inum
          (some (.fresh type major minor (s.itable ip).inum (s.itable dp).inum)))
          (s.itable dp).inum (some (m.enter name (s.itable ip).inum)) ∨
       r = false ∧ (type ≠ T_DIR → m.find name = none →
          ¬ EntryFits sb s.blk (s.itable dp).inum m.emptyAt) ∧
        (∃ n', tree sb t.blk = Function.update (tree sb s.blk) (s.itable ip).inum (some n')) ∧
        Leaves sb (s.itable ip).inum (s.itable dp).inum s t)) E s := by
  have hiG := h.held ip hip
  have hdG := h.held dp hdp
  have hinum : (s.itable dp).inum ≠ (s.itable ip).inum :=
    fun heq => hne (h.inj ip hiG dp hdG heq.symm)
  have henter : ∀ t n, Wf sb t G L → Kept G s t → tree sb t.blk =
      Function.update (tree sb s.blk) (s.itable ip).inum (some n) →
      Elsewhere sb (s.itable ip).inum s t →
      wp (linkName sb dp ip name)
        (fun r u => Wf sb u G L ∧ Kept G s u ∧ (r = true ∧ m.find name = none ∧
          EntryFits sb t.blk (s.itable dp).inum m.emptyAt ∧ tree sb u.blk =
          Function.update (Function.update (tree sb s.blk) (s.itable ip).inum (some n))
            (s.itable dp).inum (some (m.enter name (s.itable ip).inum)) ∨
          r = false ∧
            (m.find name = none → ¬ EntryFits sb t.blk (s.itable dp).inum m.emptyAt) ∧
            (∃ n', tree sb u.blk =
              Function.update (tree sb s.blk) (s.itable ip).inum (some n')) ∧
            Leaves sb (s.itable ip).inum (s.itable dp).inum s u)) E t := by
    intro t n hwf hkept htree hnamed
    have hmt : tree sb t.blk (t.itable dp).inum = some m := by
      rw [htree,hkept.inum dp hdG,Function.update_of_ne hinum,hm]
    rw [linkName,wp_bind,wp_get,wp_bind]
    refine wp_conseq (wp_dirlink_node hE hwf hdp hmt hdir (hwf.inum_lt ip hiG)) ?_
    rw [hkept.inum dp hdG,hkept.inum ip hiG]
    rintro r u ⟨hwfu,hku,⟨hr,hfind,hfits,hu⟩ | ⟨hr,hfits,hu,hind⟩,-⟩
    · refine ⟨hwfu,hkept.trans hku,.inl ⟨by simpa using hr,hfind,hfits,?_⟩⟩
      rw [hu,htree]
    · refine ⟨hwfu,hkept.trans hku,.inr ⟨by simpa using hr,hfits,⟨n,by rw [hu,htree]⟩,fun p hp => ?_⟩⟩
      rw [← hnamed p hp]
      exact hind p
  have hself : tree sb s.blk = Function.update (tree sb s.blk) (s.itable ip).inum
      (some ⟨type,major,minor,1,[]⟩) := by
    rw [eq_comm,Function.update_eq_self_iff,hn]
  rw [linkNew,Node.fresh]
  by_cases hd : type = T_DIR
  · rw [if_pos hd,if_pos hd,wp_bind]
    refine wp_conseq (wp_linkDots hE h hip hdp hn hd) ?_
    rintro ok t ⟨hwf,hkept,⟨rfl,htree⟩ | ⟨rfl,hfail⟩,hnamed⟩
    · rw [if_pos rfl]
      refine wp_conseq (henter t _ hwf hkept htree hnamed) ?_
      rintro r u ⟨hwfu,hku,⟨hr,hfind,-,hu⟩ | ⟨hr,-,hu⟩⟩
      · exact ⟨hwfu,hku,.inl ⟨hr,hfind,absurd hd,hu⟩⟩
      · exact ⟨hwfu,hku,.inr ⟨hr,absurd hd,hu⟩⟩
    · exact ⟨hwf,hkept,.inr ⟨rfl,absurd hd,hfail,fun p hp => .inl (hnamed p hp)⟩⟩
  · rw [if_neg hd,if_neg hd]
    refine wp_conseq (henter s _ h (.refl G s) hself fun _ _ => rfl) ?_
    rintro r u ⟨hwfu,hku,⟨hr,hfind,hfits,hu⟩ | ⟨hr,hfits,hu⟩⟩
    · exact ⟨hwfu,hku,.inl ⟨hr,hfind,fun _ => hfits,hu⟩⟩
    · exact ⟨hwfu,hku,.inr ⟨hr,fun _ => hfits,hu⟩⟩

theorem wp_adopt (hE : Stops E) (h : Wf sb s G L) (hdp : dp ∈ L) {T : FileTree} {m : Node} {i : ℕ}
    (htree : tree sb s.blk = Function.update T (s.itable dp).inum (some (m.enter name i))) :
    wp (when (type = T_DIR) (updateDisk sb dp fun d => {d with nlink := d.nlink+1}))
      (fun _ t => Wf sb t G L ∧ Kept G s t ∧ tree sb t.blk =
        Function.update T (s.itable dp).inum (some (m.adopt type name i))) E s := by
  rw [wp_when]
  constructor
  · intro hd
    refine wp_conseq (wp_updateDisk hE.log h hdp (fun _ => rfl) (fun _ => rfl) fun _ => rfl) ?_
    rintro - t ⟨hwf,hkept,ht,-⟩
    have hnode : nodeAt s dp = m.enter name i := h.nodeAt_eq hdp (by
      rw [htree,Function.update_self])
    have hnew : nodeOf s.blk {(s.itable dp).d with nlink := (s.itable dp).d.nlink+1} =
        {nodeAt s dp with nlink := (nodeAt s dp).nlink+1} := rfl
    refine ⟨hwf,hkept,?_⟩
    rw [ht,htree,Function.update_idem,hnew,hnode,Node.adopt,if_pos hd]
    rfl
  · intro hd
    rw [Node.adopt,if_neg hd]
    exact ⟨h,.refl G s,htree⟩

/-- An entry could not be made: the new inode loses its link, and goes with the last reference. -/
theorem wp_abandon (hE : Stops E) (h : Wf sb s (ip ::ₘ dp ::ₘ F) (insert ip (insert dp ∅)))
    (hne : ip ≠ dp) {m : Node} (hm : tree sb s.blk (s.itable dp).inum = some m) {A : Prop}
    (hip : A → ip ∉ F) (hdp : A → m.nlink = 0 → dp ∈ F) :
    wp (do
      updateDisk sb ip fun d => {d with nlink := 0}
      iunlockput sb ip
      iunlockput sb dp
      return none) (fun (r : Option ℕ) t => r = none ∧ Wf sb t F ∅ ∧ Kept F s t ∧
        (A → tree sb t.blk = Function.update (tree sb s.blk) (s.itable ip).inum none ∧
          Elsewhere sb (s.itable ip).inum s t)) E s := by
  have hiF : ip ∈ ip ::ₘ dp ::ₘ F := Multiset.mem_cons_self _ _
  have hdF : dp ∈ ip ::ₘ dp ::ₘ F := Multiset.mem_cons_of_mem (Multiset.mem_cons_self _ _)
  have hiL := Finset.mem_insert_self ip (insert dp (∅ : Finset ℕ))
  have hnot : ip ∉ insert dp (∅ : Finset ℕ) := by simpa using hne
  have hinum : (s.itable dp).inum ≠ (s.itable ip).inum :=
    fun heq => hne (h.inj ip hiF dp hdF heq.symm)
  rw [wp_bind]
  refine wp_conseq (wp_updateDisk hE.log h hiL (fun _ => rfl) (fun _ => rfl) fun _ => rfl) ?_
  rintro - t ⟨hwf,hkept,ht,hnt⟩
  rw [wp_bind]
  refine wp_conseq (wp_iunlockput hE.log hwf hiL) ?_
  rintro - u ⟨hwfu,hku,hreap,hnu⟩
  rw [Finset.erase_insert hnot] at hwfu
  rw [ht,hkept.inum ip hiF] at hreap
  rw [Spared,hkept.inum ip hiF,hnt] at hnu
  have hksu : Kept (dp ::ₘ F) s u := hkept.of_cons.trans hku
  rw [wp_bind]
  refine wp_conseq (wp_iunlockput hE.log hwfu (Finset.mem_insert_self dp ∅)) ?_
  rintro - v ⟨hwfv,hkv,hreap',hnv⟩
  rw [Finset.erase_insert (Finset.notMem_empty dp)] at hwfv
  refine ⟨rfl,hwfv,hksu.of_cons.trans hkv,fun ha => ?_⟩
  have hu : tree sb u.blk = Function.update (tree sb s.blk) (s.itable ip).inum none := by
    rcases hreap with ⟨-,hheld | hlinks⟩ | ⟨heq,-⟩
    · rcases Multiset.mem_cons.mp hheld with heq | hF
      · exact absurd heq hne
      · exact absurd hF (hip ha)
    · exact absurd rfl (hlinks _ (Function.update_self _ _ _))
    · rw [heq,Function.update_idem]
  have hv : tree sb v.blk = tree sb u.blk := by
    rcases hreap' with ⟨heq,-⟩ | ⟨-,hF,l,hl,h0⟩
    · exact heq
    · rw [hu,hksu.inum dp (Multiset.mem_cons_self dp F),Function.update_of_ne hinum,hm] at hl
      obtain rfl := Option.some.inj hl
      exact absurd (hdp ha h0) hF
  refine ⟨by rw [hv,hu],fun p hp => ?_⟩
  rw [hnv.named_eq hv,hnu p fun heq => absurd heq hp]

/-- `createNew` under an assumption `A` that keeps nodes without links held: all entries are
made, or the new inode is gone again. -/
theorem wp_createNew (hE : Stops E) (h : Wf sb s (ip ::ₘ dp ::ₘ F) (insert dp ∅))
    (hi : tree sb s.blk (s.itable ip).inum = some ⟨type,0,0,0,[]⟩)
    {m : Node} (hm : tree sb s.blk (s.itable dp).inum = some m) (hdir : m.type = T_DIR)
    {A : Prop} (hip : A → ip ∉ F) (hdp : A → m.nlink = 0 → dp ∈ F) :
    wp (createNew sb dp ip name type major minor) (fun r t =>
      r = none ∧ Wf sb t F ∅ ∧ Kept F s t ∧ (type ≠ T_DIR → m.find name = none →
          ¬ EntryFits sb s.blk (s.itable dp).inum m.emptyAt) ∧
        (A → tree sb t.blk = Function.update (tree sb s.blk) (s.itable ip).inum none ∧
          Leaves sb (s.itable ip).inum (s.itable dp).inum s t) ∨
      r = some ip ∧ Wf sb t (ip ::ₘ F) (insert ip ∅) ∧ Kept (ip ::ₘ F) s t ∧
        (t.itable ip).d.type = type ∧
        (type ≠ T_DIR → EntryFits sb s.blk (s.itable dp).inum m.emptyAt) ∧
        Reaped (Function.update (Function.update (tree sb s.blk) (s.itable ip).inum
          (some (.fresh type major minor (s.itable ip).inum (s.itable dp).inum)))
          (s.itable dp).inum (some (m.adopt type name (s.itable ip).inum)))
          (tree sb t.blk) (s.itable dp).inum (dp ∈ F)) E s := by
  have hiF : ip ∈ ip ::ₘ dp ::ₘ F := Multiset.mem_cons_self _ _
  have hdF : dp ∈ ip ::ₘ dp ::ₘ F := Multiset.mem_cons_of_mem (Multiset.mem_cons_self _ _)
  rw [createNew,wp_bind]
  refine wp_conseq (wp_ilock hE.blocked h hiF (.inr (by rw [hi]; exact Option.some_ne_none _))) ?_
  rintro - t ⟨hnot,hwf,hkept,hblk⟩
  have hne : ip ≠ dp := fun heq => hnot (heq ▸ Finset.mem_insert_self dp ∅)
  have hiL := Finset.mem_insert_self ip (insert dp (∅ : Finset ℕ))
  have hdL : dp ∈ insert ip (insert dp (∅ : Finset ℕ)) :=
    Finset.mem_insert_of_mem (Finset.mem_insert_self _ _)
  have hinum : (s.itable dp).inum ≠ (s.itable ip).inum :=
    fun heq => hne (h.inj ip hiF dp hdF heq.symm)
  have hnode : nodeAt t ip = ⟨type,0,0,0,[]⟩ := hwf.nodeAt_eq hiL (by
    rw [hblk,hkept.inum ip hiF,hi])
  rw [wp_bind]
  refine wp_conseq (wp_updateDisk hE.log hwf hiL (fun _ => rfl) (fun _ => rfl) fun _ => rfl) ?_
  rintro - u ⟨hwfu,hku,hu,hnu⟩
  rw [hblk] at hnu
  have hnew : nodeOf t.blk {(t.itable ip).d with major := major, minor := minor, nlink := 1} =
      {nodeAt t ip with major := major, minor := minor, nlink := 1} := rfl
  rw [hnew,hnode,hblk,hkept.inum ip hiF] at hu
  have hks := hkept.trans hku
  have hni : tree sb u.blk (u.itable ip).inum = some ⟨type,major,minor,1,[]⟩ := by
    rw [hu,hks.inum ip hiF,Function.update_self]
  have hmu : tree sb u.blk (u.itable dp).inum = some m := by
    rw [hu,hks.inum dp hdF,Function.update_of_ne hinum,hm]
  rw [wp_bind]
  refine wp_conseq (wp_linkNew hE hwfu hiL hdL hne hni hmu hdir) ?_
  rintro ok v ⟨hwfv,hkv,hlink⟩
  have hksv := hks.trans hkv
  rw [Leaves,hu,hks.inum ip hiF,hks.inum dp hdF,entryFits_congr h.disk hwfu.disk hnu] at hlink
  simp only [Function.update_idem] at hlink
  rcases hlink with ⟨rfl,-,hfits,hv⟩ | ⟨rfl,hfits,⟨n',hv⟩,hleaves⟩
  · rw [← hksv.inum dp hdF] at hv
    rw [if_pos rfl,wp_bind]
    refine wp_conseq (wp_adopt hE hwfv hdL hv) ?_
    rintro - w ⟨hwfw,hkw,hw⟩
    rw [Multiset.cons_swap] at hwfw
    rw [wp_bind]
    refine wp_conseq (wp_iunlockput hE.log hwfw hdL) ?_
    rintro - x ⟨hwfx,hkx,hreap,-⟩
    have hL : (insert ip (insert dp (∅ : Finset ℕ))).erase dp = insert ip ∅ := by
      rw [Finset.erase_insert_of_ne hne,Finset.erase_insert (Finset.notMem_empty dp)]
    rw [hL] at hwfx
    rw [hw,hkw.inum dp hdF,hksv.inum dp hdF,Multiset.mem_cons,or_iff_right (Ne.symm hne)] at hreap
    have hsub : ∀ l ∈ ip ::ₘ F, l ∈ ip ::ₘ dp ::ₘ F := by
      intro l hl
      rcases Multiset.mem_cons.mp hl with rfl | hl
      · exact hiF
      · exact Multiset.mem_cons_of_mem (Multiset.mem_cons_of_mem hl)
    have hksx' : Kept (ip ::ₘ F) t x := (((hku.trans hkv).trans hkw).mono hsub).trans hkx
    have hksx : Kept (ip ::ₘ F) s x := (hkept.mono hsub).trans hksx'
    refine .inr ⟨rfl,hwfx,hksx,?_,hfits,hreap⟩
    rw [(hksx'.valid ip (Multiset.mem_cons_self ip F) (hwf.locked_valid ip hiL)).2]
    exact congrArg Node.type hnode
  · have hmv : tree sb v.blk (v.itable dp).inum = some m := by
      rw [hv,hksv.inum dp hdF,Function.update_of_ne hinum,hm]
    rw [if_neg Bool.false_ne_true]
    refine wp_conseq (wp_abandon hE hwfv hne hmv hip hdp) ?_
    rintro r w ⟨rfl,hwfw,hkw,hw⟩
    refine .inl ⟨rfl,hwfw,hksv.of_cons.of_cons.trans hkw,hfits,fun ha => ?_⟩
    obtain ⟨htree,hnamed⟩ := hw ha
    rw [hksv.inum ip hiF] at htree hnamed
    refine ⟨by rw [htree,hv,Function.update_idem],fun p hp => ?_⟩
    rw [hnamed p hp,← hnu]
    exact hleaves p hp

/-- The outcome of `create`: nothing, or a locked inode that was there or is new. -/
def CreateOutcome (sb : Geometry) (F : Multiset ℕ) (cwd : ℕ) (path : List UInt8)
    (type major minor : Int16) (s : Fs) : Option ℕ → Fs → Prop
  | none, t => Wf sb t F ∅ ∧ Kept F s t ∧ (Orderly sb F s → tree sb t.blk = tree sb s.blk)
  | some ip, t => Wf sb t (ip ::ₘ F) (insert ip ∅) ∧ Kept F s t ∧
      (type = T_FILE ∧ ((t.itable ip).d.type = T_FILE ∨ (t.itable ip).d.type = T_DEVICE) ∧
        (Orderly sb F s → tree sb t.blk = tree sb s.blk) ∨
       (t.itable ip).d.type = type ∧ (Orderly sb F s →
        Created (Held F s) (tree sb s.blk) (s.itable cwd).inum path type major minor
          (t.itable ip).inum (tree sb t.blk)))

/-- `create` makes a new file at `path`: its directory is there and has no such name, and an inode
and the blocks for the entry are free. -/
def Creatable (sb : Geometry) (blk : ℕ → Block) (cwd : ℕ) (path : List UInt8) : Prop :=
  ∃ d name m, lookup (tree sb blk) true cwd path = some (d,name) ∧ tree sb blk d = some m ∧
    m.type = T_DIR ∧ m.find name = none ∧
    (∃ i, 0 < i ∧ i < sb.ninodes ∧ tree sb blk i = none) ∧ EntryFits sb blk d m.emptyAt

/-- What `create` does, and when the tree is the old one although a file was asked for. -/
def CreateDone (sb : Geometry) (F : Multiset ℕ) (cwd : ℕ) (path : List UInt8)
    (type major minor : Int16) (s : Fs) (r : Option ℕ) (t : Fs) : Prop :=
  CreateOutcome sb F cwd path type major minor s r t ∧
  (r = none → Orderly sb F s → Restored sb cwd path s t) ∧
  (type = T_FILE → Orderly sb F s → (tree sb t.blk = tree sb s.blk ↔
    ¬ Creatable sb s.blk (s.itable cwd).inum path))

theorem CreateDone.refused (h : Wf sb t F ∅) (hst : Steady sb F s t)
    (hn : Anchored sb F s → named sb t.blk = named sb s.blk)
    (hno : Orderly sb F s → ¬ Creatable sb s.blk (s.itable cwd).inum path) :
    CreateDone sb F cwd path type major minor s none t :=
  ⟨⟨h,hst.kept,fun ho => hst.tree_eq ho.anchored⟩,fun _ ho p => .inl (congrFun (hn ho.anchored) p),
    fun _ ho => iff_of_true (hst.tree_eq ho.anchored) (hno ho)⟩

namespace AtParent

variable (h : AtParent sb F cwd path s dp name t)

include h

/-- With the directory at hand, only its entries, the inodes and the blocks matter. -/
theorem creatable_iff (ho : Orderly sb F s) :
    Creatable sb s.blk (s.itable cwd).inum path ↔ (nodeAt t dp).find name = none ∧
      (∃ i, 0 < i ∧ i < sb.ninodes ∧ tree sb s.blk i = none) ∧
      EntryFits sb s.blk (t.itable dp).inum (nodeAt t dp).emptyAt := by
  have hm : tree sb s.blk (t.itable dp).inum = some (nodeAt t dp) :=
    h.steady.tree_eq ho.anchored ▸ h.node
  constructor
  · rintro ⟨d,name',m,hpath,hm',-,hrest⟩
    rw [h.lookup ho.anchored] at hpath
    obtain ⟨rfl,rfl⟩ := Prod.mk.inj (Option.some.inj hpath)
    rw [hm] at hm'
    obtain rfl := Option.some.inj hm'
    exact hrest
  · exact fun hrest => ⟨_,name,_,h.lookup ho.anchored,hm,h.dir,hrest⟩

/-- The name is there: an existing file will do where a file is asked for. -/
theorem wp_existing (hE : Stops E)
    (hT : E .ilockNoType ∨ Solid sb F s) {k : ℕ} (hfind : (nodeAt t dp).find name = some k) {u : Fs}
    (hgot : Got sb (dp ::ₘ F) (insert dp ∅) ((nodeAt t dp).ent k).inum.toNat ip t u) :
    wp (do
      iunlockput sb dp
      ilock sb ip
      let n := (← get).itable ip
      if type = T_FILE ∧ (n.d.type = T_FILE ∨ n.d.type = T_DEVICE) then return some ip
      else do
        iunlockput sb ip
        return none) (CreateDone sb F cwd path type major minor s) E u := by
  obtain ⟨hk,hmatch,-⟩ := Node.find_eq_some_iff.mp hfind
  have hiF := Multiset.mem_cons_self ip F
  have hwf : Wf sb u (dp ::ₘ ip ::ₘ F) (insert dp ∅) := by
    rw [Multiset.cons_swap]
    exact hgot.wf
  have hst : Steady sb F s u := h.steady.trans (Steady.of_blk hgot.kept hgot.blk).of_cons
  have hno : Orderly sb F s → ¬ Creatable sb s.blk (s.itable cwd).inum path := by
    intro ho
    rw [h.creatable_iff ho,hfind]
    rintro ⟨hnone,-⟩
    cases hnone
  rw [wp_bind]
  refine wp_conseq (wp_iunlockput_steady (.inl hE.log) hwf (Finset.notMem_empty dp)) ?_
  rintro - t₃ ⟨hwf₃,hst₃,hn₃⟩
  have hTi : E .ilockNoType ∨ tree sb t₃.blk (t₃.itable ip).inum ≠ none := by
    refine hT.imp id fun hs => ?_
    rw [hst₃.of_cons.tree_eq (hst.anchored hs.anchored),hgot.blk,hst₃.kept.inum ip hiF,hgot.inum]
    exact (h.steady.solid hs).entries _ _ h.node h.dir k hk hmatch.1
  rw [wp_bind]
  refine wp_conseq (wp_ilock hE.blocked hwf₃ hiF hTi) ?_
  rintro - t₄ ⟨hnot₄,hwf₄,hk₄,hb₄⟩
  have hst₄ : Steady sb F s t₄ :=
    hst.trans (hst₃.of_cons.trans (Steady.of_blk hk₄ hb₄).of_cons)
  rw [wp_bind,wp_get]
  by_cases hok : type = T_FILE ∧
      ((t₄.itable ip).d.type = T_FILE ∨ (t₄.itable ip).d.type = T_DEVICE)
  · rw [if_pos hok]
    exact ⟨⟨hwf₄,hst₄.kept,.inl ⟨hok.1,hok.2,fun ho => hst₄.tree_eq ho.anchored⟩⟩,
      (fun hr => by cases hr),fun _ ho => iff_of_true (hst₄.tree_eq ho.anchored) (hno ho)⟩
  · rw [if_neg hok,wp_bind]
    refine wp_conseq (wp_iunlockput_steady (.inl hE.log) hwf₄ hnot₄) ?_
    rintro - v ⟨hwfv,hv,hnv⟩
    refine .refused hwfv (hst₄.trans hv) (fun ha => ?_) hno
    rw [hnv (hst₄.anchored ha),hb₄,hn₃ ((hst.anchored ha).mono ip),hgot.blk,h.names ha]

/-- `ialloc` has found the inode of slot `ip`. -/
theorem wp_createNew (hE : Stops E)
    (hfind : (nodeAt t dp).find name = none) {u : Fs}
    (hwf : Wf sb u (ip ::ₘ dp ::ₘ F) (insert dp ∅)) (hk : Kept (dp ::ₘ F) t u)
    (h0 : 0 < (u.itable ip).inum) (hfree : tree sb t.blk (u.itable ip).inum = none)
    (hu : tree sb u.blk = Function.update (tree sb t.blk) (u.itable ip).inum
      (some ⟨type,0,0,0,[]⟩)) (hnu : named sb u.blk = named sb t.blk) :
    wp (createNew sb dp ip name type major minor) (CreateDone sb F cwd path type major minor s) E
      u := by
  have hdF := Multiset.mem_cons_self dp F
  have hst := h.steady
  have hdi : (t.itable dp).inum ≠ (u.itable ip).inum := by
    intro heq
    rw [← heq,h.node] at hfree
    cases hfree
  have hni : tree sb u.blk (u.itable ip).inum = some ⟨type,0,0,0,[]⟩ := by
    rw [hu,Function.update_self]
  have hmd : tree sb u.blk (u.itable dp).inum = some (nodeAt t dp) := by
    rw [hu,hk.inum dp hdF,Function.update_of_ne hdi]
    exact h.node
  have hip : Orderly sb F s → ip ∉ F := by
    intro ho hF
    apply (hst.orderly ho).held ip hF
    rw [← hk.inum ip (Multiset.mem_cons_of_mem hF)]
    exact hfree
  have hdp : Orderly sb F s → (nodeAt t dp).nlink = 0 → dp ∈ F := by
    intro ho hl
    rw [h.wf.mem_iff_held hdF fun _ => Multiset.mem_cons_of_mem]
    exact (hst.anchored ho.anchored) _ _ h.node hl
  have hts : Orderly sb F s → tree sb u.blk = Function.update (tree sb s.blk) (u.itable ip).inum
      (some ⟨type,0,0,0,[]⟩) := fun ho => by rw [hu,hst.tree_eq ho.anchored]
  have hns : Orderly sb F s → named sb u.blk = named sb s.blk := fun ho => by
    rw [hnu,h.names ho.anchored]
  have hfree' : Orderly sb F s → tree sb s.blk (u.itable ip).inum = none := fun ho => by
    rw [← hst.tree_eq ho.anchored,hfree]
  have hcan : Orderly sb F s → (Creatable sb s.blk (s.itable cwd).inum path ↔
      EntryFits sb u.blk (u.itable dp).inum (nodeAt t dp).emptyAt) := fun ho => by
    rw [h.creatable_iff ho,entryFits_congr h.start.disk hwf.disk (hns ho),hk.inum dp hdF]
    exact ⟨fun hc => hc.2.2,fun hc => ⟨hfind,⟨_,h0,hwf.inum_lt ip (Multiset.mem_cons_self ip _),
      hfree' ho⟩,hc⟩⟩
  refine wp_conseq (Fs.wp_createNew hE hwf hni hmd h.dir hip hdp) ?_
  rintro r v (⟨rfl,hwfv,hkv,hno,hv⟩ | ⟨rfl,hwfv,hkv,htv,hyes,hreap⟩)
  · have hend : Orderly sb F s → tree sb v.blk = tree sb s.blk := by
      intro ho
      rw [(hv ho).1,hts ho,Function.update_idem,Function.update_eq_self_iff,hfree' ho]
    refine ⟨⟨hwfv,hst.kept.trans (hk.of_cons.trans hkv),hend⟩,fun _ ho => ?restored,
      fun hfile ho => iff_of_true (hend ho) ?refused⟩
    case refused =>
      rw [hcan ho]
      exact hno (by rw [hfile]; decide) hfind
    case restored =>
      rintro ⟨j,k⟩
      by_cases hj : j = (u.itable ip).inum
      · have hj' := hj ▸ hfree' ho
        exact .inl (by rw [named_eq_none hj',named_eq_none (by rw [hend ho,hj'])])
      · rcases (hv ho).2 (j,k) hj with hsame | ⟨hp,hnone⟩
        · exact .inl (by rw [hsame,hns ho])
        · rw [hns ho] at hnone
          obtain ⟨rfl,rfl⟩ := Prod.mk.inj hp
          exact .inr ⟨hnone,rfl,name,by rw [h.lookup ho.anchored,hk.inum dp hdF]⟩
  · have hiv := hkv.inum ip (Multiset.mem_cons_self ip F)
    have hnew : Orderly sb F s → Created (Held F s) (tree sb s.blk) (s.itable cwd).inum path type
        major minor (u.itable ip).inum (tree sb v.blk) := by
      intro ho
      rw [hts ho,Function.update_idem,hk.inum dp hdF,
        h.wf.mem_iff_held hdF fun _ => Multiset.mem_cons_of_mem,hst.kept.held] at hreap
      exact .intro (h.lookup ho.anchored) (hst.tree_eq ho.anchored ▸ h.node) h.dir hfind h0
        (hfree' ho) hreap
    refine ⟨⟨hwfv,hst.kept.trans (hk.of_cons.trans hkv.of_cons),
      .inr ⟨htv,fun ho => by rw [hiv]; exact hnew ho⟩⟩,(fun hr => by cases hr),
      fun hfile ho => iff_of_false (hnew ho).ne (not_not.mpr ?_)⟩
    rw [hcan ho]
    exact hyes (by rw [hfile]; decide)

/-- The name is not there. -/
theorem wp_missing (hE : Stops E) (htype : type ≠ 0)
    (hfind : (nodeAt t dp).find name = none) :
    wp (do
      match ← ialloc sb ((← get).itable dp).dev type with
      | none => do
        iunlockput sb dp
        return none
      | some ip => createNew sb dp ip name type major minor)
      (CreateDone sb F cwd path type major minor s) E t := by
  rw [wp_bind,wp_get,wp_bind,h.wf.dev dp (Multiset.mem_cons_self dp F)]
  refine wp_conseq (wp_ialloc_named hE.log hE.noInodes h.wf htype) ?_
  rintro r u (⟨rfl,rfl,hall⟩ | ⟨ip,rfl,hwf,hk,-,h0,hfree,hu,hnu⟩)
  · simp only
    rw [wp_bind]
    refine wp_conseq (wp_iunlockput_steady (.inl hE.log) h.wf (Finset.notMem_empty dp)) ?_
    rintro - v ⟨hwfv,hv,hnv⟩
    refine .refused hwfv (h.steady.trans hv) (fun ha => ?_) fun ho => ?_
    · rw [hnv (h.steady.anchored ha),h.names ha]
    · rw [h.creatable_iff ho]
      rintro ⟨-,⟨i,h0,hi,hfree⟩,-⟩
      rw [← h.steady.tree_eq ho.anchored] at hfree
      exact hall i h0 hi hfree
  · exact h.wp_createNew hE hfind hwf hk h0 hfree hu hnu

end AtParent

theorem wp_create (hE : Stops E) (h : Wf sb s F ∅) (hcwd : cwd ∈ F)
    (hroot : ROOTINO < sb.ninodes) (hT : E .ilockNoType ∨ Solid sb F s) (htype : type ≠ 0) :
    wp (create sb cwd path type major minor) (CreateDone sb F cwd path type major minor s) E s := by
  rw [create,wp_bind]
  refine wp_conseq (wp_nameiparent_at hE h hcwd hroot hT) ?_
  rintro (- | ⟨dp,name⟩) t hw
  · obtain ⟨hwf,hst,hnt,hnone⟩ := hw
    refine .refused hwf hst hnt fun ho => ?_
    rintro ⟨d,name,m,hpath,-⟩
    rw [hnone ho.anchored] at hpath
    cases hpath
  simp only
  rw [wp_bind]
  refine hw _ fun t₁ hat => ?_
  rw [wp_bind]
  refine wp_conseq (wp_dirlookup hE hat.wf (Finset.mem_insert_self dp ∅) hat.dir) ?_
  rintro (- | ⟨ip,off⟩) t₂ hlook
  · obtain ⟨rfl,hfind⟩ := hlook
    exact hat.wp_missing hE htype hfind
  · obtain ⟨k,hfind,-,hgot⟩ := hlook
    exact hat.wp_existing hE hT hfind hgot

theorem wp_make (hE : Stops E) (h : Wf sb s F ∅) (hcwd : cwd ∈ F)
    (hroot : ROOTINO < sb.ninodes) (hT : E .ilockNoType ∨ Solid sb F s) (h0 : type ≠ 0)
    (hfile : type ≠ T_FILE) :
    wp (make sb cwd path type major minor) (fun r t => Wf sb t F ∅ ∧ Kept F s t ∧
      (Orderly sb F s → r = -1 ∧ tree sb t.blk = tree sb s.blk ∨
        r = 0 ∧ ∃ i, Created (Held F s) (tree sb s.blk) (s.itable cwd).inum path type major minor i
          (tree sb t.blk))) E s := by
  rw [make,wp_bind]
  refine wp_conseq (wp_create hE h hcwd hroot hT h0) ?_
  rintro (- | ip) t ⟨hout,-⟩
  · obtain ⟨hwf,hkept,htree⟩ := hout
    exact ⟨hwf,hkept,fun ho => .inl ⟨rfl,htree ho⟩⟩
  · obtain ⟨hwf,hkept,⟨hf,-⟩ | ⟨-,hnew⟩⟩ := hout
    · exact absurd hf hfile
    · simp only
      rw [wp_bind]
      refine wp_conseq (wp_iunlockput hE.log hwf (Finset.mem_insert_self ip ∅)) ?_
      rintro - u ⟨hwfu,hku,hreap,-⟩
      rw [Finset.erase_insert (Finset.notMem_empty ip)] at hwfu
      refine ⟨hwfu,hkept.trans hku,fun ho => .inr ⟨rfl,(t.itable ip).inum,?_⟩⟩
      rw [(hnew ho).reaped hreap]
      exact hnew ho

/-- The outcome of `openInode`: nothing, or a locked inode. A directory is opened for reading
only. -/
def OpenOutcome (sb : Geometry) (F : Multiset ℕ) (cwd : ℕ) (path : List UInt8) (omode : ℕ)
    (s : Fs) : Option ℕ → Fs → Prop
  | none, t => Wf sb t F ∅ ∧ Kept F s t ∧ (Orderly sb F s → tree sb t.blk = tree sb s.blk)
  | some ip, t => Wf sb t (ip ::ₘ F) (insert ip ∅) ∧ Kept F s t ∧
      ((t.itable ip).d.type = T_DIR → omode = O_RDONLY) ∧
      (Orderly sb F s → tree sb t.blk = tree sb s.blk ∨ omode &&& O_CREATE ≠ 0 ∧
        Created (Held F s) (tree sb s.blk) (s.itable cwd).inum path T_FILE 0 0 (t.itable ip).inum
          (tree sb t.blk))

theorem wp_checkDevice (hE : Stops E) (h : Wf sb s (ip ::ₘ F) (insert ip ∅)) :
    wp (checkDevice sb ip) (fun r t => r = none ∧ Wf sb t F ∅ ∧ Steady sb F s t ∧
        (s.itable ip).d.type = T_DEVICE ∨ r = some ip ∧ t = s) E s := by
  rw [checkDevice,wp_bind,wp_get]
  by_cases hbad : (s.itable ip).d.type = T_DEVICE ∧
      ((s.itable ip).d.major < 0 ∨ NDEV ≤ (s.itable ip).d.major.toInt)
  · rw [if_pos hbad,wp_bind]
    refine wp_conseq (wp_iunlockput_steady (.inl hE.log) h (Finset.notMem_empty ip)) ?_
    rintro - t ⟨hwf,hst,-⟩
    exact .inl ⟨rfl,hwf,hst,hbad.1⟩
  · rw [if_neg hbad]
    exact .inr ⟨rfl,rfl⟩

theorem wp_openExisting (hE : Stops E) (h : Wf sb s F ∅) (hcwd : cwd ∈ F)
    (hroot : ROOTINO < sb.ninodes) (hT : E .ilockNoType ∨ Solid sb F s) {omode : ℕ} :
    wp (openExisting sb cwd path omode) (fun r t => Steady sb F s t ∧ match r with
      | none => Wf sb t F ∅
      | some ip => Wf sb t (ip ::ₘ F) (insert ip ∅) ∧
          ((t.itable ip).d.type = T_DIR → omode = O_RDONLY)) E s := by
  rw [openExisting,wp_bind]
  refine wp_conseq (wp_namei hE h hcwd hroot hT) ?_
  rintro (- | ip) t ⟨⟨x,hw⟩,-⟩
  · obtain ⟨hwf,hst,-⟩ := hw
    exact ⟨hst,hwf⟩
  obtain ⟨hwf,hst,-,hTi,-⟩ := hw
  have hmem := Multiset.mem_cons_self ip F
  simp only
  rw [wp_bind]
  refine wp_conseq (wp_ilock hE.blocked hwf hmem hTi) ?_
  rintro - u ⟨hnot,hwfu,hku,hbu⟩
  have hsu : Steady sb F s u := hst.trans (Steady.of_blk hku hbu).of_cons
  rw [wp_bind,wp_get]
  by_cases hdir : (u.itable ip).d.type = T_DIR ∧ omode ≠ O_RDONLY
  · rw [if_pos hdir,wp_bind]
    refine wp_conseq (wp_iunlockput_steady (.inl hE.log) hwfu hnot) ?_
    rintro - v ⟨hwfv,hv,-⟩
    exact ⟨hsu.trans hv,hwfv⟩
  · rw [if_neg hdir]
    exact ⟨hsu,hwfu,fun hd => not_not.mp fun hm => hdir ⟨hd,hm⟩⟩

theorem wp_openInode (hE : Stops E) (h : Wf sb s F ∅) (hcwd : cwd ∈ F)
    (hroot : ROOTINO < sb.ninodes) (hT : E .ilockNoType ∨ Solid sb F s) {omode : ℕ} :
    wp (openInode sb cwd path omode) (fun r t => OpenOutcome sb F cwd path omode s r t ∧
      (omode &&& O_CREATE ≠ 0 → Orderly sb F s → (tree sb t.blk = tree sb s.blk ↔
        ¬ Creatable sb s.blk (s.itable cwd).inum path))) E s := by
  rw [openInode]
  by_cases hcreate : omode &&& O_CREATE ≠ 0
  · rw [if_pos hcreate,wp_bind]
    refine wp_conseq (wp_create hE h hcwd hroot hT (by decide)) ?_
    rintro (- | ip) t ⟨hout,-,hexact⟩
    · exact ⟨hout,fun _ => hexact rfl⟩
    obtain ⟨hwf,hkept,hout⟩ := hout
    refine wp_conseq (wp_checkDevice hE hwf) ?_
    rintro r u (⟨rfl,hwfu,hst,hdev⟩ | ⟨rfl,rfl⟩)
    · -- a new file is no device, so this one was there before
      have hold : Orderly sb F s → tree sb t.blk = tree sb s.blk := by
        rcases hout with ⟨-,-,htree⟩ | ⟨hfile,-⟩
        · exact htree
        · rw [hdev] at hfile
          exact absurd hfile (by decide)
      have hsame : Orderly sb F s → tree sb u.blk = tree sb s.blk := by
        intro ho
        have ht : Steady sb F s t := ⟨hkept,fun _ => hold ho⟩
        exact (ht.trans hst).tree_eq ho.anchored
      exact ⟨⟨hwfu,hkept.trans hst.kept,hsame⟩,
        fun _ ho => iff_of_true (hsame ho) ((hexact rfl ho).mp (hold ho))⟩
    · refine ⟨⟨hwf,hkept,?_,fun ho => ?_⟩,fun _ => hexact rfl⟩
      · intro hd
        rw [hd] at hout
        rcases hout with ⟨-,hf | hf,-⟩ | ⟨hf,-⟩ <;> exact absurd hf (by decide)
      · rcases hout with ⟨-,-,htree⟩ | ⟨-,hnew⟩
        · exact .inl (htree ho)
        · exact .inr ⟨hcreate,hnew ho⟩
  · rw [if_neg hcreate,wp_bind]
    refine wp_conseq (wp_openExisting hE h hcwd hroot hT) ?_
    rintro (- | ip) t ⟨hst,hout⟩
    · exact ⟨⟨hout,hst.kept,fun ho => hst.tree_eq ho.anchored⟩,fun hc => absurd hc hcreate⟩
    obtain ⟨hwf,hdir⟩ := hout
    refine wp_conseq (wp_checkDevice hE hwf) ?_
    rintro r u (⟨rfl,hwfu,hu,-⟩ | ⟨rfl,rfl⟩)
    · have hsu := hst.trans hu
      exact ⟨⟨hwfu,hsu.kept,fun ho => hsu.tree_eq ho.anchored⟩,fun hc => absurd hc hcreate⟩
    · exact ⟨⟨hwf,hst.kept,hdir,fun ho => .inl (hst.tree_eq ho.anchored)⟩,
        fun hc => absurd hc hcreate⟩

end Fs
end Xv6
