import Xv6.MkfsAppend

/-! The image that `mkfs` writes represents a root directory with one entry for each input file,
and the files with the bytes read. Rounding the size of the root directory up keeps the image
consistent unless the entries fill their last block. -/
namespace Xv6
namespace Mkfs

open Bytes Command Fs

def names (files : List Input) : List (ℕ × List UInt8) :=
  (ROOTINO,dot)::(ROOTINO,dotdot)::files.mapIdx fun k f => (k+2,shortname f.arg)

def entries (files : List Input) : List UInt8 := (names files).flatMap fun e => dirent e.1 e.2

def fileNode (f : Input) : Node := ⟨T_FILE,0,0,1,f.bytes⟩

def rootNode (files : List Input) : Node := ⟨T_DIR,0,0,1,entries files⟩

def treeOf (files : List Input) : FileTree := fun i =>
  if i = ROOTINO then some (rootNode files)
  else if i < 2 then none
  else files[i-2]?.map fileNode

section Trees

variable {files : List Input} {f : Input}

@[simp] theorem length_dirent (inum : ℕ) (name : List UInt8) :
    (dirent inum name).length = Dirent.bytes := by
  simp [dirent]

theorem names_append : names (files++[f]) = names files++[(files.length+2,shortname f.arg)] := by
  simp [names,List.mapIdx_append]

@[simp] theorem length_names : (names files).length = files.length+2 := by
  simp [names]

theorem entries_append :
    entries (files++[f]) = entries files++dirent (files.length+2) (shortname f.arg) := by
  rw [entries,names_append,List.flatMap_append,List.flatMap_singleton,entries]

theorem length_entries : (entries files).length = Dirent.bytes*(files.length+2) := by
  have hlen : ∀ l : List (ℕ × List UInt8), (l.flatMap fun e => dirent e.1 e.2).length =
      Dirent.bytes*l.length := by
    intro l
    induction l with
    | nil => rfl
    | cons e l ih =>
      rw [List.flatMap_cons,List.length_append,length_dirent,ih,List.length_cons,Nat.mul_succ,
        Nat.add_comm]
  rw [entries,hlen,length_names]

theorem treeOf_root (files : List Input) : treeOf files ROOTINO = some (rootNode files) := rfl

theorem treeOf_file (k : ℕ) : treeOf files (k+2) = files[k]?.map fileNode := by
  have hne : k+2 ≠ ROOTINO := by
    unfold ROOTINO
    omega
  rw [treeOf,if_neg hne,if_neg (by omega),Nat.add_sub_cancel]

theorem treeOf_append : treeOf (files++[f]) = Function.update (Function.update (treeOf files)
    ROOTINO (some (rootNode (files++[f])))) (files.length+2) (some (fileNode f)) := by
  funext i
  by_cases hi : i = files.length+2
  · subst hi
    rw [Function.update_self,treeOf_file]
    simp
  · rw [Function.update_of_ne hi]
    by_cases hroot : i = ROOTINO
    · subst hroot
      rw [Function.update_self,treeOf_root]
    · rw [Function.update_of_ne hroot,treeOf,treeOf,if_neg hroot,if_neg hroot]
      split
      · rfl
      · rw [List.getElem?_append]
        split
        · rfl
        · rw [List.getElem?_eq_none (by simp; omega),List.getElem?_eq_none (by omega)]

theorem sizeAt_treeOf_le (fs gs : List Input) (i : ℕ) :
    sizeAt (treeOf fs) i ≤ sizeAt (treeOf (fs++gs)) i := by
  unfold sizeAt treeOf
  split
  · simp only [Option.map_some,Option.getD_some,rootNode,length_entries,List.length_append]
    exact Nat.mul_le_mul_left _ (by omega)
  · split
    · exact le_rfl
    · rw [List.getElem?_append]
      split
      · exact le_rfl
      · rw [List.getElem?_eq_none (by omega)]
        exact Nat.zero_le _

end Trees

section Run

variable {s : State} {T : FileTree} {B : Prop} {inum : ℕ} {n : Node} {f : Input}

theorem extend_extend (n : Node) (p q : List UInt8) : extend (extend n p) q = extend n (p++q) := by
  simp [extend]

theorem Fits.shorter {p q : List UInt8}
    (h : Fits (Function.update T inum (some (extend n (p++q))))) :
    Fits (Function.update T inum (some (extend n p))) := by
  refine h.mono fun i => ?_
  rw [sizeAt_update,sizeAt_update]
  by_cases hi : i = inum
  · subst hi
    simp only [Function.update_self,extend,List.length_append]
    omega
  · rw [Function.update_of_ne hi,Function.update_of_ne hi]

theorem wp_appendChunks {cs : List (List UInt8)} (h : Built s T) (hi : T inum = some n)
    (hroom : B ∨ Fits (Function.update T inum (some (extend n cs.flatten)))) :
    wp (appendChunks inum cs) (fun _ s' =>
      Built s' (Function.update T inum (some (extend n cs.flatten))) ∧
      s'.freeinode = s.freeinode) (fun _ => B) s := by
  induction cs generalizing s T n with
  | nil =>
    have hsame : Function.update T inum (some (extend n [])) = T := by
      rw [Function.update_eq_self_iff,hi]
      simp [extend]
    rw [List.flatten_nil,hsame]
    exact ⟨h,rfl⟩
  | cons c cs ih =>
    rw [List.flatten_cons] at hroom ⊢
    rw [appendChunks,wp_bind]
    refine wp_conseq (wp_iappend h hi (hroom.imp_right Fits.shorter)) ?_
    rintro _ s' ⟨hbuilt,hino⟩
    have hrest := ih hbuilt (Function.update_self inum _ T)
    rw [Function.update_idem,extend_extend] at hrest
    refine wp_conseq (hrest hroom) ?_
    exact fun _ s'' h' => ⟨h'.1,h'.2.trans hino⟩

/-- One input file: its inode, its entry in the root directory, its content. -/
theorem wp_addFile {pre : List Input} (h : Built s (treeOf pre))
    (hino : s.freeinode = pre.length+2) (hlt : pre.length+2 < NINODES)
    (hslash : B ∨ slash ∉ basename f.arg) (hroom : B ∨ Fits (treeOf (pre++[f]))) :
    wp (addFile ROOTINO f) (fun _ s' => Built s' (treeOf (pre++[f])) ∧
      s'.freeinode = (pre++[f]).length+2) (fun _ => B) s := by
  have hroot : pre.length+2 ≠ ROOTINO := by
    unfold ROOTINO
    omega
  have hnone : treeOf pre s.freeinode = none := by
    rw [hino,treeOf_file]
    simp
  rw [addFile,wp_bind]
  apply wp_assert hslash
  intro _
  rw [wp_bind]
  refine wp_conseq (wp_ialloc h hnone (by rwa [hino]) (by decide)) ?_
  rintro i s₁ ⟨rfl,hino₁,h₁⟩
  rw [hino] at h₁ hino₁ ⊢
  have hentry : (Function.update (treeOf pre) (pre.length+2) (some ⟨T_FILE,0,0,1,[]⟩)) ROOTINO =
      some (rootNode pre) := by
    rw [Function.update_of_ne hroot.symm,treeOf_root]
  have hnode : extend (rootNode pre) (dirent (pre.length+2) (shortname f.arg)) =
      rootNode (pre++[f]) := by
    rw [extend,rootNode,rootNode,entries_append]
  have hwhole : Function.update (Function.update (Function.update (treeOf pre) (pre.length+2)
      (some ⟨T_FILE,0,0,1,[]⟩)) ROOTINO (some (rootNode (pre++[f])))) (pre.length+2)
      (some (extend ⟨T_FILE,0,0,1,[]⟩ f.chunks.flatten)) = treeOf (pre++[f]) := by
    rw [Function.update_comm hroot.symm,Function.update_idem,Function.update_comm hroot]
    exact treeOf_append.symm
  rw [wp_bind]
  refine wp_conseq (wp_iappend h₁ hentry (p := dirent (pre.length+2) (shortname f.arg)) ?_) ?_
  · rw [hnode]
    refine hroom.imp_right fun hf => hf.mono fun j => ?_
    rw [← hwhole,sizeAt_update _ (pre.length+2)]
    by_cases hj : j = pre.length+2
    · rw [hj,sizeAt,Function.update_of_ne hroot,Function.update_self]
      exact Nat.zero_le _
    · rw [Function.update_of_ne hj]
  · rintro _ s₂ ⟨h₂,hino₂⟩
    rw [hnode] at h₂
    have hself : Function.update (Function.update (treeOf pre) (pre.length+2)
        (some ⟨T_FILE,0,0,1,[]⟩)) ROOTINO (some (rootNode (pre++[f]))) (pre.length+2) =
        some ⟨T_FILE,0,0,1,[]⟩ := by
      rw [Function.update_of_ne hroot,Function.update_self]
    refine wp_conseq (wp_appendChunks h₂ hself (by rwa [hwhole])) ?_
    rintro _ s₃ ⟨h₃,hino₃⟩
    rw [hwhole] at h₃
    refine ⟨h₃,?_⟩
    rw [hino₃,hino₂,hino₁,List.length_append,List.length_singleton]

theorem wp_addFiles {fs pre : List Input} (h : Built s (treeOf pre))
    (hino : s.freeinode = pre.length+2) (hlt : (pre++fs).length+1 < NINODES)
    (hslash : ∀ f ∈ fs, B ∨ slash ∉ basename f.arg) (hroom : B ∨ Fits (treeOf (pre++fs))) :
    wp (addFiles ROOTINO fs) (fun _ s' => Built s' (treeOf (pre++fs))) (fun _ => B) s := by
  induction fs generalizing s pre with
  | nil =>
    rw [List.append_nil]
    exact h
  | cons f fs ih =>
    have hsplit : pre++f::fs = (pre++[f])++fs := by simp
    rw [hsplit] at hlt hroom ⊢
    have hpre : pre.length+2 < NINODES := by
      simp only [List.length_append,List.length_singleton] at hlt
      omega
    rw [addFiles,wp_bind]
    refine wp_conseq (wp_addFile h hino hpre (hslash f List.mem_cons_self)
      (hroom.imp_right fun hf => hf.mono fun i => sizeAt_treeOf_le _ _ i)) ?_
    rintro _ s' ⟨h',hino'⟩
    exact ih h' hino' hlt (fun g hg => hslash g (List.mem_cons_of_mem f hg)) hroom

def afterSb : State := {start with img := Function.update start.img 1 (blit (fun _ => 0) 0 32 sbBlock)}

theorem dinodeOf_afterSb {i : ℕ} (hi : i < NINODES) :
    (dinodeOf geometry (view afterSb) i).type = 0 := by
  have hne : IBLOCK i geometry ≠ 1 := by
    have hge : superblock.inodestart ≤ IBLOCK i geometry := Nat.le_add_left _ _
    exact Nat.ne_of_gt (lt_of_lt_of_le (by decide) hge)
  have hblock : view afterSb (IBLOCK i geometry) = fun _ => 0 := by
    rw [view_of_ne (IBLOCK_ne_bmapstart hi),afterSb]
    exact Function.update_of_ne hne (blit (fun _ => 0) 0 32 sbBlock) start.img
  rw [dinodeOf,hblock]
  rfl

theorem owner_afterSb (p : ℕ × ℕ) :
    owner geometry (view afterSb) (dinodeOf geometry (view afterSb)) p = none := by
  rw [owner,if_neg]
  exact fun h => h.2.1 (dinodeOf_afterSb h.1)

theorem built_afterSb : Built afterSb fun _ => none where
  consistent := {
    own := {
      used_iff := by
        intro b
        constructor
        · rintro ⟨hb,hbit⟩
          rw [bitOf_view hb,decide_eq_true_eq] at hbit
          exact .inl hbit
        · rintro (hb | ⟨p,hp⟩)
          · have hfs : b < FSSIZE := lt_trans hb (by decide)
            refine ⟨hfs,?_⟩
            rw [bitOf_view hfs]
            exact decide_eq_true hb
          · rw [owner_afterSb] at hp
            cases hp
      unique := by
        intro p q b hp
        rw [owner_afterSb] at hp
        cases hp
      apart := by
        intro p b hp
        rw [owner_afterSb] at hp
        cases hp }
    sized := fun i hi ht => absurd (dinodeOf_afterSb hi) ht }
  tree_eq := by
    funext i
    exact tree_eq_none_iff.mpr dinodeOf_afterSb
  within i hi ht := absurd (dinodeOf_afterSb hi) ht
  zero b hb := Function.update_of_ne (Nat.ne_of_gt (lt_of_lt_of_le (by decide) hb)) _ _
  le := by decide
  count := by
    have hzero : used (fun _ => none) = 0 := Finset.sum_eq_zero fun _ _ => blocksFor_zero
    rw [hzero]
    rfl

def rounded (blk : ℕ → Block) : ℕ → Block :=
  putDinode geometry blk ROOTINO (withSize (dinodeOf geometry blk ROOTINO)
    (((dinodeOf geometry blk ROOTINO).size.toNat/BSIZE+1)*BSIZE))

/-- The image of the input files before the size of the root directory is rounded up. -/
structure Laid (files : List Input) (blk : ℕ → Block) : Prop where
  consistent : Consistent geometry blk
  tree_eq : tree geometry blk = treeOf files
  within : Within (dinodeOf geometry blk ROOTINO).size.toNat blk (dinodeOf geometry blk ROOTINO)
  bit : ∀ b < FSSIZE, bitOf geometry blk b = decide (b < nmeta+used (treeOf files))

theorem Built.laid {files : List Input} (h : Built s (treeOf files)) : Laid files (view s) := by
  have htree := h.tree_eq ▸ treeOf_root files
  obtain ⟨hlt,ht,-⟩ := tree_some htree
  exact ⟨h.consistent,h.tree_eq,h.within _ hlt ht,fun b hb => by rw [bitOf_view hb,h.count]⟩

theorem wp_finish {files : List Input} {E : Stop → Prop} (h : Built s (treeOf files)) :
    wp (do
      fixSize ROOTINO
      balloc (← get).freeblock) (fun _ s' => ∃ blk, Laid files blk ∧ s'.img = rounded blk) E s := by
  have hroot : ROOTINO < NINODES := by decide
  have hmax : s.freeblock < BSIZE*8 := h.le.trans_lt (by decide)
  rw [wp_bind,fixSize,wp_bind]
  apply wp_rinode hroot
  apply wp_winode hroot
  rw [wp_bind,wp_get,balloc,wp_bind,assert,wp_ite]
  exact ⟨fun _ => ⟨view s,h.laid,view_putInode hroot _⟩,fun hnot => absurd hmax hnot⟩

theorem wp_main {files : List Input} (hn : files.length < NINODES-1)
    (hslash : ∀ f ∈ files, B ∨ slash ∉ basename f.arg) (hroom : B ∨ Fits (treeOf files)) :
    wp (main files) (fun _ s => ∃ blk, Laid files blk ∧ s.img = rounded blk) (fun _ => B)
      start := by
  have hempty : B ∨ Fits (treeOf []) := hroom.imp_right fun hf => hf.mono fun i => by
    have hle := sizeAt_treeOf_le [] files i
    rwa [List.nil_append] at hle
  have htree : treeOf [] = Function.update (fun _ => none) ROOTINO (some (rootNode [])) := by
    funext i
    by_cases hi : i = ROOTINO
    · rw [hi,Function.update_self,treeOf_root]
    · rw [Function.update_of_ne hi,treeOf,if_neg hi]
      split
      · rfl
      · rfl
  have hnode : extend (extend ⟨T_DIR,0,0,1,[]⟩ (dirent ROOTINO dot)) (dirent ROOTINO dotdot) =
      rootNode [] := by
    rw [extend_extend,rootNode,extend]
    simp [entries,names]
  rw [main,wp_bind,wsect,wp_modify,wp_bind]
  refine wp_conseq (wp_ialloc built_afterSb rfl (by decide) (by decide)) ?_
  rintro r s₁ ⟨rfl,hino₁,h₁⟩
  change Built s₁ (Function.update (fun _ => none) ROOTINO _) at h₁
  rw [wp_bind]
  apply wp_assert (.inr rfl)
  intro _
  change wp (do
    iappend ROOTINO (dirent ROOTINO dot)
    iappend ROOTINO (dirent ROOTINO dotdot)
    addFiles ROOTINO files
    fixSize ROOTINO
    balloc (← get).freeblock) _ _ s₁
  rw [wp_bind]
  refine wp_conseq (wp_iappend h₁ (Function.update_self _ _ _) ?_) ?_
  · refine hempty.imp_right fun hf => ?_
    rw [htree,← hnode,extend_extend] at hf
    rw [Function.update_idem]
    exact hf.shorter
  rintro _ s₂ ⟨h₂,hino₂⟩
  rw [Function.update_idem] at h₂
  rw [wp_bind]
  refine wp_conseq (wp_iappend h₂ (Function.update_self _ _ _) ?_) ?_
  · rw [hnode,Function.update_idem,← htree]
    exact hempty
  rintro _ s₃ ⟨h₃,hino₃⟩
  rw [hnode,Function.update_idem,← htree] at h₃
  rw [wp_bind]
  refine wp_conseq (wp_addFiles h₃ ?_ ?_ hslash hroom) ?_
  · rw [hino₃,hino₂,hino₁]
    rfl
  · rw [List.nil_append]
    omega
  intro _ s₄ h₄
  rw [List.nil_append] at h₄
  exact wp_finish h₄

end Run

/-- Every input file has a name that `mkfs` takes and is small enough, and the blocks of all files
and of the root directory fit on the disk. -/
structure Accepted (files : List Input) : Prop where
  name : ∀ f ∈ files, slash ∉ basename f.arg
  small : ∀ f ∈ files, f.bytes.length ≤ MAXFILE*BSIZE
  room : nmeta+blocksFor (Dirent.bytes*(files.length+2))+
    (files.map fun f => blocksFor f.bytes.length).sum ≤ FSSIZE

section Images

variable {files : List Input} {blk img : ℕ → Block}

theorem sum_blocksFor (files : List Input) (m : ℕ) (hm : files.length ≤ m) :
    ∑ k ∈ Finset.range m, blocksFor (((files[k]?.map fileNode).map fun n => n.bytes.length).getD 0) =
      (files.map fun f => blocksFor f.bytes.length).sum := by
  induction files generalizing m with
  | nil => exact Finset.sum_eq_zero fun k _ => blocksFor_zero
  | cons f fs ih =>
    obtain ⟨m,rfl⟩ : ∃ m', m = m'+1 := ⟨m-1,by simp at hm; omega⟩
    rw [Finset.sum_range_succ']
    simp only [List.getElem?_cons_succ,List.map_cons,List.sum_cons]
    rw [ih m (by simpa using hm),Nat.add_comm]
    rfl

theorem used_treeOf (hn : files.length < NINODES-1) : used (treeOf files) =
    blocksFor (Dirent.bytes*(files.length+2))+(files.map fun f => blocksFor f.bytes.length).sum := by
  have hsplit : NINODES = 198+1+1 := rfl
  have hlen : files.length ≤ 198 := by
    unfold NINODES at hn
    omega
  have hroot : sizeAt (treeOf files) (0+1) = Dirent.bytes*(files.length+2) := by
    exact (sizeAt_some (treeOf_root files)).trans length_entries
  have hzero : blocksFor (sizeAt (treeOf files) 0) = 0 := blocksFor_zero
  rw [used,hsplit,Finset.sum_range_succ',Finset.sum_range_succ',hroot,hzero,
    ← sum_blocksFor files 198 hlen,Nat.add_zero,Nat.add_comm]
  simp only [sizeAt,Nat.add_assoc,Nat.reduceAdd,treeOf_file]

theorem Accepted.fits (h : Accepted files) (hn : files.length < NINODES-1) :
    Fits (treeOf files) where
  size_le i := by
    unfold sizeAt treeOf
    split
    · simp only [Option.map_some,Option.getD_some,rootNode,length_entries,Dirent.bytes_eq]
      unfold NINODES MAXFILE NINDIRECT NDIRECT BSIZE at *
      omega
    · split
      · exact Nat.zero_le _
      · cases hf : files[i-2]? with
        | none => exact Nat.zero_le _
        | some f => exact h.small f (List.mem_of_getElem? hf)
  room := by
    rw [used_treeOf hn]
    have := h.room
    omega

theorem image_laid (hn : files.length < NINODES-1) (h : image files = some img) :
    ∃ blk, Laid files blk ∧ img = rounded blk := by
  have hmain := wp_main (B := True) hn (fun _ _ => .inl trivial) (.inl trivial)
  unfold wp at hmain
  unfold image at h
  split at h
  case h_1 s hrun =>
    rw [hrun] at hmain
    obtain ⟨blk,hlaid,himg⟩ := hmain
    exact ⟨blk,hlaid,(Option.some.inj h).symm.trans himg⟩
  case h_2 => cases h

theorem image_isSome (hn : files.length < NINODES-1) (h : Accepted files) :
    (image files).isSome := by
  have hmain := wp_main (B := False) hn (fun f hf => .inr (h.name f hf)) (.inr (h.fits hn))
  unfold wp at hmain
  unfold image
  split
  · rfl
  case h_2 hrun => rw [hrun] at hmain; exact hmain.elim

namespace Laid

theorem root (h : Laid files blk) : (dinodeOf geometry blk ROOTINO).type = T_DIR ∧
    fileOf blk (dinodeOf geometry blk ROOTINO) = entries files := by
  have htree := h.tree_eq ▸ treeOf_root files
  obtain ⟨-,-,hnode⟩ := tree_some htree
  rw [rootNode,nodeOf,Node.mk.injEq] at hnode
  exact ⟨hnode.1.symm,hnode.2.2.2.2.symm⟩

theorem root_size (h : Laid files blk) :
    (dinodeOf geometry blk ROOTINO).size.toNat = Dirent.bytes*(files.length+2) := by
  rw [← length_fileOf blk,h.root.2,length_entries]

theorem rounded_data {b : ℕ} (hb : Xv6.nmeta geometry ≤ b) : rounded blk b = blk b :=
  putDinode_data (by decide) hb

theorem rounded_root : dinodeOf geometry (rounded blk) ROOTINO =
    withSize (dinodeOf geometry blk ROOTINO)
      (((dinodeOf geometry blk ROOTINO).size.toNat/BSIZE+1)*BSIZE) := by
  rw [rounded,dinodeOf_putDinode,Function.update_self]

theorem rounded_size (h : Laid files blk) (hn : files.length < NINODES-1) :
    (dinodeOf geometry (rounded blk) ROOTINO).size.toNat =
      (Dirent.bytes*(files.length+2)/BSIZE+1)*BSIZE := by
  rw [rounded_root,withSize,h.root_size]
  apply UInt32.toNat_ofNat_of_lt'
  simp only [Dirent.bytes_eq,UInt32.size]
  unfold NINODES BSIZE at *
  omega

theorem root_type (h : Laid files blk) : (dinodeOf geometry blk ROOTINO).type ≠ 0 := by
  rw [h.root.1]
  decide

theorem rounded_ptr (h : Laid files blk) (k : ℕ) :
    ptr (rounded blk) (dinodeOf geometry (rounded blk) ROOTINO) k =
      ptr blk (dinodeOf geometry blk ROOTINO) k := by
  have hroot : ROOTINO < geometry.ninodes := by decide
  have ht := h.root_type
  have hframe : ptr (rounded blk) (dinodeOf geometry blk ROOTINO) k = _ :=
    ptr_frame hroot ht (fun k b hp => rounded_data (h.consistent.own.data hp).1) k
  rw [← hframe,rounded_root]
  rfl

/-- The root directory is left without a block below its size if its entries fill their last
block. -/
theorem consistent_iff (h : Laid files blk) (hn : files.length < NINODES-1) :
    Consistent geometry (rounded blk) ↔ (files.length+2)%(BSIZE/Dirent.bytes) ≠ 0 := by
  have hroot : ROOTINO < geometry.ninodes := by decide
  have ht := h.root_type
  have hsize := h.root_size
  have hsized := h.consistent.sized ROOTINO hroot ht
  have hrounded := h.rounded_size hn
  have hdiv : BSIZE/Dirent.bytes = 64 := rfl
  rw [hdiv]
  constructor
  · intro hc hfull
    have hblock : Dirent.bytes*(files.length+2)/BSIZE*BSIZE = Dirent.bytes*(files.length+2) := by
      simp only [Dirent.bytes_eq]
      unfold BSIZE
      omega
    have hlow : Dirent.bytes*(files.length+2)/BSIZE < NDIRECT := by
      simp only [Dirent.bytes_eq]
      unfold NINODES BSIZE NDIRECT at *
      omega
    have hm := (hc.sized ROOTINO hroot (by rw [rounded_root]; exact ht)).mapped
      (Dirent.bytes*(files.length+2)/BSIZE) (by
        rw [hrounded,Nat.add_mul,Nat.one_mul]
        exact Nat.lt_add_of_pos_right (by decide))
    rw [h.rounded_ptr,slotOf,if_pos hlow] at hm
    have hlt := lt_blocksFor_iff.mp (h.within _ hm)
    rw [hsize,if_pos hlow.le,hblock] at hlt
    exact lt_irrefl _ hlt
  · intro hpart
    refine (h.consistent.putDinode hroot ?_ ?_).1
    · intro k
      simp only [owner,Function.update_self]
      rfl
    · intro _
      constructor
      · rw [← rounded_root,hrounded]
        simp only [Dirent.bytes_eq]
        unfold NINODES MAXFILE NINDIRECT NDIRECT BSIZE at *
        omega
      · intro bn hbn
        rw [← rounded_root,hrounded] at hbn
        refine hsized.mapped bn ?_
        rw [hsize]
        simp only [Dirent.bytes_eq] at *
        unfold BSIZE at *
        omega

end Laid

/-- No read makes `bmap` allocate a block, or stops. -/
def ReadsPure (img : ℕ → Block) : Prop :=
  ∀ (s : Fs) (pagetable : ℕ) (mem : Mem) (ip : ℕ) (userDst : Bool) (dst : ℕ) (off n : UInt32),
    s.blk = img → Loaded geometry s ip →
    wp (readi geometry pagetable mem ip userDst dst off n) (fun _ t => t = s) (fun _ => False) s

theorem readsPure_of_consistent (hc : Consistent geometry img) : ReadsPure img := by
  intro s pagetable mem ip userDst dst off n hblk hl
  refine wp_readi_state ?_
  have hsized := hc.sized (s.itable ip).inum hl.inum_lt
  rw [← hblk,← hl.same] at hsized
  exact hsized hl.typed

end Images

/-- Acceptable files get an image, and every image is consistent, and can be read without an
allocation, just when the last block of the root directory is not full. -/
theorem mkfs_consistent_iff (files : List Input) (hn : files.length < NINODES-1) :
    (Accepted files → (image files).isSome) ∧ ∀ img, image files = some img →
      (Consistent geometry img ∧ ReadsPure img ↔ (files.length+2)%(BSIZE/Dirent.bytes) ≠ 0) := by
  refine ⟨image_isSome hn,?_⟩
  intro img himg
  obtain ⟨blk,hlaid,rfl⟩ := image_laid hn himg
  rw [← hlaid.consistent_iff hn]
  exact ⟨fun h => h.1,fun h => ⟨h,readsPure_of_consistent h⟩⟩

def oneFile : List Input :=
  [{ arg := [97]
     chunks := [[104,105]]
     nul_free := by decide
     chunk_le := by decide }]

theorem accepted_oneFile : Accepted oneFile where
  name := by decide
  small := by decide
  room := by decide

theorem mkfs_consistent_iff_oneFile :
    ∃ img, image oneFile = some img ∧ Consistent geometry img ∧ ReadsPure img := by
  have h := mkfs_consistent_iff oneFile (by decide)
  obtain ⟨img,himg⟩ := Option.isSome_iff_exists.mp (h.1 accepted_oneFile)
  exact ⟨img,himg,(h.2 img himg).mpr (by decide)⟩

/-- Empty files `a0`, `a1`, … that fill the first block of the root directory. -/
def fullBlock : List Input := List.ofFn fun k : Fin 62 =>
  { arg := [97,UInt8.ofNat (48+k)]
    chunks := []
    nul_free := by revert k; decide
    chunk_le := by simp }

theorem accepted_fullBlock : Accepted fullBlock where
  name := by
    rw [fullBlock,List.forall_mem_ofFn_iff]
    decide
  small := by
    rw [fullBlock,List.forall_mem_ofFn_iff]
    exact fun _ => Nat.zero_le _
  room := by decide

section Outside

variable {sb : Geometry} {s : Fs} (hlog : 1 < sb.nlog) (hlh : s.lh = []) (hout : s.outstanding = 0)
  {b : ℕ} (hb : b < sb.size) (hfree : bitOf sb s.blk b = false)

include hlog hlh hout hb hfree

theorem wp_balloc_outside {Q : ℕ → Fs → Prop} :
    wp (Fs.balloc sb) Q (· = .logWriteOutsideOfTrans) s := by
  rw [Fs.balloc,wp_bind,wp_get]
  split
  case h_1 hnone =>
    rw [List.find?_eq_none] at hnone
    exact absurd (isFree_iff.mpr hfree) (hnone b (List.mem_range.mpr hb))
  case h_2 =>
    have hroom : ¬ (LOGSIZE ≤ s.lh.length ∨ sb.nlog ≤ s.lh.length+1) := by
      rw [hlh,List.length_nil,not_or]
      exact ⟨by decide,by omega⟩
    rw [wp_bind,logWrite,wp_bind,wp_get,if_neg hroom,if_pos (by omega)]
    rfl

theorem run_readi_hole {mem : Mem} {ip dst : ℕ} {off n : UInt32}
    (hn : 0 < n.toNat) (hsize : off.toNat+n.toNat ≤ (s.itable ip).d.size.toNat)
    (hoff : off.toNat/BSIZE < NDIRECT)
    (h0 : ((s.itable ip).d.addrs ⟨off.toNat/BSIZE,Nat.lt_succ_of_lt hoff⟩).toNat = 0) :
    (readi sb 0 mem ip false dst off n).run s = .error .logWriteOutsideOfTrans := by
  have hlt := (s.itable ip).d.size.toNat_lt
  have hsum : (off+n).toNat = off.toNat+n.toNat := by
    rw [UInt32.toNat_add]
    omega
  have hgood : ¬ ((s.itable ip).d.size < off ∨ off+n < off) := by
    rw [UInt32.lt_iff_toNat_lt,UInt32.lt_iff_toNat_lt,hsum]
    omega
  have hall : ¬ (s.itable ip).d.size < off+n := by
    rw [UInt32.lt_iff_toNat_lt,hsum]
    omega
  apply run_eq_error
  rw [readi,wp_bind,wp_get]
  simp only [if_neg hgood,if_neg hall]
  obtain ⟨fuel,hfuel⟩ : ∃ fuel, n.toNat = fuel+1 := ⟨n.toNat-1,by omega⟩
  rw [hfuel,readiLoop,if_pos (Nat.succ_pos fuel),wp_bind,bmap,dif_pos hoff,bmapAddr,wp_bind,wp_get,
    if_pos h0,wp_bind]
  exact wp_balloc_outside hlog hlh hout hb hfree

end Outside

/-- A user's `read` of `/` behind the entries, which runs outside a transaction, panics. -/
theorem mkfs_fullBlock_panics : ∃ img, image fullBlock = some img ∧ ¬ Consistent geometry img ∧
    (readi geometry 0 (fun _ => 0) 0 false 0 1024 16).run
      {opened img ROOTINO (dinodeOf geometry img ROOTINO) with outstanding := 0} =
        .error .logWriteOutsideOfTrans := by
  have hn : fullBlock.length < NINODES-1 := by decide
  have hlen : fullBlock.length = 62 := by decide
  obtain ⟨img,himg⟩ := Option.isSome_iff_exists.mp (image_isSome hn accepted_fullBlock)
  obtain ⟨blk,hlaid,rfl⟩ := image_laid hn himg
  have hsize : (dinodeOf geometry (rounded blk) ROOTINO).size.toNat = 2048 := by
    rw [hlaid.rounded_size hn,hlen]
    decide
  have hhole : ((dinodeOf geometry (rounded blk) ROOTINO).addrs 1).toNat = 0 := by
    have hptr : ptr _ _ ((1 : Fin (NDIRECT+1)) : ℕ) = _ := hlaid.rounded_ptr 1
    rw [ptr_addr] at hptr
    rw [hptr]
    by_contra hne
    have hlt := hlaid.within 1 hne
    rw [hlaid.root_size,hlen] at hlt
    exact absurd hlt (by decide)
  have hfree : bitOf geometry (rounded blk) 1999 = false := by
    have hbit := hlaid.bit 1999 (by decide)
    rw [used_treeOf hn,decide_eq_false (by decide)] at hbit
    rw [← hbit]
    apply bitOf_congr
    have hne : BBLOCK 1999 geometry ≠ IBLOCK ROOTINO geometry := by decide
    rw [rounded,putDinode,Function.update_of_ne hne]
  refine ⟨_,himg,by rw [hlaid.consistent_iff hn,hlen]; decide,?_⟩
  have hlog : 1 < geometry.nlog := by decide
  have hlast : 1999 < geometry.size := by decide
  have hfit : (1024 : UInt32).toNat+(16 : UInt32).toNat ≤
      (dinodeOf geometry (rounded blk) ROOTINO).size.toNat := by
    rw [hsize]
    decide
  have hoff : (1024 : UInt32).toNat/BSIZE < NDIRECT := by decide
  refine run_readi_hole hlog ?_ ?_ hlast ?_ ?_ ?_ hoff ?_
  · rfl
  · rfl
  · exact hfree
  · decide
  · exact hfit
  · exact hhole

end Mkfs
end Xv6
