import Xv6.Paths
import Xv6.RootImage

/-! The file system of the root image in memory: one process, whose working directory is the root
directory, and no inode read yet. -/
namespace Xv6
namespace Mkfs

open Bytes Fs

def bareRoot : Node := nodeOf rootImage rootInode

theorem tree_rootImage (i : ℕ) : tree geometry rootImage i = if i = ROOTINO then some bareRoot else none := by
  by_cases hi : i < NINODES
  · by_cases h1 : i = ROOTINO
    · have hd : dinodeOf geometry rootImage i = rootInode := by
        rw [dinodeOf_rootImage hi,if_pos (show i = 1 from h1)]
      rw [if_pos h1,tree_eq_some hi (by rw [hd]; decide),hd,bareRoot]
    · rw [if_neg h1,tree_eq_none_iff]
      intro _
      rw [dinodeOf_rootImage hi,if_neg (show ¬ i = 1 from h1)]
      rfl
  · rw [if_neg (by rintro rfl; exact hi (by decide)),tree_eq_none_iff]
    exact fun hlt => absurd hlt hi

theorem content_rootInode {p : ℕ} (hp : p < BSIZE) : content rootImage rootInode p = rootBlock p := by
  have h0 : p/BSIZE = 0 := Nat.div_eq_of_lt hp
  have hptr : ptr rootImage rootInode (slotOf 0) = 46 := rfl
  rw [content,h0,hptr,if_neg (by decide),Nat.mod_eq_of_lt hp]
  rfl

theorem inum_nodeOf {blk : ℕ → Block} {d : Dinode} {k : ℕ} (hk : 16*k+1 < d.size.toNat) :
    ((nodeOf blk d).ent k).inum =
      UInt16.ofNat ((content blk d (16*k)).toNat+256*(content blk d (16*k+1)).toNat) := by
  have hbyte : ∀ p, p < d.size.toNat → (nodeOf blk d).bytes.getD p 0 = content blk d p := by
    intro p hp
    rw [List.getD_eq_getElem?_getD,nodeOf,getElem?_fileOf,if_pos hp,Option.getD_some]
  change UInt16.ofNat (readLE (fun i => (nodeOf blk d).bytes.getD (16*k+i) 0) 0 2) = _
  simp only [readLE]
  rw [hbyte _ (by omega),hbyte _ (by omega)]
  rfl

/-- The entries "." and ".." lead to the root directory, the others are not in use. -/
theorem inum_bareRoot {k : ℕ} (hk : k < 64) : (bareRoot.ent k).inum = if k < 2 then 1 else 0 := by
  have hlow : rootBlock (16*k) = if k < 2 then 1 else 0 := by
    unfold rootBlock
    split_ifs <;> first | omega | rfl
  have hhigh : rootBlock (16*k+1) = 0 := by
    unfold rootBlock
    rw [if_neg (by omega),if_neg (by omega)]
  have hsize : rootInode.size.toNat = 1024 := rfl
  rw [bareRoot,inum_nodeOf (by omega),content_rootInode (by unfold BSIZE; omega),
    content_rootInode (by unfold BSIZE; omega),hlow,hhigh]
  split <;> rfl

/-- One process in the root directory, with an inode table that is otherwise empty. -/
def startState (blk : ℕ → Block) (outstanding : ℕ) : Fs where
  blk := blk
  disk := blk
  lh := []
  outstanding := outstanding
  itable k := ⟨ROOTDEV,ROOTINO,if k = 0 then 1 else 0,false,false,Dinode.zero⟩

theorem startState_wf {sb : Geometry} {blk : ℕ → Block} (hdisk : Consistent sb blk)
    (hrange : InRange sb (tree sb blk)) (outstanding : ℕ) :
    Wf sb (startState blk outstanding) {0} ∅ where
  disk := hdisk
  range := hrange
  refs k := by
    change (if k = 0 then 1 else 0 : ℤ) = _
    rw [Multiset.count_singleton]
    split <;> rfl
  locks k := by
    change false = true ↔ k ∈ ∅
    simp
  held := by simp
  slot_lt k hk := by
    rw [Multiset.mem_singleton.mp hk]
    decide
  dev _ _ := rfl
  inum_lt _ _ := sb.root_lt
  inj k hk l hl _ := by rw [Multiset.mem_singleton.mp hk,Multiset.mem_singleton.mp hl]
  valid _ _ hv := by cases hv
  locked_valid := by simp

def rootState : Fs := startState rootImage 0

theorem count_bareRoot : bareRoot.count = 64 := by
  rw [Node.count,bareRoot,nodeOf,length_fileOf]
  rfl

theorem rootTree_inRange : InRange geometry (tree geometry rootImage) := by
  intro i n hn _ k hk
  rw [tree_rootImage] at hn
  split at hn <;> cases hn
  rw [count_bareRoot] at hk
  rw [inum_bareRoot hk]
  split <;> decide

theorem rootState_wf : Wf geometry rootState {0} ∅ :=
  startState_wf rootImage_consistent rootTree_inRange 0

theorem rootState_solid : Solid geometry {0} rootState where
  anchored i n hn h0 := by
    change tree geometry rootImage i = some n at hn
    rw [tree_rootImage] at hn
    split at hn <;> cases hn
    exact absurd h0 (by decide)
  held k _ := by
    change tree geometry rootImage ROOTINO ≠ none
    rw [tree_rootImage,if_pos rfl]
    simp
  root := by
    change tree geometry rootImage ROOTINO ≠ none
    rw [tree_rootImage,if_pos rfl]
    simp
  entries i n hn _ k hk hused := by
    change tree geometry rootImage i = some n at hn
    change tree geometry rootImage _ ≠ none
    rw [tree_rootImage] at hn
    split at hn <;> cases hn
    rw [count_bareRoot] at hk
    rw [inum_bareRoot hk] at hused ⊢
    split at hused
    · rename_i h2
      rw [if_pos h2,tree_rootImage,if_pos (by decide)]
      simp
    · exact absurd rfl hused

theorem rootState_whole : Whole (tree geometry rootState.blk) := by
  intro i n hn _
  change tree geometry rootImage i = some n at hn
  rw [tree_rootImage] at hn
  split at hn <;> cases hn
  rw [bareRoot,nodeOf,length_fileOf]
  decide

end Mkfs
end Xv6
