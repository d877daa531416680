import Xv6.CreateOps
import Xv6.RootTree

/-! Calls that make a name and fail: what they did is taken back. The one thing that can stay is an
indirect block, which `bmap` had got for the directory before it found the disk full. -/
namespace Xv6
namespace Fs

open Bytes Command FileTree Ownership

variable {sb : Geometry} {s t : Fs} {F : Multiset ℕ} {cwd : ℕ} {path : List UInt8}

/-- The free blocks are the same, or without one that is now the indirect block of the directory to
which `path` leads. -/
def FreeBut (sb : Geometry) (cwd : ℕ) (path : List UInt8) (s t : Fs) : Prop :=
  freeBlocks sb t.blk = freeBlocks sb s.blk ∨
    ∃ d name b, lookup (tree sb s.blk) true (s.itable cwd).inum path = some (d,name) ∧
      named sb s.blk (d,NDIRECT) = none ∧ named sb t.blk (d,NDIRECT) = some b ∧
      b ∈ freeBlocks sb s.blk ∧ freeBlocks sb t.blk = (freeBlocks sb s.blk).erase b

structure TakenBack (sb : Geometry) (F : Multiset ℕ) (cwd : ℕ) (path : List UInt8) (s t : Fs) :
    Prop where
  wf : Wf sb t F ∅
  refs : ∀ k, (t.itable k).ref = (s.itable k).ref
  unlocked : ∀ k, (t.itable k).locked = false
  /-- Entries, link counts and allocated inodes. -/
  tree_eq : tree sb t.blk = tree sb s.blk
  free : FreeBut sb cwd path s t

theorem Restored.free (h : Restored sb cwd path s t) (hs : Consistent sb s.blk)
    (ht : Consistent sb t.blk) : FreeBut sb cwd path s t := by
  have hown : Exact (· < nmeta sb) (fun b => b < sb.size ∧ bitOf sb s.blk b = true)
    (named sb s.blk) := hs.own
  have hown' : Exact (· < nmeta sb) (fun b => b < sb.size ∧ bitOf sb t.blk b = true)
    (named sb t.blk) := ht.own
  by_cases hsame : named sb t.blk = named sb s.blk
  · exact .inl (freeBlocks_congr hs ht hsame)
  · right
    obtain ⟨p,hp⟩ := Function.ne_iff.mp hsame
    obtain ⟨hnone,hslot,name,hpath⟩ := (h p).resolve_left hp
    obtain ⟨b,hb⟩ := Option.ne_none_iff_exists'.mp (hnone ▸ hp)
    have hpair : p = (p.1,NDIRECT) := Prod.ext rfl hslot
    have hother : ∀ q, q ≠ p → named sb t.blk q = named sb s.blk q := by
      intro q hq
      refine (h q).resolve_right ?_
      rintro ⟨-,hslot',name',hpath'⟩
      rw [hpath] at hpath'
      exact hq (Prod.ext (Prod.mk.inj (Option.some.inj hpath')).1.symm (hslot'.trans hslot.symm))
    obtain ⟨hfree,hused⟩ := hown.used_insert hown' hnone hb hother
    have hlt : b < sb.size := (hown'.used_of_own hb).1
    refine ⟨p.1,name,b,hpath,hpair ▸ hnone,hpair ▸ hb,mem_freeBlocks.mpr ⟨hlt,hfree⟩,?_⟩
    ext c
    rw [Finset.mem_erase,mem_freeBlocks,mem_freeBlocks,hused c]
    tauto

theorem Restored.takenBack (h : Wf sb s F ∅) (h' : Wf sb t F ∅)
    (htree : tree sb t.blk = tree sb s.blk) (hr : Restored sb cwd path s t) :
    TakenBack sb F cwd path s t where
  wf := h'
  refs k := by rw [h'.refs,h.refs]
  unlocked k := by
    rw [← Bool.not_eq_true,h'.locks]
    exact Finset.notMem_empty k
  tree_eq := htree
  free := hr.free h.disk h'.disk

/-- A `create` that returns 0 and a `link` that returns -1 have been taken back, for whatever reason
they failed. -/
theorem failure_takenBack (h : Wf sb s F ∅) (hcwd : cwd ∈ F) (ho : Orderly sb F s) :
    (∀ path type major minor t, type ≠ 0 →
      (create sb cwd path type major minor).run s = .ok (none,t) → TakenBack sb F cwd path s t) ∧
    ∀ old new t, (link sb cwd old new).run s = .ok (-1,t) → TakenBack sb F cwd new s t := by
  constructor
  · intro path type major minor t htype hrun
    obtain ⟨⟨hwf,-,htree⟩,hback,-⟩ :=
      wp_ok (wp_create stops_true h hcwd sb.root_lt (.inl trivial) htype) hrun
    exact (hback rfl ho).takenBack h hwf (htree ho)
  · intro old new t hrun
    obtain ⟨hwf,-,hlink,hback⟩ :=
      wp_ok (wp_link stops_true h hcwd sb.root_lt (.inl trivial)) hrun
    have htree : tree sb t.blk = tree sb s.blk := by
      rcases hlink ho.anchored with ⟨-,htree⟩ | ⟨hr,-⟩
      · exact htree
      · exact absurd hr (by decide)
    exact (hback ho.anchored rfl).takenBack h hwf htree

end Fs

namespace Mkfs

open Bytes Command Fs Ownership

def tight : Geometry where
  toSuperblock := {superblock with size := 47, nblocks := 1}
  ninodes_le := by decide
  root_lt := by decide
  inodestart_pos := by decide
  inodes_below_bitmap := by decide
  meta_le_size := by decide
  size_lt := by decide

def tightState : Fs := startState rootImage 1

theorem rootImage_tight : Consistent tight rootImage where
  own := by
    have hown : Exact (· < nmeta) (fun b => b < FSSIZE ∧ bitOf geometry rootImage b = true)
      (named geometry rootImage) := rootImage_consistent.own
    refine hown.congr ?_ fun _ => rfl
    intro b
    change b < 47 ∧ bitOf geometry rootImage b = true ↔ _
    constructor
    · rintro ⟨hlt,hbit⟩
      exact ⟨hlt.trans (by decide),hbit⟩
    · rintro ⟨hlt,hbit⟩
      refine ⟨?_,hbit⟩
      rw [bitOf_rootImage hlt] at hbit
      exact of_decide_eq_true hbit
  sized := rootImage_consistent.sized

theorem tightState_wf : Wf tight tightState {0} ∅ := startState_wf rootImage_tight rootTree_inRange 1

theorem tightState_orderly : Orderly tight {0} tightState :=
  ⟨rootState_solid.anchored,rootState_solid.held⟩

/-- `mkdir` takes an inode, finds no block for ".", and gives the inode back; `link` refuses a
directory. -/
theorem failure_takenBack_full : ∃ t u,
    (create tight 0 [100] T_DIR 0 0).run tightState = .ok (none,t) ∧
    TakenBack tight {0} 0 [100] tightState t ∧
    (link tight 0 [46] [100]).run tightState = .ok (-1,u) ∧
    TakenBack tight {0} 0 [100] tightState u := by
  obtain ⟨r,t,hrun,rfl⟩ := exists_run (c := create tight 0 [100] T_DIR 0 0)
    (Q := fun r _ => r = none) (s := tightState) (by decide +kernel)
  obtain ⟨r,u,hrun',rfl⟩ := exists_run (c := link tight 0 [46] [100])
    (Q := fun r _ => r = -1) (s := tightState) (by decide +kernel)
  have hback := failure_takenBack tightState_wf (Multiset.mem_singleton_self 0) tightState_orderly
  exact ⟨t,u,hrun,hback.1 _ _ _ _ t (by decide) hrun,hrun',hback.2 _ _ u hrun'⟩

end Mkfs
end Xv6
