import Xv6.Dir
import Xv6.Itrunc

/-! What the blocks of a file system represent: a partial map from inode numbers to nodes, each
with its attributes and the bytes below its size. Every change of the blocks that the inode layer
makes is an update of this map. -/
namespace Xv6

open Bytes Command

structure Node where
  type : Int16
  major : Int16
  minor : Int16
  nlink : Int16
  bytes : List UInt8

namespace ByteFile

/-- Replace the bytes from `off` on by `bs`, lengthening the array if they reach its end. -/
def overwrite (l : List UInt8) (off : ℕ) (bs : List UInt8) : List UInt8 :=
  l.take off++bs++l.drop (off+bs.length)

theorem length_overwrite {l bs : List UInt8} {off : ℕ} (h : off ≤ l.length) :
    (overwrite l off bs).length = max l.length (off+bs.length) := by
  simp only [overwrite,List.length_append,List.length_take,List.length_drop]
  omega

theorem getElem?_overwrite {l bs : List UInt8} {off p : ℕ} (h : off ≤ l.length) :
    (overwrite l off bs)[p]? =
      if off ≤ p ∧ p < off+bs.length then bs[p-off]? else l[p]? := by
  have hlen : (l.take off).length = off := by simp [h]
  unfold overwrite
  split
  case isTrue hin =>
    rw [List.append_assoc,List.getElem?_append_right (by omega),hlen,
      List.getElem?_append_left (by omega)]
  case isFalse hout =>
    rcases lt_or_ge p off with hp | hp
    · rw [List.append_assoc,List.getElem?_append_left (by omega),List.getElem?_take_of_lt hp]
    · rw [List.getElem?_append_right (by simp only [List.length_append]; omega),
        List.getElem?_drop]
      congr 1
      simp only [List.length_append]
      omega

end ByteFile

namespace Fs

open ByteFile

def fileOf (blk : ℕ → Block) (d : Dinode) : List UInt8 :=
  (List.range d.size.toNat).map (content blk d)

@[simp] theorem length_fileOf (blk : ℕ → Block) (d : Dinode) :
    (fileOf blk d).length = d.size.toNat := by
  simp [fileOf]

theorem getElem?_fileOf {blk : ℕ → Block} {d : Dinode} {p : ℕ} :
    (fileOf blk d)[p]? = if p < d.size.toNat then some (content blk d p) else none := by
  unfold fileOf
  split
  case isTrue h => simp [h]
  case isFalse h => simp [not_lt.mp h]

theorem fileOf_congr {blk : ℕ → Block} {d d' : Dinode} (hsize : d'.size = d.size)
    (haddrs : d'.addrs = d.addrs) : fileOf blk d' = fileOf blk d := by
  have hptr : ∀ k, ptr blk d' k = ptr blk d k := by
    intro k
    simp only [ptr,haddrs]
  have hcontent : content blk d' = content blk d := by
    funext p
    simp only [content,hptr]
  rw [fileOf,fileOf,hsize,hcontent]

def srcList (src : Mem) (n : ℕ) : List UInt8 := (List.range n).map src

theorem take_srcList {src : Mem} {n k : ℕ} (hk : k ≤ n) :
    (srcList src n).take k = srcList src k := by
  rw [srcList,← List.map_take,List.take_range,Nat.min_eq_left hk,srcList]

/-- Bytes stored over a file that grows from `size` to `max size (off+r)`: those that lie below
the new size. -/
theorem map_blit_eq_overwrite {f : ℕ → UInt8} {src : Mem} {size off r tot : ℕ} (hoff : off ≤ size)
    (hr : r ≤ tot) : (List.range (max size (off+r))).map (blit f off tot src) =
      overwrite ((List.range size).map f) off
        (srcList src (min tot (max size (off+r)-off))) := by
  have hlen : off ≤ ((List.range size).map f).length := by simpa using hoff
  apply List.ext_getElem?
  intro p
  rw [getElem?_overwrite hlen]
  simp only [srcList,List.length_map,List.length_range,List.getElem?_map]
  by_cases hin : off ≤ p ∧ p < off+min tot (max size (off+r)-off)
  · rw [if_pos hin,List.getElem?_range (by omega),List.getElem?_range (by omega)]
    simp only [Option.map_some]
    rw [blit_inside hin.1 (by omega)]
  · rw [if_neg hin]
    by_cases hp : p < size
    · rw [List.getElem?_range (by omega),List.getElem?_range hp]
      simp only [Option.map_some]
      rw [blit_outside (by omega)]
    · rw [List.getElem?_eq_none (by simp; omega),List.getElem?_eq_none (by simp; omega)]
      rfl

def nodeOf (blk : ℕ → Block) (d : Dinode) : Node :=
  ⟨d.type,d.major,d.minor,d.nlink,fileOf blk d⟩

def tree (sb : Geometry) (blk : ℕ → Block) (i : ℕ) : Option Node :=
  if i < sb.ninodes ∧ (dinodeOf sb blk i).type ≠ 0 then some (nodeOf blk (dinodeOf sb blk i))
  else none

section Tree

variable {sb : Geometry} {blk : ℕ → Block} {s u : Fs} {ip i : ℕ} {n : Node}

theorem tree_eq_some (hi : i < sb.ninodes) (ht : (dinodeOf sb blk i).type ≠ 0) :
    tree sb blk i = some (nodeOf blk (dinodeOf sb blk i)) := if_pos ⟨hi,ht⟩

theorem tree_eq_none_iff : tree sb blk i = none ↔
    (i < sb.ninodes → (dinodeOf sb blk i).type = 0) := by
  unfold tree
  split
  case isTrue h => simp [h]
  case isFalse h =>
    simp only [true_iff]
    intro hi
    by_contra ht
    exact h ⟨hi,ht⟩

theorem tree_some (h : tree sb blk i = some n) : i < sb.ninodes ∧
    (dinodeOf sb blk i).type ≠ 0 ∧ n = nodeOf blk (dinodeOf sb blk i) := by
  unfold tree at h
  split at h
  case isTrue hh => exact ⟨hh.1,hh.2,(Option.some.inj h).symm⟩
  case isFalse => cases h

theorem Loaded.tree_eq (h : Loaded sb s ip) :
    tree sb s.blk (s.itable ip).inum = some (nodeOf s.blk (s.itable ip).d) := by
  have ht := h.typed
  rw [h.same] at ht
  rw [tree_eq_some h.inum_lt ht,← h.same]

theorem tree_update {o : Option Node} (hself : tree sb u.blk i = o)
    (hdin : ∀ j < sb.ninodes, j ≠ i → dinodeOf sb u.blk j = dinodeOf sb s.blk j)
    (hcont : ∀ j < sb.ninodes, (dinodeOf sb s.blk j).type ≠ 0 → j ≠ i →
      content u.blk (dinodeOf sb s.blk j) = content s.blk (dinodeOf sb s.blk j)) :
    tree sb u.blk = Function.update (tree sb s.blk) i o := by
  funext j
  by_cases hj : j = i
  · rw [hj,Function.update_self,hself]
  · rw [Function.update_of_ne hj]
    unfold tree
    by_cases hlt : j < sb.ninodes
    · rw [hdin j hlt hj]
      by_cases ht : (dinodeOf sb s.blk j).type ≠ 0
      · rw [if_pos ⟨hlt,ht⟩,if_pos ⟨hlt,ht⟩,nodeOf,nodeOf,fileOf,fileOf,hcont j hlt ht hj]
      · rw [if_neg fun hh => ht hh.2,if_neg fun hh => ht hh.2]
    · rw [if_neg fun hh => hlt hh.1,if_neg fun hh => hlt hh.1]

theorem Wrote.tree_eq {src : Mem} {off r tot : ℕ}
    (hoff : off ≤ (s.itable ip).d.size.toNat) (hr : r ≤ tot)
    (h : Wrote sb ip src off r tot s u) :
    tree sb u.blk = Function.update (tree sb s.blk) (s.itable ip).inum
      (some {nodeOf s.blk (s.itable ip).d with
        bytes := overwrite (fileOf s.blk (s.itable ip).d) off
          (srcList src (min tot (max (s.itable ip).d.size.toNat (off+r)-off)))}) := by
  obtain ⟨z,a,hz⟩ := h.slot
  have hip : u.itable ip = {s.itable ip with d := {(s.itable ip).d with size := z, addrs := a}} := by
    rw [hz,Function.update_self]
  have hinum : (u.itable ip).inum = (s.itable ip).inum := by rw [hip]
  refine tree_update ?_ h.dinodes h.content_ne
  rw [← hinum,h.loaded.tree_eq]
  have hfile : fileOf u.blk (u.itable ip).d = overwrite (fileOf s.blk (s.itable ip).d) off
      (srcList src (min tot (max (s.itable ip).d.size.toNat (off+r)-off))) := by
    rw [fileOf,h.size_eq,h.content_self,map_blit_eq_overwrite hoff hr,fileOf]
  rw [nodeOf,hfile,nodeOf]
  rw [hip]

theorem Truncated.tree_eq (h : Truncated sb ip s u) :
    tree sb u.blk = Function.update (tree sb s.blk) (s.itable ip).inum
      (some {nodeOf s.blk (s.itable ip).d with bytes := []}) := by
  have hip : u.itable ip = {s.itable ip with d := hollow (s.itable ip).d} := by
    rw [h.slot,Function.update_self]
    rfl
  have hinum : (u.itable ip).inum = (s.itable ip).inum := by rw [hip]
  refine tree_update ?_ h.dinodes h.content_ne
  rw [← hinum,h.loaded.tree_eq,hip]
  rfl

end Tree
end Fs
end Xv6
