import Xv6.Bytes
import Xv6.Param

/-! The on-disk format of `kernel/fs.h`: inodes, the block bitmap, indirect blocks and directory
entries as bytes of 1024-byte blocks, and what a change to one block does to these views. -/
namespace Xv6

open Bytes

abbrev Block := Mem

/-- A super block whose areas follow one another as `mkfs` lays them out. -/
structure Geometry extends Superblock where
  /-- Inode numbers fit the `ushort` of a directory entry. -/
  ninodes_le : ninodes ≤ 65536
  root_lt : ROOTINO < ninodes
  inodestart_pos : 0 < inodestart
  inodes_below_bitmap : (ninodes-1)/IPB+inodestart < bmapstart
  /-- The bitmap has `size/BPB + 1` blocks, and data blocks follow it. -/
  meta_le_size : bmapstart+size/BPB+1 ≤ size
  size_lt : size < 2^31

def Mkfs.geometry : Geometry where
  toSuperblock := Mkfs.superblock
  ninodes_le := by decide
  root_lt := by decide
  inodestart_pos := by decide
  inodes_below_bitmap := by decide
  meta_le_size := by decide
  size_lt := by decide

def IBLOCK (i : ℕ) (sb : Geometry) : ℕ := i/IPB+sb.inodestart
/-- Block of the free map containing the bit for block `b`. -/
def BBLOCK (b : ℕ) (sb : Geometry) : ℕ := b/BPB+sb.bmapstart
def nmeta (sb : Geometry) : ℕ := sb.bmapstart+sb.size/BPB+1

section Areas

variable {sb : Geometry} {i b : ℕ}

theorem nmeta_pos (sb : Geometry) : 0 < nmeta sb := Nat.succ_pos _

theorem IBLOCK_lt_bmapstart (hi : i < sb.ninodes) : IBLOCK i sb < sb.bmapstart := by
  have hdiv : i/IPB ≤ (sb.ninodes-1)/IPB := Nat.div_le_div_right (by omega)
  have hfit := sb.inodes_below_bitmap
  unfold IBLOCK
  omega

theorem BBLOCK_lt_nmeta (hb : b < sb.size) : BBLOCK b sb < nmeta sb := by
  have hdiv : b/BPB ≤ sb.size/BPB := Nat.div_le_div_right (by omega)
  unfold BBLOCK nmeta
  omega

theorem IBLOCK_lt_nmeta (hi : i < sb.ninodes) : IBLOCK i sb < nmeta sb := by
  have hle : sb.bmapstart ≤ nmeta sb := by
    rw [nmeta,Nat.add_assoc]
    exact Nat.le_add_right _ _
  exact (IBLOCK_lt_bmapstart hi).trans_le hle

theorem IBLOCK_ne_BBLOCK (hi : i < sb.ninodes) : IBLOCK i sb ≠ BBLOCK b sb := by
  have h := IBLOCK_lt_bmapstart hi
  have hle : sb.bmapstart ≤ BBLOCK b sb := Nat.le_add_left _ _
  omega

end Areas

/-- The disk copy of an inode; `struct inode` carries the same fields in memory. -/
@[ext] structure Dinode where
  type : Int16
  major : Int16
  minor : Int16
  nlink : Int16
  size : UInt32
  addrs : Fin (NDIRECT+1) → UInt32

namespace Dinode

def zero : Dinode := ⟨0,0,0,0,0,fun _ => 0⟩

def bytes (d : Dinode) : Mem := fun i =>
  if i < 2 then leByte d.type.toUInt16.toNat i
  else if i < 4 then leByte d.major.toUInt16.toNat (i-2)
  else if i < 6 then leByte d.minor.toUInt16.toNat (i-4)
  else if i < 8 then leByte d.nlink.toUInt16.toNat (i-6)
  else if i < 12 then leByte d.size.toNat (i-8)
  else if h : (i-12)/4 < NDIRECT+1 then leByte (d.addrs ⟨(i-12)/4,h⟩).toNat ((i-12)%4)
  else 0

def decode (m : Block) (slot : ℕ) : Dinode where
  type := Int16.ofNat (readLE m (64*slot) 2)
  major := Int16.ofNat (readLE m (64*slot+2) 2)
  minor := Int16.ofNat (readLE m (64*slot+4) 2)
  nlink := Int16.ofNat (readLE m (64*slot+6) 2)
  size := UInt32.ofNat (readLE m (64*slot+8) 4)
  addrs := fun k => UInt32.ofNat (readLE m (64*slot+12+4*k) 4)

/-- The block after all fields of inode `slot` have been assigned. -/
def encode (m : Block) (slot : ℕ) (d : Dinode) : Block := blit m (64*slot) 64 d.bytes

theorem decode_congr {m m' : Block} {slot : ℕ}
    (h : ∀ i < 64, m (64*slot+i) = m' (64*slot+i)) : decode m slot = decode m' slot := by
  have hread : ∀ a k, a+k ≤ 64 → readLE m (64*slot+a) k = readLE m' (64*slot+a) k := by
    intro a k hak
    apply readLE_congr
    intro i hi
    have hh := h (a+i) (by omega)
    rwa [← Nat.add_assoc] at hh
  have h0 : readLE m (64*slot) 2 = readLE m' (64*slot) 2 := hread 0 2 (by omega)
  simp only [decode,Dinode.mk.injEq]
  refine ⟨by rw [h0],by rw [hread 2 2 (by omega)],by rw [hread 4 2 (by omega)],
    by rw [hread 6 2 (by omega)],by rw [hread 8 4 (by omega)],?_⟩
  funext k
  have hk : k.val < 13 := k.isLt
  rw [Nat.add_assoc,hread (12+4*k) 4 (by omega)]

theorem readLE_encode {m : Block} {slot a k v : ℕ} {d : Dinode} (hak : a+k ≤ 64)
    (h : ∀ i < k, d.bytes (a+i) = leByte v i) :
    readLE (encode m slot d) (64*slot+a) k = v%256^k := by
  apply readLE_leByte
  intro i hi
  rw [encode,Nat.add_assoc,blit_add (by omega),h i hi]

/-- What is read back from a written inode is the inode: all fields have fixed width. -/
@[simp] theorem decode_encode (m : Block) (slot : ℕ) (d : Dinode) :
    decode (encode m slot d) slot = d := by
  have h0 : readLE (encode m slot d) (64*slot) 2 = d.type.toUInt16.toNat%256^2 := by
    apply readLE_encode (a := 0) (by omega)
    intro i hi
    simp only [bytes,Nat.zero_add]
    rw [if_pos hi]
  have h2 : readLE (encode m slot d) (64*slot+2) 2 = d.major.toUInt16.toNat%256^2 := by
    apply readLE_encode (by omega)
    intro i hi
    simp only [bytes]
    rw [if_neg (by omega),if_pos (by omega)]
    congr 1
    omega
  have h4 : readLE (encode m slot d) (64*slot+4) 2 = d.minor.toUInt16.toNat%256^2 := by
    apply readLE_encode (by omega)
    intro i hi
    simp only [bytes]
    rw [if_neg (by omega),if_neg (by omega),if_pos (by omega)]
    congr 1
    omega
  have h6 : readLE (encode m slot d) (64*slot+6) 2 = d.nlink.toUInt16.toNat%256^2 := by
    apply readLE_encode (by omega)
    intro i hi
    simp only [bytes]
    rw [if_neg (by omega),if_neg (by omega),if_neg (by omega),if_pos (by omega)]
    congr 1
    omega
  have h8 : readLE (encode m slot d) (64*slot+8) 4 = d.size.toNat%256^4 := by
    apply readLE_encode (by omega)
    intro i hi
    simp only [bytes]
    rw [if_neg (by omega),if_neg (by omega),if_neg (by omega),if_neg (by omega),
      if_pos (by omega)]
    congr 1
    omega
  have ha : ∀ k : Fin (NDIRECT+1),
      readLE (encode m slot d) (64*slot+12+4*k) 4 = (d.addrs k).toNat%256^4 := by
    intro k
    have hk : k.val < 13 := k.isLt
    rw [Nat.add_assoc]
    apply readLE_encode (by omega)
    intro i hi
    have hdiv : (12+4*k.val+i-12)/4 = k.val := by omega
    have hmod : (12+4*k.val+i-12)%4 = i := by omega
    simp only [bytes]
    rw [if_neg (by omega),if_neg (by omega),if_neg (by omega),if_neg (by omega),
      if_neg (by omega),dif_pos (by rw [hdiv]; exact k.isLt)]
    simp only [hdiv,hmod]
  ext
  all_goals simp [decode,h0,h2,h4,h6,h8,ha,Int16.ofNat]

theorem decode_encode_ne {m : Block} {slot slot' : ℕ} {d : Dinode} (h : slot' ≠ slot) :
    decode (encode m slot d) slot' = decode m slot' := by
  apply decode_congr
  intro i hi
  apply blit_outside
  omega

end Dinode

def bitOf (sb : Geometry) (blk : ℕ → Block) (b : ℕ) : Bool := bitAt (blk (BBLOCK b sb)) (b%BPB)

def dinodeOf (sb : Geometry) (blk : ℕ → Block) (i : ℕ) : Dinode :=
  Dinode.decode (blk (IBLOCK i sb)) (i%IPB)

def entryOf (m : Block) (j : ℕ) : ℕ := readLE m (4*j) 4

def setEntry (m : Block) (j v : ℕ) : Block := writeLE m (4*j) 4 v

section Views

variable {sb : Geometry} {blk blk' : ℕ → Block} {i b c : ℕ}

theorem bitOf_congr (h : blk' (BBLOCK b sb) = blk (BBLOCK b sb)) :
    bitOf sb blk' b = bitOf sb blk b := by
  rw [bitOf,bitOf,h]

theorem dinodeOf_congr (h : blk' (IBLOCK i sb) = blk (IBLOCK i sb)) :
    dinodeOf sb blk' i = dinodeOf sb blk i := by
  rw [dinodeOf,dinodeOf,h]

private theorem eq_of_div_mod {n i j : ℕ} (hdiv : i/n = j/n) (hmod : i%n = j%n) : i = j := by
  rw [← Nat.div_add_mod i n,← Nat.div_add_mod j n,hdiv,hmod]

theorem bitOf_setBit : bitOf sb (Function.update blk (BBLOCK b sb)
    (setBit (blk (BBLOCK b sb)) (b%BPB))) c = (bitOf sb blk c || decide (b = c)) := by
  by_cases hdiv : c/BPB = b/BPB
  · have hblock : BBLOCK c sb = BBLOCK b sb := by rw [BBLOCK,BBLOCK,hdiv]
    have hiff : b%BPB = c%BPB ↔ b = c :=
      ⟨fun hmod => eq_of_div_mod hdiv.symm hmod,fun h => by rw [h]⟩
    simp only [bitOf,hblock,Function.update_self,bitAt_setBit,hiff]
  · have hblock : BBLOCK c sb ≠ BBLOCK b sb := by
      simp only [BBLOCK,ne_eq,Nat.add_right_cancel_iff]
      exact hdiv
    have hne : b ≠ c := by rintro rfl; exact hdiv rfl
    simp [bitOf,hblock,hne]

theorem bitOf_clearBit : bitOf sb (Function.update blk (BBLOCK b sb)
    (clearBit (blk (BBLOCK b sb)) (b%BPB))) c = (bitOf sb blk c && !decide (b = c)) := by
  by_cases hdiv : c/BPB = b/BPB
  · have hblock : BBLOCK c sb = BBLOCK b sb := by rw [BBLOCK,BBLOCK,hdiv]
    have hiff : b%BPB = c%BPB ↔ b = c :=
      ⟨fun hmod => eq_of_div_mod hdiv.symm hmod,fun h => by rw [h]⟩
    simp only [bitOf,hblock,Function.update_self,bitAt_clearBit,hiff]
  · have hblock : BBLOCK c sb ≠ BBLOCK b sb := by
      simp only [BBLOCK,ne_eq,Nat.add_right_cancel_iff]
      exact hdiv
    have hne : b ≠ c := by rintro rfl; exact hdiv rfl
    simp [bitOf,hblock,hne]

theorem dinodeOf_encode (d : Dinode) : dinodeOf sb (Function.update blk (IBLOCK i sb)
    (Dinode.encode (blk (IBLOCK i sb)) (i%IPB) d)) = Function.update (dinodeOf sb blk) i d := by
  funext j
  by_cases hij : j = i
  · subst hij
    simp [dinodeOf]
  · rw [Function.update_of_ne hij]
    by_cases hblock : IBLOCK j sb = IBLOCK i sb
    · have hdiv : j/IPB = i/IPB := by simpa [IBLOCK] using hblock
      have hmod : j%IPB ≠ i%IPB := fun hmod => hij (eq_of_div_mod hdiv hmod)
      simp only [dinodeOf,hblock,Function.update_self,Dinode.decode_encode_ne hmod]
    · simp only [dinodeOf,Function.update_of_ne hblock]

theorem entryOf_setEntry (m : Block) (j : ℕ) {v : ℕ} (hv : v < 2^32) :
    entryOf (setEntry m j v) j = v := by
  rw [entryOf,setEntry,readLE_writeLE]
  apply Nat.mod_eq_of_lt
  norm_num at hv ⊢
  exact hv

theorem entryOf_setEntry_ne {m : Block} {j k v : ℕ} (h : k ≠ j) :
    entryOf (setEntry m j v) k = entryOf m k := by
  apply readLE_writeLE_disjoint
  omega

end Views
end Xv6
