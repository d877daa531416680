import Xv6.Writei

/-! The image that `mkfs` writes for no input files: a root directory holding `.` and `..`. -/
namespace Xv6
namespace Mkfs

open Bytes Ownership Fs

/-- A block of the bitmap with the first `used` bits set. -/
def marked (used : ℕ) : Block := (List.range used).foldl setBit fun _ => 0

theorem marked_succ (used : ℕ) : marked (used+1) = setBit (marked used) used := by
  simp [marked,List.range_succ]

theorem bitAt_marked (used i : ℕ) : bitAt (marked used) i = decide (i < used) := by
  induction used with
  | zero => simp [marked,bitAt]
  | succ used ih =>
    rw [marked_succ,bitAt_setBit,ih,Bool.eq_iff_iff]
    simp only [Bool.or_eq_true,decide_eq_true_eq]
    omega

def rootInode : Dinode where
  type := T_DIR
  major := 0
  minor := 0
  nlink := 1
  size := 1024
  addrs := Function.update (fun _ => 0) 0 46

def rootBlock : Block := fun i =>
  if i = 0 ∨ i = 16 then 1 else if i = 2 ∨ i = 18 ∨ i = 19 then '.'.toUInt8 else 0

def sbBlock : Block := fun i =>
  let fields := [superblock.magic,superblock.size,superblock.nblocks,superblock.ninodes,
    superblock.nlog,superblock.logstart,superblock.inodestart,superblock.bmapstart]
  leByte (fields.getD (i/4) 0) (i%4)

def rootImage : ℕ → Block := fun b =>
  if b = 1 then sbBlock
  else if b = 32 then Dinode.encode (fun _ => 0) 1 rootInode
  else if b = 45 then marked 47
  else if b = 46 then rootBlock
  else fun _ => 0

theorem bitOf_marked {blk : ℕ → Block} {used b : ℕ} (h : blk 45 = marked used) (hb : b < FSSIZE) :
    bitOf geometry blk b = decide (b < used) := by
  have hlt : b < BPB := hb.trans (by decide)
  have hblock : BBLOCK b geometry = 45 := by
    rw [BBLOCK,Nat.div_eq_of_lt hlt]
    rfl
  rw [bitOf,hblock,Nat.mod_eq_of_lt hlt,h]
  exact bitAt_marked used b

theorem bitOf_rootImage {b : ℕ} (hb : b < FSSIZE) :
    bitOf geometry rootImage b = decide (b < 47) := bitOf_marked rfl hb

theorem decode_zeros (slot : ℕ) : Dinode.decode (fun _ => 0) slot = Dinode.zero := by
  have h0 : ∀ k a, readLE (fun _ => 0) a k = 0 := fun _ _ => readLE_eq_zero fun _ _ => rfl
  simp [Dinode.decode,Dinode.zero,h0]

theorem dinodeOf_first {blk : ℕ → Block} (h : ∀ b, 32 < b → b < 45 → blk b = fun _ => 0) {i : ℕ}
    (hi : i < NINODES) :
    dinodeOf geometry blk i = if i < 16 then Dinode.decode (blk 32) i else Dinode.zero := by
  have hblock : IBLOCK i geometry = i/16+32 := rfl
  have hlt : i < 200 := hi
  rw [dinodeOf,hblock]
  split
  case isTrue h16 =>
    have hdiv : i/16+32 = 32 := by omega
    have hmod : i%IPB = i := Nat.mod_eq_of_lt h16
    rw [hdiv,hmod]
  case isFalse h16 => rw [h _ (by omega) (by omega),decode_zeros]

theorem dinodeOf_rootImage {i : ℕ} (hi : i < NINODES) :
    dinodeOf geometry rootImage i = if i = 1 then rootInode else Dinode.zero := by
  have hrest : ∀ b, 32 < b → b < 45 → rootImage b = fun _ => 0 := by
    intro b hlow hhigh
    unfold rootImage
    rw [if_neg (by omega),if_neg (by omega),if_neg (by omega),if_neg (by omega)]
  have himg : rootImage 32 = Dinode.encode (fun _ => 0) 1 rootInode := rfl
  rw [dinodeOf_first hrest hi,himg]
  by_cases h1 : i = 1
  · rw [h1,Dinode.decode_encode,if_pos (by omega),if_pos rfl]
  · rw [Dinode.decode_encode_ne h1,decode_zeros,if_neg h1,ite_self]

theorem ptr_rootInode {blk : ℕ → Block} {d : Dinode} (hd : d.addrs = rootInode.addrs) (k : ℕ) :
    ptr blk d k = if k = 0 then 46 else 0 := by
  have hind : d.addrs indirect = 0 := by rw [hd]; rfl
  rcases ptr_cases k with ⟨a,rfl⟩ | ⟨j,hj,rfl⟩ | hge
  · rw [ptr_addr,hd]
    by_cases ha : a = 0
    · subst ha
      rfl
    · have hne : a.val ≠ 0 := fun h => ha (Fin.ext h)
      simp [rootInode,ha,hne]
  · rw [ptr_eq_zero_of_no_indirect (by omega) hind,if_neg (by omega)]
  · rw [ptr_eq_zero_of_ge hge,if_neg (by omega)]

theorem owner_rootImage (p : ℕ × ℕ) : owner geometry rootImage (dinodeOf geometry rootImage) p =
    if p = (1,0) then some 46 else none := by
  obtain ⟨i,k⟩ := p
  by_cases hi : i < NINODES
  · by_cases h1 : i = 1
    · subst h1
      by_cases hk : k = 0
      · subst hk
        rw [if_pos rfl,owner_eq_some,dinodeOf_rootImage hi,if_pos rfl,ptr_rootInode rfl]
        exact ⟨hi,by decide,by decide,rfl⟩
      · rw [owner,if_neg,if_neg (by simp [hk])]
        rintro ⟨-,-,hne⟩
        apply hne
        rw [dinodeOf_rootImage hi,if_pos rfl,ptr_rootInode rfl,if_neg hk]
    · rw [owner,if_neg,if_neg (by simp [h1])]
      rintro ⟨-,hne,-⟩
      apply hne
      rw [dinodeOf_rootImage hi,if_neg h1]
      rfl
  · rw [owner,if_neg fun h => hi h.1,if_neg]
    rintro h
    obtain ⟨rfl,-⟩ := Prod.mk.inj h
    exact hi (by decide)

theorem rootImage_consistent : Consistent geometry rootImage where
  own := {
    used_iff := by
      intro b
      change b < FSSIZE ∧ _ ↔ b < 46 ∨ _
      constructor
      · rintro ⟨hb,hset⟩
        rw [bitOf_rootImage hb,decide_eq_true_eq] at hset
        rcases lt_or_ge b 46 with h | h
        · exact .inl h
        · obtain rfl : b = 46 := by omega
          exact .inr ⟨(1,0),owner_rootImage _⟩
      · have key : b < 47 → b < FSSIZE ∧ bitOf geometry rootImage b = true := by
          intro h
          have hb : b < FSSIZE := h.trans (by decide)
          exact ⟨hb,by rw [bitOf_rootImage hb]; exact decide_eq_true h⟩
        rintro (h | ⟨p,hp⟩)
        · exact key (by omega)
        · rw [owner_rootImage] at hp
          split at hp
          · cases hp
            exact key (by omega)
          · cases hp
    unique := by
      intro p q b hp hq
      rw [owner_rootImage] at hp hq
      split at hp
      case isTrue h =>
        split at hq
        case isTrue h' => rw [h,h']
        case isFalse => cases hq
      case isFalse => cases hp
    apart := by
      intro p b hp
      rw [owner_rootImage] at hp
      split at hp
      · cases hp
        decide
      · cases hp }
  sized := by
    intro i hi ht
    rw [dinodeOf_rootImage hi] at ht ⊢
    split
    case isTrue h =>
      refine ⟨by decide,?_⟩
      intro bn hbn
      have hbn' : bn*1024 < 1024 := hbn
      obtain rfl : bn = 0 := by omega
      decide
    case isFalse h =>
      rw [if_neg h] at ht
      exact absurd rfl ht

end Mkfs
end Xv6
