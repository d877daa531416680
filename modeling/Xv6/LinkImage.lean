import Xv6.RootTree

/-! A file with as many names as a link count can say. The root directory has three names of inode 2
and two directories, each with 16382 more names of it in 256 blocks; `x` is the one name of
inode 5. -/
namespace Xv6
namespace Mkfs

open Bytes Ownership Fs

def linkNames : List (UInt8 × UInt8 × UInt8) :=
  [(1,46,0),(1,46,46),(2,102,0),(2,103,0),(2,104,0),(3,97,0),(4,98,0),(5,120,0)]

def linkRootBlock : Block := fun p =>
  let de := linkNames.getD (p/16) (0,0,0)
  if p%16 = 0 then de.1 else if p%16 = 2 then de.2.1 else if p%16 = 3 then de.2.2 else 0

/-- Byte `o` of entry `e` of the directory `dir`: behind "." and ".." every entry is a name of
inode 2, with the number of the entry as the name. -/
def linkByte (dir e o : ℕ) : UInt8 :=
  if o = 0 then (if e = 0 then UInt8.ofNat dir else if e = 1 then 1 else 2)
  else if o = 2 then (if e < 2 then 46 else UInt8.ofNat (128+e/128))
  else if o = 3 then (if e = 0 then 0 else if e = 1 then 46 else UInt8.ofNat (128+e%128))
  else 0

/-- Block `k` of a directory that starts at `base`; number 12 is the indirect block. -/
def linkPart (dir base k : ℕ) : Block := fun p =>
  if k = NDIRECT then (if p/4 < 244 then leByte (base+13+p/4) (p%4) else 0)
  else linkByte dir (64*(if k < NDIRECT then k else k-1)+p/16) (p%16)

def linkDir (base : ℕ) : Dinode where
  type := T_DIR
  major := 0
  minor := 0
  nlink := 1
  size := 262144
  addrs := fun k => UInt32.ofNat (base+k)

def linkFile (nlink : Int16) : Dinode := {Dinode.zero with type := T_FILE, nlink := nlink}

def linkInode : ℕ → Dinode
  | 1 => {rootInode with nlink := 3, size := 128}
  | 2 => linkFile 32767
  | 3 => linkDir 47
  | 4 => linkDir 304
  | 5 => linkFile 1
  | _ => Dinode.zero

def linkInodeBlock : Block :=
  [1,2,3,4,5].foldl (fun m i => Dinode.encode m i (linkInode i)) fun _ => 0

def linkImage : ℕ → Block := fun b =>
  if b = 1 then sbBlock
  else if b = 32 then linkInodeBlock
  else if b = 45 then marked 561
  else if b = 46 then linkRootBlock
  else if 47 ≤ b ∧ b < 304 then linkPart 3 47 (b-47)
  else if 304 ≤ b ∧ b < 561 then linkPart 4 304 (b-304)
  else fun _ => 0

theorem bitOf_linkImage {b : ℕ} (hb : b < FSSIZE) :
    bitOf geometry linkImage b = decide (b < 561) := bitOf_marked rfl hb

theorem linkInode_eq_zero {i : ℕ} (h : 6 ≤ i) : linkInode i = Dinode.zero := by
  obtain ⟨j,rfl⟩ := Nat.exists_eq_add_of_le' h
  rfl

theorem decode_linkInodeBlock (i : ℕ) : Dinode.decode linkInodeBlock i = linkInode i := by
  rw [linkInodeBlock]
  simp only [List.foldl]
  by_cases h5 : i = 5
  · rw [h5,Dinode.decode_encode]
  rw [Dinode.decode_encode_ne h5]
  by_cases h4 : i = 4
  · rw [h4,Dinode.decode_encode]
  rw [Dinode.decode_encode_ne h4]
  by_cases h3 : i = 3
  · rw [h3,Dinode.decode_encode]
  rw [Dinode.decode_encode_ne h3]
  by_cases h2 : i = 2
  · rw [h2,Dinode.decode_encode]
  rw [Dinode.decode_encode_ne h2]
  by_cases h1 : i = 1
  · rw [h1,Dinode.decode_encode]
  rw [Dinode.decode_encode_ne h1,decode_zeros]
  rcases Nat.eq_zero_or_pos i with rfl | h0
  · rfl
  · rw [linkInode_eq_zero (by omega)]

theorem dinodeOf_linkImage {i : ℕ} (hi : i < NINODES) :
    dinodeOf geometry linkImage i = linkInode i := by
  have hrest : ∀ b, 32 < b → b < 45 → linkImage b = fun _ => 0 := by
    intro b hlow hhigh
    unfold linkImage
    rw [if_neg (by omega),if_neg (by omega),if_neg (by omega),if_neg (by omega),if_neg (by omega),
      if_neg (by omega)]
  have himg : linkImage 32 = linkInodeBlock := rfl
  rw [dinodeOf_first hrest hi,himg,decode_linkInodeBlock]
  split
  · rfl
  · rw [linkInode_eq_zero (by omega)]

theorem linkInode_dir {i : ℕ} : (linkInode i).type = T_DIR ↔ i = 1 ∨ i = 3 ∨ i = 4 := by
  rcases lt_or_ge i 6 with h | h
  · interval_cases i <;> decide
  · rw [linkInode_eq_zero h]
    exact ⟨fun h0 => absurd h0 (by decide),by omega⟩

theorem linkInode_cases (i : ℕ) : linkInode i = Dinode.zero ∨ i = 1 ∨
    (∃ x, linkInode i = linkFile x) ∨ i = 3 ∨ i = 4 := by
  rcases lt_or_ge i 6 with h | h
  · interval_cases i
    · exact .inl rfl
    · exact .inr (.inl rfl)
    · exact .inr (.inr (.inl ⟨_,rfl⟩))
    · exact .inr (.inr (.inr (.inl rfl)))
    · exact .inr (.inr (.inr (.inr rfl)))
    · exact .inr (.inr (.inl ⟨_,rfl⟩))
  · exact .inl (linkInode_eq_zero h)

/-- The blocks of the directory `dir` lie from `base` on. -/
structure LinkPart (dir base : ℕ) : Prop where
  pos : 0 < base
  lt : base < 400
  block : ∀ k < 257, linkImage (base+k) = linkPart dir base k

theorem linkPart_three : LinkPart 3 47 where
  pos := by decide
  lt := by decide
  block k hk := by
    unfold linkImage
    rw [if_neg (by omega),if_neg (by omega),if_neg (by omega),if_neg (by omega),if_pos (by omega),
      Nat.add_sub_cancel_left]

theorem linkPart_four : LinkPart 4 304 where
  pos := by decide
  lt := by decide
  block k hk := by
    unfold linkImage
    rw [if_neg (by omega),if_neg (by omega),if_neg (by omega),if_neg (by omega),if_neg (by omega),
      if_pos (by omega),Nat.add_sub_cancel_left]

variable {dir base : ℕ}

theorem entryOf_linkPart (h : LinkPart dir base) (j : ℕ) :
    entryOf (linkImage (base+NDIRECT)) j = if j < 244 then base+13+j else 0 := by
  have hlt := h.lt
  rw [h.block NDIRECT (by decide),entryOf]
  split
  case isTrue h244 =>
    have hbytes : ∀ i < 4, linkPart dir base NDIRECT (4*j+i) = leByte (base+13+j) i := by
      intro i hi
      have hdiv : (4*j+i)/4 = j := by omega
      have hmod : (4*j+i)%4 = i := by omega
      rw [linkPart,if_pos rfl,hdiv,hmod,if_pos h244]
    rw [readLE_leByte hbytes]
    exact Nat.mod_eq_of_lt (by omega)
  case isFalse h244 =>
    have hbytes : ∀ i < 4, linkPart dir base NDIRECT (4*j+i) = leByte 0 i := by
      intro i hi
      have hdiv : (4*j+i)/4 = j := by omega
      rw [linkPart,if_pos rfl,hdiv,if_neg h244,leByte,Nat.zero_div]
      rfl
    rw [readLE_leByte hbytes,Nat.zero_mod]

theorem ptr_linkDir (h : LinkPart dir base) (k : ℕ) :
    ptr linkImage (linkDir base) k = if k < 257 then base+k else 0 := by
  have hlt := h.lt
  have haddr : ∀ a : Fin (NDIRECT+1), ((linkDir base).addrs a).toNat = base+a := by
    intro a
    have ha := a.isLt
    unfold NDIRECT at ha
    exact UInt32.toNat_ofNat_of_lt' (by change base+a.val < 4294967296; omega)
  rcases ptr_cases k with ⟨a,rfl⟩ | ⟨j,hj,rfl⟩ | hge
  · have ha := a.isLt
    unfold NDIRECT at ha
    rw [ptr_addr,haddr,if_pos (by omega)]
  · have hind : (linkDir base).addrs indirect ≠ 0 := by
      intro h0
      have hnum := haddr indirect
      rw [h0] at hnum
      have hpos := h.pos
      change 0 = _ at hnum
      omega
    have hblock : ((linkDir base).addrs indirect).toNat = base+NDIRECT := haddr indirect
    rw [ptr_entry hj hind,hblock,entryOf_linkPart h]
    unfold NDIRECT
    split_ifs <;> omega
  · unfold NDIRECT NINDIRECT at hge
    rw [ptr_eq_zero_of_ge (by unfold NDIRECT NINDIRECT; exact hge),if_neg (by
      simp only [BSIZE] at hge
      omega)]

theorem ptr_linkFile (blk : ℕ → Block) (x : Int16) (k : ℕ) : ptr blk (linkFile x) k = 0 :=
  ptr_hollow blk (linkFile x) k

theorem owner_linkImage {i k b : ℕ} :
    owner geometry linkImage (dinodeOf geometry linkImage) (i,k) = some b ↔
    i = 1 ∧ k = 0 ∧ b = 46 ∨ i = 3 ∧ k < 257 ∧ b = 47+k ∨ i = 4 ∧ k < 257 ∧ b = 304+k := by
  rw [owner_eq_some]
  by_cases hi : i < NINODES
  · have hlt : i < geometry.ninodes := hi
    rw [dinodeOf_linkImage hi]
    simp only [hlt,true_and]
    rcases linkInode_cases i with h0 | rfl | ⟨x,hx⟩ | rfl | rfl
    · have hnot : ¬ (i = 1 ∨ i = 3 ∨ i = 4) := by
        rw [← linkInode_dir,h0]
        decide
      rw [h0]
      constructor
      · rintro ⟨ht,-⟩
        exact absurd rfl ht
      · omega
    · have htype : (linkInode 1).type ≠ 0 := by decide
      rw [show ptr linkImage (linkInode 1) k = if k = 0 then 46 else 0 from ptr_rootInode rfl k]
      simp only [htype,ne_eq,not_false_eq_true,true_and]
      split_ifs <;> omega
    · have hnot : ¬ (i = 1 ∨ i = 3 ∨ i = 4) := by
        rw [← linkInode_dir,hx]
        exact (by decide : ¬ T_FILE = T_DIR)
      rw [hx,ptr_linkFile]
      constructor
      · rintro ⟨-,hb,hb'⟩
        exact absurd hb'.symm hb
      · omega
    · have htype : (linkInode 3).type ≠ 0 := by decide
      rw [show ptr linkImage (linkInode 3) k = _ from ptr_linkDir linkPart_three k]
      simp only [htype,ne_eq,not_false_eq_true,true_and]
      split_ifs <;> omega
    · have htype : (linkInode 4).type ≠ 0 := by decide
      rw [show ptr linkImage (linkInode 4) k = _ from ptr_linkDir linkPart_four k]
      simp only [htype,ne_eq,not_false_eq_true,true_and]
      split_ifs <;> omega
  · have hge : 200 ≤ i := not_lt.mp hi
    constructor
    · rintro ⟨hlt,-⟩
      exact absurd hlt hi
    · omega

theorem sized_linkDir (h : LinkPart dir base) : Sized linkImage (linkDir base) where
  size_le := by
    change 262144 ≤ _
    decide
  mapped bn hbn := by
    change bn*1024 < 262144 at hbn
    have hslot : slotOf bn < 257 := by
      unfold slotOf NDIRECT
      split <;> omega
    have hpos := h.pos
    rw [ptr_linkDir h,if_pos hslot]
    omega

theorem linkImage_consistent : Consistent geometry linkImage where
  own := {
    used_iff := by
      intro b
      change b < FSSIZE ∧ _ ↔ b < 46 ∨ _
      have hsize : 561 < FSSIZE := by decide
      have hused : (b < FSSIZE ∧ bitOf geometry linkImage b = true) ↔ b < 561 := by
        constructor
        · rintro ⟨hb,hset⟩
          rwa [bitOf_linkImage hb,decide_eq_true_eq] at hset
        · intro hb
          have hlt : b < FSSIZE := hb.trans hsize
          exact ⟨hlt,by rw [bitOf_linkImage hlt]; exact decide_eq_true hb⟩
      rw [hused]
      constructor
      · intro hb
        rcases lt_or_ge b 46 with h | h
        · exact .inl h
        · rcases lt_or_ge b 47 with h47 | h47
          · exact .inr ⟨(1,0),owner_linkImage.mpr (by omega)⟩
          · rcases lt_or_ge b 304 with h304 | h304
            · exact .inr ⟨(3,b-47),owner_linkImage.mpr (by omega)⟩
            · exact .inr ⟨(4,b-304),owner_linkImage.mpr (by omega)⟩
      · rintro (h | ⟨⟨i,k⟩,hp⟩)
        · omega
        · have := owner_linkImage.mp hp
          omega
    unique := by
      rintro ⟨i,k⟩ ⟨j,l⟩ b hp hq
      have hp := owner_linkImage.mp hp
      have hq := owner_linkImage.mp hq
      rw [Prod.mk.injEq]
      omega
    apart := by
      rintro ⟨i,k⟩ b hp
      have hp := owner_linkImage.mp hp
      change ¬ b < 46
      omega }
  sized := by
    intro i hi ht
    rw [dinodeOf_linkImage hi] at ht ⊢
    rcases linkInode_cases i with h0 | rfl | ⟨x,hx⟩ | rfl | rfl
    · rw [h0] at ht
      exact absurd rfl ht
    · refine ⟨by decide,?_⟩
      intro bn hbn
      change bn*1024 < 128 at hbn
      obtain rfl : bn = 0 := by omega
      rw [show ptr linkImage (linkInode 1) (slotOf 0) = 46 from ptr_rootInode rfl 0]
      decide
    · rw [hx]
      refine ⟨Nat.zero_le _,?_⟩
      intro bn hbn
      exact absurd hbn (Nat.not_lt_zero _)
    · exact sized_linkDir linkPart_three
    · exact sized_linkDir linkPart_four

theorem tree_linkImage (i : ℕ) : tree geometry linkImage i =
    if (linkInode i).type = 0 then none else some (nodeOf linkImage (linkInode i)) := by
  by_cases hi : i < NINODES
  · split
    case isTrue h0 =>
      rw [tree_eq_none_iff]
      intro _
      rwa [dinodeOf_linkImage hi]
    case isFalse h0 => rw [tree_eq_some hi (by rwa [dinodeOf_linkImage hi]),dinodeOf_linkImage hi]
  · have hge : 200 ≤ i := not_lt.mp hi
    have htype : (linkInode i).type = 0 := by
      rw [linkInode_eq_zero (by omega)]
      rfl
    rw [if_pos htype,tree_eq_none_iff]
    exact fun hlt => absurd hlt hi

theorem content_linkDir (h : LinkPart dir base) {p : ℕ} (hp : p < 262144) :
    content linkImage (linkDir base) p = linkByte dir (p/16) (p%16) := by
  have hslot : slotOf (p/1024) < 257 := by
    unfold slotOf NDIRECT
    split <;> omega
  have hptr : ptr linkImage (linkDir base) (slotOf (p/BSIZE)) = base+slotOf (p/1024) := by
    rw [ptr_linkDir h]
    exact if_pos hslot
  have hpos := h.pos
  have hnum : 64*(if slotOf (p/1024) < NDIRECT then slotOf (p/1024) else slotOf (p/1024)-1)+
      p%1024/16 = p/16 := by
    unfold slotOf NDIRECT
    split_ifs <;> omega
  rw [content,hptr,if_neg (by omega),h.block _ hslot,linkPart,if_neg (slotOf_ne_indirect _)]
  change linkByte dir (_+p%1024/16) (p%1024%16) = _
  rw [hnum,Nat.mod_mod_of_dvd p (by decide : 16 ∣ 1024)]

theorem inum_linkDir (h : LinkPart dir base) (hdir : dir < 256) {k : ℕ} (hk : k < 16384) :
    ((nodeOf linkImage (linkDir base)).ent k).inum.toNat =
      if k = 0 then dir else if k = 1 then 1 else 2 := by
  have hsize : (linkDir base).size.toNat = 262144 := rfl
  have hdiv : 16*k/16 = k := by omega
  have hmod : 16*k%16 = 0 := by omega
  have hmod' : (16*k+1)%16 = 1 := by omega
  rw [inum_nodeOf (by omega),content_linkDir h (by omega),content_linkDir h (by omega),hdiv,hmod,hmod']
  have hhigh : linkByte dir ((16*k+1)/16) 1 = 0 := rfl
  rw [hhigh,linkByte,if_pos rfl]
  split_ifs with h0 h1
  · rw [UInt8.toNat_ofNat_of_lt' hdir]
    exact UInt16.toNat_ofNat_of_lt' (by change dir+256*0 < 65536; omega)
  · rfl
  · rfl

theorem count_linkDir (base : ℕ) : (nodeOf linkImage (linkDir base)).count = 16384 := by
  have hsize : (linkDir base).size.toNat = 262144 := rfl
  rw [Node.count,nodeOf,length_fileOf,hsize]
  decide

theorem inum_linkRoot : ∀ k < 8, ((nodeOf linkImage (linkInode 1)).ent k).inum.toNat < 200 := by
  decide +kernel

theorem inRange_linkDir (h : LinkPart dir base) (hdir : dir < 200) {k : ℕ}
    (hk : k < (nodeOf linkImage (linkDir base)).count) :
    ((nodeOf linkImage (linkDir base)).ent k).inum.toNat < 200 := by
  rw [count_linkDir] at hk
  rw [inum_linkDir h (by omega) hk]
  split_ifs <;> omega

theorem linkImage_inRange : InRange geometry (tree geometry linkImage) := by
  intro i n hn htype k hk
  change _ < 200
  rw [tree_linkImage] at hn
  split at hn <;> cases hn
  rcases linkInode_cases i with h0 | rfl | ⟨x,hx⟩ | rfl | rfl
  · rw [h0] at htype
    exact absurd htype (by decide)
  · have hcount : (nodeOf linkImage (linkInode 1)).count = 8 := by
      rw [Node.count,nodeOf,length_fileOf]
      rfl
    exact inum_linkRoot k (hcount ▸ hk)
  · rw [hx] at htype
    exact absurd htype (by change ¬ T_FILE = T_DIR; decide)
  · exact inRange_linkDir linkPart_three (by decide) hk
  · exact inRange_linkDir linkPart_four (by decide) hk

def linkState : Fs := startState linkImage 1

theorem linkState_wf : Wf geometry linkState {0} ∅ :=
  startState_wf linkImage_consistent linkImage_inRange 1

theorem linkState_anchored : Anchored geometry {0} linkState := by
  intro i n hn h0
  change tree geometry linkImage i = some n at hn
  rw [tree_linkImage] at hn
  split at hn <;> cases hn
  rename_i htype
  change (linkInode i).nlink = 0 at h0
  rcases lt_or_ge i 6 with h | h
  · interval_cases i <;> first | exact absurd h0 (by decide) | exact absurd rfl htype
  · rw [linkInode_eq_zero h] at htype
    exact absurd rfl htype

end Mkfs
end Xv6
