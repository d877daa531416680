import Xv6.DirOps
import Xv6.MkfsImage

/-! The kernel reads an image as `mkfs` wrote it: `dirlookup` on the root directory finds the name
of every input file, and `readi` of the inode found returns the bytes of the file. -/
namespace Xv6

open Bytes Command

/-- Names compare equal when they agree in the bytes an entry can hold. -/
theorem strncmp_strncpy {p t : List UInt8} (hp : (0 : UInt8) ∉ p) (ht : (0 : UInt8) ∉ t) (n : ℕ) :
    strncmp p (strncpy t n) n = 0 ↔ p.take n = t.take n := by
  induction n generalizing p t with
  | zero => simp [strncmp]
  | succ n ih =>
    cases p with
    | nil =>
      cases t with
      | nil => simp [strncmp,strncpy,List.replicate_succ]
      | cons b t =>
        have hb : b ≠ 0 := fun h => ht (by simp [h])
        have hb' : b.toNat ≠ 0 := fun h => hb (UInt8.toNat_inj.mp h)
        simp [strncmp,strncpy,hb']
    | cons a p =>
      have ha : a ≠ 0 := fun h => hp (by simp [h])
      have ha' : a.toNat ≠ 0 := fun h => ha (UInt8.toNat_inj.mp h)
      cases t with
      | nil => simp [strncmp,strncpy,List.replicate_succ,ha,ha']
      | cons b t =>
        have hcpy : strncpy (b::t) (n+1) = b::strncpy t n := by simp [strncpy]
        rw [hcpy,strncmp]
        by_cases hab : a = b
        · subst hab
          have hrec := ih (fun h => hp (List.mem_cons_of_mem a h))
            fun h => ht (List.mem_cons_of_mem a h)
          simp [ha,hrec]
        · have hne : a.toNat ≠ b.toNat := fun h => hab (UInt8.toNat_inj.mp h)
          simp [hab]
          omega

namespace Fs

section Lookup

variable {sb : Geometry} {s : Fs} {dp : ℕ} {E : FsPanic → Prop}

theorem wp_readDirent_mapped {e : FsPanic} {k : ℕ}
    (hmap : Mapped s.blk (s.itable dp).d (Dirent.bytes*k) Dirent.bytes)
    (hk : Dirent.bytes*k+Dirent.bytes ≤ (s.itable dp).d.size.toNat) :
    wp (readDirent sb e dp (Dirent.bytes*k)) (fun de t => t = s ∧
      de = Dirent.decode fun i => content s.blk (s.itable dp).d (Dirent.bytes*k+i)) E s := by
  have hlt := (s.itable dp).d.size.toNat_lt
  have hoff : (UInt32.ofNat (Dirent.bytes*k)).toNat = Dirent.bytes*k :=
    UInt32.toNat_ofNat_of_lt' (by simp only [UInt32.size]; omega)
  have h16 : (UInt32.ofNat Dirent.bytes).toNat = Dirent.bytes := rfl
  have hcount : readCount (s.itable dp).d.size (UInt32.ofNat (Dirent.bytes*k))
      (UInt32.ofNat Dirent.bytes) = Dirent.bytes := by
    rw [readCount,if_neg]
    · rw [hoff,h16]
      omega
    · rw [UInt32.lt_iff_toNat_lt,UInt32.lt_iff_toNat_lt,UInt32.toNat_add,hoff,h16]
      omega
  rw [readDirent,wp_bind]
  refine wp_conseq (wp_readi_kernel (by rw [hoff,hcount]; exact hmap)) ?_
  rintro ⟨r,mem⟩ t ⟨rfl,hr,hm⟩
  change r = _ at hr
  change mem = _ at hm
  rw [hcount] at hr hm
  rw [wp_ite]
  refine ⟨fun hne => absurd hr hne,fun _ => ⟨rfl,?_⟩⟩
  change Dirent.decode mem = _
  rw [hm,hoff]
  apply Dirent.decode_congr
  intro i hi
  rw [blit_inside (Nat.zero_le _) (by omega)]
  rfl

theorem wp_dirlookupLoop_first {name : List UInt8} (de : ℕ → Dirent) {k : ℕ}
    (hmap : Mapped s.blk (s.itable dp).d 0 (Dirent.bytes*(k+1)))
    (hsize : Dirent.bytes*(k+1) ≤ (s.itable dp).d.size.toNat)
    (hde : ∀ j ≤ k, (Dirent.decode fun i =>
      content s.blk (s.itable dp).d (Dirent.bytes*j+i)) = de j)
    (hmiss : ∀ j < k, namecmp name (de j).name ≠ 0) (hin : (de k).inum ≠ 0)
    (hcmp : namecmp name (de k).name = 0) {Q : Option (ℕ × ℕ) → Fs → Prop}
    (hQ : wp (iget (s.itable dp).dev (de k).inum.toNat)
      (fun ip t => Q (some (ip,Dirent.bytes*k)) t) E s) {fuel j : ℕ} (hj : j ≤ k)
    (hfuel : k < j+fuel) : wp (dirlookupLoop sb dp name fuel (Dirent.bytes*j)) Q E s := by
  induction fuel generalizing j with
  | zero => omega
  | succ fuel ih =>
    have hle : Dirent.bytes*(j+1) ≤ Dirent.bytes*(k+1) := Nat.mul_le_mul_left _ (by omega)
    have hmul : Dirent.bytes*(j+1) = Dirent.bytes*j+Dirent.bytes := rfl
    have hpos : 0 < Dirent.bytes := by decide
    rw [dirlookupLoop,wp_bind,wp_get]
    simp only
    rw [if_pos (by omega),wp_bind]
    refine wp_conseq (wp_readDirent_mapped (fun p hl hr => hmap p (Nat.zero_le _) (by omega))
      (by omega)) ?_
    rintro d t ⟨rfl,rfl⟩
    rw [hde j hj]
    have hnext : j < k → wp (dirlookupLoop sb dp name fuel (Dirent.bytes*j+Dirent.bytes)) Q E t :=
      fun hlt => ih (j := j+1) (by omega) (by omega)
    rcases Nat.lt_or_eq_of_le hj with hlt | rfl
    · rw [if_neg (hmiss j hlt)]
      split
      · exact hnext hlt
      · exact hnext hlt
    · rw [if_neg hin,if_pos hcmp,wp_bind]
      exact hQ

theorem wp_dirlookup_first {name : List UInt8} (de : ℕ → Dirent) {k : ℕ}
    (htype : (s.itable dp).d.type = T_DIR)
    (hmap : Mapped s.blk (s.itable dp).d 0 (Dirent.bytes*(k+1)))
    (hsize : Dirent.bytes*(k+1) ≤ (s.itable dp).d.size.toNat)
    (hde : ∀ j ≤ k, (Dirent.decode fun i =>
      content s.blk (s.itable dp).d (Dirent.bytes*j+i)) = de j)
    (hmiss : ∀ j < k, namecmp name (de j).name ≠ 0) (hin : (de k).inum ≠ 0)
    (hcmp : namecmp name (de k).name = 0) {Q : Option (ℕ × ℕ) → Fs → Prop}
    (hQ : wp (iget (s.itable dp).dev (de k).inum.toNat)
      (fun ip t => Q (some (ip,Dirent.bytes*k)) t) E s) :
    wp (dirlookup sb dp name) Q E s := by
  rw [dirlookup,wp_bind,wp_get]
  simp only
  rw [if_neg (by simp [htype])]
  refine wp_dirlookupLoop_first de (j := 0) hmap hsize hde hmiss hin hcmp hQ (Nat.zero_le k) ?_
  simp only [rounds,Dirent.bytes_eq] at *
  omega

/-- A slot whose inode number is `inum`, not locked, and a true copy if it is valid. -/
structure Opened (sb : Geometry) (s : Fs) (ip inum : ℕ) : Prop where
  inum_eq : (s.itable ip).inum = inum
  ref_pos : 0 < (s.itable ip).ref
  unlocked : (s.itable ip).locked = false
  cached : (s.itable ip).valid = true → (s.itable ip).d = dinodeOf sb s.blk inum

theorem wp_iget_opened {dev inum : ℕ}
    (hcached : ∀ ip < NINODE, 0 < (s.itable ip).ref → (s.itable ip).inum = inum →
      Opened sb s ip inum)
    (hslot : ∃ ip < NINODE, (s.itable ip).ref = 0)
    (hfree : ∀ ip < NINODE, (s.itable ip).ref = 0 → (s.itable ip).locked = false) :
    wp (iget dev inum) (fun ip t => t.blk = s.blk ∧ Opened sb t ip inum) E s := by
  rw [iget,wp_bind,wp_get]
  split
  case h_1 ip hfound =>
    have hlt := List.mem_range.mp (List.mem_of_find?_eq_some hfound)
    have hip := List.find?_some hfound
    simp only [decide_eq_true_eq] at hip
    have hop := hcached ip hlt hip.1 hip.2.2
    rw [wp_bind,assign,wp_modify,wp_pure]
    refine ⟨rfl,?_⟩
    constructor
    all_goals simp only [setInode,Function.update_self]
    · exact hop.inum_eq
    · have := hop.ref_pos
      omega
    · exact hop.unlocked
    · exact hop.cached
  case h_2 =>
    obtain ⟨k,hk,hk0⟩ := hslot
    split
    case h_1 hnone =>
      rw [List.find?_eq_none] at hnone
      exact absurd (decide_eq_true hk0) (hnone k (List.mem_range.mpr hk))
    case h_2 ip hfound =>
      have hlt := List.mem_range.mp (List.mem_of_find?_eq_some hfound)
      have hip := List.find?_some hfound
      simp only [decide_eq_true_eq] at hip
      rw [wp_bind,assign,wp_modify,wp_pure]
      refine ⟨rfl,?_⟩
      constructor
      all_goals simp only [setInode,Function.update_self]
      · decide
      · exact hfree ip hlt hip
      · exact fun h => absurd h Bool.false_ne_true

theorem wp_ilock_opened {ip inum : ℕ} (h : Opened sb s ip inum)
    (ht : (dinodeOf sb s.blk inum).type ≠ 0) :
    wp (ilock sb ip) (fun _ t => t.blk = s.blk ∧ (t.itable ip).d = dinodeOf sb s.blk inum) E s := by
  have href := h.ref_pos
  rw [ilock,wp_bind,wp_get]
  simp only
  rw [if_neg (by omega),if_neg (by rw [h.unlocked]; decide),wp_ite]
  constructor
  · intro hv
    refine ⟨rfl,?_⟩
    simp only [setInode,Function.update_self]
    exact h.cached hv
  · intro _
    rw [wp_bind,wp_set,h.inum_eq,if_neg ht]
    refine ⟨rfl,?_⟩
    simp only [setInode,Function.update_self]

end Lookup
end Fs

namespace Mkfs

open Fs

def entryName (f : Input) : List UInt8 := (shortname f.arg).take DIRSIZ

/-- The names of the input files differ, also from those of the directory itself. -/
structure Distinct (files : List Input) : Prop where
  nodup : (files.map entryName).Nodup
  not_dot : ∀ f ∈ files, entryName f ≠ dot ∧ entryName f ≠ dotdot

section Names

variable {files : List Input}

theorem nul_free_shortname (f : Input) : (0 : UInt8) ∉ shortname f.arg := by
  have hbase : ∀ c ∈ basename f.arg, c ∈ f.arg := by
    intro c hc
    unfold basename at hc
    split at hc
    · exact List.mem_of_mem_drop hc
    · exact hc
  intro h0
  unfold shortname at h0
  split at h0
  · exact f.nul_free (hbase _ (List.mem_of_mem_tail h0))
  · exact f.nul_free (hbase _ h0)

theorem nul_free_names {e : ℕ × List UInt8} (he : e ∈ names files) : (0 : UInt8) ∉ e.2 := by
  rw [names,List.mem_cons,List.mem_cons,List.mem_mapIdx] at he
  rcases he with rfl | rfl | ⟨i,hi,rfl⟩
  · decide
  · decide
  · exact nul_free_shortname _

theorem getElem?_names (k : ℕ) :
    (names files)[k+2]? = files[k]?.map fun f => (k+2,shortname f.arg) := by
  simp [names]

def entry (files : List Input) (j : ℕ) : Dirent :=
  ⟨UInt16.ofNat ((names files).getD j (0,[])).1,strncpy ((names files).getD j (0,[])).2 DIRSIZ⟩

theorem getD_flatMap_dirent {l : List (ℕ × List UInt8)} {j i : ℕ} (hj : j < l.length)
    (hi : i < Dirent.bytes) : (l.flatMap fun e => dirent e.1 e.2).getD (Dirent.bytes*j+i) 0 =
      (dirent (l.getD j (0,[])).1 (l.getD j (0,[])).2).getD i 0 := by
  induction l generalizing j with
  | nil => exact absurd hj (Nat.not_lt_zero _)
  | cons e l ih =>
    rw [List.flatMap_cons]
    cases j with
    | zero =>
      rw [Nat.mul_zero,Nat.zero_add,List.getD_eq_getElem?_getD,
        List.getElem?_append_left (by rwa [length_dirent]),← List.getD_eq_getElem?_getD]
      rfl
    | succ j =>
      have hsub : Dirent.bytes*(j+1)+i-Dirent.bytes = Dirent.bytes*j+i := by
        rw [Nat.mul_succ]
        omega
      rw [List.getD_eq_getElem?_getD,List.getElem?_append_right (by
        rw [length_dirent,Nat.mul_succ]
        omega),length_dirent,hsub,← List.getD_eq_getElem?_getD,ih (by simpa using hj)]
      rfl

theorem decode_entries {j : ℕ} (hj : j < files.length+2) :
    (Dirent.decode fun i => (entries files).getD (Dirent.bytes*j+i) 0) = entry files j := by
  refine Eq.trans (Dirent.decode_congr ?_) (Dirent.decode_encode (length_strncpy _ _))
  intro i hi
  rw [entries,getD_flatMap_dirent (by rwa [length_names]) hi,dirent,List.getD_eq_getElem?_getD,
    List.getElem?_map,List.getElem?_range hi]
  rfl

/-- Among the entries up to that of file `k`, its name is only in the last. -/
theorem Distinct.namecmp_entry (h : Distinct files) {k : ℕ} {f : Input} (hf : files[k]? = some f)
    {j : ℕ} (hj : j ≤ k+2) : namecmp (entryName f) (entry files j).name = 0 ↔ j = k+2 := by
  have hk : k < files.length := (List.getElem?_eq_some_iff.mp hf).1
  have hlt : j < (names files).length := by
    rw [length_names]
    omega
  have hget : (names files)[j]? = some ((names files).getD j (0,[])) := by
    rw [List.getD_eq_getElem?_getD,List.getElem?_eq_getElem hlt]
    rfl
  have hnul : (0 : UInt8) ∉ entryName f := fun h0 =>
    nul_free_shortname f (List.mem_of_mem_take h0)
  have hcut : (entryName f).take DIRSIZ = entryName f := by simp [entryName]
  rw [namecmp,entry,strncmp_strncpy hnul (nul_free_names (List.mem_of_getElem? hget)),hcut]
  have hmem : f ∈ files := List.mem_of_getElem? hf
  match j with
  | 0 =>
    change entryName f = dot ↔ _
    exact ⟨fun heq => absurd heq (h.not_dot f hmem).1,fun h0 => by omega⟩
  | 1 =>
    change entryName f = dotdot ↔ _
    exact ⟨fun heq => absurd heq (h.not_dot f hmem).2,fun h0 => by omega⟩
  | i+2 =>
    rw [getElem?_names] at hget
    obtain ⟨g,hg,hpair⟩ := Option.map_eq_some_iff.mp hget
    rw [← hpair]
    have hi : (files.map entryName)[i]? = some (entryName g) := by simp [hg]
    have hk' : (files.map entryName)[k]? = some (entryName f) := by simp [hf]
    change entryName f = entryName g ↔ i+2 = k+2
    constructor
    · intro heq
      rw [heq,← hi] at hk'
      rw [List.getElem?_inj (by rwa [List.length_map]) h.nodup] at hk'
      omega
    · intro heq
      obtain rfl : i = k := by omega
      rw [hf] at hg
      rw [Option.some.inj hg]

end Names

/-- A kernel running on the image with the root directory in slot `dp`: slots in use show inodes as
they are on disk, no other one is locked and one is free. -/
structure Mounted (img : ℕ → Block) (s : Fs) (dp : ℕ) : Prop where
  blk : s.blk = img
  root : (s.itable dp).inum = ROOTINO
  held : 0 < (s.itable dp).ref
  loaded : (s.itable dp).d = dinodeOf geometry img ROOTINO
  cached : ∀ ip < NINODE, 0 < (s.itable ip).ref → (s.itable ip).valid = true →
    (s.itable ip).d = dinodeOf geometry img (s.itable ip).inum
  unlocked : ∀ ip, ip ≠ dp → (s.itable ip).locked = false
  slot : ∃ ip < NINODE, (s.itable ip).ref = 0

/-- The size of the inode and all that `readi` returns of it are those of a file. -/
def ReadsAs (sb : Geometry) (bytes : List UInt8) (ip : ℕ) (s : Fs) : Prop :=
  (s.itable ip).d.size.toNat = bytes.length ∧
  ∀ (pagetable : ℕ) (mem : Mem) (userDst : Bool) (dst : ℕ) (off n : UInt32) (tr : ℕ → ℕ),
    Vm.Accessible mem pagetable userDst dst n.toNat tr →
    wp (readi sb pagetable mem ip userDst dst off n) (fun r t => t = s ∧
      r.1 = readCount (s.itable ip).d.size off n ∧
      Vm.Stored tr 0 (readCount (s.itable ip).d.size off n)
        (fun i => bytes.getD (off.toNat+i) 0) mem r.2) (fun _ => False) s

def FindsAs (sb : Geometry) (name : List UInt8) (inum : ℕ) (bytes : List UInt8) (dp : ℕ)
    (s : Fs) : Prop :=
  wp (dirlookup sb dp name) (fun r t => ∃ ip off, r = some (ip,off) ∧
    (t.itable ip).inum = inum ∧ wp (ilock sb ip) (fun _ u => ReadsAs sb bytes ip u)
      (fun _ => False) t) (fun _ => False) s

section Format

variable {files : List Input} {blk : ℕ → Block} {s : Fs} {dp : ℕ}

/-- A file of the tree, as it is on the image after the root directory has been rounded up. -/
theorem Laid.file (h : Laid files blk) {k : ℕ} {f : Input} (hf : files[k]? = some f) :
    k+2 < geometry.ninodes ∧ (dinodeOf geometry (rounded blk) (k+2)).type ≠ 0 ∧
      Sized (rounded blk) (dinodeOf geometry (rounded blk) (k+2)) ∧
      fileOf (rounded blk) (dinodeOf geometry (rounded blk) (k+2)) = f.bytes := by
  have htree : tree geometry blk (k+2) = some (fileNode f) := by
    rw [h.tree_eq,treeOf_file,hf]
    rfl
  obtain ⟨hlt,ht,hnode⟩ := tree_some htree
  rw [fileNode,nodeOf,Node.mk.injEq] at hnode
  have hne : k+2 ≠ ROOTINO := by
    unfold ROOTINO
    omega
  have hdin : dinodeOf geometry (rounded blk) (k+2) = dinodeOf geometry blk (k+2) := by
    rw [rounded,dinodeOf_putDinode,Function.update_of_ne hne]
  have hsame : ∀ j b, owner geometry blk (dinodeOf geometry blk) (k+2,j) = some b →
      rounded blk b = blk b := fun j b hp => Laid.rounded_data (h.consistent.own.data hp).1
  have hsized := h.consistent.sized _ hlt ht
  rw [hdin]
  refine ⟨hlt,ht,⟨hsized.size_le,?_⟩,?_⟩
  · intro bn hbn
    rw [ptr_frame hlt ht hsame]
    exact hsized.mapped bn hbn
  · rw [fileOf,content_frame hlt ht hsame]
    exact hnode.2.2.2.2.symm

theorem Laid.entries_eq (h : Laid files blk) {p : ℕ} (hp : p < Dirent.bytes*(files.length+2)) :
    ptr (rounded blk) (dinodeOf geometry (rounded blk) ROOTINO) (slotOf (p/BSIZE)) ≠ 0 ∧
      content (rounded blk) (dinodeOf geometry (rounded blk) ROOTINO) p =
        (entries files).getD p 0 := by
  have hroot : ROOTINO < geometry.ninodes := by decide
  have ht := h.root_type
  have hsized := h.consistent.sized ROOTINO hroot ht
  have hsize := h.root_size
  have hptr := hsized.ptr_ne_zero (p := p) (by omega)
  have hown := owner_eq_some.mpr ⟨hroot,ht,hptr,rfl⟩
  refine ⟨by rwa [h.rounded_ptr],?_⟩
  rw [content,h.rounded_ptr,if_neg hptr,Laid.rounded_data (h.consistent.own.data hown).1,
    ← h.root.2,List.getD_eq_getElem?_getD,getElem?_fileOf,if_pos (by omega),Option.getD_some,content,
    if_neg hptr]

theorem readsAs_of_file {sb : Geometry} {f : Input} {ip : ℕ}
    (hsized : Sized s.blk (s.itable ip).d) (hfile : fileOf s.blk (s.itable ip).d = f.bytes) :
    ReadsAs sb f.bytes ip s := by
  have hlen : (s.itable ip).d.size.toNat = f.bytes.length := by rw [← hfile,length_fileOf]
  refine ⟨hlen,?_⟩
  intro pagetable mem userDst dst off n tr hacc
  refine wp_conseq (wp_readi_accessible hsized hacc) ?_
  rintro r t ⟨rfl,hr,hst⟩
  refine ⟨rfl,hr,?_,hst.elsewhere⟩
  intro i hi
  have hin : off.toNat+i < (t.itable ip).d.size.toNat := by
    by_cases hbad : (t.itable ip).d.size < off ∨ off+n < off
    · rw [readCount,if_pos hbad] at hi
      omega
    · have := readCount_le hbad
      omega
  rw [hst.at_tr i hi,← hfile,List.getD_eq_getElem?_getD,getElem?_fileOf,if_pos hin]
  rfl

/-- The lookup of a file's name in a mounted image, from the entries to the bytes. -/
theorem Laid.findsAs (h : Laid files blk) (hd : Distinct files) (hn : files.length < NINODES-1)
    {k : ℕ} {f : Input} (hf : files[k]? = some f) (hm : Mounted (rounded blk) s dp) :
    FindsAs geometry (entryName f) (k+2) f.bytes dp s := by
  have hk : k < files.length := (List.getElem?_eq_some_iff.mp hf).1
  have hinum : (entry files (k+2)).inum.toNat = k+2 := by
    have hget : (names files).getD (k+2) (0,[]) = (k+2,shortname f.arg) := by
      rw [List.getD_eq_getElem?_getD,getElem?_names,hf]
      rfl
    rw [entry,hget]
    apply UInt16.toNat_ofNat_of_lt'
    change k+2 < 65536
    unfold NINODES at hn
    omega
  have hne : (entry files (k+2)).inum ≠ 0 := by
    intro h0
    rw [h0] at hinum
    exact absurd hinum (by simp)
  have hsize : Dirent.bytes*(k+2+1) ≤ Dirent.bytes*(files.length+2) :=
    Nat.mul_le_mul_left _ (by omega)
  have hrounded := h.rounded_size hn
  obtain ⟨-,htype,hsized,hfile⟩ := h.file hf
  have htable : ∀ ip < NINODE, 0 < (s.itable ip).ref → (s.itable ip).inum = k+2 →
      Opened geometry s ip (k+2) := by
    intro ip hip href hi
    have hdp : ip ≠ dp := by
      rintro rfl
      rw [hm.root] at hi
      unfold ROOTINO at hi
      omega
    refine ⟨hi,href,hm.unlocked ip hdp,fun hv => ?_⟩
    rw [hm.cached ip hip href hv,hi,hm.blk]
  refine wp_dirlookup_first (entry files) (k := k+2) ?_ ?_ ?_ ?_ ?_ hne
    ((hd.namecmp_entry hf le_rfl).mpr rfl) ?_
  · rw [hm.loaded,Laid.rounded_root]
    exact h.root.1
  · intro p _ hp
    rw [hm.loaded,hm.blk]
    exact (h.entries_eq (by omega)).1
  · rw [hm.loaded,hrounded]
    simp only [Dirent.bytes_eq] at *
    unfold BSIZE
    omega
  · intro j hj
    rw [← decode_entries (by omega)]
    apply Dirent.decode_congr
    intro i hi
    rw [hm.loaded,hm.blk]
    refine (h.entries_eq ?_).2
    simp only [Dirent.bytes_eq] at *
    omega
  · intro j hj hcmp
    exact absurd ((hd.namecmp_entry hf hj.le).mp hcmp) (by omega)
  · rw [hinum]
    refine wp_conseq (wp_iget_opened htable hm.slot fun ip _ h0 => hm.unlocked ip ?_) ?_
    · rintro rfl
      exact absurd hm.held (by omega)
    · rintro ip t ⟨hblk,hop⟩
      refine ⟨ip,_,rfl,hop.inum_eq,?_⟩
      rw [hm.blk] at hblk
      refine wp_conseq (wp_ilock_opened hop (by rwa [hblk])) ?_
      rintro _ u ⟨hblk',hdin⟩
      rw [hblk] at hblk' hdin
      exact readsAs_of_file (by rw [hblk',hdin]; exact hsized) (by rw [hblk',hdin]; exact hfile)

end Format

/-- Acceptable files get an image. On every image of files with different names, a kernel finds
each name and reads the size and the bytes of the file. -/
theorem mkfs_kernel_agree (files : List Input) (hn : files.length < NINODES-1)
    (hd : Distinct files) : (Accepted files → (image files).isSome) ∧
    ∀ img, image files = some img → ∀ k f, files[k]? = some f → ∀ s dp, Mounted img s dp →
      FindsAs geometry (entryName f) (k+2) f.bytes dp s := by
  refine ⟨image_isSome hn,?_⟩
  intro img himg k f hf s dp hm
  obtain ⟨blk,hlaid,rfl⟩ := image_laid hn himg
  exact hlaid.findsAs hd hn hf hm

def booted (img : ℕ → Block) : Fs :=
  {opened img ROOTINO (dinodeOf geometry img ROOTINO) with
    itable := fun k => if k = 0 then ⟨ROOTDEV,ROOTINO,1,true,true,dinodeOf geometry img ROOTINO⟩
      else ⟨0,0,0,false,false,Dinode.zero⟩ }

theorem booted_mounted (img : ℕ → Block) : Mounted img (booted img) 0 where
  blk := rfl
  root := rfl
  held := by simp [booted]
  loaded := rfl
  cached := by
    intro ip _ href _
    by_cases hip : ip = 0
    · subst hip
      rfl
    · simp [booted,hip] at href
  unlocked := by
    intro ip hip
    simp [booted,hip]
  slot := ⟨1,by decide,rfl⟩

/-- `user/_cat` with three bytes, read in two pieces. -/
def cat : Input where
  arg := [117,115,101,114,47,95,99,97,116]
  chunks := [[1,2],[3]]
  nul_free := by decide
  chunk_le := by decide

theorem accepted_cat : Accepted [cat] where
  name := by decide
  small := by decide
  room := by decide

theorem mkfs_kernel_agree_cat : ∃ img, image [cat] = some img ∧
    FindsAs geometry [99,97,116] 2 [1,2,3] 0 (booted img) := by
  have h := mkfs_kernel_agree [cat] (by decide) ⟨by decide,by decide⟩
  obtain ⟨img,himg⟩ := Option.isSome_iff_exists.mp (h.1 accepted_cat)
  exact ⟨img,himg,h.2 img himg 0 cat rfl (booted img) 0 (booted_mounted img)⟩

end Mkfs
end Xv6
