import Xv6.LogRoom
import Xv6.Readi
import Xv6.RootImage
import Xv6.Tree

/-! Files as arrays of bytes. The abstract model is a family of byte lists; `readi` and `writei`
refine reading and overwriting them, for every sequence of calls. -/
namespace Xv6

namespace ByteFile

/-- The arrays of all inodes, and whether the disk they are on has no free block. -/
structure Arrays where
  file : ℕ → List UInt8
  full : Prop

def readLen (l : List UInt8) (off n : ℕ) : ℕ :=
  if l.length < off ∨ 2^32 ≤ off+n then 0 else min n (l.length-off)

def refuses (l : List UInt8) (off n : ℕ) : Prop :=
  l.length < off ∨ 2^32 ≤ off+n ∨ MAXFILE*BSIZE < off+n

/-- Overwriting array `i` at `off` with a leading part of `bs`, all of it unless the disk is
full. -/
inductive WriteStep (A : Arrays) (i off : ℕ) (bs : List UInt8) : ℤ → Arrays → Prop
  | refused (h : refuses (A.file i) off bs.length) : WriteStep A i off bs (-1) A
  | wrote (h : ¬ refuses (A.file i) off bs.length) (k : ℕ) (hk : k ≤ bs.length) (full : Prop)
      (hfull : k = bs.length ∨ full) : WriteStep A i off bs k
        ⟨Function.update A.file i (overwrite (A.file i) off (bs.take k)),full⟩

end ByteFile

namespace Fs

open Bytes Command ByteFile

def arrays (sb : Geometry) (s : Fs) : Arrays where
  file i := if i < sb.ninodes ∧ (dinodeOf sb s.blk i).type ≠ 0 then
    fileOf s.blk (dinodeOf sb s.blk i) else []
  full := Full sb s

section Arrays

variable {sb : Geometry} {s u : Fs} {ip : ℕ}

theorem Loaded.file_eq (h : Loaded sb s ip) :
    (arrays sb s).file (s.itable ip).inum = fileOf s.blk (s.itable ip).d := by
  have ht := h.typed
  rw [h.same] at ht
  simp only [arrays]
  rw [if_pos ⟨h.inum_lt,ht⟩,← h.same]

theorem Loaded.length_file (h : Loaded sb s ip) :
    ((arrays sb s).file (s.itable ip).inum).length = (s.itable ip).d.size.toNat := by
  rw [h.file_eq,length_fileOf]

theorem arrays_file (i : ℕ) :
    (arrays sb s).file i = ((tree sb s.blk i).map Node.bytes).getD [] := by
  simp only [arrays,tree]
  split <;> rfl

theorem Wrote.arrays_eq {src : Mem} {off r : ℕ} (hl : Loaded sb s ip)
    (hoff : off ≤ (s.itable ip).d.size.toNat) (h : Wrote sb ip src off r r s u) :
    (arrays sb u).file = Function.update (arrays sb s).file (s.itable ip).inum
      (overwrite ((arrays sb s).file (s.itable ip).inum) off (srcList src r)) := by
  have hall : min r (max (s.itable ip).d.size.toNat (off+r)-off) = r := by omega
  funext j
  rw [arrays_file,h.tree_eq hoff le_rfl,hall]
  by_cases hj : j = (s.itable ip).inum
  · rw [hj,Function.update_self,Function.update_self,hl.file_eq]
    rfl
  · rw [Function.update_of_ne hj,Function.update_of_ne hj,arrays_file]

end Arrays

/-- A call of `readi` or `writei`, with the memory it reads from or stores to. -/
inductive FileOp
  | readi (ip : ℕ) (mem : Mem) (pagetable : ℕ) (userDst : Bool) (dst : ℕ) (off n : UInt32)
  | writei (ip : ℕ) (mem : Mem) (pagetable : ℕ) (userSrc : Bool) (src : ℕ) (off n : UInt32)

namespace FileOp

def exec (sb : Geometry) : FileOp → FsM (ℤ × Mem)
  | readi ip mem pagetable userDst dst off n => Fs.readi sb pagetable mem ip userDst dst off n
  | writei ip mem pagetable userSrc src off n => do
    let r ← Fs.writei sb pagetable mem ip userSrc src off n
    return (r,mem)

/-- The inode is one of `S` and the memory named by the call is fully accessible. -/
def Ready (S : Set ℕ) : FileOp → Prop
  | readi ip mem pagetable userDst dst _ n =>
    ip ∈ S ∧ ∃ tr, Vm.Accessible mem pagetable userDst dst n.toNat tr
  | writei ip mem pagetable userSrc src _ n =>
    ip ∈ S ∧ ∀ i < n.toNat, Vm.canLoad mem pagetable userSrc (src+i)

def room : FileOp → ℕ
  | readi .. => 0
  | writei _ _ _ _ _ off n => writeiRoom off.toNat n.toNat

end FileOp

def execAll (sb : Geometry) : List FileOp → FsM (List (ℤ × Mem))
  | [] => return []
  | op::ops => do
    let r ← op.exec sb
    let rs ← execAll sb ops
    return r::rs

inductive ArrayStep (inum : ℕ → ℕ) (A : Arrays) : FileOp → ℤ × Mem → Arrays → Prop
  | read {ip mem pagetable userDst dst} {off n : UInt32} {r : ℤ} {mem' : Mem}
      (hr : r = readLen (A.file (inum ip)) off.toNat n.toNat)
      (hmem : ∀ tr, Vm.Accessible mem pagetable userDst dst n.toNat tr →
        Vm.Stored tr 0 (readLen (A.file (inum ip)) off.toNat n.toNat)
          (fun i => (A.file (inum ip)).getD (off.toNat+i) 0) mem mem') :
      ArrayStep inum A (.readi ip mem pagetable userDst dst off n) (r,mem') A
  | write {ip mem pagetable userSrc src} {off n : UInt32} {r : ℤ} {B : Arrays}
      (h : WriteStep A (inum ip) off.toNat
        (srcList (srcBytes mem pagetable userSrc src) n.toNat) r B) :
      ArrayStep inum A (.writei ip mem pagetable userSrc src off n) (r,mem) B

inductive ArrayRun (inum : ℕ → ℕ) : Arrays → List FileOp → List (ℤ × Mem) → Arrays → Prop
  | nil {A} : ArrayRun inum A [] [] A
  | cons {A op r B ops rs C} (h : ArrayStep inum A op r B) (hs : ArrayRun inum B ops rs C) :
      ArrayRun inum A (op::ops) (r::rs) C

/-- The slots of `S` hold different inodes, each loaded. -/
structure OpenSlots (sb : Geometry) (s : Fs) (S : Set ℕ) : Prop where
  loaded : ∀ ip ∈ S, Loaded sb s ip
  inj : ∀ ip ∈ S, ∀ jp ∈ S, (s.itable ip).inum = (s.itable jp).inum → ip = jp

section Refinement

variable {sb : Geometry} {s : Fs} {S : Set ℕ} {ip : ℕ}

theorem refuses_iff_badRange (hl : Loaded sb s ip) (off n : UInt32) :
    refuses ((arrays sb s).file (s.itable ip).inum) off.toNat n.toNat ↔
      BadRange (s.itable ip).d.size off n := by
  have h1 := off.toNat_lt
  have h2 := n.toNat_lt
  unfold refuses BadRange
  rw [hl.length_file,UInt32.lt_iff_toNat_lt,UInt32.lt_iff_toNat_lt,UInt32.toNat_add]
  omega

theorem readLen_eq_readCount (hl : Loaded sb s ip) (off n : UInt32) :
    readLen ((arrays sb s).file (s.itable ip).inum) off.toNat n.toNat =
      readCount (s.itable ip).d.size off n := by
  have h1 := off.toNat_lt
  have h2 := n.toNat_lt
  have hiff : ((s.itable ip).d.size.toNat < off.toNat ∨ 2^32 ≤ off.toNat+n.toNat) ↔
      ((s.itable ip).d.size < off ∨ off+n < off) := by
    rw [UInt32.lt_iff_toNat_lt,UInt32.lt_iff_toNat_lt,UInt32.toNat_add]
    omega
  unfold readLen readCount
  rw [hl.length_file]
  simp only [hiff]

theorem OpenSlots.of_wrote {src : Mem} {off r tot : ℕ} {u : Fs} (h : OpenSlots sb s S)
    (hip : ip ∈ S) (hw : Wrote sb ip src off r tot s u) : OpenSlots sb u S ∧
      ∀ jp, (u.itable jp).inum = (s.itable jp).inum := by
  obtain ⟨z,a,hslot⟩ := hw.slot
  have hinum : ∀ jp, (u.itable jp).inum = (s.itable jp).inum := by
    intro jp
    rw [hslot]
    by_cases hj : jp = ip
    · rw [hj,Function.update_self]
    · rw [Function.update_of_ne hj]
  refine ⟨⟨?_,?_⟩,hinum⟩
  · intro jp hjp
    by_cases hj : jp = ip
    · rw [hj]
      exact hw.loaded
    · have hold := h.loaded jp hjp
      have hne : (s.itable jp).inum ≠ (s.itable ip).inum := fun heq => hj (h.inj jp hjp ip hip heq)
      have htab : u.itable jp = s.itable jp := by rw [hslot,Function.update_of_ne hj]
      constructor
      · rw [htab]
        exact hold.inum_lt
      · rw [htab,hw.dinodes _ hold.inum_lt hne]
        exact hold.same
      · rw [htab]
        exact hold.typed
  · intro jp hjp kp hkp heq
    rw [hinum,hinum] at heq
    exact h.inj jp hjp kp hkp heq

theorem spends_exec_writei {mem : Mem} {pagetable : ℕ} {userSrc : Bool} {src : ℕ}
    {off n : UInt32} : Spends sb (writeiRoom off.toNat n.toNat)
      ((FileOp.writei ip mem pagetable userSrc src off n).exec sb) :=
  spends_writei.bind fun _ => .pure _

theorem wp_exec (hc : Consistent sb s.blk) (ho : OpenSlots sb s S) {op : FileOp}
    (hop : op.Ready S) :
    wp (op.exec sb) (fun r t => ArrayStep (fun ip => (s.itable ip).inum) (arrays sb s) op r
        (arrays sb t) ∧ Consistent sb t.blk ∧ OpenSlots sb t S ∧
        ∀ jp, (t.itable jp).inum = (s.itable jp).inum) LogFull s := by
  cases op with
  | readi ip mem pagetable userDst dst off n =>
    obtain ⟨hip,tr₀,hacc₀⟩ := hop
    have hl := ho.loaded ip hip
    have htyped := hl.typed
    rw [hl.same] at htyped
    have hsz := hc.sized _ hl.inum_lt htyped
    rw [← hl.same] at hsz
    have hbyte : ∀ i < readCount (s.itable ip).d.size off n,
        content s.blk (s.itable ip).d (off.toNat+i) =
          ((arrays sb s).file (s.itable ip).inum).getD (off.toNat+i) 0 := by
      intro i hi
      have hlt : off.toNat+i < (s.itable ip).d.size.toNat := by
        unfold readCount at hi
        split at hi <;> omega
      rw [hl.file_eq,List.getD_eq_getElem?_getD,getElem?_fileOf,if_pos hlt,Option.getD_some]
    have hall : ∀ tr, Vm.Accessible mem pagetable userDst dst n.toNat tr → ∀ i < n.toNat,
        tr i = tr₀ i := by
      intro tr hacc i hi
      cases userDst with
      | false => rw [hacc.kernel rfl i hi,hacc₀.kernel rfl i hi]
      | true =>
        rw [(hacc.user rfl mem (fun _ _ => rfl) i hi).2,(hacc₀.user rfl mem (fun _ _ => rfl) i hi).2]
    have hle : readCount (s.itable ip).d.size off n ≤ n.toNat := by
      unfold readCount
      split <;> omega
    refine wp_conseq (wp_readi_accessible hsz hacc₀) ?_
    rintro ⟨r,mem'⟩ t ⟨rfl,hr,hst⟩
    refine ⟨.read ?_ ?_,hc,ho,fun _ => rfl⟩
    · rw [readLen_eq_readCount hl]
      exact hr
    · intro tr hacc
      rw [readLen_eq_readCount hl]
      constructor
      · intro i hi
        rw [Nat.zero_add,hall tr hacc i (by omega),← hbyte i hi]
        have hh := hst.at_tr i hi
        rwa [Nat.zero_add] at hh
      · intro a ha
        apply hst.elsewhere
        intro i hi
        have hh := ha i hi
        rwa [Nat.zero_add,hall tr hacc i (by omega),← Nat.zero_add i] at hh
  | writei ip mem pagetable userSrc src off n =>
    obtain ⟨hip,hload⟩ := hop
    have hl := ho.loaded ip hip
    have hlen : (srcList (srcBytes mem pagetable userSrc src) n.toNat).length = n.toNat := by
      simp [srcList]
    change wp (writei sb pagetable mem ip userSrc src off n >>= fun r => pure (r,mem)) _ _ s
    rw [wp_bind]
    refine wp_conseq (wp_writei (fun _ h => h) hc hl) ?_
    rintro r u ⟨⟨hbad,rfl,rfl⟩ | ⟨hgood,k,hk,rfl,-,hdone | hfault⟩,-⟩
    · refine ⟨.write (.refused ?_),hc,ho,fun _ => rfl⟩
      rw [hlen,refuses_iff_badRange hl]
      exact hbad
    · have hoff : off.toNat ≤ (s.itable ip).d.size.toNat := by
        have hnot : ¬ (s.itable ip).d.size < off := fun h => hgood (.inl h)
        rw [UInt32.lt_iff_toNat_lt] at hnot
        omega
      obtain ⟨ho',hinum⟩ := ho.of_wrote hip hdone.wrote
      refine ⟨.write ?_,hdone.wrote.consistent,ho',hinum⟩
      have hrefuse : ¬ refuses ((arrays sb s).file (s.itable ip).inum) off.toNat
          (srcList (srcBytes mem pagetable userSrc src) n.toNat).length := by
        rw [hlen,refuses_iff_badRange hl]
        exact hgood
      have hw := WriteStep.wrote hrefuse k (by rw [hlen]; exact hk) (Full sb u)
        (by rw [hlen]; exact hdone.full.imp id fun h => h.2.1)
      rw [take_srcList hk,← hdone.wrote.arrays_eq hl hoff] at hw
      exact hw
    · have hall : stored mem pagetable userSrc src n.toNat off.toNat k =
          piece n.toNat off.toNat k := by
        apply Vm.loadable_eq_self
        intro i hi
        rw [Nat.add_assoc]
        apply hload
        have hlt := hfault.lt
        unfold piece at hi
        omega
      exact absurd hall (ne_of_lt hfault.short)

theorem wp_exec_room (hc : Consistent sb s.blk) (ho : OpenSlots sb s S) {op : FileOp}
    (hop : op.Ready S) {k : ℕ} (hroom : Room sb s (k+op.room)) :
    wp (op.exec sb) (fun _ t => Room sb t k) (fun e => ¬ LogFull e) s := by
  cases op with
  | readi ip mem pagetable userDst dst off n =>
    have hl := ho.loaded ip hop.1
    have hsz := hc.sized _ hl.inum_lt (by rw [← hl.same]; exact hl.typed)
    rw [← hl.same] at hsz
    refine wp_conseq (wp_readi_state hsz) ?_
    rintro r t rfl
    exact hroom
  | writei ip mem pagetable userSrc src off n => exact spends_exec_writei s k hroom

/-- Files refine byte arrays: from a consistent state, any sequence of reads and writes with
accessible memory behaves as on arrays of bytes. It is stopped only by a full log. -/
theorem file_ops_behave_as_byte_arrays (hc : Consistent sb s.blk) (ho : OpenSlots sb s S)
    (ops : List FileOp) (hops : ∀ op ∈ ops, op.Ready S) :
    wp (execAll sb ops) (fun rs t => ArrayRun (fun ip => (s.itable ip).inum) (arrays sb s) ops rs
        (arrays sb t) ∧ Consistent sb t.blk)
      (fun e => LogFull e ∧ ¬ Room sb s (ops.map FileOp.room).sum) s := by
  induction ops generalizing s with
  | nil => exact ⟨.nil,hc⟩
  | cons op ops ih =>
    have hop := hops op (List.mem_cons_self ..)
    rw [execAll,wp_bind,List.map_cons,List.sum_cons]
    have hstep : wp (op.exec sb) (fun r t =>
        (ArrayStep (fun ip => (s.itable ip).inum) (arrays sb s) op r (arrays sb t) ∧
          Consistent sb t.blk ∧ OpenSlots sb t S ∧
          ∀ jp, (t.itable jp).inum = (s.itable jp).inum) ∧
        (Room sb s (op.room+(ops.map FileOp.room).sum) → Room sb t (ops.map FileOp.room).sum))
        (fun e => LogFull e ∧ ¬ Room sb s (op.room+(ops.map FileOp.room).sum)) s := by
      by_cases hroom : Room sb s (op.room+(ops.map FileOp.room).sum)
      · refine wp_mono (wp_and (wp_exec hc ho hop)
          (wp_exec_room hc ho hop (hroom.mono (Nat.add_comm ..).le))) ?_ ?_
        · exact fun r t h => ⟨h.1,fun _ => h.2⟩
        · exact fun e h => absurd h.1 h.2
      · refine wp_mono (wp_exec hc ho hop) ?_ ?_
        · exact fun r t h => ⟨h,fun hr => absurd hr hroom⟩
        · exact fun e h => ⟨h,hroom⟩
    refine wp_conseq hstep ?_
    rintro r t ⟨⟨hstep,hct,hot,hinum⟩,hroom⟩
    rw [wp_bind]
    have hrest := ih hct hot fun op' hop' => hops op' (List.mem_cons_of_mem _ hop')
    refine wp_mono hrest ?_ fun e he => ⟨he.1,fun h => he.2 (hroom h)⟩
    rintro rs u ⟨hrun,hcu⟩
    have heq : (fun ip => (t.itable ip).inum) = fun ip => (s.itable ip).inum := funext hinum
    rw [heq] at hrun
    exact ⟨.cons hstep hrun,hcu⟩

end Refinement

/-- A file system with the root directory loaded in slot 0, inside a transaction. -/
def rootLoaded : Fs where
  blk := Mkfs.rootImage
  disk := Mkfs.rootImage
  lh := []
  outstanding := 1
  itable := fun _ => ⟨ROOTDEV,ROOTINO,1,true,true,Mkfs.rootInode⟩

theorem rootLoaded_loaded (ip : ℕ) : Loaded Mkfs.geometry rootLoaded ip where
  inum_lt := (by decide : 1 < Mkfs.NINODES)
  same := (Mkfs.dinodeOf_rootImage (by decide : 1 < Mkfs.NINODES)).symm
  typed := (by decide : T_DIR ≠ 0)

/-- Six bytes over the end of the first block, and the two in the middle read back. -/
def straddle : List FileOp :=
  [.writei 0 (fun i => UInt8.ofNat i) 0 false 7 1020 6,.readi 0 (fun _ => 0) 0 false 0 1023 2]

/-- The log has room, so both calls return. -/
theorem file_ops_behave_as_byte_arrays_straddle :
    wp (execAll Mkfs.geometry straddle)
      (fun rs t => ArrayRun (fun ip => (rootLoaded.itable ip).inum)
        (arrays Mkfs.geometry rootLoaded) straddle rs (arrays Mkfs.geometry t) ∧
        Consistent Mkfs.geometry t.blk) (fun _ => False) rootLoaded := by
  have hc : Consistent Mkfs.geometry rootLoaded.blk := Mkfs.rootImage_consistent
  have hopen : OpenSlots Mkfs.geometry rootLoaded {0} := by
    refine ⟨fun ip _ => rootLoaded_loaded ip,?_⟩
    rintro ip rfl jp rfl _
    rfl
  have hops : ∀ op ∈ straddle, op.Ready {0} := by
    intro op hop
    rcases List.mem_cons.mp hop with rfl | hop
    · exact ⟨rfl,fun _ _ h => by simp at h⟩
    · rcases List.mem_cons.mp hop with rfl | hop
      · refine ⟨rfl,fun i => i,fun _ i _ => (Nat.zero_add i).symm,fun h => by simp at h,?_⟩
        exact fun i _ j _ h => h
      · exact absurd hop List.not_mem_nil
  have hroom : Room Mkfs.geometry rootLoaded (straddle.map FileOp.room).sum :=
    ⟨by decide,by decide,by decide⟩
  generalize straddle = ops at hops hroom ⊢
  exact wp_mono (file_ops_behave_as_byte_arrays hc hopen ops hops) (fun _ _ h => h)
    fun e h => h.2 hroom

end Fs
end Xv6
