import Xv6.Fs
import Xv6.Ownership

/-! Ownership of disk blocks: the bitmap marks the metadata and the blocks that pointers of
allocated inodes name, each by one pointer. Rules for the commands of the block layer, and what
an allocation and a release do to ownership. -/
namespace Xv6
namespace Fs

open Bytes Command Ownership

/-- Stops of `log_write`, which no state of the blocks excludes. -/
def LogFull (e : FsPanic) : Prop := e = .tooBigTransaction ∨ e = .logWriteOutsideOfTrans

/-- The state after `log_write` of a buffer holding `data`. -/
def logged (s : Fs) (b : ℕ) (data : Block) : Fs := {s.store b data with lh := recordBlock s.lh b}

section Logged

variable (s : Fs) (b : ℕ) (data : Block)

@[simp] theorem logged_blk : (s.logged b data).blk = Function.update s.blk b data := rfl
@[simp] theorem logged_disk : (s.logged b data).disk = s.disk := rfl
@[simp] theorem logged_itable : (s.logged b data).itable = s.itable := rfl
@[simp] theorem logged_outstanding : (s.logged b data).outstanding = s.outstanding := rfl
@[simp] theorem logged_lh : (s.logged b data).lh = recordBlock s.lh b := rfl

theorem mem_recordBlock {lh : List ℕ} {b c : ℕ} : c ∈ recordBlock lh b ↔ c ∈ lh ∨ c = b := by
  unfold recordBlock
  split
  case isTrue h =>
    constructor
    · exact .inl
    · rintro (hc | rfl)
      · exact hc
      · exact h
  case isFalse h => simp

end Logged

variable {sb : Geometry} {E : FsPanic → Prop} {s : Fs}

theorem wp_logWrite {Q : Unit → Fs → Prop} {b : ℕ} {data : Block} (hE : ∀ e, LogFull e → E e)
    (h : Q () (s.logged b data)) : wp (logWrite sb b data) Q E s := by
  rw [logWrite,wp_bind,wp_get,wp_ite,wp_ite]
  exact ⟨fun _ => hE _ (.inl rfl),fun _ => ⟨fun _ => hE _ (.inr rfl),fun _ => h⟩⟩

theorem isFree_iff {blk : ℕ → Block} {b : ℕ} :
    isFree sb blk b = true ↔ bitOf sb blk b = false := by
  have hlt : b%BPB%8 < 8 := Nat.mod_lt _ (by omega)
  simp only [isFree,decide_eq_true_eq,and_bitMask_eq_zero hlt,bitOf,bitAt]

def taken (sb : Geometry) (s : Fs) (b : ℕ) : Fs :=
  (s.logged (BBLOCK b sb) (setBit (s.blk (BBLOCK b sb)) (b%BPB))).logged b fun _ => 0

def released (sb : Geometry) (s : Fs) (b : ℕ) : Fs :=
  s.logged (BBLOCK b sb) (clearBit (s.blk (BBLOCK b sb)) (b%BPB))

@[simp] theorem taken_itable (b : ℕ) : (taken sb s b).itable = s.itable := rfl
@[simp] theorem released_itable (b : ℕ) : (released sb s b).itable = s.itable := rfl

theorem wp_balloc {Q : ℕ → Fs → Prop} (hE : ∀ e, LogFull e → E e)
    (hfull : (∀ b < sb.size, bitOf sb s.blk b = true) → Q 0 s)
    (htake : ∀ b < sb.size, bitOf sb s.blk b = false → Q b (taken sb s b)) :
    wp (balloc sb) Q E s := by
  rw [balloc,wp_bind,wp_get]
  split
  case h_1 hnone =>
    rw [List.find?_eq_none] at hnone
    apply hfull
    intro b hb
    have hbit := hnone b (List.mem_range.mpr hb)
    rw [isFree_iff] at hbit
    simpa using hbit
  case h_2 b hsome =>
    have hlt : b < sb.size := List.mem_range.mp (List.mem_of_find?_eq_some hsome)
    have hbit := isFree_iff.mp (List.find?_some hsome)
    rw [wp_bind]
    apply wp_logWrite hE
    rw [wp_bind]
    apply wp_logWrite hE
    exact htake b hlt hbit

theorem wp_bfree {Q : Unit → Fs → Prop} {b : ℕ} (hE : ∀ e, LogFull e → E e)
    (hbit : bitOf sb s.blk b = true) (h : Q () (released sb s b)) :
    wp (bfree sb b) Q E s := by
  have hused : ¬ isFree sb s.blk b = true := by rw [isFree_iff,hbit]; simp
  rw [bfree,wp_bind,wp_get,if_neg hused]
  exact wp_logWrite hE h

/-- Pointer `k` of an inode: `addrs[k]` for `k ≤ NDIRECT`, then the entries of the indirect
block; 0 if there is none. -/
def ptr (blk : ℕ → Block) (d : Dinode) (k : ℕ) : ℕ :=
  if h : k < NDIRECT+1 then (d.addrs ⟨k,h⟩).toNat
  else if k < NDIRECT+1+NINDIRECT ∧ d.addrs indirect ≠ 0 then
    entryOf (blk (d.addrs indirect).toNat) (k-(NDIRECT+1))
  else 0

/-- The block named by pointer `k` of inode `i`, if the inode is allocated. -/
def owner (sb : Geometry) (blk : ℕ → Block) (f : ℕ → Dinode) (p : ℕ × ℕ) : Option ℕ :=
  if p.1 < sb.ninodes ∧ (f p.1).type ≠ 0 ∧ ptr blk (f p.1) p.2 ≠ 0 then
    some (ptr blk (f p.1) p.2)
  else none

/-- The bitmap bits set are exactly the metadata blocks and the blocks named by pointers of
allocated inodes, and no block is named twice. -/
def Own (sb : Geometry) (blk : ℕ → Block) (f : ℕ → Dinode) : Prop :=
  Exact (· < nmeta sb) (fun b => b < sb.size ∧ bitOf sb blk b = true) (owner sb blk f)

section Owner

variable {blk blk' : ℕ → Block} {f f' : ℕ → Dinode} {d : Dinode} {i k b : ℕ}

theorem owner_eq_some : owner sb blk f (i,k) = some b ↔
    i < sb.ninodes ∧ (f i).type ≠ 0 ∧ b ≠ 0 ∧ ptr blk (f i) k = b := by
  unfold owner
  split
  case isTrue h =>
    simp only [Option.some.injEq]
    constructor
    · rintro rfl
      exact ⟨h.1,h.2.1,h.2.2,rfl⟩
    · exact fun hh => hh.2.2.2
  case isFalse h =>
    simp only [reduceCtorEq,false_iff]
    rintro ⟨hi,ht,hb,rfl⟩
    exact h ⟨hi,ht,hb⟩

theorem ptr_congr (h : d.addrs indirect ≠ 0 →
    blk' (d.addrs indirect).toNat = blk (d.addrs indirect).toNat) (k : ℕ) :
    ptr blk' d k = ptr blk d k := by
  unfold ptr
  split
  · rfl
  · by_cases hind : d.addrs indirect = 0
    · simp [hind]
    · rw [h hind]

theorem ptr_indirect : ptr blk d NDIRECT = (d.addrs indirect).toNat := by
  have h : NDIRECT < NDIRECT+1 := Nat.lt_succ_self _
  rw [ptr,dif_pos h]
  rfl

theorem Own.data (h : Own sb blk f) (hp : owner sb blk f (i,k) = some b) :
    nmeta sb ≤ b ∧ b < sb.size :=
  ⟨not_lt.mp (h.apart hp),(h.used_of_own hp).1⟩

theorem Own.bit (h : Own sb blk f) (hp : owner sb blk f (i,k) = some b) :
    bitOf sb blk b = true := (h.used_of_own hp).2

theorem owner_indirect (hi : i < sb.ninodes) (ht : (f i).type ≠ 0)
    (hind : (f i).addrs indirect ≠ 0) :
    owner sb blk f (i,NDIRECT) = some ((f i).addrs indirect).toNat := by
  rw [owner_eq_some,ptr_indirect]
  refine ⟨hi,ht,?_,rfl⟩
  intro h0
  exact hind (UInt32.toNat_inj.mp h0)

theorem owner_frame (hsame : ∀ p b, owner sb blk f p = some b → blk' b = blk b) :
    owner sb blk' f = owner sb blk f := by
  funext p
  obtain ⟨i,k⟩ := p
  by_cases hi : i < sb.ninodes ∧ (f i).type ≠ 0
  · have hptr : ptr blk' (f i) k = ptr blk (f i) k := by
      apply ptr_congr
      intro hind
      exact hsame _ _ (owner_indirect hi.1 hi.2 hind)
    simp only [owner,hptr]
  · have h1 : ¬ (i < sb.ninodes ∧ (f i).type ≠ 0 ∧ ptr blk' (f i) k ≠ 0) := fun h => hi ⟨h.1,h.2.1⟩
    have h2 : ¬ (i < sb.ninodes ∧ (f i).type ≠ 0 ∧ ptr blk (f i) k ≠ 0) := fun h => hi ⟨h.1,h.2.1⟩
    simp only [owner,if_neg h1,if_neg h2]

theorem owner_congr (h : ∀ i < sb.ninodes, f' i = f i) : owner sb blk f' = owner sb blk f := by
  funext p
  by_cases hi : p.1 < sb.ninodes
  · simp only [owner,h _ hi]
  · simp [owner,hi]

theorem Own.congr_inodes (h : Own sb blk f) (hf : ∀ i < sb.ninodes, f' i = f i) :
    Own sb blk f' := by
  unfold Own at *
  rwa [owner_congr hf]

end Owner

def named (sb : Geometry) (blk : ℕ → Block) : ℕ × ℕ → Option ℕ := owner sb blk (dinodeOf sb blk)

def Elsewhere (sb : Geometry) (i : ℕ) (s t : Fs) : Prop :=
  ∀ p : ℕ × ℕ, p.1 ≠ i → named sb t.blk p = named sb s.blk p

end Fs
end Xv6
