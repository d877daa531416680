import Xv6.BlockOwner

/-! Room in the log: how many more blocks the commands of the inode layer may log. A command that
finds as much room as it may spend is not stopped by `log_write`. -/
namespace Xv6
namespace Fs

open Bytes Command

/-- A transaction is open and `k` more blocks fit into the log. -/
structure Room (sb : Geometry) (s : Fs) (k : ℕ) : Prop where
  outstanding : 1 ≤ s.outstanding
  logsize : s.lh.length+k ≤ LOGSIZE
  nlog : s.lh.length+k+1 ≤ sb.nlog

theorem Room.mono {sb : Geometry} {s : Fs} {j k : ℕ} (h : Room sb s k) (hj : j ≤ k) :
    Room sb s j := by
  obtain ⟨h1,h2,h3⟩ := h
  exact ⟨h1,by omega,by omega⟩

theorem length_recordBlock_le (lh : List ℕ) (b : ℕ) :
    (recordBlock lh b).length ≤ lh.length+1 := by
  unfold recordBlock
  split <;> simp

/-- The command takes up at most `k` blocks of room, and is not stopped for lack of it. -/
def Spends (sb : Geometry) {α : Type} (k : ℕ) (c : FsM α) : Prop :=
  ∀ s j, Room sb s (j+k) → wp c (fun _ t => Room sb t j) (fun e => ¬ LogFull e) s

namespace Spends

variable {sb : Geometry} {α β : Type} {j k : ℕ}

theorem mono {c : FsM α} (h : Spends sb j c) (hj : j ≤ k) : Spends sb k c :=
  fun s i hs => h s i (hs.mono (by omega))

theorem pure (a : α) : Spends sb 0 (pure a : FsM α) := fun _ _ hs => hs

theorem bind {c : FsM α} {f : α → FsM β} (hc : Spends sb j c) (hf : ∀ a, Spends sb k (f a)) :
    Spends sb (j+k) (c >>= f) := by
  intro s i hs
  rw [wp_bind]
  have hroom : Room sb s (i+k+j) := hs.mono (by omega)
  exact wp_conseq (hc s (i+k) hroom) fun a t ht => hf a t i ht

theorem get : Spends sb 0 (get : FsM Fs) := fun _ _ hs => hs

theorem stop {e : FsPanic} (he : ¬ LogFull e) : Spends sb k (throw e : FsM α) := fun _ _ _ => he

theorem ite {p : Prop} [Decidable p] {c d : FsM α} (hc : p → Spends sb k c)
    (hd : ¬ p → Spends sb k d) : Spends sb k (if p then c else d) := by
  split
  case isTrue h => exact hc h
  case isFalse h => exact hd h

theorem when {p : Prop} [Decidable p] {c : FsM Unit} (hc : Spends sb k c) :
    Spends sb k (when p c) :=
  ite (fun _ => hc) fun _ => (pure ()).mono (Nat.zero_le _)

theorem modify {f : Fs → Fs} (hf : ∀ s, (f s).lh = s.lh ∧ (f s).outstanding = s.outstanding) :
    Spends sb 0 (modify f : FsM PUnit) := by
  intro s i hs
  obtain ⟨hlh,hout⟩ := hf s
  exact ⟨by rw [hout]; exact hs.outstanding,by rw [hlh]; exact hs.logsize,
    by rw [hlh]; exact hs.nlog⟩

end Spends

section Commands

variable {sb : Geometry} {ip : ℕ}

theorem spends_logWrite {b : ℕ} {data : Block} : Spends sb 1 (logWrite sb b data) := by
  intro s j hs
  obtain ⟨hout,hsize,hlog⟩ := hs
  have hlen := length_recordBlock_le s.lh b
  rw [logWrite,wp_bind,wp_get,if_neg (by omega),if_neg (by omega)]
  exact ⟨hout,by change (recordBlock s.lh b).length+j ≤ _; omega,
    by change (recordBlock s.lh b).length+j+1 ≤ _; omega⟩

theorem spends_balloc : Spends sb 2 (balloc sb) := by
  refine (Spends.get.bind (k := 2) fun s => ?_).mono (by omega)
  split
  · exact (Spends.pure 0).mono (by omega)
  · exact spends_logWrite.bind fun _ => spends_logWrite.bind fun _ => .pure _

theorem spends_setAddr {k : Fin (NDIRECT+1)} {addr : ℕ} : Spends sb 0 (setAddr ip k addr) :=
  .modify fun _ => ⟨rfl,rfl⟩

theorem spends_iupdate : Spends sb 1 (iupdate sb ip) :=
  Spends.get.bind fun _ => spends_logWrite

theorem spends_bmapAddr {k : Fin (NDIRECT+1)} : Spends sb 2 (bmapAddr sb ip k) := by
  refine (Spends.get.bind (k := 2) fun s => ?_).mono (by omega)
  refine .ite (fun _ => ?_) fun _ => (Spends.pure _).mono (by omega)
  refine spends_balloc.bind (k := 0) fun addr => ?_
  exact .ite (fun _ => .pure _) fun _ => spends_setAddr.bind fun _ => .pure _

theorem spends_bmapEntry {ind bn : ℕ} : Spends sb 3 (bmapEntry sb ind bn) := by
  have hread : Spends sb 0 (bread ind) := Spends.get.bind fun _ => .pure _
  refine (hread.bind (k := 3) fun data => ?_).mono (by omega)
  refine .ite (fun _ => ?_) fun _ => (Spends.pure _).mono (by omega)
  refine spends_balloc.bind (k := 1) fun addr => ?_
  exact Spends.bind (.when (hread.bind fun _ => spends_logWrite)) fun _ => .pure _

theorem spends_bmap {bn : ℕ} : Spends sb 5 (bmap sb ip bn) := by
  unfold bmap
  split
  · exact spends_bmapAddr.mono (by omega)
  · refine .ite (fun _ => ?_) fun _ => .stop (by simp [LogFull])
    refine spends_bmapAddr.bind (k := 3) fun ind => ?_
    exact .ite (fun _ => (Spends.pure 0).mono (by omega)) fun _ => spends_bmapEntry

section Transfer

variable {pagetable : ℕ} {mem : Mem} {userSrc : Bool} {src : ℕ}

def touched (off n : ℕ) : ℕ := if n = 0 then 0 else (off%BSIZE+n-1)/BSIZE+1

theorem touched_step {off n m : ℕ} (hn : 0 < n) (hm : m = min n (BSIZE-off%BSIZE)) :
    touched (off+m) (n-m)+1 ≤ touched off n := by
  unfold touched
  rw [if_neg (by omega : n ≠ 0)]
  split
  case isTrue => exact Nat.succ_le_succ (Nat.zero_le _)
  case isFalse h =>
    have hend : m = BSIZE-off%BSIZE := by omega
    have hmod : off%BSIZE < BSIZE := Nat.mod_lt _ (by decide)
    unfold BSIZE at *
    omega

theorem spends_writeiLoop (n fuel src off tot : ℕ) : Spends sb (6*touched off (n-tot))
    (writeiLoop sb pagetable mem ip userSrc n fuel src off tot) := by
  induction fuel generalizing src off tot with
  | zero => exact (Spends.pure _).mono (Nat.zero_le _)
  | succ fuel ih =>
    rw [writeiLoop]
    refine .ite (fun hlt => ?_) fun _ => (Spends.pure _).mono (Nat.zero_le _)
    set m := min (n-tot) (BSIZE-off%BSIZE) with hm
    have hstep := touched_step (by omega : 0 < n-tot) hm
    have hnext : n-tot-m = n-(tot+m) := by omega
    rw [hnext] at hstep
    have hrest : ∀ src, Spends sb (6*touched (off+m) (n-(tot+m)))
        (writeiLoop sb pagetable mem ip userSrc n fuel src (off+m) (tot+m)) := fun src => ih src _ _
    have hread : ∀ addr, Spends sb 0 (bread addr) := fun _ => Spends.get.bind fun _ => .pure _
    have hstore : ∀ addr (blk : Block), Spends sb 0 (modify fun s => s.store addr blk) :=
      fun _ _ => .modify fun _ => ⟨rfl,rfl⟩
    refine Spends.mono (j := 5+(0+(1+6*touched (off+m) (n-(tot+m))))) ?_ (by omega)
    refine spends_bmap.bind fun addr => ?_
    refine .ite (fun _ => (Spends.pure _).mono (Nat.zero_le _)) fun _ => ?_
    refine (hread addr).bind fun data => ?_
    refine .ite (fun _ => ?_) fun _ => spends_logWrite.bind fun _ => hrest _
    exact ((hstore _ _).bind fun _ => Spends.pure _).mono (Nat.zero_le _)

/-- The room that `writei` of `n` bytes at `off` may need. -/
def writeiRoom (off n : ℕ) : ℕ := 6*touched off n+1

theorem spends_writei {off n : UInt32} : Spends sb (writeiRoom off.toNat n.toNat)
    (writei sb pagetable mem ip userSrc src off n) := by
  have hassign : ∀ f : Dinode → Dinode, Spends sb 0 (assignDisk ip f) :=
    fun _ => .modify fun _ => ⟨rfl,rfl⟩
  have hloop : Spends sb (6*touched off.toNat n.toNat)
      (writeiLoop sb pagetable mem ip userSrc n.toNat n.toNat src off.toNat 0) :=
    spends_writeiLoop n.toNat n.toNat src off.toNat 0
  refine Spends.mono (j := 0+writeiRoom off.toNat n.toNat) (Spends.get.bind fun s => ?_) (by omega)
  refine .ite (fun _ => (Spends.pure _).mono (Nat.zero_le _)) fun _ => ?_
  refine .ite (fun _ => (Spends.pure _).mono (Nat.zero_le _)) fun _ => hloop.bind fun tot => ?_
  exact (hassign _).bind fun _ => spends_iupdate.bind fun _ => .pure _

end Transfer
end Commands
end Fs
end Xv6
