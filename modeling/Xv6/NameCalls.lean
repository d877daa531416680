import Xv6.Open

/-! The calls of `kernel/sysfile.c` that make and remove names, one after another, by processes with
the working directories `F`. -/
namespace Xv6
namespace Fs

open Command

inductive Call
  | mkdir (path : List UInt8)
  | mknod (path : List UInt8) (major minor : Int16)
  | link (old new : List UInt8)
  | unlink (path : List UInt8)

def Call.exec (sb : Geometry) (cwd : ℕ) : Call → FsM ℤ
  | .mkdir path => make sb cwd path T_DIR 0 0
  | .mknod path major minor => make sb cwd path T_DEVICE major minor
  | .link old new => Fs.link sb cwd old new
  | .unlink path => Fs.unlink sb cwd path

def calls (sb : Geometry) : List (ℕ × Call) → FsM Unit
  | [] => return ()
  | a::as => do
    let _ ← inOp (a.2.exec sb a.1)
    calls sb as

def Expected : FsPanic → Prop
  | .freeingFreeBlock | .ilock | .iunlock | .bmapOutOfRange | .dirlookupNotDir | .unlinkWritei => False
  | _ => True

theorem stops_expected : Stops Expected :=
  ⟨fun e he => by rcases he with rfl | rfl <;> trivial,trivial,trivial,trivial,trivial,trivial⟩

variable {sb : Geometry} {s : Fs} {F : Multiset ℕ}

theorem wp_call (hroot : ROOTINO < sb.ninodes) {cwd : ℕ} (hcwd : cwd ∈ F) (h : Wf sb s F ∅) (c : Call) :
    wp (c.exec sb cwd) (fun _ t => Wf sb t F ∅) Expected s := by
  cases c with
  | mkdir path | mknod path major minor =>
    exact wp_conseq (wp_make stops_expected h hcwd hroot (.inl trivial) (by decide) (by decide))
      fun _ _ hh => hh.1
  | link old new =>
    exact wp_conseq (wp_link stops_expected h hcwd hroot (.inl trivial)) fun _ _ hh => hh.1
  | unlink path =>
    exact wp_conseq (wp_unlink stops_expected h hcwd hroot (.inl trivial) (.inl trivial)) fun _ _ hh => hh.1

theorem wp_calls (hroot : ROOTINO < sb.ninodes) {as : List (ℕ × Call)} (has : ∀ a ∈ as, a.1 ∈ F)
    (h : Wf sb s F ∅) : wp (calls sb as) (fun _ t => Wf sb t F ∅) Expected s := by
  induction as generalizing s with
  | nil => exact h
  | cons a as ih =>
    rw [calls,wp_bind]
    have hcall : wp (inOp (a.2.exec sb a.1)) (fun _ t => Wf sb t F ∅) Expected s := by
      refine wp_inOp trivial fun t hb ht => ?_
      exact wp_conseq (wp_call hroot (has a List.mem_cons_self) (h.congr hb ht) a.2)
        fun _ _ hu _ hbv htv => hu.congr hbv htv
    refine wp_conseq hcall ?_
    exact fun _ t ht => ih (fun b hb => has b (List.mem_cons_of_mem a hb)) ht

/-- Whatever such calls the processes make: every block stays owned by one inode or free, no
reference and no lock is left behind, and no other panic ends a call. -/
theorem calls_consistent (hroot : ROOTINO < sb.ninodes) {as : List (ℕ × Call)} (has : ∀ a ∈ as, a.1 ∈ F)
    (h : Wf sb s F ∅) :
    (∀ t, (calls sb as).run s = .ok ((),t) → Consistent sb t.blk ∧
      ∀ k, (t.itable k).ref = F.count k ∧ (t.itable k).locked = false) ∧
    ∀ e, (calls sb as).run s = .error e → Expected e := by
  have hcalls := wp_calls hroot has h
  refine ⟨fun t ht => ?_,fun e he => wp_error hcalls he⟩
  have hwf := wp_ok hcalls ht
  exact ⟨hwf.disk,fun k => ⟨hwf.refs k,by simpa using (hwf.locks k).not⟩⟩

theorem calls_consistent_mkdir : ∃ t,
    (calls Mkfs.geometry [(0,.mkdir [97]),(0,.unlink [97])]).run Mkfs.rootState = .ok ((),t) ∧
    Consistent Mkfs.geometry t.blk ∧
    ∀ k, (t.itable k).ref = ({0} : Multiset ℕ).count k ∧ (t.itable k).locked = false := by
  obtain ⟨r,t,hrun,-⟩ := exists_run (c := calls Mkfs.geometry [(0,.mkdir [97]),(0,.unlink [97])])
    (Q := fun _ _ => True) (s := Mkfs.rootState) (by decide +kernel)
  exact ⟨t,hrun,(calls_consistent (by decide) (by simp) Mkfs.rootState_wf).1 t hrun⟩

end Fs
end Xv6
