import Xv6.FileArray
import Xv6.InodeOps
import Xv6.Sysfile
import Xv6.Machine

/-! `filewrite` of `kernel/file.c` on one `struct file` of an inode that several calls share. A
long write is a sequence of chunks, each in a transaction of its own; the offset is read and moved
under the lock of the inode. Between the chunks of one call others run. -/
namespace Xv6
namespace FileWrite

open Bytes Command ByteFile Fs

def chunkMax : ℕ := (MAXOPBLOCKS-1-1-2)/2*BSIZE

/-- The arguments of a call: `n` bytes at `addr`, as the caller's page table shows them. -/
structure Request where
  mem : Mem
  pagetable : ℕ
  addr : ℕ
  n : Int32

namespace Request

def length (q : Request) : ℕ := q.n.toInt.toNat

def bytes (q : Request) : List UInt8 :=
  srcList (srcBytes q.mem q.pagetable true q.addr) q.length

def chunk (q : Request) (i : ℕ) : ℕ := min (q.length-i) chunkMax

end Request

/-- The part of `filewrite` under the lock of the inode. -/
def writeLocked (sb : Geometry) (ip : ℕ) (q : Request) (i : ℕ) (off : UInt32) (n : ℕ) : FsM ℤ := do
  ilock sb ip
  let r ← writei sb q.pagetable q.mem ip true (q.addr+i) off (UInt32.ofNat n)
  iunlock ip
  return r

/-- Where a call stands: at the loop's test, before `ilock`, before `end_op` with the result of
`writei`, or behind the return. -/
inductive Call
  | idle
  | test (q : Request) (i : ℕ)
  | lock (q : Request) (i : ℕ)
  | done (q : Request) (i : ℕ) (r : ℤ)
  | ret (q : Request) (r : ℤ)

/-- The file system, `f->off`, the calls, and the chunks written so far with the calls they
belong to. -/
structure Sys where
  fs : Fs
  off : UInt32
  calls : ℕ → Call
  chunks : List (ℕ × List UInt8)

def Sys.setCall (s : Sys) (k : ℕ) (c : Call) : Sys := {s with calls := Function.update s.calls k c}

/-- The steps of call `k`, and what other processes do to the file system. -/
inductive Action
  | filewrite (k : ℕ) (q : Request)
  | test (k : ℕ)
  | write (k : ℕ)
  | endOp (k : ℕ)
  | other (t : Fs)

def step (sb : Geometry) (ip : ℕ) (s : Sys) : Action → Option Sys
  | .filewrite k q =>
    match s.calls k with
    | .idle => some (s.setCall k (.test q 0))
    | _ => none
  | .test k =>
    match s.calls k with
    | .test q i =>
      if (i : ℤ) < q.n.toInt then
        match beginOp.run s.fs with
        | .ok (_,t) => some {s.setCall k (.lock q i) with fs := t}
        | .error _ => none
      else some (s.setCall k (.ret q (if (i : ℤ) = q.n.toInt then q.n.toInt else -1)))
    | _ => none
  | .write k =>
    match s.calls k with
    | .lock q i =>
      match (writeLocked sb ip q i s.off (q.chunk i)).run s.fs with
      | .ok (r,t) => some {
          fs := t
          off := if 0 < r then s.off+UInt32.ofNat r.toNat else s.off
          calls := Function.update s.calls k (.done q i r)
          chunks := if 0 < r then
            s.chunks++[(k,srcList (srcBytes q.mem q.pagetable true (q.addr+i)) r.toNat)]
            else s.chunks}
      | .error _ => none
    | _ => none
  | .endOp k =>
    match s.calls k with
    | .done q i r =>
      match Fs.endOp.run s.fs with
      | .ok (_,t) => some {s.setCall k
          (if r = q.chunk i then .test q (i+r.toNat) else .ret q (-1)) with fs := t}
      | .error _ => none
    | _ => none
  | .other t => some {s with fs := t}

/-- Nobody else writes the file: its inode stays in its slot, with the same bytes. -/
def Leaves (sb : Geometry) (ip : ℕ) (s : Sys) : Action → Prop
  | .other t => (∃ F L,Wf sb t F L ∧ ip ∈ F) ∧ (t.itable ip).inum = (s.fs.itable ip).inum ∧
      ∀ n,tree sb s.fs.blk (s.fs.itable ip).inum = some n →
        ∃ n',tree sb t.blk (s.fs.itable ip).inum = some n' ∧ n'.type = n.type ∧ n'.bytes = n.bytes
  | _ => True

section WriteLocked

variable {sb : Geometry} {ip : ℕ} {q : Request} {s : Fs} {F : Multiset ℕ} {L : Finset ℕ}

/-- A write that reports all its bytes has put them into the file. -/
theorem wp_writeLocked (h : Wf sb s F L) (hip : ip ∈ F) {nd : Node}
    (hnode : tree sb s.blk (s.itable ip).inum = some nd) (htype : nd.type ≠ T_DIR) {i n : ℕ}
    (off : UInt32) (hn : n < 2^32) :
    wp (writeLocked sb ip q i off n) (fun r t => r = n → (∃ L,Wf sb t F L) ∧
      (t.itable ip).inum = (s.itable ip).inum ∧ off.toNat ≤ nd.bytes.length ∧
      off.toNat+n ≤ MAXFILE*BSIZE ∧
      tree sb t.blk (s.itable ip).inum = some {nd with
        bytes := overwrite nd.bytes off.toNat
          (srcList (srcBytes q.mem q.pagetable true (q.addr+i)) n)}) (fun _ => True) s := by
  have hn' : (UInt32.ofNat n).toNat = n := by
    rw [UInt32.toNat_ofNat']
    exact Nat.mod_eq_of_lt hn
  rw [writeLocked,wp_bind]
  refine wp_conseq (wp_ilock trivial h hip (.inl trivial)) ?_
  rintro - t ⟨-,hwf,hkept,hblk⟩
  have hL := Finset.mem_insert_self ip L
  have hinum := hkept.inum ip hip
  rw [← hblk,← hinum] at hnode
  have hnd := hwf.nodeAt_eq hL hnode
  have htype' : (t.itable ip).d.type ≠ T_DIR := by
    rw [← hnd] at htype
    exact htype
  rw [wp_bind]
  refine wp_conseq (wp_writei (fun _ _ => trivial) hwf.disk (hwf.loaded hL)) ?_
  rintro r u ⟨hr,-⟩
  rw [wp_bind]
  by_cases hrn : r = n
  swap
  · refine wp_mono (wp_true _ _) (fun _ _ _ => ?_) fun _ _ => trivial
    rw [wp_pure]
    exact fun h => absurd h hrn
  subst hrn
  rcases hr with ⟨-,hr,-⟩ | ⟨hgood,k,hk,hkn,-,hdone⟩
  · omega
  obtain rfl : k = n := by omega
  have hw : Wrote sb ip (srcBytes q.mem q.pagetable true (q.addr+i)) off.toNat k k t u := by
    rcases hdone with hdone | hfault
    · exact hdone.wrote
    · exact absurd hfault.lt (by omega)
  have hrange : ¬ off+UInt32.ofNat k < off := fun hlt => hgood (.inr (.inl hlt))
  have hmax : ¬ MAXFILE*BSIZE < (off+UInt32.ofNat k).toNat := fun hlt => hgood (.inr (.inr hlt))
  rw [toNat_add_of_not_lt hrange,hn'] at hmax
  have hoff : off.toNat ≤ (t.itable ip).d.size.toNat := by
    have hnot : ¬ (t.itable ip).d.size < off := fun hlt => hgood (.inl hlt)
    rw [UInt32.lt_iff_toNat_lt] at hnot
    omega
  have hall : min k (max (t.itable ip).d.size.toNat (off.toNat+k)-off.toNat) = k := by omega
  have htree := hw.tree_eq hoff le_rfl
  rw [hall] at htree
  obtain ⟨hwfu,hkeptu⟩ := hwf.wrote hip hw (by
    rw [htree]
    apply hwf.range.update
    rintro n hn hdir
    obtain rfl := Option.some.inj hn
    exact absurd hdir htype')
  refine wp_conseq (wp_iunlock hwfu hL) ?_
  rintro - v ⟨hwfv,hkeptv,hblkv⟩
  rw [wp_pure]
  rintro -
  have hfile : nd.bytes = fileOf t.blk (t.itable ip).d := by
    rw [← hnd]
    rfl
  refine ⟨⟨_,hwfv⟩,?_,?_,by omega,?_⟩
  · rw [hkeptv.inum ip hip,hkeptu.inum ip hip,hinum]
  · rw [hfile,length_fileOf]
    exact hoff
  · rw [hblkv,htree,← hinum,Function.update_self,hfile,← hnd]
    rfl

end WriteLocked

def allBytes (l : List (ℕ × List UInt8)) : List UInt8 := l.flatMap Prod.snd

def chunksOf (l : List (ℕ × List UInt8)) (k : ℕ) : List UInt8 := allBytes (l.filter (·.1 = k))

theorem chunksOf_snoc {l : List (ℕ × List UInt8)} {j k : ℕ} {bs : List UInt8} :
    chunksOf (l++[(j,bs)]) k = if j = k then chunksOf l k++bs else chunksOf l k := by
  unfold chunksOf allBytes
  split_ifs with hjk <;> simp [hjk]

theorem length_allBytes {l : List (ℕ × List UInt8)} {K : Finset ℕ} (hK : ∀ c ∈ l,c.1 ∈ K) :
    (allBytes l).length = ∑ k ∈ K,(chunksOf l k).length := by
  induction l using List.reverseRecOn with
  | nil => simp [allBytes,chunksOf]
  | append_singleton l c ih =>
    obtain ⟨j,bs⟩ := c
    have hj : j ∈ K := hK (j,bs) (by simp)
    have hl := ih fun c hc => hK c (List.mem_append_left _ hc)
    have hsum : ∀ k,(chunksOf (l++[(j,bs)]) k).length =
        (chunksOf l k).length+if j = k then bs.length else 0 := by
      intro k
      rw [chunksOf_snoc]
      split_ifs <;> simp
    simp only [hsum,Finset.sum_add_distrib,← hl,Finset.sum_ite_eq,if_pos hj]
    simp [allBytes]

theorem overwrite_append {l a b : List UInt8} {off : ℕ} (h : off ≤ l.length) :
    overwrite (overwrite l off a) (off+a.length) b = overwrite l off (a++b) := by
  have htake : (l.take off++a).length = off+a.length := by simp [h]
  unfold overwrite
  rw [List.take_left' htake,← List.drop_drop (j := off+a.length),List.drop_left' htake,
    List.drop_drop,List.length_append,Nat.add_assoc]
  simp only [List.append_assoc]

def CallOk (cs : List UInt8) : Call → Prop
  | .idle => cs = []
  | .test q i => i ≤ q.length ∧ cs = q.bytes.take i
  | .lock q i => i < q.length ∧ cs = q.bytes.take i
  | .done q i r => 0 < q.n.toInt ∧ r = q.chunk i ∧ i+q.chunk i ≤ q.length ∧
      cs = q.bytes.take (i+q.chunk i)
  | .ret q r => r = q.n.toInt ∧ cs = q.bytes

def Short : Call → Prop
  | .done q i r => 0 < q.n.toInt ∧ r ≠ q.chunk i
  | .ret q r => r ≠ q.n.toInt
  | _ => False

/-- The file is the one at the start with all chunks behind the first offset. -/
structure Good (sb : Geometry) (ip inum off : ℕ) (bytes : List UInt8) (s : Sys) : Prop where
  wf : ∃ F L,Wf sb s.fs F L ∧ ip ∈ F
  inum_eq : (s.fs.itable ip).inum = inum
  node : ∃ nd,tree sb s.fs.blk inum = some nd ∧ nd.type ≠ T_DIR ∧
    nd.bytes = overwrite bytes off (allBytes s.chunks)
  off_eq : s.off.toNat = off+(allBytes s.chunks).length
  start : allBytes s.chunks ≠ [] → off ≤ bytes.length
  small : ∀ c ∈ s.chunks,c.2.length ≤ chunkMax
  calls : ∀ k,CallOk (chunksOf s.chunks k) (s.calls k)
  finite : {k | s.calls k ≠ .idle}.Finite
  owned : ∀ c ∈ s.chunks,s.calls c.1 ≠ .idle

section Runs

variable {sb : Geometry} {ip inum off : ℕ} {bytes : List UInt8} {s t : Sys}

theorem Request.length_bytes (q : Request) : q.bytes.length = q.length := by
  simp [Request.bytes,srcList]

theorem Request.take_chunk (q : Request) {i n : ℕ} (hn : i+n ≤ q.length) :
    q.bytes.take i++srcList (srcBytes q.mem q.pagetable true (q.addr+i)) n =
      q.bytes.take (i+n) := by
  rw [Request.bytes,take_srcList (by omega),take_srcList hn,srcList,srcList,srcList,List.range_add,
    List.map_append,List.map_map]
  refine congrArg _ (List.map_congr_left fun j _ => ?_)
  simp only [srcBytes,Function.comp_apply,Nat.add_assoc]

namespace Good

theorem setCall (h : Good sb ip inum off bytes s) {k : ℕ} {c : Call}
    (hc : CallOk (chunksOf s.chunks k) c) (hidle : c ≠ .idle) {t : Fs} (hblk : t.blk = s.fs.blk)
    (htab : t.itable = s.fs.itable) : Good sb ip inum off bytes {s.setCall k c with fs := t} where
  wf := by
    obtain ⟨F,L,hwf,hip⟩ := h.wf
    exact ⟨F,L,hwf.congr hblk htab,hip⟩
  inum_eq := by
    rw [htab]
    exact h.inum_eq
  node := by
    rw [hblk]
    exact h.node
  off_eq := h.off_eq
  start := h.start
  small := h.small
  calls j := by
    by_cases hj : j = k
    · subst hj
      simpa [Sys.setCall] using hc
    · simpa [Sys.setCall,Function.update_of_ne hj] using h.calls j
  finite := by
    refine (h.finite.insert k).subset fun j hj => ?_
    by_cases hjk : j = k
    · exact .inl hjk
    · exact .inr (by simpa [Sys.setCall,Function.update_of_ne hjk] using hj)
  owned c' hc' := by
    by_cases hj : c'.1 = k
    · simpa [Sys.setCall,hj] using hidle
    · simpa [Sys.setCall,Function.update_of_ne hj] using h.owned c' hc'

theorem write (h : Good sb ip inum off bytes s) {k i : ℕ} {q : Request} {t : Fs}
    (hk : s.calls k = .lock q i)
    (hrun : (writeLocked sb ip q i s.off (q.chunk i)).run s.fs = .ok ((q.chunk i : ℤ),t)) :
    Good sb ip inum off bytes {
      fs := t
      off := s.off+UInt32.ofNat (q.chunk i)
      calls := Function.update s.calls k (.done q i (q.chunk i))
      chunks := s.chunks++
        [(k,srcList (srcBytes q.mem q.pagetable true (q.addr+i)) (q.chunk i))]} := by
  obtain ⟨F,L,hwf,hip⟩ := h.wf
  obtain ⟨nd,hnode,htype,hbytes⟩ := h.node
  have hcall := h.calls k
  rw [hk] at hcall
  obtain ⟨hi,hcs⟩ := hcall
  have hle : i+q.chunk i ≤ q.length := by
    unfold Request.chunk
    omega
  have hmax : q.chunk i ≤ chunkMax := Nat.min_le_right _ _
  have hpos : 0 < q.chunk i := Nat.lt_min.mpr ⟨by omega,by decide⟩
  have hlen : (srcList (srcBytes q.mem q.pagetable true (q.addr+i)) (q.chunk i)).length =
      q.chunk i := by simp [srcList]
  have hsmall : chunkMax < 2^32 := by decide
  rw [← h.inum_eq] at hnode
  obtain ⟨⟨L',hwf'⟩,hinum,hoff,hend,htree⟩ :=
    wp_ok (wp_writeLocked (q := q) (i := i) (n := q.chunk i) hwf hip hnode htype s.off
      (by omega)) hrun rfl
  rw [h.inum_eq] at hinum htree
  have hofNat : (UInt32.ofNat (q.chunk i)).toNat = q.chunk i := by
    rw [UInt32.toNat_ofNat']
    exact Nat.mod_eq_of_lt (by omega)
  have hfile : MAXFILE*BSIZE < 2^32 := by decide
  have hstart : off ≤ bytes.length := by
    by_cases hempty : allBytes s.chunks = []
    · rw [h.off_eq,hbytes,hempty] at hoff
      simp only [overwrite,List.length_nil,Nat.add_zero,List.append_nil,List.take_append_drop]
        at hoff
      exact hoff
    · exact h.start hempty
  have hall : allBytes (s.chunks++[(k,srcList (srcBytes q.mem q.pagetable true (q.addr+i))
      (q.chunk i))]) = allBytes s.chunks++srcList (srcBytes q.mem q.pagetable true (q.addr+i))
        (q.chunk i) := by simp [allBytes]
  exact
    { wf := ⟨F,L',hwf',hip⟩
      inum_eq := hinum
      node := by
        refine ⟨_,htree,htype,?_⟩
        rw [hall,hbytes,h.off_eq,overwrite_append hstart]
      off_eq := by
        rw [hall,List.length_append,hlen,UInt32.toNat_add,hofNat,h.off_eq,
          Nat.mod_eq_of_lt (by rw [← h.off_eq]; omega),Nat.add_assoc]
      start := fun _ => hstart
      small := fun c hc => by
        rcases List.mem_append.mp hc with hc | hc
        · exact h.small c hc
        · rw [List.mem_singleton.mp hc,hlen]
          exact hmax
      calls := fun j => by
        rw [chunksOf_snoc]
        by_cases hj : j = k
        · subst hj
          simp only [if_true,Function.update_self]
          refine ⟨?_,rfl,hle,by rw [hcs,q.take_chunk hle]⟩
          have : q.length = q.n.toInt.toNat := rfl
          omega
        · simp only [if_neg (Ne.symm hj),Function.update_of_ne hj]
          exact h.calls j
      finite := by
        refine (h.finite.insert k).subset fun j hj => ?_
        by_cases hjk : j = k
        · exact .inl hjk
        · exact .inr (by simpa [Function.update_of_ne hjk] using hj)
      owned := fun c hc => by
        by_cases hj : c.1 = k
        · simp [hj]
        · simp only [Function.update_of_ne hj]
          refine h.owned c ((List.mem_append.mp hc).resolve_right fun hc => hj ?_)
          rw [List.mem_singleton.mp hc] }

theorem other (h : Good sb ip inum off bytes s) {t : Fs} (hwf : ∃ F L,Wf sb t F L ∧ ip ∈ F)
    (hinum : (t.itable ip).inum = (s.fs.itable ip).inum)
    (hnode : ∀ n,tree sb s.fs.blk (s.fs.itable ip).inum = some n →
      ∃ n',tree sb t.blk (s.fs.itable ip).inum = some n' ∧ n'.type = n.type ∧
        n'.bytes = n.bytes) : Good sb ip inum off bytes {s with fs := t} :=
  {h with
    wf := hwf
    inum_eq := hinum.trans h.inum_eq
    node := by
      obtain ⟨nd,hnd,htype,hbytes⟩ := h.node
      obtain ⟨nd',hnd',htype',hbytes'⟩ := hnode nd (h.inum_eq ▸ hnd)
      exact ⟨nd',h.inum_eq ▸ hnd',by rwa [htype'],hbytes'.trans hbytes⟩}

end Good

/-- The ends of a transaction leave the blocks and the inodes alone. -/
theorem wp_beginOp (s : Fs) :
    wp beginOp (fun _ t => t.blk = s.blk ∧ t.itable = s.itable) (fun _ => True) s := by
  rw [beginOp,wp_bind,wp_get,wp_ite]
  exact ⟨fun _ => trivial,fun _ => ⟨rfl,rfl⟩⟩

theorem wp_endOp (s : Fs) :
    wp Fs.endOp (fun _ t => t.blk = s.blk ∧ t.itable = s.itable) (fun _ => True) s := by
  rw [Fs.endOp,wp_bind,wp_get,wp_ite]
  exact ⟨fun _ => ⟨rfl,rfl⟩,fun _ => ⟨rfl,rfl⟩⟩

theorem short_step {a : Action} {k : ℕ} (hk : Short (s.calls k)) (hstep : step sb ip s a = some t) :
    Short (t.calls k) := by
  have hkeep : ∀ {j : ℕ} {c : Call},(j = k → Short c) → Short (Function.update s.calls j c k) := by
    intro j c hc
    by_cases hj : k = j
    · subst hj
      simpa using hc rfl
    · rwa [Function.update_of_ne hj]
  cases a with
  | filewrite j q =>
    simp only [step] at hstep
    split at hstep
    · cases hstep
      refine hkeep ?_
      rintro rfl
      simp_all [Short]
    · cases hstep
  | test j =>
    simp only [step] at hstep
    split at hstep
    · have hne : j ≠ k := by
        rintro rfl
        simp_all [Short]
      split_ifs at hstep
      · split at hstep
        · cases hstep
          exact hkeep fun h => absurd h hne
        · cases hstep
      · cases hstep
        exact hkeep fun h => absurd h hne
      · cases hstep
        exact hkeep fun h => absurd h hne
    · cases hstep
  | write j =>
    simp only [step] at hstep
    split at hstep
    · have hne : j ≠ k := by
        rintro rfl
        simp_all [Short]
      split at hstep
      · cases hstep
        exact hkeep fun h => absurd h hne
      · cases hstep
    · cases hstep
  | endOp j =>
    simp only [step] at hstep
    split at hstep
    · rename_i q i r hj
      split at hstep
      · cases hstep
        refine hkeep ?_
        rintro rfl
        rw [hj] at hk
        rw [if_neg hk.2]
        have := hk.1
        change -1 ≠ q.n.toInt
        omega
      · cases hstep
    · cases hstep
  | other t' =>
    simp only [step,Option.some.injEq] at hstep
    subst hstep
    exact hk

/-- A step keeps the file as the chunks say, unless some call comes back short. -/
theorem good_step {a : Action} (h : Good sb ip inum off bytes s ∨ ∃ k,Short (s.calls k))
    (hother : Leaves sb ip s a) (hstep : step sb ip s a = some t) :
    Good sb ip inum off bytes t ∨ ∃ k,Short (t.calls k) := by
  rcases h with h | ⟨k,hk⟩
  · cases a with
    | filewrite k q =>
      simp only [step] at hstep
      split at hstep
      · rename_i hidle
        cases hstep
        have hc := h.calls k
        rw [hidle] at hc
        exact .inl (h.setCall (t := s.fs) (c := .test q 0) ⟨Nat.zero_le _,hc⟩ (by simp) rfl rfl)
      · cases hstep
    | test k =>
      simp only [step] at hstep
      split at hstep
      · rename_i q i hk
        have hc := h.calls k
        rw [hk] at hc
        have hn : q.length = q.n.toInt.toNat := rfl
        have hall : ¬ (i : ℤ) < q.n.toInt → chunksOf s.chunks k = q.bytes := by
          intro hlt
          rw [hc.2,List.take_of_length_le (by rw [q.length_bytes]; omega)]
        split_ifs at hstep with hlt heq
        · split at hstep
          · rename_i u t' hrun
            cases hstep
            obtain ⟨hblk,htab⟩ := wp_ok (a := u) (wp_beginOp s.fs) hrun
            exact .inl (h.setCall (c := .lock q i) ⟨by omega,hc.2⟩ (by simp) hblk htab)
          · cases hstep
        · cases hstep
          exact .inl (h.setCall (t := s.fs) (c := .ret q q.n.toInt) ⟨rfl,hall hlt⟩ (by simp) rfl rfl)
        · cases hstep
          by_cases hneg : -1 = q.n.toInt
          · exact .inl (h.setCall (t := s.fs) (c := .ret q (-1)) ⟨hneg,hall hlt⟩ (by simp) rfl rfl)
          · exact .inr ⟨k,by simpa [Sys.setCall,Short] using hneg⟩
      · cases hstep
    | write k =>
      simp only [step] at hstep
      split at hstep
      · rename_i q i hk
        have hc := h.calls k
        rw [hk] at hc
        split at hstep
        · rename_i r t' hrun
          cases hstep
          by_cases hr : r = q.chunk i
          · subst hr
            have hpos : 0 < q.chunk i := Nat.lt_min.mpr ⟨by have := hc.1; omega,by decide⟩
            have := h.write hk hrun
            left
            simpa only [Int.natCast_pos.mpr hpos,if_true,Int.toNat_natCast] using this
          · refine .inr ⟨k,?_⟩
            have hn : q.length = q.n.toInt.toNat := rfl
            have := hc.1
            simpa [Short] using And.intro (show 0 < q.n.toInt by omega) hr
        · cases hstep
      · cases hstep
    | endOp k =>
      simp only [step] at hstep
      split at hstep
      · rename_i q i r hk
        have hc := h.calls k
        rw [hk] at hc
        split at hstep
        · rename_i u t' hrun
          cases hstep
          obtain ⟨hblk,htab⟩ := wp_ok (a := u) (wp_endOp s.fs) hrun
          obtain ⟨-,hr,hle,hcs⟩ := hc
          rw [if_pos hr,hr,Int.toNat_natCast]
          exact .inl (h.setCall (c := .test q (i+q.chunk i)) ⟨hle,hcs⟩ (by simp) hblk htab)
        · cases hstep
      · cases hstep
    | other t' =>
      simp only [step,Option.some.injEq] at hstep
      subst hstep
      exact .inl (h.other hother.1 hother.2.1 hother.2.2)
  · exact .inr ⟨k,short_step hk hstep⟩

end Runs

end FileWrite
end Xv6
