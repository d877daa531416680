import Xv6.CopyExact
import Xv6.Pipe
import Xv6.Readi

/-! `fileread` of `kernel/file.c` over the three types of files. The count is an `int` for pipes and
the console and becomes a `uint` for inodes. Copies to the user keep account of the addresses they
store to. -/
namespace Xv6
namespace FileRead

open Bytes Command Vm

structure User where
  mem : Mem
  stores : List ℕ

def copyoutLoop (pagetable : ℕ) : ℕ → User → ℕ → Mem → ℕ → User × Bool
  | 0, u, _, _, _ => (u,true)
  | fuel+1, u, dstva, src, len =>
    if len = 0 then (u,true)
    else
      let va0 := PGROUNDDOWN dstva
      let pa0 := walkaddr u.mem pagetable va0
      if pa0 = 0 then (u,false)
      else
        let n := min (PGSIZE-(dstva-va0)) len
        copyoutLoop pagetable fuel
          ⟨blit u.mem (pa0+(dstva-va0)) n src,u.stores++(List.range n).map (dstva+·)⟩
          ((va0+PGSIZE)%2^64) (fun i => src (n+i)) (len-n)

def copyout (pagetable : ℕ) (u : User) (dstva : ℕ) (src : Mem) (len : ℕ) : User × Bool :=
  copyoutLoop pagetable len u dstva src len

/-- How a wait ends: with a state that passes the test and what is found later, by `killed`, or
not yet. -/
inductive Wait (σ : Type)
  | ready (s : σ) (later : List (Bool × σ))
  | killed (s : σ)
  | asleep

def wait (test : σ → Bool) : σ → List (Bool × σ) → Wait σ
  | s, [] => if test s then .ready s [] else .asleep
  | s, (killed,s')::later =>
    if test s then .ready s ((killed,s')::later)
    else if killed then .killed s
    else wait test s' later

inductive Outcome
  | ret (r : ℤ)
  | asleep
  | panic
  deriving DecidableEq

/-- The copy loop of `piperead` with `rest = n - i` bytes to go. -/
def pipereadLoop (pagetable addr : ℕ) : (rest i : ℕ) → User → Pipes.Pipe → User × Pipes.Pipe × ℕ
  | 0, i, u, pi => (u,pi,i)
  | rest+1, i, u, pi =>
    if pi.nread = pi.nwrite then (u,pi,i)
    else match copyout pagetable u ((addr+i)%2^64) (fun _ => pi.front) 1 with
      | (u,false) => (u,pi.advance,i)
      | (u,true) => pipereadLoop pagetable addr rest (i+1) u pi.advance

def piperead (pagetable : ℕ) (u : User) (pi : Pipes.Pipe) (later : List (Bool × Pipes.Pipe))
    (addr : ℕ) (n : Int32) : Outcome × User :=
  match wait (fun pi => decide (¬ (pi.nread = pi.nwrite ∧ pi.writeopen = true))) pi later with
  | .asleep => (.asleep,u)
  | .killed _ => (.ret (-1),u)
  | .ready pi _ =>
    let (u,_,i) := pipereadLoop pagetable addr n.toInt.toNat 0 u pi
    (.ret i,u)

def INPUT_BUF_SIZE : ℕ := 128

structure Console where
  buf : ℕ → UInt8
  r : UInt32
  w : UInt32

def ctrlD : UInt8 := 4

/-- The loop of `consoleread` with `n` bytes to go, after `i`. -/
def consolereadLoop (pagetable dst : ℕ) :
    (n i : ℕ) → User → Console → List (Bool × Console) → Outcome × User × Console
  | 0, i, u, cons, _ => (.ret i,u,cons)
  | n+1, i, u, cons, later =>
    match wait (fun cons => decide (cons.r ≠ cons.w)) cons later with
    | .asleep => (.asleep,u,cons)
    | .killed cons => (.ret (-1),u,cons)
    | .ready cons later =>
      let c := cons.buf (cons.r.toNat%INPUT_BUF_SIZE)
      if c = ctrlD then
        -- saved for the next call unless it is the first
        if 0 < i then (.ret i,u,cons) else (.ret i,u,{cons with r := cons.r+1})
      else
        let cons := {cons with r := cons.r+1}
        match copyout pagetable u ((dst+i)%2^64) (fun _ => c) 1 with
        | (u,false) => (.ret i,u,cons)
        | (u,true) =>
          if c = newline then (.ret (i+1),u,cons)
          else consolereadLoop pagetable dst n (i+1) u cons later

def consoleread (pagetable : ℕ) (u : User) (cons : Console) (later : List (Bool × Console))
    (dst : ℕ) (n : Int32) : Outcome × User :=
  let (r,u,_) := consolereadLoop pagetable dst n.toInt.toNat 0 u cons later
  (r,u)

def readiLoop (sb : Geometry) (pagetable ip n : ℕ) : ℕ → User → ℕ → ℕ → ℕ → FsM (ℤ × User)
  | 0, u, _, _, tot => return (tot,u)
  | fuel+1, u, dst, off, tot =>
    if tot < n then do
      let addr ← Fs.bmap sb ip (off/BSIZE)
      if addr = 0 then return (tot,u)
      else do
        let data ← Fs.bread addr
        let m := min (n-tot) (BSIZE-off%BSIZE)
        let r := copyout pagetable u dst (fun i => data (off%BSIZE+i)) m
        if r.2 = false then return (-1,r.1)
        else readiLoop sb pagetable ip n fuel r.1 ((dst+m)%2^64) (off+m) (tot+m)
    else return (tot,u)

def readi (sb : Geometry) (pagetable : ℕ) (u : User) (ip dst : ℕ) (off n : UInt32) :
    FsM (ℤ × User) := do
  let size := ((← get).itable ip).d.size
  if size < off ∨ off+n < off then return (0,u)
  else do
    let n := if size < off+n then size-off else n
    readiLoop sb pagetable ip n.toNat n.toNat u dst off.toNat 0

inductive FileType
  | none
  | pipe
  | inode
  | device
  deriving DecidableEq

structure File where
  type : FileType
  readable : Bool
  major : Int16
  off : UInt32
  ip : ℕ

/-- `f->off += r` after a read that returned a positive count. -/
def File.advance (f : File) (r : ℤ) : File :=
  if 0 < r then {f with off := f.off+UInt32.ofNat r.toNat} else f

def NDEV : ℤ := 10

def CONSOLE : ℤ := 1

/-- What a reader of a pipe or of the console finds, at first and each time it is woken. -/
structure Finds where
  pipe : Pipes.Pipe
  pipeLater : List (Bool × Pipes.Pipe)
  cons : Console
  consLater : List (Bool × Console)

def fileread (sb : Geometry) (pagetable : ℕ) (finds : Finds) (u : User) (f : File) (addr : ℕ)
    (n : Int32) : FsM (Outcome × File × User) := do
  if f.readable = false then return (.ret (-1),f,u)
  else match f.type with
    | .pipe =>
      let (r,u) := piperead pagetable u finds.pipe finds.pipeLater addr n
      return (r,f,u)
    | .device =>
      if f.major.toInt < 0 ∨ NDEV ≤ f.major.toInt ∨ f.major.toInt ≠ CONSOLE then
        return (.ret (-1),f,u)
      else
        let (r,u) := consoleread pagetable u finds.cons finds.consLater addr n
        return (r,f,u)
    | .inode => do
      Fs.ilock sb f.ip
      let (r,u) ← readi sb pagetable u f.ip addr f.off n.toUInt32
      Fs.iunlock f.ip
      return (.ret r,f.advance r,u)
    | .none => return (.panic,f,u)

section Models

variable {pagetable addr : ℕ} {u : User} {src : Mem}

/-- Without the account of addresses this is `copyout` with its 64-bit addresses. -/
theorem copyoutLoop_mem {fuel dstva len : ℕ} :
    Uint64.copyoutLoop pagetable fuel u.mem dstva src len =
      ((copyoutLoop pagetable fuel u dstva src len).1.mem,
        (copyoutLoop pagetable fuel u dstva src len).2) := by
  induction fuel generalizing u dstva src len with
  | zero => rfl
  | succ fuel ih =>
    rw [Uint64.copyoutLoop,copyoutLoop]
    by_cases hlen : len = 0
    · simp only [if_pos hlen]
    by_cases hpa : walkaddr u.mem pagetable (PGROUNDDOWN dstva) = 0
    · simp only [if_neg hlen,if_pos hpa]
    · simp only [if_neg hlen,if_neg hpa]
      exact ih (u := ⟨_,_⟩)

/-- A single byte does not get to the next page, so that addresses need not wrap. -/
theorem copyout_byte {dstva : ℕ} : Vm.copyout u.mem pagetable dstva src 1 =
    ((copyout pagetable u dstva src 1).1.mem,(copyout pagetable u dstva src 1).2) := by
  rw [Vm.copyout,Vm.copyoutLoop,copyout,copyoutLoop]
  by_cases hpa : walkaddr u.mem pagetable (PGROUNDDOWN dstva) = 0
  · simp only [if_neg Nat.one_ne_zero,if_pos hpa]
  · simp only [if_neg Nat.one_ne_zero,if_neg hpa]
    rfl

/-- The copy loop is that of the machine of pipes. -/
theorem pipereadLoop_eq {rest i : ℕ} {pi : Pipes.Pipe} :
    (Pipes.pipereadLoop pagetable addr rest i u.mem pi).1 =
      (pipereadLoop pagetable addr rest i u pi).1.mem ∧
    (Pipes.pipereadLoop pagetable addr rest i u.mem pi).2.1 =
      (pipereadLoop pagetable addr rest i u pi).2.1 ∧
    (Pipes.pipereadLoop pagetable addr rest i u.mem pi).2.2.2 =
      (pipereadLoop pagetable addr rest i u pi).2.2 := by
  induction rest generalizing i u pi with
  | zero => exact ⟨rfl,rfl,rfl⟩
  | succ rest ih =>
    rw [Pipes.pipereadLoop,pipereadLoop]
    by_cases hempty : pi.nread = pi.nwrite
    · simp only [if_pos hempty]
      exact ⟨trivial,trivial,trivial⟩
    simp only [if_neg hempty,copyout_byte]
    rcases copyout pagetable u ((addr+i)%2^64) (fun _ => pi.front) 1 with ⟨v,_ | _⟩
    · exact ⟨rfl,rfl,rfl⟩
    · exact ih

/-- `piperead` on a pipe with data, or without writers, is the segment of the machine of pipes that
returns. -/
theorem piperead_segment {s : Pipes.Sys} {p : ℕ} {n : Int32} {later : List (Bool × Pipes.Pipe)}
    (h : ¬ (s.pipe.nread = s.pipe.nwrite ∧ s.pipe.writeopen = true)) (hu : u.mem = s.mem) :
    ∃ (i : ℕ) (ev : List Pipes.Event),
      (piperead pagetable u s.pipe later addr n).1 = .ret i ∧
      (Pipes.piperead s p pagetable addr n.toInt).mem =
        (piperead pagetable u s.pipe later addr n).2.mem ∧
      (Pipes.piperead s p pagetable addr n.toInt).trace = s.trace++ev++[.ret p i] := by
  have hready : wait (fun pi : Pipes.Pipe => decide (¬ (pi.nread = pi.nwrite ∧ pi.writeopen = true)))
      s.pipe later = .ready s.pipe later := by
    cases later <;> simp [wait,h]
  obtain ⟨hmem,-,hi⟩ := @pipereadLoop_eq pagetable addr u n.toInt.toNat 0 s.pipe
  rw [piperead,hready,Pipes.piperead,if_neg h,← hu]
  refine ⟨_,(Pipes.pipereadLoop pagetable addr n.toInt.toNat 0 u.mem s.pipe).2.2.1,rfl,hmem,?_⟩
  rw [← hi]

end Models

/-- Bytes `0` to `k` of the destination have been stored on top of `st`. -/
def Grown (st : List ℕ) (addr k : ℕ) (u : User) : Prop :=
  u.stores = st++(List.range k).map fun i => (addr+i)%2^64

theorem Grown.append {st : List ℕ} {addr k n : ℕ} {u v : User} (h : Grown st addr k u)
    (hv : Grown u.stores ((addr+k)%2^64) n v) : Grown st addr (k+n) v := by
  unfold Grown at *
  rw [hv,h,List.range_add,List.map_append,List.map_map,List.append_assoc]
  congr 2
  apply List.map_congr_left
  intro i _
  simp only [Function.comp_apply]
  omega

theorem copyoutLoop_grown {pagetable fuel dstva len : ℕ} {u : User} {src : Mem}
    (hva : dstva < 2^64) (hfuel : len ≤ fuel) :
    let r := copyoutLoop pagetable fuel u dstva src len
    ∃ k ≤ len, Grown u.stores dstva k r.1 ∧ (r.2 = true → k = len) ∧
      (0 < len → (0 < k ↔ UserPage u.mem pagetable dstva)) := by
  induction fuel generalizing dstva len u src with
  | zero =>
    obtain rfl : len = 0 := by omega
    exact ⟨0,le_rfl,by simp [Grown,copyoutLoop],fun _ => rfl,fun h => absurd h (by omega)⟩
  | succ fuel ih =>
    rw [copyoutLoop]
    by_cases hlen : len = 0
    · subst hlen
      exact ⟨0,le_rfl,by simp [Grown],fun _ => rfl,fun h => absurd h (by omega)⟩
    by_cases hpa : walkaddr u.mem pagetable (PGROUNDDOWN dstva) = 0
    · simp only [if_neg hlen,if_pos hpa]
      refine ⟨0,by omega,by simp [Grown],fun h => absurd h (by decide),fun _ => ?_⟩
      rw [← walkaddr_ne_zero_iff]
      exact iff_of_false (by omega) (not_not.mpr hpa)
    · simp only [if_neg hlen,if_neg hpa,next_page hpa,sub_PGROUNDDOWN]
      have hmod : dstva%PGSIZE < PGSIZE := Nat.mod_lt _ (by decide)
      have hsub := sub_PGROUNDDOWN dstva
      have hle := PGROUNDDOWN_le dstva
      have hmax := (walkaddr_ne_zero_iff.mp hpa).1
      have hbound : MAXVA+2*PGSIZE < 2^64 := by decide
      set n := min (PGSIZE-dstva%PGSIZE) len with hn
      set v : User := ⟨_,u.stores++(List.range n).map (dstva+·)⟩ with hv
      have hfirst : Grown u.stores dstva n v := by
        refine congrArg (u.stores++·) (List.map_congr_left fun i hi => ?_)
        have := List.mem_range.mp hi
        exact (Nat.mod_eq_of_lt (by omega)).symm
      have hacc : 0 < n ↔ UserPage u.mem pagetable dstva :=
        iff_of_true (by omega) (walkaddr_ne_zero_iff.mp hpa)
      obtain ⟨k,hk,hgrow,hok,-⟩ := @ih (PGROUNDDOWN dstva+PGSIZE) (len-n) v
        (fun i => src (n+i)) (by omega) (by omega)
      refine ⟨n+k,by omega,?_,fun h => by have := hok h; omega,fun _ => ?_⟩
      · rcases Nat.eq_zero_or_pos k with rfl | hpos
        · rw [Grown,List.range_zero,List.map_nil,List.append_nil] at hgrow
          rw [Grown,hgrow]
          exact hfirst
        · refine hfirst.append ?_
          rw [show (dstva+n)%2^64 = PGROUNDDOWN dstva+PGSIZE by
            rw [Nat.mod_eq_of_lt (by omega)]; omega]
          exact hgrow
      · rw [← hacc]
        omega

theorem copyout_grown {pagetable dstva len : ℕ} {u : User} {src : Mem} (hva : dstva < 2^64) :
    let r := copyout pagetable u dstva src len
    ∃ k ≤ len, Grown u.stores dstva k r.1 ∧ (r.2 = true → k = len) ∧
      (0 < len → (0 < k ↔ UserPage u.mem pagetable dstva)) :=
  copyoutLoop_grown hva le_rfl

theorem Grown.byte {st : List ℕ} {pagetable addr i : ℕ} {u v : User} {ch : UInt8} {ok : Bool}
    (h : Grown st addr i u)
    (hv : copyout pagetable u ((addr+i)%2^64) (fun _ => ch) 1 = (v,ok)) :
    ∃ k ≤ 1, Grown st addr (i+k) v ∧ (ok = true → k = 1) := by
  obtain ⟨k,hk,hgrow,hok,-⟩ := @copyout_grown pagetable ((addr+i)%2^64) 1 u (fun _ => ch)
    (Nat.mod_lt _ (by decide))
  rw [hv] at hgrow hok
  exact ⟨k,hk,h.append hgrow,hok⟩

theorem pipereadLoop_grown {st : List ℕ} {pagetable addr rest i : ℕ} {u : User} {pi : Pipes.Pipe}
    (h : Grown st addr i u) :
    ∃ k ≤ i+rest, Grown st addr k (pipereadLoop pagetable addr rest i u pi).1 := by
  induction rest generalizing i u pi with
  | zero => exact ⟨i,by omega,h⟩
  | succ rest ih =>
    rw [pipereadLoop]
    by_cases hempty : pi.nread = pi.nwrite
    · rw [if_pos hempty]
      exact ⟨i,by omega,h⟩
    rw [if_neg hempty]
    rcases hcopy : copyout pagetable u ((addr+i)%2^64) (fun _ => pi.front) 1 with ⟨v,ok⟩
    obtain ⟨k,hk,hgrow,hok⟩ := h.byte hcopy
    cases ok with
    | false => exact ⟨i+k,by omega,hgrow⟩
    | true =>
      rw [hok rfl] at hgrow
      obtain ⟨l,hl,hg⟩ := @ih (i+1) v pi.advance hgrow
      exact ⟨l,by omega,hg⟩

theorem consolereadLoop_grown {st : List ℕ} {pagetable dst n i : ℕ} {u : User} {cons : Console}
    {later : List (Bool × Console)} (h : Grown st dst i u) :
    ∃ k ≤ i+n, Grown st dst k (consolereadLoop pagetable dst n i u cons later).2.1 := by
  have hsame : ∃ k ≤ i+n, Grown st dst k u := ⟨i,by omega,h⟩
  induction n generalizing i u cons later with
  | zero => exact hsame
  | succ n ih =>
    rw [consolereadLoop]
    cases wait (fun cons => decide (cons.r ≠ cons.w)) cons later with
    | asleep => exact hsame
    | killed cons => exact hsame
    | ready cons later =>
      simp only
      split
      case isTrue => split <;> exact hsame
      case isFalse =>
        split
        case h_1 v hcopy =>
          obtain ⟨k,hk,hgrow,-⟩ := h.byte hcopy
          exact ⟨i+k,by omega,hgrow⟩
        case h_2 v hcopy =>
          obtain ⟨k,hk,hgrow,hok⟩ := h.byte hcopy
          rw [hok rfl] at hgrow
          split
          · exact ⟨i+1,by omega,hgrow⟩
          · obtain ⟨l,hl,hg⟩ := ih hgrow ⟨i+1,by omega,hgrow⟩
            exact ⟨l,by omega,hg⟩

theorem wp_readiLoop {sb : Geometry} {E : FsPanic → Prop} {s : Fs} {st : List ℕ}
    {pagetable ip addr off n fuel tot : ℕ} {u : User}
    (hmap : Fs.Mapped s.blk (s.itable ip).d off n) (h : Grown st addr tot u) (htot : tot ≤ n)
    (hfuel : n-tot ≤ fuel) :
    wp (readiLoop sb pagetable ip n fuel u ((addr+tot)%2^64) (off+tot) tot) (fun r t => t = s ∧
      ∃ k, tot ≤ k ∧ k ≤ n ∧ Grown st addr k r.2 ∧ (r.1 = n ∧ k = n ∨ r.1 = -1) ∧
        (tot < n → (tot < k ↔ UserPage u.mem pagetable ((addr+tot)%2^64)))) E s := by
  induction fuel generalizing tot u with
  | zero =>
    obtain rfl : tot = n := by omega
    exact ⟨rfl,tot,le_rfl,le_rfl,h,.inl ⟨rfl,rfl⟩,fun h => absurd h (by omega)⟩
  | succ fuel ih =>
    rw [readiLoop]
    by_cases hlt : tot < n
    case neg =>
      obtain rfl : tot = n := by omega
      rw [if_neg hlt]
      exact ⟨rfl,tot,le_rfl,le_rfl,h,.inl ⟨rfl,rfl⟩,fun h => absurd h (by omega)⟩
    have hptr := hmap (off+tot) (by omega) (by omega)
    rw [if_pos hlt,wp_bind]
    apply Fs.wp_bmap_found (Fs.lt_MAXFILE_of_ptr hptr) hptr
    rw [if_neg hptr,wp_bind,Fs.bread,wp_bind,wp_get,wp_pure]
    set m := min (n-tot) (BSIZE-(off+tot)%BSIZE) with hm
    have hmod : (off+tot)%BSIZE < BSIZE := Nat.mod_lt _ (by decide)
    set data := fun i => s.blk (Fs.ptr s.blk (s.itable ip).d (Fs.slotOf ((off+tot)/BSIZE)))
      ((off+tot)%BSIZE+i)
    obtain ⟨k,hk,hgrow,hok,hacc⟩ := @copyout_grown pagetable ((addr+tot)%2^64) m u data
      (Nat.mod_lt _ (by decide))
    set w := copyout pagetable u ((addr+tot)%2^64) data m with hw
    have hnext := h.append hgrow
    have hiff := hacc (by omega)
    by_cases hfail : w.2 = false
    · rw [if_pos hfail]
      refine ⟨rfl,tot+k,by omega,by omega,hnext,.inr rfl,fun _ => ?_⟩
      rw [← hiff]
      omega
    · have hkm := hok (by simpa using hfail)
      rw [hkm] at hnext hiff
      rw [if_neg hfail,show ((addr+tot)%2^64+m)%2^64 = (addr+(tot+m))%2^64 by omega,Nat.add_assoc off]
      refine wp_conseq (ih hnext (by omega) (by omega)) ?_
      rintro r t ⟨rfl,l,hle,hl,hg,hr,-⟩
      refine ⟨rfl,l,by omega,hl,hg,hr,fun _ => ?_⟩
      rw [← hiff]
      omega

theorem wp_readi {sb : Geometry} {E : FsPanic → Prop} {s : Fs} {pagetable ip addr : ℕ}
    {off n : UInt32} {u : User} (hsz : Fs.Sized s.blk (s.itable ip).d) (haddr : addr < 2^64) :
    wp (readi sb pagetable u ip addr off n) (fun r _ =>
      let count := Fs.readCount (s.itable ip).d.size off n
      ∃ k ≤ count, Grown u.stores addr k r.2 ∧ (r.1 = count ∧ k = count ∨ r.1 = -1) ∧
        (0 < count → (0 < k ↔ UserPage u.mem pagetable addr))) E s := by
  have hnone : Grown u.stores addr 0 u := by simp [Grown]
  rw [readi,wp_bind,wp_get]
  by_cases hbad : (s.itable ip).d.size < off ∨ off+n < off
  · have hcount : Fs.readCount (s.itable ip).d.size off n = 0 := if_pos hbad
    simp only [if_pos hbad,hcount]
    exact ⟨0,le_rfl,hnone,.inl ⟨rfl,rfl⟩,fun h => absurd h (by omega)⟩
  · simp only [if_neg hbad,Fs.toNat_readCount hbad]
    have hloop := @wp_readiLoop sb E s u.stores pagetable ip addr off.toNat _
      (Fs.readCount (s.itable ip).d.size off n) 0 u (hsz.readable off n) hnone (Nat.zero_le _)
      (by omega)
    rw [Nat.add_zero,Nat.add_zero,Nat.mod_eq_of_lt haddr] at hloop
    refine wp_conseq hloop ?_
    rintro r t ⟨-,k,-,hk,hg,hr,hacc⟩
    exact ⟨k,hk,hg,hr,hacc⟩

theorem toInt_eq_cond (n : Int32) : n.toInt =
    if 2*n.toUInt32.toNat < 2^32 then (n.toUInt32.toNat : ℤ) else n.toUInt32.toNat-(2^32 : ℕ) :=
  BitVec.toInt_eq_toNat_cond n.toBitVec

theorem readCount_le_of_nonneg {size off : UInt32} {n : Int32} (hn : 0 ≤ n.toInt) :
    Fs.readCount size off n.toUInt32 ≤ n.toInt.toNat := by
  have hlt := n.toUInt32.toNat_lt
  rw [toInt_eq_cond] at hn ⊢
  rw [Fs.readCount]
  split at hn <;> split <;> omega

theorem readCount_pos_of_neg {size off : UInt32} {n : Int32} (hn : n.toInt < 0) :
    0 < Fs.readCount size off n.toUInt32 ↔ (off.toNat : ℤ) < -n.toInt ∧ off < size := by
  have hoff := off.toNat_lt
  have hlt := n.toUInt32.toNat_lt
  have hwrap : off+n.toUInt32 < off ↔ 2^32 ≤ off.toNat+n.toUInt32.toNat := by
    rw [UInt32.lt_iff_toNat_lt,UInt32.toNat_add]
    omega
  have hcond := toInt_eq_cond n
  split at hcond
  case isTrue => omega
  case isFalse =>
    simp only [Fs.readCount,hwrap,UInt32.lt_iff_toNat_lt]
    split <;> omega

def lockedDinode (sb : Geometry) (s : Fs) (ip : ℕ) : Dinode :=
  if (s.itable ip).valid then (s.itable ip).d else dinodeOf sb s.blk (s.itable ip).inum

theorem wp_ilock_any {sb : Geometry} {s : Fs} {ip : ℕ} :
    wp (Fs.ilock sb ip) (fun _ t => t.blk = s.blk ∧ (t.itable ip).d = lockedDinode sb s ip)
      (fun _ => True) s := by
  rw [Fs.ilock,wp_bind,wp_get]
  simp only [wp_ite,lockedDinode]
  refine ⟨fun _ => trivial,fun _ => ⟨fun _ => trivial,fun _ => ⟨fun hv => ?_,fun hv => ?_⟩⟩⟩
  · rw [if_pos hv]
    exact ⟨rfl,by simp [Fs.setInode]⟩
  · rw [if_neg hv,wp_bind,wp_set,wp_ite]
    exact ⟨fun _ => trivial,fun _ => ⟨rfl,by simp [Fs.setInode]⟩⟩

/-- At most `max(n, 0)` bytes are stored, inside the buffer, none for a negative `n`, and only the
offset of an inode moves, by what is returned. -/
structure Bounded (f f' : File) (addr : ℕ) (n : Int32) (out : Outcome) (u u' : User) : Prop where
  stores : ∃ new, u'.stores = u.stores++new ∧ new.length ≤ n.toInt.toNat ∧
    (∀ a ∈ new, ∃ i < n.toInt.toNat, a = (addr+i)%2^64) ∧ (n.toInt < 0 → new = [])
  off : f'.off.toNat = f.off.toNat+
    (if f.type = .inode then match out with | .ret r => r.toNat | _ => 0 else 0)

/-- A negative count that `readi` takes for a large one. -/
def TakenAsUnsigned (sb : Geometry) (s : Fs) (pagetable : ℕ) (u : User) (f : File) (addr : ℕ)
    (n : Int32) : Prop :=
  f.readable = true ∧ f.type = .inode ∧ n.toInt < 0 ∧ (f.off.toNat : ℤ) < -n.toInt ∧
    f.off < (lockedDinode sb s f.ip).size ∧ UserPage u.mem pagetable addr

theorem Grown.stores_bounded {addr k : ℕ} {n : Int32} {u u' : User} (h : Grown u.stores addr k u')
    (hk : k ≤ n.toInt.toNat) :
    ∃ new, u'.stores = u.stores++new ∧ new.length ≤ n.toInt.toNat ∧
      (∀ a ∈ new, ∃ i < n.toInt.toNat, a = (addr+i)%2^64) ∧ (n.toInt < 0 → new = []) := by
  refine ⟨_,h,by simpa using hk,?_,fun hn => ?_⟩
  · intro a ha
    obtain ⟨i,hi,rfl⟩ := List.mem_map.mp ha
    exact ⟨i,(List.mem_range.mp hi).trans_le hk,rfl⟩
  · obtain rfl : k = 0 := by omega
    rfl

theorem Grown.bounded {f : File} {addr k : ℕ} {n : Int32} {out : Outcome} {u u' : User}
    (h : Grown u.stores addr k u') (hk : k ≤ n.toInt.toNat)
    (hout : f.type = .inode → ∀ r, out = .ret r → r ≤ 0) : Bounded f f addr n out u u' := by
  refine ⟨h.stores_bounded hk,?_⟩
  by_cases hf : f.type = .inode
  · cases out with
    | ret r =>
      have := hout hf r rfl
      simp only [if_pos hf]
      omega
    | asleep => simp
    | panic => simp
  · rw [if_neg hf]
    rfl

theorem piperead_grown {pagetable addr : ℕ} {u : User} {pi : Pipes.Pipe}
    {later : List (Bool × Pipes.Pipe)} {n : Int32} :
    ∃ k ≤ n.toInt.toNat, Grown u.stores addr k (piperead pagetable u pi later addr n).2 := by
  have hnone : Grown u.stores addr 0 u := by simp [Grown]
  unfold piperead
  split
  · exact ⟨0,by omega,hnone⟩
  · exact ⟨0,by omega,hnone⟩
  · obtain ⟨k,hk,hg⟩ := @pipereadLoop_grown _ pagetable _ n.toInt.toNat _ _ _ hnone
    exact ⟨k,by omega,hg⟩

theorem consoleread_grown {pagetable addr : ℕ} {u : User} {cons : Console}
    {later : List (Bool × Console)} {n : Int32} :
    ∃ k ≤ n.toInt.toNat, Grown u.stores addr k (consoleread pagetable u cons later addr n).2 := by
  have hnone : Grown u.stores addr 0 u := by simp [Grown]
  obtain ⟨k,hk,hg⟩ := @consolereadLoop_grown _ pagetable _ n.toInt.toNat _ _ cons later hnone
  exact ⟨k,by omega,hg⟩

theorem advance_off {f : File} {size n : UInt32} {r : ℤ}
    (hr : r = Fs.readCount size f.off n ∨ r = -1) :
    (f.advance r).off.toNat = f.off.toNat+r.toNat := by
  have hsize := size.toNat_lt
  have hle : 0 < r → f.off.toNat+r.toNat ≤ size.toNat := by
    intro hpos
    obtain rfl : r = Fs.readCount size f.off n := hr.resolve_right (by omega)
    have hgood : ¬ (size < f.off ∨ f.off+n < f.off) := by
      intro hbad
      rw [Fs.readCount,if_pos hbad] at hpos
      omega
    exact Fs.readCount_le hgood
  unfold File.advance
  split
  case isTrue hpos =>
    have := hle hpos
    rw [UInt32.toNat_add,UInt32.toNat_ofNat']
    omega
  case isFalse hpos => omega

theorem wp_fileread_inode {sb : Geometry} {s : Fs} {pagetable : ℕ} {finds : Finds} {u : User}
    {f : File} {addr : ℕ} {n : Int32} (hread : f.readable = true) (hf : f.type = .inode)
    (haddr : addr < 2^64) (hsz : Fs.Sized s.blk (lockedDinode sb s f.ip)) :
    wp (fileread sb pagetable finds u f addr n) (fun r _ =>
      Bounded f r.2.1 addr n r.1 u r.2.2 ↔ ¬ TakenAsUnsigned sb s pagetable u f addr n)
      (fun _ => True) s := by
  rw [fileread,if_neg (by simp [hread]),hf]
  simp only
  rw [wp_bind]
  refine wp_conseq wp_ilock_any ?_
  rintro - t ⟨hblk,hd⟩
  rw [wp_bind]
  refine wp_conseq (wp_readi (by rw [hblk,hd]; exact hsz) haddr) ?_
  rintro ⟨r,v⟩ t' ⟨k,hk,hg,hr,hacc⟩
  rw [hd] at hk hr hacc
  simp only [wp_bind]
  refine wp_conseq (wp_true _ _) fun _ _ _ => ?_
  rw [wp_pure]
  have hr' : r = Fs.readCount (lockedDinode sb s f.ip).size f.off n.toUInt32 ∨ r = -1 :=
    hr.imp_left And.left
  have hoff := advance_off hr'
  constructor
  · rintro ⟨⟨new,hnew,-,-,hneg⟩,-⟩ ⟨-,-,hn,hlt,hsize,hpage⟩
    have hpos := (hacc ((readCount_pos_of_neg hn).mpr ⟨hlt,hsize⟩)).mpr hpage
    have hlen := congrArg List.length (hg.symm.trans hnew)
    rw [hneg hn] at hlen
    simp at hlen
    omega
  · intro hno
    have hkn : k ≤ n.toInt.toNat := by
      by_cases hn : n.toInt < 0
      · by_contra hpos
        have hcount : 0 < Fs.readCount (lockedDinode sb s f.ip).size f.off n.toUInt32 := by omega
        obtain ⟨hlt,hsize⟩ := (readCount_pos_of_neg hn).mp hcount
        exact hno ⟨hread,hf,hn,hlt,hsize,(hacc hcount).mp (by omega)⟩
      · exact hk.trans (readCount_le_of_nonneg (by omega))
    refine ⟨hg.stores_bounded hkn,?_⟩
    rw [if_pos hf]
    exact hoff

/-- Reads of pipes, of the console and of inodes keep to the count, except for a negative count on
an inode whose offset is below its absolute value and before the end of the file: then the rest of
the file is stored. -/
theorem fileread_bounded_iff {sb : Geometry} {s t : Fs} {pagetable : ℕ} {finds : Finds}
    {u u' : User} {f f' : File} {addr : ℕ} {n : Int32} {out : Outcome} (haddr : addr < 2^64)
    (hsz : f.type = .inode → Fs.Sized s.blk (lockedDinode sb s f.ip))
    (hrun : (fileread sb pagetable finds u f addr n).run s = .ok ((out,f',u'),t)) :
    Bounded f f' addr n out u u' ↔ ¬ TakenAsUnsigned sb s pagetable u f addr n := by
  have hnone : Grown u.stores addr 0 u := by simp [Grown]
  by_cases hread : f.readable = false
  · rw [fileread,if_pos hread] at hrun
    cases hrun
    refine iff_of_true (hnone.bounded (Nat.zero_le _) ?_) fun h => ?_
    · rintro - r ⟨⟩
      decide
    · rw [h.1] at hread
      cases hread
  have hother : f.type ≠ .inode → ¬ TakenAsUnsigned sb s pagetable u f addr n :=
    fun hf h => hf h.2.1
  cases hf : f.type with
  | inode =>
    have hwp := wp_ok (wp_fileread_inode (by simpa using hread) hf haddr (hsz hf)) hrun
    exact hwp
  | none =>
    rw [fileread,if_neg hread,hf] at hrun
    cases hrun
    exact iff_of_true (hnone.bounded (Nat.zero_le _) fun h => absurd h (by simp [hf]))
      (hother (by simp [hf]))
  | pipe =>
    rw [fileread,if_neg hread,hf] at hrun
    cases hrun
    obtain ⟨k,hk,hg⟩ := @piperead_grown pagetable addr u finds.pipe finds.pipeLater n
    exact iff_of_true (hg.bounded hk fun h => absurd h (by simp [hf])) (hother (by simp [hf]))
  | device =>
    rw [fileread,if_neg hread,hf] at hrun
    simp only at hrun
    split at hrun
    case isTrue =>
      cases hrun
      exact iff_of_true (hnone.bounded (Nat.zero_le _) fun h => absurd h (by simp [hf]))
        (hother (by simp [hf]))
    case isFalse =>
      cases hrun
      obtain ⟨k,hk,hg⟩ := @consoleread_grown pagetable addr u finds.cons finds.consLater n
      exact iff_of_true (hg.bounded hk fun h => absurd h (by simp [hf])) (hother (by simp [hf]))

def oneByte : Fs where
  blk := fun _ _ => 65
  disk := fun _ _ => 65
  lh := []
  outstanding := 0
  itable := fun _ => ⟨1,2,1,false,true,⟨2,0,0,1,1,fun _ => 100⟩⟩

def noInput : Finds := ⟨Pipes.pipealloc fun _ => 0,[],⟨fun _ => 0,0,0⟩,[]⟩

def opened : File := ⟨.inode,true,0,0,0⟩

theorem oneByte_sized : Fs.Sized oneByte.blk (lockedDinode Mkfs.geometry oneByte 0) := by
  refine ⟨by decide,fun bn hbn => ?_⟩
  obtain rfl : bn = 0 := by
    have hsize : (lockedDinode Mkfs.geometry oneByte 0).size.toNat = 1 := rfl
    rw [hsize] at hbn
    unfold BSIZE at hbn
    omega
  decide +kernel

/-- A read of -1 bytes into the only page stores the byte of the file and returns 1. -/
theorem fileread_negative_stores : ∃ f' u' t,
    (fileread Mkfs.geometry 4096 noInput ⟨textPage,[]⟩ opened 0 (-1)).run oneByte =
      .ok ((.ret 1,f',u'),t) ∧ u'.stores = [0] ∧ f'.off = 1 := by
  have heval : (match (fileread Mkfs.geometry 4096 noInput ⟨textPage,[]⟩ opened 0 (-1)).run
      oneByte with
      | .ok ((out,f',u'),_) => some (out,u'.stores,f'.off)
      | .error _ => none) = some (.ret 1,[0],1) := by decide +kernel
  split at heval
  case h_1 out f' u' t hrun =>
    obtain ⟨rfl,hst,hoff⟩ : out = .ret 1 ∧ u'.stores = [0] ∧ f'.off = 1 := by simpa using heval
    exact ⟨f',u',t,hrun,hst,hoff⟩
  case h_2 => cases heval

/-- A read of one byte keeps to the count. -/
theorem fileread_bounded_oneByte : ∃ f' u' t,
    (fileread Mkfs.geometry 4096 noInput ⟨textPage,[]⟩ opened 0 1).run oneByte =
      .ok ((.ret 1,f',u'),t) ∧ Bounded opened f' 0 1 (.ret 1) ⟨textPage,[]⟩ u' := by
  have heval : (match (fileread Mkfs.geometry 4096 noInput ⟨textPage,[]⟩ opened 0 1).run
      oneByte with
      | .ok ((out,_,_),_) => some out
      | .error _ => none) = some (.ret 1) := by decide +kernel
  split at heval
  case h_1 out f' u' t hrun =>
    obtain rfl : out = .ret 1 := by simpa using heval
    refine ⟨f',u',t,hrun,(fileread_bounded_iff (by decide) (fun _ => oneByte_sized) hrun).mpr ?_⟩
    rintro ⟨-,-,hn,-⟩
    exact absurd hn (by decide)
  case h_2 => cases heval

end FileRead
end Xv6
