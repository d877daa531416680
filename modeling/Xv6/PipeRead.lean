import Mathlib.Data.List.GetD
import Xv6.Pipe
import Xv6.Protection

/-! What a reader of a pipe gets. `piperead` takes a byte out of the buffer before it knows that
`copyout` can store it, so a byte for an unmapped address is lost. -/
namespace Xv6.Pipes

open Bytes Vm

/-- The physical address behind byte `i` of the destination. -/
def target (mem : Mem) (pagetable addr i : ℕ) : ℕ := frameByte mem pagetable ((addr+i)%2^64)

def Reached (mem : Mem) (pagetable addr i : ℕ) : Prop :=
  walkaddr mem pagetable (PGROUNDDOWN ((addr+i)%2^64)) ≠ 0

instance (mem : Mem) (pagetable addr i : ℕ) : Decidable (Reached mem pagetable addr i) :=
  inferInstanceAs (Decidable (_ ≠ _))

/-- A read that returned `r` has removed `max r 0` bytes, and they are now at the destination. -/
def Delivered (s t : Sys) (pagetable addr : ℕ) (r : ℤ) : Prop :=
  ∃ bytes : List UInt8, (bytes.length : ℤ) = max r 0 ∧
    s.pipe.contents = bytes++t.pipe.contents ∧
    ∀ i < bytes.length, copyinByte t.mem pagetable (addr+i) = bytes[i]?

def SameTable (mem : Mem) (pagetable : ℕ) (mem' : Mem) : Prop :=
  ∀ a, (∀ va, walkaddr mem pagetable va ≠ 0 → a-a%PGSIZE ≠ walkaddr mem pagetable va) →
    mem' a = mem a

theorem copyoutByte (mem : Mem) (pagetable va : ℕ) (ch : UInt8) :
    copyout mem pagetable va (fun _ => ch) 1 =
      if walkaddr mem pagetable (PGROUNDDOWN va) = 0 then (mem,false)
      else (blit mem (frameByte mem pagetable va) 1 fun _ => ch,true) := by
  have hoff : va-PGROUNDDOWN va = va%PGSIZE := by
    have h := Nat.div_add_mod' va PGSIZE
    unfold PGROUNDDOWN
    omega
  have hone : min (PGSIZE-va%PGSIZE) 1 = 1 := by
    have hmod : va%PGSIZE < PGSIZE := Nat.mod_lt _ (by decide)
    omega
  simp only [copyout,copyoutLoop,hoff,hone,frameByte]
  simp

theorem copyinByte_of_mapped {mem : Mem} {pagetable va : ℕ}
    (h : walkaddr mem pagetable (PGROUNDDOWN (va%2^64)) ≠ 0) :
    copyinByte mem pagetable va = some (mem (frameByte mem pagetable (va%2^64))) := by
  have hload : canLoad mem pagetable true (va%2^64) := fun _ => h
  have hone : loadable mem pagetable true (va%2^64) 1 = 1 := by simp only [loadable,if_pos hload]
  rw [copyinByte,copyin,copyinLoop_eq le_rfl,hone]
  simp [blit,loadByte,frameByte]

section Loop

variable {mem : Mem} {pagetable addr : ℕ}

theorem SameTable.store {mem' : Mem} (h : SameTable mem pagetable mem') {i : ℕ} (ch : UInt8)
    (hi : Reached mem pagetable addr i) :
    SameTable mem pagetable (blit mem' (target mem pagetable addr i) 1 fun _ => ch) := by
  intro a ha
  have hne : a ≠ target mem pagetable addr i := by
    rintro rfl
    refine ha _ hi ?_
    have hmod := walkaddr_mod mem pagetable (PGROUNDDOWN ((addr+i)%2^64))
    unfold target frameByte PGSIZE at *
    omega
  rw [blit_outside (by omega),h a ha]

theorem target_inj (ht : UserTable mem pagetable) {i j : ℕ} (hi : i < PIPESIZE)
    (hj : j < PIPESIZE) (hr : Reached mem pagetable addr i)
    (h : target mem pagetable addr i = target mem pagetable addr j) : i = j := by
  obtain ⟨hframe,hoff⟩ := frameByte_eq_iff.mp h
  have hpage := ht.inj _ _ hr hframe
  unfold PGROUNDDOWN PIPESIZE PGSIZE at *
  omega

variable {rest i : ℕ} {mem' : Mem} {pi : Pipe}

theorem pipereadLoop_reached (ht : UserTable mem pagetable) (hmem : SameTable mem pagetable mem')
    (hne : pi.nread ≠ pi.nwrite) (hi : Reached mem pagetable addr i) :
    let r := pipereadLoop pagetable addr rest (i+1)
      (blit mem' (target mem pagetable addr i) 1 fun _ => pi.front) pi.advance
    pipereadLoop pagetable addr (rest+1) i mem' pi = (r.1,r.2.1,.taken pi.front::r.2.2.1,r.2.2.2) := by
  have hwalk := ht.walkaddr_eq hmem (PGROUNDDOWN ((addr+i)%2^64))
  simp only [pipereadLoop,if_neg hne,copyoutByte,frameByte,hwalk,if_neg hi,target]

theorem pipereadLoop_unreached (ht : UserTable mem pagetable)
    (hmem : SameTable mem pagetable mem') (hne : pi.nread ≠ pi.nwrite)
    (hi : ¬ Reached mem pagetable addr i) :
    pipereadLoop pagetable addr (rest+1) i mem' pi = (mem',pi.advance,[.taken pi.front],i) := by
  have hwalk := ht.walkaddr_eq hmem (PGROUNDDOWN ((addr+i)%2^64))
  simp only [pipereadLoop,if_neg hne,copyoutByte,frameByte,hwalk,if_pos (not_not.mp hi)]

theorem nread_ne_of_lt_count {j : ℕ} (h : j < pi.count) : pi.nread ≠ pi.nwrite := by
  intro heq
  rw [(Ring.Buf.count_eq_zero_iff pi.toBuf).mpr heq] at h
  omega

theorem stored_byte {ch : UInt8} {bytes : List UInt8} :
    Stored (target mem pagetable addr) i 1 (fun k => (ch::bytes).getD k 0) mem'
      (blit mem' (target mem pagetable addr i) 1 fun _ => ch) where
  at_tr k hk := by
    obtain rfl : k = 0 := by omega
    simp [blit]
  elsewhere a ha := by
    have hne := ha 0 (by omega)
    rw [Nat.add_zero] at hne
    exact blit_outside (by omega)

/-- Where every address can be stored to, the loop delivers all it takes. -/
theorem pipereadLoop_all (ht : UserTable mem pagetable) (hmem : SameTable mem pagetable mem')
    (hpi : i+pi.count ≤ PIPESIZE)
    (hall : ∀ j < i+min rest pi.count, Reached mem pagetable addr j) :
    let r := pipereadLoop pagetable addr rest i mem' pi
    r.2.2.2 = i+min rest pi.count ∧ SameTable mem pagetable r.1 ∧
      pi.contents = pi.contents.take (min rest pi.count)++r.2.1.contents ∧
      Stored (target mem pagetable addr) i (min rest pi.count) (fun k => pi.contents.getD k 0)
        mem' r.1 := by
  induction rest generalizing i mem' pi with
  | zero =>
    rw [Nat.zero_min]
    exact ⟨rfl,hmem,rfl,.refl⟩
  | succ rest ih =>
    by_cases hempty : pi.nread = pi.nwrite
    · have hcount : pi.count = 0 := (Ring.Buf.count_eq_zero_iff pi.toBuf).mpr hempty
      simp only [pipereadLoop,if_pos hempty,hcount,Nat.min_zero]
      exact ⟨rfl,hmem,rfl,.refl⟩
    have hne : pi.count ≠ 0 := fun h => hempty ((Ring.Buf.count_eq_zero_iff pi.toBuf).mp h)
    have hcount : pi.advance.count = pi.count-1 := Ring.Buf.count_drop hne
    have hcontents : pi.contents = pi.front::pi.advance.contents := Ring.Buf.contents_drop hne
    have hm : min (rest+1) pi.count = 1+min rest pi.advance.count := by omega
    have hi : Reached mem pagetable addr i := hall i (by omega)
    obtain ⟨hret,hsame,hqueue,hst⟩ := @ih (i+1) _ pi.advance (hmem.store pi.front hi) (by omega)
      fun j hj => hall j (by omega)
    rw [pipereadLoop_reached ht hmem hempty hi,hm]
    dsimp only
    refine ⟨by omega,hsame,?_,?_⟩
    · rw [hcontents,Nat.add_comm 1,List.take_succ_cons,List.cons_append,← hqueue]
    · have hinj : ∀ k < i+min (rest+1) pi.count, ∀ l < i+min (rest+1) pi.count,
          target mem pagetable addr k = target mem pagetable addr l → k = l :=
        fun k hk l hl h => target_inj ht (by omega) (by omega) (hall k hk) h
      have hfirst : Stored (target mem pagetable addr) i 1 (fun k => pi.contents.getD k 0) mem'
          (blit mem' (target mem pagetable addr i) 1 fun _ => pi.front) := by
        rw [hcontents]
        exact stored_byte
      refine hfirst.append hinj (by omega) ?_
      have htail : (fun k => pi.contents.getD (1+k) 0) = fun k => pi.advance.contents.getD k 0 := by
        funext k
        rw [hcontents,Nat.add_comm 1,List.getD_cons_succ]
      rwa [htail]

/-- Where some address cannot be stored to, the loop takes one byte more than it delivers. -/
theorem pipereadLoop_short (ht : UserTable mem pagetable) (hmem : SameTable mem pagetable mem')
    {j : ℕ} (hj : j < min rest pi.count) (hno : ¬ Reached mem pagetable addr (i+j)) :
    let r := pipereadLoop pagetable addr rest i mem' pi
    i ≤ r.2.2.2 ∧ r.2.1.contents.length+(r.2.2.2-i)+1 = pi.contents.length := by
  induction rest generalizing i mem' pi j with
  | zero => omega
  | succ rest ih =>
    have hempty : pi.nread ≠ pi.nwrite := nread_ne_of_lt_count (hj.trans_le (Nat.min_le_right _ _))
    have hne : pi.count ≠ 0 := by omega
    have hcount : pi.advance.count = pi.count-1 := Ring.Buf.count_drop hne
    have hlength : pi.contents.length = pi.advance.contents.length+1 :=
      congrArg List.length (Ring.Buf.contents_drop hne)
    by_cases hi : Reached mem pagetable addr i
    · obtain ⟨j,rfl⟩ : ∃ l, j = l+1 := by
        cases j with
        | zero => exact absurd hi hno
        | succ l => exact ⟨l,rfl⟩
      rw [Nat.add_comm j,← Nat.add_assoc] at hno
      obtain ⟨hle,hlen⟩ := @ih (i+1) _ pi.advance (hmem.store pi.front hi) j (by omega) hno
      rw [pipereadLoop_reached ht hmem hempty hi]
      dsimp only
      omega
    · rw [pipereadLoop_unreached ht hmem hempty hi]
      dsimp only
      omega

end Loop

theorem delivered_of_idle {s t : Sys} {pagetable addr : ℕ} {r : ℤ} (hr : r ≤ 0)
    (hpipe : t.pipe = s.pipe) : Delivered s t pagetable addr r :=
  ⟨[],by simp [hr],by simp [hpipe],by simp⟩

theorem ret_inj {t ev ev' : List Event} {p : ℕ} {r r' : ℤ}
    (h : t++ev++[.ret p r] = t++ev'++[.ret p r']) : r = r' := by
  obtain ⟨-,h⟩ := List.append_inj' h rfl
  simpa using h

/-- A read that returns delivers exactly what it removes if and only if every byte that the
buffer holds for it has a mapped destination. -/
theorem piperead_delivers_iff {s : Sys} {p pagetable addr : ℕ} {n : ℤ}
    (hpi : s.pipe.count ≤ PIPESIZE) (ht : UserTable s.mem pagetable) :
    (∀ ev r, (piperead s p pagetable addr n).trace = s.trace++ev++[.ret p r] →
        Delivered s (piperead s p pagetable addr n) pagetable addr r) ↔
      ∀ i < min n.toNat s.pipe.count, Reached s.mem pagetable addr i := by
  by_cases hwait : s.pipe.nread = s.pipe.nwrite ∧ s.pipe.writeopen = true
  · have hcount : s.pipe.count = 0 := (Ring.Buf.count_eq_zero_iff s.pipe.toBuf).mpr hwait.1
    refine iff_of_true (fun ev r h => ?_) (by simp [hcount])
    by_cases hkilled : (s.procs p).killed = true
    · simp only [piperead,if_pos hwait,if_pos hkilled] at h ⊢
      rw [show s.trace++[Event.ret p (-1)] = s.trace++[]++[Event.ret p (-1)] by simp] at h
      exact delivered_of_idle (by rw [← ret_inj h]; decide) rfl
    · simp [piperead,if_pos hwait,if_neg hkilled] at h
  have hsame : SameTable s.mem pagetable s.mem := fun _ _ => rfl
  have hshort := @pipereadLoop_short s.mem pagetable addr n.toNat 0 s.mem s.pipe ht hsame
  have hfull := @pipereadLoop_all s.mem pagetable addr n.toNat 0 s.mem s.pipe ht hsame (by omega)
  rcases hloop : pipereadLoop pagetable addr n.toNat 0 s.mem s.pipe with ⟨mem',pi',ev',i'⟩
  simp only [hloop,Nat.zero_add] at hshort hfull
  simp only [piperead,if_neg hwait,hloop]
  constructor
  · intro hdel i hi
    by_contra hno
    obtain ⟨-,hlen⟩ := hshort hi hno
    obtain ⟨bytes,hbytes,hqueue,-⟩ := hdel ev' i' rfl
    have hlength : s.pipe.contents.length = bytes.length+pi'.contents.length := by
      rw [hqueue,List.length_append]
    omega
  · intro hall ev r h
    obtain ⟨hret,hsame',hqueue,hst⟩ := hfull hall
    have hlen : s.pipe.contents.length = s.pipe.count := by simp [Ring.Buf.contents]
    obtain rfl := ret_inj h
    refine ⟨s.pipe.contents.take (min n.toNat s.pipe.count),?_,hqueue,fun i hi => ?_⟩
    · rw [List.length_take]
      omega
    · rw [List.length_take] at hi
      have hi' : i < min n.toNat s.pipe.count := by omega
      have hat := hst.at_tr i hi'
      have hwalk := ht.walkaddr_eq hsame' (PGROUNDDOWN ((addr+i)%2^64))
      rw [copyinByte_of_mapped (by rw [hwalk]; exact hall i hi'),frameByte,hwalk,
        List.getElem?_take_of_lt hi',List.getElem?_eq_getElem (by omega)]
      rw [Nat.zero_add,List.getD_eq_getElem _ _ (by omega)] at hat
      exact congrArg some hat

/-- Two bytes were written and wait in the pipe; the table maps page 0 only. -/
def twoWaiting : Sys :=
  pipewrite (pipewrite (init textPage fun _ => 0) 2 4096 4095 1 0) 2 4096 4095 1 0

theorem piperead_delivers_iff_twoWaiting :
    (∀ ev r, (piperead twoWaiting 1 4096 4095 2).trace = twoWaiting.trace++ev++[.ret 1 r] →
        Delivered twoWaiting (piperead twoWaiting 1 4096 4095 2) 4096 4095 r) ↔
      ∀ i < min (2 : ℤ).toNat twoWaiting.pipe.count, Reached twoWaiting.mem 4096 4095 i :=
  piperead_delivers_iff (by decide +kernel) textPage_userTable

theorem run_twoWaiting : Machine.run step (init textPage fun _ => 0)
    [.write 2 4096 4095 1,.write 2 4096 4095 1] = some twoWaiting :=
  Machine.run_cons.mpr ⟨_,rfl,Machine.run_cons.mpr ⟨_,rfl,rfl⟩⟩

/-- A read of two bytes to the last byte of the page delivers one and returns 1, but the second
has left the pipe too and no reader gets it. -/
theorem piperead_swallows :
    Machine.run step (init textPage fun _ => 0) [.write 2 4096 4095 1,.write 2 4096 4095 1] =
        some twoWaiting ∧
      (piperead twoWaiting 1 4096 4095 2).trace =
        twoWaiting.trace++[.taken 65,.taken 65]++[.ret 1 1] ∧
      (piperead twoWaiting 1 4096 4095 2).pipe.contents = [] ∧
      ¬ Delivered twoWaiting (piperead twoWaiting 1 4096 4095 2) 4096 4095 1 := by
  have hempty : (piperead twoWaiting 1 4096 4095 2).pipe.contents = [] := by decide +kernel
  have hfull : twoWaiting.pipe.contents = [65,65] := by decide +kernel
  refine ⟨run_twoWaiting,by decide +kernel,hempty,?_⟩
  rintro ⟨bytes,hlen,hqueue,-⟩
  rw [hempty,hfull,List.append_nil] at hqueue
  simp [← hqueue] at hlen

end Xv6.Pipes
