import Mathlib.Tactic

/-! Ring buffers of `N` cells addressed through two free-running counters of `w` bits. The
counters wrap at `2^w`; the contents are a queue as long as `N` divides `2^w` and is smaller. -/
namespace Ring

/-- The cells, the number of elements taken out and the number put in, both modulo `2^w`. -/
structure Buf (α : Type) (w N : ℕ) where
  data : Fin N → α
  nread : BitVec w
  nwrite : BitVec w

variable {α : Type} {w N : ℕ}

namespace Buf

variable {b : Buf α w N}

def count (b : Buf α w N) : ℕ := (b.nwrite-b.nread).toNat

theorem nwrite_eq (b : Buf α w N) : b.nwrite = b.nread+BitVec.ofNat w b.count := by
  rw [count,BitVec.ofNat_toNat,BitVec.setWidth_eq,BitVec.add_comm,BitVec.sub_add_cancel]

theorem count_lt (b : Buf α w N) : b.count < 2^w := (b.nwrite-b.nread).isLt

theorem count_of_nwrite {k : ℕ} (h : b.nwrite = b.nread+BitVec.ofNat w k) (hk : k < 2^w) :
    b.count = k := by
  rw [count,h,BitVec.add_comm,BitVec.add_sub_cancel,BitVec.toNat_ofNat,Nat.mod_eq_of_lt hk]

def drop (b : Buf α w N) : Buf α w N := {b with nread := b.nread+1}

theorem count_eq_zero_iff (b : Buf α w N) : b.count = 0 ↔ b.nread = b.nwrite := by
  constructor
  · intro h
    have := b.nwrite_eq
    rw [h] at this
    simpa using this.symm
  · intro h
    simp [count,h]

theorem count_eq_iff (hN : N < 2^w) (b : Buf α w N) :
    b.count = N ↔ b.nwrite = b.nread+BitVec.ofNat w N := by
  constructor
  · intro h
    have := b.nwrite_eq
    rwa [h] at this
  · intro h
    exact count_of_nwrite h hN

theorem count_drop (h : b.count ≠ 0) : b.drop.count = b.count-1 := by
  have hlt := b.count_lt
  apply count_of_nwrite _ (by omega)
  change b.nwrite = b.nread+1+BitVec.ofNat w (b.count-1)
  rw [BitVec.add_assoc,show (1 : BitVec w) = BitVec.ofNat w 1 from rfl,← BitVec.ofNat_add,
    show 1+(b.count-1) = b.count by omega,← b.nwrite_eq]

def unput (b : Buf α w N) : Buf α w N := {b with nwrite := b.nwrite-1}

theorem nwrite_pred (h : b.count ≠ 0) : b.nwrite-1 = b.nread+BitVec.ofNat w (b.count-1) := by
  have hnw := b.nwrite_eq
  rw [show b.count = b.count-1+1 by omega,BitVec.ofNat_add,← BitVec.add_assoc] at hnw
  rw [hnw]
  exact BitVec.add_sub_cancel _ _

theorem count_unput (h : b.count ≠ 0) : b.unput.count = b.count-1 :=
  count_of_nwrite (b := b.unput) (nwrite_pred h) (by have := b.count_lt; omega)

end Buf

variable [NeZero N]

def slot (N : ℕ) [NeZero N] (c : BitVec w) : Fin N := Fin.ofNat N c.toNat

namespace Buf

def contents (b : Buf α w N) : List α :=
  (List.range b.count).map fun k => b.data (slot N (b.nread+BitVec.ofNat w k))

@[simp] theorem length_contents (b : Buf α w N) : b.contents.length = b.count := by
  simp [contents]

def put (b : Buf α w N) (x : α) : Buf α w N :=
  {b with data := Function.update b.data (slot N b.nwrite) x, nwrite := b.nwrite+1}

/-- The two halves of `put`: the element goes into its cell, then the counter moves. -/
def stage (b : Buf α w N) (x : α) : Buf α w N :=
  {b with data := Function.update b.data (slot N b.nwrite) x}

def publish (b : Buf α w N) : Buf α w N := {b with nwrite := b.nwrite+1}

def front (b : Buf α w N) : α := b.data (slot N b.nread)

end Buf

theorem slot_add (h : N ∣ 2^w) (c : BitVec w) (k : ℕ) :
    slot N (c+BitVec.ofNat w k) = Fin.ofNat N (c.toNat+k) := by
  ext
  simp [slot,Nat.mod_mod_of_dvd _ h]

theorem slot_add_ne (h : N ∣ 2^w) (c : BitVec w) {j k : ℕ} (hjk : j < k) (hk : k < j+N) :
    slot N (c+BitVec.ofNat w j) ≠ slot N (c+BitVec.ofNat w k) := by
  rw [slot_add h,slot_add h]
  intro heq
  have hmod : (c.toNat+j) % N = (c.toNat+k) % N := congrArg Fin.val heq
  have hdvd : N ∣ c.toNat+k-(c.toNat+j) := (Nat.modEq_iff_dvd' (by omega)).mp hmod
  have := Nat.le_of_dvd (by omega) hdvd
  omega

namespace Buf

variable {b : Buf α w N} {x : α}

theorem count_put (h : b.count+1 < 2^w) : (b.put x).count = b.count+1 := by
  apply count_of_nwrite _ h
  change b.nwrite+1 = b.nread+BitVec.ofNat w (b.count+1)
  rw [BitVec.ofNat_add,← BitVec.add_assoc,← b.nwrite_eq]
  rfl

theorem publish_eq_put (h : b.data (slot N b.nwrite) = x) : b.publish = b.put x := by
  subst h
  rw [put,Function.update_eq_self,publish]

theorem contents_stage (hd : N ∣ 2^w) (hc : b.count < N) :
    (b.stage x).contents = b.contents := by
  apply List.map_congr_left
  intro k hk
  have hk := List.mem_range.mp hk
  have hcount : k < b.count := hk
  change Function.update b.data (slot N b.nwrite) x _ = _
  rw [b.nwrite_eq]
  exact Function.update_of_ne (slot_add_ne hd _ hcount (by omega)) _ _

/-- An element put into a buffer that is not full goes to the end of the queue. -/
theorem contents_put (hd : N ∣ 2^w) (hN : N < 2^w) (hc : b.count < N) :
    (b.put x).contents = b.contents++[x] := by
  rw [contents,count_put (by omega),List.range_succ,List.map_append]
  congr 1
  · apply List.map_congr_left
    intro k hk
    have hk := List.mem_range.mp hk
    change Function.update b.data (slot N b.nwrite) x _ = _
    rw [b.nwrite_eq]
    exact Function.update_of_ne (slot_add_ne hd _ hk (by omega)) _ _
  · change [Function.update b.data (slot N b.nwrite) x (slot N (b.nread+BitVec.ofNat w b.count))]
      = [x]
    rw [← b.nwrite_eq,Function.update_self]

/-- A buffer that is not empty gives up its oldest element and keeps the rest in order. -/
theorem contents_drop (h : b.count ≠ 0) : b.contents = b.front::b.drop.contents := by
  obtain ⟨n,hn⟩ := Nat.exists_eq_succ_of_ne_zero h
  rw [contents,contents,count_drop h,hn,List.range_succ_eq_map,List.map_cons,List.map_map]
  congr 1
  · simp [front]
  · apply List.map_congr_left
    intro k _
    change b.data _ = b.data (slot N (b.nread+1+BitVec.ofNat w k))
    rw [BitVec.add_assoc,show (1 : BitVec w) = BitVec.ofNat w 1 from rfl,← BitVec.ofNat_add,
      Nat.add_comm 1 k]

@[simp] theorem contents_of_empty (h : b.nread = b.nwrite) : b.contents = [] := by
  rw [contents,(count_eq_zero_iff b).mpr h,List.range_zero,List.map_nil]

def last (b : Buf α w N) : α := b.data (slot N (b.nwrite-1))

theorem contents_unput (h : b.count ≠ 0) : b.contents = b.unput.contents++[b.last] := by
  rw [contents,contents,count_unput h,last,nwrite_pred h]
  nth_rewrite 1 [show b.count = b.count-1+1 by omega]
  rw [List.range_succ,List.map_append]
  rfl

end Buf

end Ring
