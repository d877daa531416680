import Mathlib.Tactic

/-! Byte-addressed memory. A memory is a total function from addresses to bytes, so the
same lemmas serve a disk block, a page of physical memory and a whole address space.
Multi-byte fields are little endian. -/
namespace Bytes

abbrev Mem := ℕ → UInt8

def newline : UInt8 := 10

/-- The C string that begins with these bytes: those before the first NUL. -/
def cstr (l : List UInt8) : List UInt8 := l.takeWhile (· ≠ 0)

/-- Overwrite the `n` bytes from `a` on with the bytes of `src`. -/
def blit (m : Mem) (a n : ℕ) (src : Mem) : Mem := fun x =>
  if a ≤ x ∧ x < a+n then src (x-a) else m x

theorem blit_inside {m src : Mem} {a n x : ℕ} (hl : a ≤ x) (hr : x < a+n) :
    blit m a n src x = src (x-a) := by
  simp [blit,hl,hr]

theorem blit_outside {m src : Mem} {a n x : ℕ} (h : x < a ∨ a+n ≤ x) :
    blit m a n src x = m x := by
  have hn : ¬ (a ≤ x ∧ x < a+n) := by omega
  simp [blit,hn]

@[simp] theorem blit_add {m src : Mem} {a n i : ℕ} (h : i < n) :
    blit m a n src (a+i) = src i := by
  rw [blit_inside (by omega) (by omega)]
  simp

@[simp] theorem blit_zero (m src : Mem) (a : ℕ) : blit m a 0 src = m := by
  funext x
  exact blit_outside (by omega)

theorem blit_congr {m src src' : Mem} {a n : ℕ} (h : ∀ i < n, src i = src' i) :
    blit m a n src = blit m a n src' := by
  funext x
  unfold blit
  split
  · exact h _ (by omega)
  · rfl

theorem blit_append (m src : Mem) (a n k : ℕ) :
    blit (blit m a n src) (a+n) k (fun i => src (n+i)) = blit m a (n+k) src := by
  funext x
  rcases lt_or_ge x (a+n) with hx | hx
  · rw [blit_outside (.inl hx)]
    rcases lt_or_ge x a with ha | ha
    · rw [blit_outside (.inl ha),blit_outside (.inl ha)]
    · rw [blit_inside ha hx,blit_inside ha (by omega)]
  · rcases lt_or_ge x (a+n+k) with hk | hk
    · rw [blit_inside hx hk,blit_inside (by omega) (by omega)]
      congr 1
      omega
    · rw [blit_outside (.inr hk),blit_outside (.inr hx),blit_outside (by omega)]

/-- The unsigned little-endian value of the `k` bytes from `a` on. -/
def readLE (m : Mem) : ℕ → ℕ → ℕ
  | _, 0 => 0
  | a, k+1 => (m a).toNat + 256 * readLE m (a+1) k

/-- Byte `i` of the little-endian representation of `v`. -/
def leByte (v : ℕ) : Mem := fun i => UInt8.ofNat (v / 256^i)

def writeLE (m : Mem) (a k v : ℕ) : Mem := blit m a k (leByte v)

theorem readLE_congr {m m' : Mem} {a k : ℕ} (h : ∀ i < k, m (a+i) = m' (a+i)) :
    readLE m a k = readLE m' a k := by
  induction k generalizing a with
  | zero => rfl
  | succ k ih =>
    have h0 := h 0 (by omega)
    have ht : readLE m (a+1) k = readLE m' (a+1) k := by
      apply ih
      intro i hi
      have hh := h (i+1) (by omega)
      simpa [Nat.add_assoc,Nat.add_comm 1 i] using hh
    simp only [Nat.add_zero] at h0
    simp only [readLE,h0,ht]

theorem readLE_eq_zero {m : Mem} {a k : ℕ} (h : ∀ i < k, m (a+i) = 0) : readLE m a k = 0 := by
  induction k generalizing a with
  | zero => rfl
  | succ k ih =>
    have h0 : m a = 0 := h 0 (by omega)
    have ht : readLE m (a+1) k = 0 := by
      apply ih
      intro i hi
      rw [Nat.add_assoc,Nat.add_comm 1 i]
      exact h (i+1) (by omega)
    rw [readLE,h0,ht]
    rfl

theorem readLE_lt (m : Mem) (a k : ℕ) : readLE m a k < 256^k := by
  induction k generalizing a with
  | zero => simp [readLE]
  | succ k ih =>
    have hb := (m a).toNat_lt
    have ht := ih (a+1)
    simp only [readLE,pow_succ]
    omega

/-- Reading back bytes that spell `v` gives `v` modulo the width of the field. -/
theorem readLE_leByte {m : Mem} {a k v : ℕ} (h : ∀ i < k, m (a+i) = leByte v i) :
    readLE m a k = v % 256^k := by
  induction k generalizing a v with
  | zero => simp [readLE,Nat.mod_one]
  | succ k ih =>
    have h0 := h 0 (by omega)
    have ht : readLE m (a+1) k = (v/256) % 256^k := by
      apply ih
      intro i hi
      have hh := h (i+1) (by omega)
      rw [show a+1+i = a+(i+1) by omega,hh]
      simp [leByte,pow_succ',Nat.div_div_eq_div_mul]
    simp only [Nat.add_zero] at h0
    rw [readLE,h0,ht,pow_succ',Nat.mod_mul]
    simp [leByte]

@[simp] theorem readLE_writeLE (m : Mem) (a k v : ℕ) :
    readLE (writeLE m a k v) a k = v % 256^k := by
  apply readLE_leByte
  intro i hi
  simp [writeLE,hi]

theorem readLE_blit_disjoint {m src : Mem} {a k b n : ℕ} (h : a+k ≤ b ∨ b+n ≤ a) :
    readLE (blit m b n src) a k = readLE m a k := by
  apply readLE_congr
  intro i hi
  exact blit_outside (by omega)

theorem readLE_writeLE_disjoint {m : Mem} {a k b n v : ℕ} (h : a+k ≤ b ∨ b+n ≤ a) :
    readLE (writeLE m b n v) a k = readLE m a k :=
  readLE_blit_disjoint h

def bitMask (k : ℕ) : UInt8 := UInt8.ofNat (1 <<< k)

theorem toNat_bitMask {k : ℕ} (hk : k < 8) : (bitMask k).toNat = 2^k := by
  have hlt : 2^k < 2^8 := Nat.pow_lt_pow_right (by omega) hk
  rw [bitMask,UInt8.toNat_ofNat',Nat.one_shiftLeft,Nat.mod_eq_of_lt hlt]

def bitAt (m : Mem) (i : ℕ) : Bool := (m (i/8)).toNat.testBit (i%8)

theorem and_bitMask_eq_zero {x : UInt8} {k : ℕ} (hk : k < 8) :
    x &&& bitMask k = 0 ↔ x.toNat.testBit k = false := by
  rw [← UInt8.toNat_inj,UInt8.toNat_and,toNat_bitMask hk]
  constructor
  · intro h
    have hbit := congrArg (Nat.testBit · k) h
    simpa using hbit
  · intro h
    apply Nat.eq_of_testBit_eq
    intro j
    by_cases hj : k = j
    · subst hj
      simp [h]
    · simp [hj]

theorem testBit_or_bitMask {x : UInt8} {k j : ℕ} (hk : k < 8) :
    (x ||| bitMask k).toNat.testBit j = (x.toNat.testBit j || decide (k = j)) := by
  rw [UInt8.toNat_or,toNat_bitMask hk,Nat.testBit_or,Nat.testBit_two_pow]

theorem testBit_and_not_bitMask {x : UInt8} {k j : ℕ} (hk : k < 8) (hj : j < 8) :
    (x &&& ~~~ bitMask k).toNat.testBit j = (x.toNat.testBit j && !decide (k = j)) := by
  have hlt : 2^k < 2^8 := Nat.pow_lt_pow_right (by omega) hk
  have hnot : (~~~ bitMask k).toNat = 2^8-(2^k+1) := by
    rw [UInt8.toNat_not,toNat_bitMask hk]
    simp only [UInt8.size]
    omega
  rw [UInt8.toNat_and,hnot,Nat.testBit_and,Nat.testBit_two_pow_sub_succ hlt,Nat.testBit_two_pow]
  simp [hj]

def setBit (m : Mem) (i : ℕ) : Mem := Function.update m (i/8) (m (i/8) ||| bitMask (i%8))

def clearBit (m : Mem) (i : ℕ) : Mem :=
  Function.update m (i/8) (m (i/8) &&& ~~~ bitMask (i%8))

theorem bitAt_setBit (m : Mem) (i j : ℕ) :
    bitAt (setBit m i) j = (bitAt m j || decide (i = j)) := by
  have hi : i%8 < 8 := Nat.mod_lt _ (by omega)
  by_cases hb : j/8 = i/8
  · have heq : (i%8 = j%8) ↔ i = j := by omega
    simp only [bitAt,setBit,hb,Function.update_self,testBit_or_bitMask hi,heq]
  · have hne : i ≠ j := by rintro rfl; exact hb rfl
    simp [bitAt,setBit,hb,hne]

theorem bitAt_clearBit (m : Mem) (i j : ℕ) :
    bitAt (clearBit m i) j = (bitAt m j && !decide (i = j)) := by
  have hi : i%8 < 8 := Nat.mod_lt _ (by omega)
  have hj : j%8 < 8 := Nat.mod_lt _ (by omega)
  by_cases hb : j/8 = i/8
  · have heq : (i%8 = j%8) ↔ i = j := by omega
    simp only [bitAt,clearBit,hb,Function.update_self,testBit_and_not_bitMask hi hj,heq]
  · have hne : i ≠ j := by rintro rfl; exact hb rfl
    simp [bitAt,clearBit,hb,hne]

end Bytes
