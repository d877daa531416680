import Xv6.Machine
import Xv6.Ring

/-! The transmit side of `kernel/uart.c`: threads in `uartputc` and in the interrupt handler, writes
of `uartputc_sync`, and the device, in any interleaving. `uart_tx_lock` guards the buffer but not the
device: `uartputc_sync` takes no lock, and may write long after it has seen the device idle. -/
namespace Xv6
namespace Uart

def UART_TX_BUF_SIZE : ℕ := 32

instance : NeZero UART_TX_BUF_SIZE := ⟨by decide⟩

/-- Where a thread is: outside; in `uartputc` before `acquire` or behind a `sleep`, at the test for a
full buffer, and asleep; in `uartstart` at the tests and behind them; in `uartintr` before `acquire`. -/
inductive Thread
  | idle
  | enter (c : UInt8)
  | test (c : UInt8)
  | asleep (c : UInt8)
  | start
  | send
  | intr

/-- `uart_tx_buf` with its counters, the lock, the threads, the FIFO of the device and its request
for an interrupt; then the bytes put into the buffer, and what has been sent. The bytes in the device
are marked by whether they come from the buffer. -/
structure Sys where
  buf : Ring.Buf UInt8 64 UART_TX_BUF_SIZE
  lock : Option ℕ
  thread : ℕ → Thread
  fifo : List (Bool × UInt8)
  irq : Bool
  put : List UInt8
  sent : List (Bool × UInt8)

/-- `wakeup(&uart_tx_r)`: who slept has to acquire the lock again. -/
def Thread.wake : Thread → Thread
  | .asleep c => .enter c
  | t => t

def moveTo (s : Sys) (p : ℕ) (t : Thread) (lock : Option ℕ) : Sys :=
  {s with thread := Function.update s.thread p t, lock := lock}

def uartputc (s : Sys) (p : ℕ) (c : UInt8) : Sys :=
  if s.buf.nwrite = s.buf.nread+BitVec.ofNat 64 UART_TX_BUF_SIZE then moveTo s p (.asleep c) none
  else moveTo {s with buf := s.buf.put c, put := s.put++[c]} p .start (some p)

/-- The tests of `uartstart`; the callers release the lock as soon as it is left. -/
def uartstart (s : Sys) (p : ℕ) : Sys :=
  if s.buf.nwrite = s.buf.nread ∨ s.fifo ≠ [] then moveTo s p .idle none else moveTo s p .send (some p)

def send (s : Sys) (p : ℕ) : Sys :=
  moveTo {s with buf := s.buf.drop, thread := fun q => (s.thread q).wake,
                 fifo := s.fifo++[(true,s.buf.front)]} p .start (some p)

inductive Action
  | uartputc (p : ℕ) (c : UInt8)
  | uartputcSync (c : UInt8)
  | uartintr (p : ℕ)
  | acquire (p : ℕ)
  | proceed (p : ℕ)
  | transmit

def step (s : Sys) : Action → Option Sys
  | .uartputc p c =>
    match s.thread p with
    | .idle => some (moveTo s p (.enter c) s.lock)
    | _ => none
  | .uartputcSync c => some {s with fifo := s.fifo++[(false,c)]}
  | .uartintr p =>
    match s.thread p with
    | .idle => some (moveTo {s with irq := false} p .intr s.lock)
    | _ => none
  | .acquire p =>
    if s.lock = none then
      match s.thread p with
      | .enter c => some (moveTo s p (.test c) (some p))
      | .intr => some (moveTo s p .start (some p))
      | _ => none
    else none
  | .proceed p =>
    match s.thread p with
    | .test c => some (uartputc s p c)
    | .start => some (uartstart s p)
    | .send => some (send s p)
    | _ => none
  | .transmit =>
    match s.fifo with
    | [] => none
    | x::rest => some {s with fifo := rest, irq := s.irq || rest.isEmpty, sent := s.sent++[x]}

def init (data : Fin UART_TX_BUF_SIZE → UInt8) (r : BitVec 64) : Sys :=
  ⟨⟨data,r,r⟩,none,fun _ => .idle,[],false,[],[]⟩

def Thread.inside : Thread → Bool
  | .test _ | .start | .send => true
  | _ => false

def Thread.busy : Thread → Bool
  | .start | .send | .intr => true
  | _ => false

def Thread.Fits (n : ℕ) : Thread → Prop
  | .asleep _ => n = UART_TX_BUF_SIZE
  | .send => n ≠ 0
  | _ => True

def Attended (s : Sys) : Prop := s.fifo ≠ [] ∨ s.irq = true ∨ ∃ p, (s.thread p).busy = true

def fromBuf (l : List (Bool × UInt8)) : List UInt8 := (l.filter Prod.fst).map Prod.snd

structure Inv (s : Sys) : Prop where
  order : fromBuf (s.sent++s.fifo)++s.buf.contents = s.put
  room : s.buf.count ≤ UART_TX_BUF_SIZE
  owner : ∀ p, s.lock = some p ↔ (s.thread p).inside = true
  fits : ∀ p, (s.thread p).Fits s.buf.count
  busy : s.buf.count ≠ 0 → Attended s

variable {s t : Sys} {p : ℕ} {x : Thread} {l : Option ℕ}

theorem thread_moveTo (q : ℕ) : (moveTo s p x l).thread q = if q = p then x else s.thread q := by
  by_cases hq : q = p <;> simp [moveTo,hq]

theorem attended_of_move (hx : x.busy = true) : Attended (moveTo s p x l) := by
  refine .inr (.inr ⟨p,?_⟩)
  rwa [thread_moveTo,if_pos rfl]

theorem Attended.move (h : Attended s) (hx : (s.thread p).busy = true → x.busy = true) :
    Attended (moveTo s p x l) := by
  rcases h with h | h | ⟨q,hq⟩
  · exact .inl h
  · exact .inr (.inl h)
  · rcases eq_or_ne q p with rfl | hqp
    · exact attended_of_move (hx hq)
    · refine .inr (.inr ⟨q,?_⟩)
      rwa [thread_moveTo,if_neg hqp]

/-- Thread `p` moves on, and what the lock says about the others stays. -/
theorem Inv.move (h : Inv s) (hp : l = some p ↔ x.inside = true)
    (hl : ∀ q ≠ p, l = some q ↔ s.lock = some q) (hx : x.Fits s.buf.count)
    (hbusy : s.buf.count ≠ 0 → Attended (moveTo s p x l)) : Inv (moveTo s p x l) where
  order := h.order
  room := h.room
  owner q := by
    rw [thread_moveTo]
    split
    case isTrue hq => rwa [hq]
    case isFalse hq => exact (hl q hq).trans (h.owner q)
  fits q := by
    rw [thread_moveTo]
    split
    · exact hx
    · exact h.fits q
  busy := hbusy

theorem Thread.Fits.succ {n : ℕ} (h : x.Fits n) (hn : n < UART_TX_BUF_SIZE) : x.Fits (n+1) := by
  cases x with
  | asleep => exact absurd h hn.ne
  | send => exact Nat.succ_ne_zero n
  | _ => trivial

theorem uartputc_inv (h : Inv s) {c : UInt8} (hp : s.thread p = .test c) : Inv (uartputc s p c) := by
  have hlock := (h.owner p).mpr (by rw [hp]; rfl)
  have hfull := Ring.Buf.count_eq_iff (by decide : UART_TX_BUF_SIZE < 2^64) s.buf
  rw [uartputc]
  split
  · rename_i hf
    exact h.move (by simp [Thread.inside]) (fun q hq => by simp [hlock,hq.symm]) (hfull.mpr hf)
      fun h0 => (h.busy h0).move (by simp [hp,Thread.busy])
  · rename_i hf
    have hlt : s.buf.count < UART_TX_BUF_SIZE := lt_of_le_of_ne h.room fun he => hf (hfull.mp he)
    have hcount : (s.buf.put c).count = s.buf.count+1 := Ring.Buf.count_put (lt_of_le_of_lt hlt (by decide))
    have hstart : Inv (moveTo s p .start (some p)) :=
      h.move (by simp [Thread.inside]) (by simp [hlock]) trivial fun _ => attended_of_move rfl
    refine {hstart with order := ?_, room := hcount.trans_le hlt,
                        fits := fun q => hcount ▸ (hstart.fits q).succ hlt, busy := fun _ => attended_of_move rfl}
    change fromBuf (s.sent++s.fifo)++(s.buf.put c).contents = s.put++[c]
    rw [Ring.Buf.contents_put (by decide) (by decide) hlt,← List.append_assoc,h.order]

theorem uartstart_inv (h : Inv s) (hp : s.thread p = .start) : Inv (uartstart s p) := by
  have hlock := (h.owner p).mpr (by rw [hp]; rfl)
  rw [uartstart]
  split
  · rename_i hleave
    exact h.move (by simp [Thread.inside]) (fun q hq => by simp [hlock,hq.symm]) trivial
      fun h0 => .inl (hleave.resolve_left fun he => h0 (s.buf.count_eq_zero_iff.mpr he.symm))
  · rename_i hgo
    exact h.move (by simp [Thread.inside]) (by simp [hlock])
      (fun h0 => hgo (.inl (s.buf.count_eq_zero_iff.mp h0).symm)) fun _ => attended_of_move rfl

theorem send_inv (h : Inv s) (hp : s.thread p = .send) : Inv (send s p) := by
  have hlock := (h.owner p).mpr (by rw [hp]; rfl)
  have h0 : s.buf.count ≠ 0 := by simpa [hp,Thread.Fits] using h.fits p
  refine ⟨?_,?_,fun q => ?_,fun q => ?_,fun _ => .inl (by simp [send,moveTo])⟩
  · have horder := h.order
    rw [Ring.Buf.contents_drop h0] at horder
    simpa [fromBuf,send,moveTo] using horder
  · exact (Ring.Buf.count_drop h0).trans_le ((Nat.sub_le _ 1).trans h.room)
  · rw [send,thread_moveTo]
    split
    case isTrue hq => simp [hq,moveTo,Thread.inside]
    case isFalse hq =>
      change some p = some q ↔ (s.thread q).wake.inside = true
      rw [← hlock,h.owner q]
      cases s.thread q <;> rfl
  · rw [send,thread_moveTo]
    split
    case isTrue => trivial
    case isFalse hq =>
      change (s.thread q).wake.Fits _
      cases hs : s.thread q with
      | send => exact absurd (Option.some.inj (((h.owner q).mpr (by rw [hs]; rfl)).symm.trans hlock)) hq
      | _ => trivial

theorem step_inv {a : Action} (h : Inv s) (ht : step s a = some t) : Inv t := by
  cases a with
  | uartputc p c =>
    simp only [step] at ht
    split at ht <;> cases ht
    rename_i hp
    exact h.move ((h.owner p).trans (by simp [hp,Thread.inside])) (by simp) trivial
      fun h0 => (h.busy h0).move (by simp [hp,Thread.busy])
  | uartputcSync c =>
    cases ht
    exact {h with order := by simpa [fromBuf] using h.order, busy := fun _ => .inl (by simp)}
  | uartintr p =>
    simp only [step] at ht
    split at ht <;> cases ht
    rename_i hp
    have hintr : Inv (moveTo s p .intr s.lock) :=
      h.move ((h.owner p).trans (by simp [hp,Thread.inside])) (by simp) trivial
        fun _ => attended_of_move rfl
    exact {hintr with busy := fun _ => attended_of_move rfl}
  | acquire p =>
    obtain ⟨hl,ht⟩ := Option.ite_none_right_eq_some.mp ht
    split at ht <;> cases ht <;> rename_i hp
    · exact h.move (by simp [Thread.inside]) (fun q hq => by simp [hl,hq.symm]) trivial
        fun h0 => (h.busy h0).move (by simp [hp,Thread.busy])
    · exact h.move (by simp [Thread.inside]) (fun q hq => by simp [hl,hq.symm]) trivial
        fun _ => attended_of_move rfl
  | proceed p =>
    simp only [step] at ht
    split at ht <;> cases ht <;> rename_i hp
    · exact uartputc_inv h hp
    · exact uartstart_inv h hp
    · exact send_inv h hp
  | transmit =>
    simp only [step] at ht
    split at ht <;> cases ht
    rename_i rest hfifo
    refine {h with order := by simpa [hfifo] using h.order, busy := fun _ => ?_}
    cases rest with
    | nil => exact .inr (.inl (by simp))
    | cons => exact .inl (by simp)

theorem init_inv (data : Fin UART_TX_BUF_SIZE → UInt8) (r : BitVec 64) : Inv (init data r) where
  order := by simp [init,fromBuf]
  room := by simp [init,Ring.Buf.count]
  owner p := by simp [init,Thread.inside]
  fits _ := trivial
  busy h := by simp [init,Ring.Buf.count] at h

variable {data : Fin UART_TX_BUF_SIZE → UInt8} {r : BitVec 64} {as : List Action} {u : Sys}

theorem run_inv (hrun : Machine.run step (init data r) as = some u) : Inv u :=
  Machine.run_invariant (fun _ _ _ h ht => step_inv h ht) (init_inv data r) hrun

/-- In every interleaving the bytes put into the buffer are sent in that order, each of them once:
what has been sent, what the device holds and what the buffer holds is all. -/
theorem transmitted_in_order (hrun : Machine.run step (init data r) as = some u) :
    fromBuf (u.sent++u.fifo)++u.buf.contents = u.put := (run_inv hrun).order

/-- `uartputc_sync` writes between the test of `uartstart` and its write. -/
def echoBetween : List Action :=
  [.uartputc 1 65,.acquire 1,.proceed 1,.proceed 1,.uartputcSync 66,.proceed 1,.proceed 1,.transmit,
    .transmit,.uartintr 3,.acquire 3,.proceed 3]

/-- The counters wrap behind the byte. -/
theorem transmitted_in_order_echoBetween : ∃ u, Machine.run step (init (fun _ => 0) (.allOnes 64))
    echoBetween = some u ∧ u.sent = [(false,66),(true,65)] ∧
      fromBuf (u.sent++u.fifo)++u.buf.contents = u.put :=
  ⟨_,rfl,rfl,@transmitted_in_order (fun _ => 0) (.allOnes 64) echoBetween _ rfl⟩

/-- Nothing is left to do: no interrupt is wanted, no byte is in the device, and no thread can
take the lock or go on. -/
structure Settled (s : Sys) : Prop where
  irq : s.irq = false
  fifo : s.fifo = []
  acquire : ∀ p, step s (.acquire p) = none
  proceed : ∀ p, step s (.proceed p) = none

theorem Settled.lock_free (hs : Settled s) (h : Inv s) : s.lock = none := by
  cases hl : s.lock with
  | none => rfl
  | some p =>
    have hin := (h.owner p).mp hl
    have hstep := hs.proceed p
    simp only [step] at hstep
    cases hp : s.thread p <;> simp [hp,Thread.inside] at hin hstep

/-- Then every byte has been sent and no writer is left asleep: neither the interrupt for the next
byte nor the wakeup of a writer is ever missed. -/
theorem settled_all_sent (hrun : Machine.run step (init data r) as = some u) (hu : Settled u) :
    u.buf.count = 0 ∧ ∀ p, u.thread p = .idle := by
  have h := run_inv hrun
  have hlock := hu.lock_free h
  have hout : ∀ p, u.thread p = .idle ∨ ∃ c, u.thread p = .asleep c := by
    intro p
    have hacq := hu.acquire p
    have hpro := hu.proceed p
    simp only [step,hlock,if_true] at hacq hpro
    cases hp : u.thread p <;> simp [hp] at hacq hpro ⊢
  have hzero : u.buf.count = 0 := by
    by_contra hne
    rcases h.busy hne with hh | hh | ⟨p,hh⟩
    · exact hh hu.fifo
    · rw [hu.irq] at hh
      cases hh
    · rcases hout p with hp | ⟨c,hp⟩ <;> rw [hp] at hh <;> cases hh
  refine ⟨hzero,fun p => (hout p).resolve_right ?_⟩
  rintro ⟨c,hc⟩
  have hfits := h.fits p
  rw [hc,hzero] at hfits
  cases hfits

theorem settled_echoBetween : ∃ u, Machine.run step (init (fun _ => 0) 0) echoBetween = some u ∧ Settled u ∧
    u.buf.count = 0 ∧ ∀ p, u.thread p = .idle := by
  have hidle : ∀ u, Machine.run step (init (fun _ => 0) 0) echoBetween = some u → Settled u := by
    rintro u ⟨⟩
    refine ⟨rfl,rfl,?_,?_⟩ <;> rintro (_ | _ | _ | _ | p) <;> rfl
  exact ⟨_,rfl,hidle _ rfl,@settled_all_sent (fun _ => 0) 0 echoBetween _ rfl (hidle _ rfl)⟩

end Uart
end Xv6
