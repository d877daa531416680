import Xv6.Console
import Mathlib.Data.BitVec

/-! The buffer of the console holds what the editor has unread and pending, whatever the indices
are modulo `2^32`; and every log is one of the editor and of calls that follow the rules. -/
namespace Xv6.Console

open FileRead (INPUT_BUF_SIZE ctrlD)
open Bytes (newline)

/-- The buffer holds the unread bytes up to `w` and the pending ones up to `e`. -/
structure Rep (c : Cons) (d : Editor) : Prop where
  contents : c.contents = d.unread++d.pending
  w : c.w = c.nread+BitVec.ofNat 32 d.unread.length
  size : d.size ≤ INPUT_BUF_SIZE
  taken : d.taken ≤ d.committed.length
  line : newline ∉ d.pending

variable {c : Cons} {d : Editor}

theorem dvd_wrap : INPUT_BUF_SIZE ∣ 2^32 := by decide

theorem Rep.count (h : Rep c d) : c.count = d.size := by
  rw [← Ring.Buf.length_contents,h.contents,List.length_append,Editor.size]

theorem Rep.count_lt (h : Rep c d) : c.count < 2^32 :=
  (h.count ▸ h.size).trans_lt (by decide)

theorem Rep.edit_sub_write (h : Rep c d) : (c.nwrite-c.w).toNat = d.pending.length := by
  have hlt := h.count_lt
  have hcount := h.count
  rw [Editor.size] at hcount
  rw [c.nwrite_eq,h.w,hcount,BitVec.ofNat_add,← BitVec.add_assoc,BitVec.add_comm _ (BitVec.ofNat 32 d.pending.length),
    BitVec.add_sub_cancel,BitVec.toNat_ofNat,Nat.mod_eq_of_lt (by omega)]

theorem Rep.nwrite_eq_w (h : Rep c d) : c.nwrite = c.w ↔ d.pending = [] := by
  rw [← List.length_eq_zero_iff,← h.edit_sub_write]
  constructor
  · intro heq
    simp [heq]
  · intro h0
    bv_omega

theorem Rep.write_sub_read (h : Rep c d) : (c.w-c.nread).toNat = d.unread.length := by
  have hlt := h.count_lt
  have hcount := h.count
  rw [Editor.size] at hcount
  rw [h.w,BitVec.add_comm,BitVec.add_sub_cancel,BitVec.toNat_ofNat,Nat.mod_eq_of_lt (by omega)]

theorem Rep.nread_eq_w (h : Rep c d) : c.nread = c.w ↔ d.unread = [] := by
  rw [← List.length_eq_zero_iff,← h.write_sub_read]
  constructor
  · intro heq
    simp [heq]
  · intro h0
    bv_omega

theorem Rep.count_ne_zero (h : Rep c d) (hp : d.pending ≠ []) : c.count ≠ 0 := by
  have := List.length_pos_iff.2 hp
  rw [h.count,Editor.size]
  omega

theorem Rep.split_last (h : Rep c d) (hp : d.pending ≠ []) :
    c.unput.contents = d.unread++d.pending.dropLast ∧ c.last = d.pending.getLast hp := by
  have hc := Ring.Buf.contents_unput (h.count_ne_zero hp)
  rw [h.contents,← List.dropLast_append_getLast hp,← List.append_assoc] at hc
  obtain ⟨hinit,hlast⟩ := List.append_inj' hc rfl
  exact ⟨hinit.symm,(List.cons.inj hlast).1.symm⟩

theorem Rep.erase (h : Rep c d) (hp : d.pending ≠ []) :
    Rep (erase c) {d with pending := d.pending.dropLast} where
  contents := (h.split_last hp).1
  w := h.w
  size := by
    have := h.size
    simp only [Editor.size,Editor.unread,List.length_dropLast] at this ⊢
    omega
  taken := h.taken
  line hmem := h.line (List.mem_of_mem_dropLast hmem)

theorem Rep.killLine (k : ℕ) (h : Rep c d) (hk : d.pending.length = k) :
    Rep (killLine k c) {d with pending := []} := by
  induction k generalizing c d with
  | zero =>
    obtain ⟨committed,taken,pending⟩ := d
    cases List.length_eq_zero_iff.1 hk
    exact h
  | succ k ih =>
    have hp : d.pending ≠ [] := List.ne_nil_of_length_eq_add_one hk
    have hne : c.nwrite ≠ c.w := fun heq => hp (h.nwrite_eq_w.1 heq)
    have hlast : c.last ≠ newline := by
      rw [(h.split_last hp).2]
      exact fun heq => h.line (heq ▸ List.getLast_mem hp)
    rw [Console.killLine,if_pos ⟨hne,hlast⟩]
    exact ih (d := {d with pending := d.pending.dropLast}) (h.erase hp) (by simp [hk])

theorem Rep.store (h : Rep c d) {x : UInt8} (hx : d.size < INPUT_BUF_SIZE) :
    Rep (store c x) (d.add (if x = carriageReturn then newline else x)) := by
  unfold Console.store Editor.add
  generalize (if x = carriageReturn then newline else x) = y
  have hroom : c.count < INPUT_BUF_SIZE := h.count ▸ hx
  have hput : (c.put y).contents = d.unread++d.pending++[y] := by
    rw [Ring.Buf.contents_put dvd_wrap (by decide) hroom,h.contents]
  have hcount : (c.put y).count = d.size+1 := by
    rw [← Ring.Buf.length_contents,hput,Editor.size]
    simp [Nat.add_assoc]
  have hdrop : (d.committed++(d.pending++[y])).drop d.taken = d.unread++(d.pending++[y]) :=
    List.drop_append_of_le_length h.taken
  dsimp only
  rw [hcount]
  split
  · refine ⟨?_,?_,?_,?_,by simp⟩
    · change (c.put y).contents = (d.committed++(d.pending++[y])).drop d.taken++[]
      rw [hdrop,hput,List.append_nil,List.append_assoc]
    · change (c.put y).nwrite = (c.put y).nread+BitVec.ofNat 32
        ((d.committed++(d.pending++[y])).drop d.taken).length
      rw [Ring.Buf.nwrite_eq (c.put y),← Ring.Buf.length_contents,hdrop,hput,List.append_assoc]
    · change ((d.committed++(d.pending++[y])).drop d.taken).length+0 ≤ _
      rw [hdrop]
      simp only [Editor.size,List.length_append,List.length_singleton] at hx ⊢
      omega
    · have := h.taken
      simp only [List.length_append]
      omega
  · rename_i hno
    refine ⟨?_,h.w,?_,h.taken,?_⟩
    · change (c.put y).contents = d.unread++(d.pending++[y])
      rw [hput,List.append_assoc]
    · simp only [Editor.size,Editor.unread,List.length_append,List.length_singleton] at hx ⊢
      omega
    · have := h.line
      simp only [List.mem_append,List.mem_singleton,not_or]
      exact ⟨this,fun heq => hno (.inl heq.symm)⟩

theorem Rep.type (h : Rep c d) (x : UInt8) : Rep (consoleintr c x) (d.type x) := by
  unfold consoleintr Editor.type
  by_cases hP : x = ctrlP
  · rwa [if_pos hP,if_pos (.inr hP)]
  rw [if_neg hP]
  by_cases hU : x = ctrlU
  · have h0 : ¬ (x = 0 ∨ x = ctrlP) := by subst hU; decide
    rw [if_pos hU,if_neg h0,if_pos hU]
    exact h.killLine _ h.edit_sub_write.symm
  rw [if_neg hU]
  by_cases hH : x = ctrlH ∨ x = delete
  · have h0 : ¬ (x = 0 ∨ x = ctrlP) := by rcases hH with rfl | rfl <;> decide
    rw [if_pos hH,if_neg h0,if_neg hU,if_pos hH]
    split
    · rename_i hne
      exact h.erase fun hp => hne (h.nwrite_eq_w.2 hp)
    · rename_i heq
      have hp := h.nwrite_eq_w.1 (not_not.1 heq)
      rwa [hp,List.dropLast_nil,← hp]
  rw [if_neg hH]
  by_cases h0 : x = 0
  · rwa [if_neg fun hh => hh.1 h0,if_pos (.inl h0)]
  rw [if_neg (by simp [h0,hP] : ¬ (x = 0 ∨ x = ctrlP)),if_neg hU,if_neg hH,h.count]
  by_cases hroom : d.size < INPUT_BUF_SIZE
  · rw [if_pos ⟨h0,hroom⟩,if_pos hroom]
    exact h.store hroom
  · rwa [if_neg fun hh => hroom hh.2,if_neg hroom]

theorem Rep.drop (h : Rep c d) (hne : c.nread ≠ c.w) :
    d.unread.head? = some c.front ∧ Rep {c with toBuf := c.drop} {d with taken := d.taken+1} := by
  have hun : d.unread ≠ [] := fun hh => hne (h.nread_eq_w.2 hh)
  obtain ⟨x,rest,hx⟩ := List.exists_cons_of_ne_nil hun
  have hrest : d.committed.drop (d.taken+1) = rest := by
    rw [← List.drop_drop,← Editor.unread,hx,List.drop_one,List.tail_cons]
  have hcount : c.count ≠ 0 := by
    rw [h.count,Editor.size,hx,List.length_cons]
    omega
  have hcons := Ring.Buf.contents_drop hcount
  rw [h.contents,hx,List.cons_append] at hcons
  obtain ⟨hfront,htail⟩ := List.cons.inj hcons
  refine ⟨by rw [hx,List.head?_cons,hfront],?_,?_,?_,?_,h.line⟩
  · change c.drop.contents = d.committed.drop (d.taken+1)++d.pending
    rw [hrest,htail]
  · change c.w = c.nread+1+BitVec.ofNat 32 (d.committed.drop (d.taken+1)).length
    rw [hrest,h.w,hx,List.length_cons,Nat.add_comm,BitVec.ofNat_add,← BitVec.add_assoc]
    rfl
  · have hsize := h.size
    simp only [Editor.size,Editor.unread,hrest] at hsize ⊢
    rw [← Editor.unread,hx,List.length_cons] at hsize
    omega
  · have hlen := congrArg List.length hx
    simp only [Editor.unread,List.length_drop,List.length_cons] at hlen
    change d.taken+1 ≤ d.committed.length
    omega

def readerOf : Option (ℕ × ℕ) → Reader
  | none => .idle
  | some (n,i) => .reading n i

/-- A stretch of a call is one of the editor and of the reader, and all its events are about the
calling process. -/
theorem Rep.readLoop (p : ℕ) (killed : Bool) (n i : ℕ) (h : Rep c d) :
    ∃ d', Machine.run Editor.edit d (readLoop p killed n i c).2.1 = some d' ∧
      Rep (readLoop p killed n i c).1 d' ∧
      Machine.run Reader.advance (.reading n i) (readLoop p killed n i c).2.1 =
        some (readerOf (readLoop p killed n i c).2.2) ∧
      ∀ e ∈ (readLoop p killed n i c).2.1, e.process = some p := by
  induction n generalizing i c d with
  | zero => exact ⟨d,rfl,h,by simp [Console.readLoop,Machine.run,Reader.advance,readerOf],by simp [Console.readLoop,Event.process]⟩
  | succ n ih =>
    rw [Console.readLoop]
    by_cases hw : c.nread = c.w
    · rw [if_pos hw]
      cases killed
      · exact ⟨d,rfl,h,rfl,by simp⟩
      · exact ⟨d,rfl,h,rfl,by simp [Event.process]⟩
    rw [if_neg hw]
    obtain ⟨hhead,hrep⟩ := h.drop hw
    dsimp only
    by_cases hD : c.front = ctrlD
    · rw [if_pos hD]
      rw [hD] at hhead
      cases i with
      | zero =>
        refine ⟨_,?_,hrep,rfl,by simp [Event.process]⟩
        simp [Machine.run,Editor.edit,hhead]
      | succ i =>
        rw [if_pos (Nat.succ_pos i)]
        refine ⟨d,by simp [Machine.run,Editor.edit,hhead],?_,?_,by simp [Event.process]⟩
        · have hback : c.nread+1-1 = c.nread := BitVec.add_sub_cancel _ _
          change Rep ⟨⟨c.data,c.nread+1-1,c.nwrite⟩,c.w⟩ d
          rwa [hback]
        · simp [Machine.run,Reader.advance,readerOf]
    rw [if_neg hD]
    by_cases hN : c.front = newline
    · rw [if_pos hN]
      refine ⟨_,?_,hrep,?_,by simp [Event.process]⟩
      · simp [Machine.run,Editor.edit,hhead,hD]
      · simp [Machine.run,Reader.advance,readerOf,hN]
    · rw [if_neg hN]
      obtain ⟨d',hd,hr,ha,hp⟩ := ih (i+1) hrep
      refine ⟨d',?_,hr,?_,?_⟩
      · simpa [Machine.run,Editor.edit,hhead,hD] using hd
      · simpa [Machine.run,Reader.advance,hN] using ha
      · simpa [Event.process] using hp

theorem run_track {p : ℕ} {es : List Event} (hp : ∀ e ∈ es, e.process = some p)
    (readers : ℕ → Reader) : Machine.run track readers es =
      (Machine.run Reader.advance (readers p) es).map (Function.update readers p) := by
  induction es generalizing readers with
  | nil => simp
  | cons e es ih =>
    have he : track readers e = ((readers p).advance e).map (Function.update readers p) := by
      rw [track,hp e List.mem_cons_self]
    rw [Machine.run,Machine.run,he]
    cases hadv : (readers p).advance e with
    | none => rfl
    | some r =>
      have hrest := ih (fun e' he' => hp e' (List.mem_cons_of_mem e he')) (Function.update readers p r)
      have hup : Function.update (Function.update readers p r) p = Function.update readers p :=
        funext fun v => Function.update_idem ..
      simpa [hup] using hrest

/-- The log is one of the editor and of the readers, and the state is what they have come to. -/
def Inv (s : System) : Prop :=
  ∃ d, Machine.run Editor.edit Editor.empty s.log = some d ∧ Rep s.cons d ∧
    Machine.run track (fun _ => .idle) s.log = some fun p => readerOf (s.calls p)

theorem inv_init (data : Fin INPUT_BUF_SIZE → UInt8) (k : BitVec 32) : Inv (init data k) := by
  refine ⟨Editor.empty,rfl,⟨?_,?_,by decide,le_rfl,by simp [Editor.empty]⟩,rfl⟩
  · exact Ring.Buf.contents_of_empty rfl
  · change k = k+0
    simp

theorem inv_resume {s : System} {p n i : ℕ} {readers : ℕ → Reader} (killed : Bool)
    (hd : Machine.run Editor.edit Editor.empty s.log = some d) (hrep : Rep s.cons d)
    (ht : Machine.run track (fun _ => .idle) s.log = some readers)
    (hp : readers p = .reading n i) (hq : ∀ q, q ≠ p → readers q = readerOf (s.calls q)) :
    Inv (resume s p killed n i) := by
  obtain ⟨d',hd',hrep',hadv,hproc⟩ := hrep.readLoop p killed n i
  refine ⟨d',Machine.run_append.2 ⟨d,hd,hd'⟩,hrep',Machine.run_append.2 ⟨readers,ht,?_⟩⟩
  rw [run_track hproc,hp,hadv,Option.map_some]
  congr 1
  funext q
  by_cases hqp : q = p
  · subst hqp
    simp [resume]
  · simp [resume,hqp,hq q hqp]

theorem inv_step {s t : System} (a : Action) (h : Inv s) (ht : step s a = some t) : Inv t := by
  obtain ⟨d,hd,hrep,htr⟩ := h
  cases a with
  | intr x =>
    cases ht
    exact ⟨d.type x,Machine.run_append.2 ⟨d,hd,rfl⟩,hrep.type x,Machine.run_append.2 ⟨_,htr,rfl⟩⟩
  | read p n killed =>
    simp only [step,Option.ite_none_right_eq_some,Option.some.injEq] at ht
    obtain ⟨hidle,rfl⟩ := ht
    have hcalled : Machine.run track (fun _ => .idle) (s.log++[.called p n]) =
        some (Function.update (fun q => readerOf (s.calls q)) p (.reading n.toInt.toNat 0)) := by
      refine Machine.run_append.2 ⟨_,htr,?_⟩
      simp [Machine.run,track,Event.process,hidle,readerOf,Reader.advance]
    exact inv_resume killed (Machine.run_append.2 ⟨d,hd,rfl⟩) hrep hcalled (Function.update_self ..)
      fun q hq => Function.update_of_ne hq _ _
  | wake p killed =>
    rw [step] at ht
    split at ht
    · cases ht
    · rename_i n i hcall
      cases ht
      exact inv_resume killed hd hrep htr (by simp only [hcall,readerOf]) fun q _ => rfl

theorem committed_type (d : Editor) (x : UInt8) :
    d.committed <+: (d.type x).committed ∧ (d.type x).taken = d.taken := by
  unfold Editor.type Editor.add
  split_ifs <;> simp

/-- Committed bytes stay as they are, and the bytes consumed are the next ones of them. -/
theorem stream_of_run (es : List Event) {d d' : Editor} (h : Machine.run Editor.edit d es = some d') :
    d.committed <+: d'.committed ∧ ∃ rest, d'.committed.drop d.taken = es.filterMap Event.consumed++rest ∧
      d'.taken = d.taken+(es.filterMap Event.consumed).length := by
  induction es generalizing d with
  | nil =>
    cases h
    exact ⟨List.prefix_rfl,_,rfl,rfl⟩
  | cons e es ih =>
    obtain ⟨m,hm,hrun⟩ := Machine.run_cons.1 h
    obtain ⟨hpre,rest,hdrop,htaken⟩ := ih hrun
    have hnext : ∀ x, d.unread.head? = some x → m = {d with taken := d.taken+1} →
        d.committed <+: d'.committed ∧
          d'.committed.drop d.taken = (x::es.filterMap Event.consumed)++rest ∧
          d'.taken = d.taken+(x::es.filterMap Event.consumed).length := by
      rintro x hx rfl
      have hcount : d'.taken = d.taken+(x::es.filterMap Event.consumed).length := by
        rw [htaken,List.length_cons]
        change d.taken+1+_ = _
        omega
      refine ⟨hpre,?_,hcount⟩
      rw [Editor.unread,List.head?_drop] at hx
      obtain ⟨t,ht⟩ := hpre
      have hin : d.taken < d.committed.length := (List.getElem?_eq_some_iff.1 hx).1
      have hlater : (d.committed++t)[d.taken]? = some x := by
        rw [List.getElem?_append_left hin]
        exact hx
      change d.committed++t = d'.committed at ht
      rw [ht] at hlater
      obtain ⟨hlt,hget⟩ := List.getElem?_eq_some_iff.1 hlater
      rw [List.drop_eq_getElem_cons hlt,hget,hdrop,List.cons_append]
    cases e with
    | typed x =>
      cases hm
      obtain ⟨hgrow,hsame⟩ := committed_type d x
      rw [hsame] at hdrop htaken
      exact ⟨hgrow.trans hpre,rest,hdrop,htaken⟩
    | called p n =>
      cases hm
      exact ⟨hpre,rest,hdrop,htaken⟩
    | ret p r =>
      cases hm
      exact ⟨hpre,rest,hdrop,htaken⟩
    | left p =>
      simp only [Editor.edit,Option.ite_none_right_eq_some,Option.some.injEq] at hm
      cases hm.2
      exact ⟨hpre,rest,hdrop,htaken⟩
    | took p x =>
      simp only [Editor.edit,Option.ite_none_right_eq_some,Option.some.injEq] at hm
      obtain ⟨hc,hs,ht⟩ := hnext x hm.1.1 hm.2.symm
      exact ⟨hc,rest,hs,ht⟩
    | ate p =>
      simp only [Editor.edit,Option.ite_none_right_eq_some,Option.some.injEq] at hm
      obtain ⟨hc,hs,ht⟩ := hnext ctrlD hm.1 hm.2.symm
      exact ⟨hc,rest,hs,ht⟩

/-- A call that finds a control-D first consumes it and returns 0. -/
theorem Rep.read_ctrlD (h : Rep c d) (hD : d.unread.head? = some ctrlD) (p n : ℕ) (killed : Bool) :
    (Console.readLoop p killed (n+1) 0 c).2.1 = [.ate p,.ret p 0] := by
  have hne : c.nread ≠ c.w := by
    intro heq
    rw [h.nread_eq_w.1 heq] at hD
    cases hD
  have hfront : c.front = ctrlD := Option.some.inj ((h.drop hne).1.symm.trans hD)
  simp [Console.readLoop,hne,hfront]

/-- In every run from an empty buffer, for any interleaving of characters and calls: the log is
one of the editor and of calls that follow the rules of `Reader.advance`; `r ≤ w ≤ e ≤ r+128` modulo
`2^32`, and the buffer holds what the editor has; the bytes consumed are the committed ones, in
order; no committed byte changes; and where a control-D is next, a call made then consumes it and
returns 0. -/
theorem console_line_discipline {data : Fin INPUT_BUF_SIZE → UInt8} {k : BitVec 32}
    {as : List Action} {s : System} (h : Machine.run step (init data k) as = some s) :
    ∃ d, Machine.run Editor.edit Editor.empty s.log = some d ∧
      Machine.run track (fun _ => .idle) s.log = some (fun p => readerOf (s.calls p)) ∧
      ((s.cons.w-s.cons.nread).toNat ≤ (s.cons.nwrite-s.cons.nread).toNat ∧
        (s.cons.nwrite-s.cons.nread).toNat ≤ INPUT_BUF_SIZE ∧
        s.cons.contents = d.unread++d.pending ∧
        (s.cons.w-s.cons.nread).toNat = d.unread.length) ∧
      s.log.filterMap Event.consumed = d.committed.take d.taken ∧
      (∀ old d₀, old <+: s.log → Machine.run Editor.edit Editor.empty old = some d₀ →
        d₀.committed <+: d.committed) ∧
      ∀ p n killed, d.unread.head? = some ctrlD → s.calls p = none → 0 < n.toInt →
        ∃ t, step s (.read p n killed) = some t ∧ t.log = s.log++[.called p n,.ate p,.ret p 0] := by
  obtain ⟨d,hd,hrep,ht⟩ := Machine.run_invariant (fun _ a _ hinv hstep => inv_step a hinv hstep)
    (inv_init data k) h
  have hcount : (s.cons.nwrite-s.cons.nread).toNat = d.size := hrep.count
  have hsize := hrep.size
  refine ⟨d,hd,ht,⟨?_,hcount ▸ hsize,hrep.contents,hrep.write_sub_read⟩,?_,?_,?_⟩
  · rw [hrep.write_sub_read,hcount]
    exact Nat.le_add_right _ _
  · obtain ⟨-,rest,hdrop,htaken⟩ := stream_of_run s.log hd
    change d.committed.drop 0 = _ at hdrop
    change d.taken = 0+_ at htaken
    rw [List.drop_zero] at hdrop
    rw [hdrop,htaken,Nat.zero_add,List.take_left]
  · rintro old d₀ ⟨rest,hrest⟩ hold
    rw [← hrest] at hd
    obtain ⟨m,hm,hrun⟩ := Machine.run_append.1 hd
    cases hm.symm.trans hold
    exact (stream_of_run rest hrun).1
  · intro p n killed hD hidle hn
    obtain ⟨m,hm⟩ := Nat.exists_eq_succ_of_ne_zero (show n.toInt.toNat ≠ 0 by omega)
    refine ⟨_,if_pos hidle,?_⟩
    change (s.log++[.called p n])++(Console.readLoop p killed n.toInt.toNat 0 s.cons).2.1 = _
    rw [hm,hrep.read_ctrlD hD,List.append_assoc]
    rfl

/-- `a`, `b`, control-H and CR are typed while the indices wrap, and a process reads. -/
theorem console_line_discipline_wrap : ∃ s, Machine.run step (init (fun _ => 0) (2^32-1))
      [.intr 97,.intr 98,.intr ctrlH,.intr carriageReturn,.read 1 10 false] = some s ∧
    s.log.filterMap Event.consumed = [97,newline] ∧ s.cons.nread = 1 ∧
    ∃ d, Machine.run Editor.edit Editor.empty s.log = some d ∧ d.committed.take d.taken = [97,newline] := by
  have hrun := Option.eq_some_of_isSome (o := Machine.run step (init (fun _ => 0) (2^32-1))
    [.intr 97,.intr 98,.intr ctrlH,.intr carriageReturn,.read 1 10 false]) rfl
  obtain ⟨d,hd,-,-,hconsumed,-⟩ := console_line_discipline hrun
  exact ⟨_,hrun,rfl,rfl,d,hd,hconsumed.symm⟩

/-- Two reads sleep with 128 bytes each when one control-D is typed. -/
def twoSleepers : List Action :=
  List.replicate 128 (.intr 97)++[.read 1 200 false]++List.replicate 128 (.intr 98)++
    [.read 2 200 false,.intr ctrlD,.wake 1 false,.wake 2 false,.read 3 10 false]

/-- Both return early, each puts the control-D back, and only the third read gets its 0. -/
theorem ctrlD_ends_two_reads : ∃ s, Machine.run step (init (fun _ => 0) 0) twoSleepers = some s ∧
    s.log.count (.typed ctrlD) = 1 ∧
    [.left 1,.ret 1 128,.left 2,.ret 2 128,.called 3 10,.ate 3,.ret 3 0] <:+ s.log :=
  Machine.exists_run_of_any (by decide +kernel)

end Xv6.Console
