import Xv6.Primes

/-! Every call of every process of the sieve keeps the invariant and leaves less to do. -/
namespace Xv6
namespace Primes

open Sieve

namespace State

variable {s : State} {i k q r : ℕ} {c : Proc} {l : List ℕ}

@[simp] theorem set_procs_self : (s.set i c).procs i = c := Function.update_self _ _ _
theorem set_procs_ne (h : k ≠ i) : (s.set i c).procs k = s.procs k := Function.update_of_ne h _ _
@[simp] theorem set_n : (s.set i c).n = s.n := rfl
@[simp] theorem set_pipes : (s.set i c).pipes = s.pipes := rfl
@[simp] theorem set_queue : (s.set i c).queue = s.queue := rfl
@[simp] theorem set_out : (s.set i c).out = s.out := rfl
@[simp] theorem setQueue_n : (s.setQueue q l).n = s.n := rfl
@[simp] theorem setQueue_pipes : (s.setQueue q l).pipes = s.pipes := rfl
@[simp] theorem setQueue_procs : (s.setQueue q l).procs = s.procs := rfl
@[simp] theorem setQueue_out : (s.setQueue q l).out = s.out := rfl
@[simp] theorem setQueue_self : (s.setQueue q l).queue q = l := Function.update_self _ _ _
theorem setQueue_ne (h : r ≠ q) : (s.setQueue q l).queue r = s.queue r := Function.update_of_ne h _ _

end State

/-- Between `s` and `t` only process `i` and its two pipes differ. -/
structure Local (s t : State) (i : ℕ) : Prop where
  n : t.n = s.n
  procs : ∀ k, k ≠ i → t.procs k = s.procs k
  queue : ∀ q, q ≠ i → q+1 ≠ i → t.queue q = s.queue q

namespace Local

variable {N i q : ℕ} {s t : State}

theorem fut_lt (h : Local s t i) : ∀ k < i, fut N t k = fut N s k
  | 0,_ => rfl
  | k+1,hk => by
    rw [fut,fut,h.queue k (by omega) (by omega),h.procs k (by omega),h.fut_lt k (by omega)]

theorem fut_self (h : Local s t i) (hq : ∀ q, q+1 = i → t.queue q = s.queue q) :
    fut N t i = fut N s i := by
  cases i with
  | zero => rfl
  | succ k => rw [fut,fut,hq k rfl,h.procs k (by omega),h.fut_lt k (by omega)]

theorem fut_read (h : Local s t (q+1)) {num : ℕ} (hq : s.queue q = num::t.queue q) :
    fut N s (q+1) = num::fut N t (q+1) := by
  rw [fut,fut,hq,h.procs q (by omega),h.fut_lt q (by omega),List.cons_append]

theorem fut_ne (h : Local s t i) (hsend : fut N t (i+1) = fut N s (i+1)) :
    ∀ k, k ≠ i → fut N t k = fut N s k
  | 0,_ => rfl
  | k+1,hk => by
    by_cases hki : k = i
    · rw [hki,hsend]
    · rw [fut,fut,h.queue k hki hk,h.procs k hki,h.fut_ne hsend k hki]

end Local

section Local

variable {N i : ℕ} {s t : State}

theorem Ok.of_same {k : ℕ} (h : Ok N s k) (hn : t.n = s.n) (hp : t.procs k = s.procs k)
    (hf : fut N t k = fut N s k) : Ok N t k := by
  constructor <;> simp only [hn,hp,hf]
  exacts [h.main,h.worker,h.last,h.inner,h.child,h.dividend,h.input,h.output,h.writes,h.reads,h.eof,
    h.first,h.own,h.room]

/-- Process `i` has less to do, or one more character is printed. -/
def Cheaper (N : ℕ) (s t : State) (i : ℕ) : Prop :=
  cost N t i < cost N s i ∧ t.out = s.out ∨
    cost N t i = cost N s i ∧ t.out.length = s.out.length+1

theorem Inv.length_out_le (h : Inv N s) : s.out.length ≤ (lines (numbers N)).length := by
  rw [← h.printed,List.length_append]
  omega

theorem Local.total_lt (hL : Local s t i) (ht : Inv N t) (hi : i < s.n)
    (hsend : fut N t (i+1) = fut N s (i+1)) (hcost : Cheaper N s t i) : total N t < total N s := by
  have hne : ∀ k, k ≠ i → cost N t k = cost N s k := fun k hk => by
    rw [cost,cost,hL.procs k hk,hL.fut_ne hsend k hk]
  have hle := ht.length_out_le
  unfold total
  rw [hL.n]
  rcases hcost with ⟨hc,ho⟩ | ⟨hc,ho⟩
  · rw [ho]
    refine Nat.add_lt_add_right (Finset.sum_lt_sum (fun k _ => ?_) ⟨i,Finset.mem_range.2 hi,hc⟩) _
    by_cases hk : k = i
    · exact hk ▸ hc.le
    · exact (hne k hk).le
  · have hsum : ∑ k ∈ Finset.range s.n, cost N t k = ∑ k ∈ Finset.range s.n, cost N s k := by
      refine Finset.sum_congr rfl fun k _ => ?_
      by_cases hk : k = i
      · exact hk ▸ hc
      · exact hne k hk
    omega

theorem Inv.local (h : Inv N s) (hL : Local s t i) (hp : t.pipes = s.pipes)
    (hw : i+1 = s.n → (holdsWrite (t.procs i).pc ↔ holdsWrite (s.procs i).pc))
    (hq : ∀ q, s.n ≤ q+1 → t.queue q = [])
    (hsend : fut N t (i+1) = fut N s (i+1)) (hok : Ok N t i) (hout : i+1 ≠ s.n → t.out = s.out)
    (hrest : i+1 = s.n → t.out++restOf N i (t.procs i) (fut N t i) =
      s.out++restOf N i (s.procs i) (fut N s i))
    (hi : i < s.n) (hcost : Cheaper N s t i) : Inv N t ∧ Shrinks N s t := by
  have hpos := h.pos
  suffices hInv : Inv N t from ⟨hInv,.inr ⟨hL.n,hL.total_lt hInv hi hsend hcost⟩⟩
  refine ⟨hL.n ▸ h.pos,?_,fun q hq' => hq q (hL.n ▸ hq'),fun k hk => ?_,?_⟩
  · rw [hL.n,hp]
    by_cases hl : i+1 = s.n
    · have he : s.n-1 = i := by omega
      have hm := h.made
      rw [he] at hm ⊢
      rw [hw hl]
      exact hm
    · rw [hL.procs (s.n-1) (by omega)]
      exact h.made
  · by_cases hki : k = i
    · exact hki ▸ hok
    · exact (h.ok k (hL.n ▸ hk)).of_same hL.n (hL.procs k hki) (hL.fut_ne hsend k hki)
  · rw [hL.n,← h.printed]
    by_cases hl : i+1 = s.n
    · have he : s.n-1 = i := by omega
      rw [he]
      exact hrest hl
    · rw [hout hl,hL.procs (s.n-1) (by omega),hL.fut_ne hsend (s.n-1) (by omega)]

theorem Ok.move (h : Ok N s i) (hn : t.n = s.n) (hchild : (t.procs i).child = (s.procs i).child)
    (hdiv : (t.procs i).dividend = (s.procs i).dividend) (hpp : (t.procs i).p = (s.procs i).p)
    (hmain : mainPc (s.procs i).pc → mainPc (t.procs i).pc)
    (hworker : workerPc (s.procs i).pc → workerPc (t.procs i).pc)
    (hlast : unforkedPc (s.procs i).pc → unforkedPc (t.procs i).pc)
    (hinner : forkedPc (s.procs i).pc → forkedPc (t.procs i).pc)
    (ha : ¬ inherits (s.procs i).pc) (hb : ¬ inherits (t.procs i).pc)
    (hhw : holdsWrite (t.procs i).pc → holdsWrite (s.procs i).pc)
    (hw : ∀ q, q ∈ (t.procs i).w ↔ q ∈ (s.procs i).w ∧ holdsWrite (t.procs i).pc)
    (hr : i ≠ 0 → holdsRead (t.procs i).pc → i-1 ∈ (t.procs i).r)
    (he : i ≠ 0 → atEof (t.procs i).pc → fut N t i = [])
    (hf : ¬ unchecked (t.procs i).pc)
    (ho : unforkedPc (t.procs i).pc → ¬ holdsWrite (t.procs i).pc)
    (hroom : i ≠ 0 → i+taken (t.procs i).pc+(fut N t i).length ≤ N) : Ok N t i where
  main hi := hmain (h.main hi)
  worker hi := hworker (h.worker hi)
  last hi := hlast (h.last (hn ▸ hi))
  inner hi := hinner (h.inner (hn ▸ hi))
  child := by rw [hchild,hn,h.child]
  dividend := ⟨fun hi => absurd hi hb,fun _ => hdiv ▸ h.dividend.2 ha⟩
  input hi := hpp ▸ h.input hi
  output hi := hpp ▸ h.output (hhw hi)
  writes q := by
    rw [hw,h.writes]
    constructor
    · rintro ⟨⟨hq,_⟩ | ⟨_,hi⟩,hh⟩
      · exact .inl ⟨hq,hh⟩
      · exact absurd hi ha
    · rintro (⟨hq,hh⟩ | ⟨_,hi⟩)
      · exact ⟨.inl ⟨hq,hhw hh⟩,hh⟩
      · exact absurd hi hb
  reads := hr
  eof := he
  first hi := absurd hi hf
  own hi hh := absurd hh (ho (hlast (h.last (hn ▸ hi))))
  room := hroom

/-- The places two consecutive calls of one process can be at, `d` numbers being read. -/
structure Edge (N d : ℕ) (a b : Pc) : Prop where
  main : mainPc a → mainPc b
  worker : workerPc a → workerPc b
  last : unforkedPc a → unforkedPc b
  inner : forkedPc a → forkedPc b
  old : ¬ inherits a
  new : ¬ inherits b
  read : holdsRead b → holdsRead a
  write : holdsWrite b → holdsWrite a
  first : ¬ unchecked b
  own : unforkedPc b → ¬ holdsWrite b
  stays : unforkedPc a → (holdsWrite b ↔ holdsWrite a)
  weight : weight N b < weight N a+2*d
  taken : taken b ≤ taken a+d

theorem Ok.target_eq (h : Ok N s i) (hi : holdsWrite (s.procs i).pc) : (s.procs i).target = i := by
  have hn : ¬ inherits (s.procs i).pc := by
    revert hi
    cases (s.procs i).pc <;> simp [holdsWrite,inherits]
  rw [Proc.target,h.dividend.2 hn,h.output hi]

theorem Ok.source_eq (h : Ok N s i) (hi : i ≠ 0) (hn : ¬ inherits (s.procs i).pc) :
    (s.procs i).source = i-1 := by
  rw [Proc.source,h.dividend.2 hn,h.input hi]

structure Ends (c c' : Proc) : Prop where
  child : c'.child = c.child
  dividend : c'.dividend = c.dividend
  p : c'.p = c.p
  w : c'.w = c.w ∧ (holdsWrite c.pc → holdsWrite c'.pc) ∨
    c'.w = c.w.erase c.target ∧ holdsWrite c.pc ∧ ¬ holdsWrite c'.pc ∨ c'.w = ∅ ∧ ¬ holdsWrite c'.pc
  r : c'.r = c.r ∨ c'.r = c.r.erase c.target ∧ holdsWrite c.pc ∨ ¬ holdsRead c'.pc

theorem Ok.turn {d : ℕ} (h : Ok N s i) (hn : t.n = s.n) (hedge : Edge N d (s.procs i).pc (t.procs i).pc)
    (hends : Ends (s.procs i) (t.procs i)) (he : i ≠ 0 → atEof (t.procs i).pc → fut N t i = [])
    (hroom : i ≠ 0 → i+taken (t.procs i).pc+(fut N t i).length ≤ N) : Ok N t i := by
  refine h.move hn hends.child hends.dividend hends.p hedge.main hedge.worker hedge.last hedge.inner
    hedge.old hedge.new hedge.write (fun q => ?_) (fun hi hr => ?_) he hedge.first hedge.own hroom
  · have hq : q ∈ (s.procs i).w → q = i ∧ holdsWrite (s.procs i).pc := fun hq => by
      rcases (h.writes q).1 hq with hh | ⟨_,hh⟩
      · exact hh
      · exact absurd hh hedge.old
    rcases hends.w with ⟨hw,hk⟩ | ⟨hw,ha,hb⟩ | ⟨hw,hb⟩
    · rw [hw]
      exact ⟨fun hh => ⟨hh,hk (hq hh).2⟩,And.left⟩
    · rw [hw,h.target_eq ha,Finset.mem_erase]
      exact ⟨fun hh => absurd (hq hh.2).1 hh.1,fun hh => absurd hh.2 hb⟩
    · rw [hw]
      exact ⟨fun hh => absurd hh (Finset.notMem_empty q),fun hh => absurd hh.2 hb⟩
  · have hold := h.reads hi (hedge.read hr)
    rcases hends.r with hh | ⟨hh,ha⟩ | hh
    · rwa [hh]
    · rw [hh,h.target_eq ha,Finset.mem_erase]
      exact ⟨by omega,hold⟩
    · exact absurd hr hh

/-- One call of process `i`, outside `pipe`, `fork` and the first `close` of a child. -/
theorem Inv.turn {d : ℕ} (h : Inv N s) (hi : i < s.n) (hL : Local s t i) (hp : t.pipes = s.pipes)
    (hq : ∀ q, s.n ≤ q+1 → t.queue q = []) (hedge : Edge N d (s.procs i).pc (t.procs i).pc)
    (hends : Ends (s.procs i) (t.procs i)) (he : i ≠ 0 → atEof (t.procs i).pc → fut N t i = [])
    (hsend : fut N t (i+1) = fut N s (i+1)) (hout : forkedPc (s.procs i).pc → t.out = s.out)
    (hrest : unforkedPc (s.procs i).pc → t.out++restOf N i (t.procs i) (fut N t i) =
      s.out++restOf N i (s.procs i) (fut N s i))
    (hroom : taken (t.procs i).pc+(fut N t i).length ≤ taken (s.procs i).pc+(fut N s i).length)
    (hcost : Cheaper N s t i) : Inv N t ∧ Shrinks N s t := by
  have hok := h.ok i hi
  have hr : i ≠ 0 → i+taken (t.procs i).pc+(fut N t i).length ≤ N := fun h0 => by
    have := hok.room h0
    omega
  exact h.local hL hp (fun hh => hedge.stays (hok.last hh)) hq hsend (hok.turn hL.n hedge hends he hr)
    (fun hh => hout (hok.inner (by omega))) (fun hh => hrest (hok.last hh)) hi hcost

theorem local_set (s : State) (i : ℕ) (c : Proc) : Local s (s.set i c) i :=
  ⟨rfl,fun _ hk => State.set_procs_ne hk,fun _ _ _ => rfl⟩

theorem Inv.set (h : Inv N s) (hi : i < s.n) {c : Proc} (hedge : Edge N 0 (s.procs i).pc c.pc)
    (hends : Ends (s.procs i) c) (he : i ≠ 0 → atEof c.pc → fut N s i = [])
    (hsend : sendOf N i c (fut N s i) = sendOf N i (s.procs i) (fut N s i))
    (hrest : unforkedPc (s.procs i).pc → restOf N i c (fut N s i) = restOf N i (s.procs i) (fut N s i)) :
    Inv N (s.set i c) ∧ Shrinks N s (s.set i c) := by
  have hL := local_set s i c
  have hf : fut N (s.set i c) i = fut N s i := hL.fut_self fun _ _ => rfl
  have hw := hedge.weight
  have htk := hedge.taken
  rw [← State.set_procs_self (s := s) (i := i) (c := c)] at hedge
  refine h.turn hi hL rfl h.empty hedge ?_ ?_ ?_ (fun _ => rfl) (fun hh => ?_) ?_ (.inl ⟨?_,rfl⟩)
  · rwa [State.set_procs_self]
  · rwa [State.set_procs_self,hf]
  · rw [fut,fut,hf,State.set_procs_self,hsend]
    rfl
  · rw [State.set_procs_self,hf,hrest hh]
    rfl
  · rw [State.set_procs_self,hf]
    omega
  · rw [cost,cost,State.set_procs_self,hf]
    omega

theorem mem_w_iff (h : Inv N s) {j q : ℕ} (hj : j < s.n) : q ∈ (s.procs j).w ↔
    q = j ∧ holdsWrite (s.procs j).pc ∨ q+1 = j ∧ inherits (s.procs j).pc := (h.ok j hj).writes q

theorem sendOf_eq_nil {k : ℕ} {c : Proc} {f : List ℕ} (hf : forkedPc c.pc) (hw : ¬ holdsWrite c.pc) :
    sendOf N k c f = [] := by
  cases k <;> cases hc : c.pc <;> simp_all [sendOf,genRest,sendRest,forkedPc,holdsWrite]

theorem Inv.eof (h : Inv N s) {j : ℕ} (hj : j+1 < s.n) (hq : s.queue j = [])
    (hw : s.hasWriter j = false) : fut N s (j+1) = [] := by
  have hn : ¬ holdsWrite (s.procs j).pc := fun hh => by
    refine absurd hw ?_
    rw [State.hasWriter,decide_eq_false_iff_not,not_not]
    exact ⟨j,by omega,(mem_w_iff h (by omega)).2 (.inl ⟨rfl,hh⟩)⟩
  rw [fut,hq,sendOf_eq_nil ((h.ok j (by omega)).inner hj) hn]
  rfl

theorem Inv.hasReader (h : Inv N s) (hi : i+1 < s.n) (hsend : fut N s (i+1) ≠ []) :
    s.hasReader i = true := by
  have hok := h.ok (i+1) hi
  have hr : holdsRead (s.procs (i+1)).pc := by
    have he := hok.eof (by omega)
    cases hc : (s.procs (i+1)).pc <;> simp_all [holdsRead,atEof]
  rw [State.hasReader,decide_eq_true_eq]
  exact ⟨i+1,hi,hok.reads (by omega) hr⟩

theorem read_got {q num : ℕ} (h : read s i q = some (.got num,t)) :
    ∃ l, s.queue q = num::l ∧ t = s.setQueue q l := by
  unfold read at h
  split at h
  · cases h
  · split at h
    · next a l hl =>
        cases h
        exact ⟨l,hl,rfl⟩
    · split at h <;> cases h

theorem read_eof {q : ℕ} (h : read s i q = some (.eof,t)) :
    s.queue q = [] ∧ s.hasWriter q = false ∧ t = s := by
  unfold read at h
  split at h
  · cases h
  · split at h
    · cases h
    · next hl =>
        split at h
        · cases h
        · next hw =>
            cases h
            exact ⟨hl,by simpa using hw,rfl⟩

theorem Inv.got (h : Inv N s) {j num : ℕ} {l : List ℕ} (hi : j+1 < s.n) (hq : s.queue j = num::l)
    {c : Proc} (hedge : Edge N 1 (s.procs (j+1)).pc c.pc) (hends : Ends (s.procs (j+1)) c)
    (he : ¬ atEof c.pc)
    (hsend : ∀ f, sendRest c.prime f c.pc = sendRest (s.procs (j+1)).prime (num::f) (s.procs (j+1)).pc)
    (hrest : unforkedPc (s.procs (j+1)).pc → ∀ f, lastRest c.prime f c.pc =
      lastRest (s.procs (j+1)).prime (num::f) (s.procs (j+1)).pc) :
    Inv N ((s.setQueue j l).set (j+1) c) ∧ Shrinks N s ((s.setQueue j l).set (j+1) c) := by
  have hL : Local s ((s.setQueue j l).set (j+1) c) (j+1) :=
    ⟨rfl,fun _ hk => State.set_procs_ne hk,fun q _ hq' => State.setQueue_ne (by omega)⟩
  have hf : fut N s (j+1) = num::fut N ((s.setQueue j l).set (j+1) c) (j+1) := by
    refine hL.fut_read ?_
    rw [hq,State.set_queue,State.setQueue_self]
  have hw := hedge.weight
  have htk := hedge.taken
  rw [← State.set_procs_self (s := s.setQueue j l) (i := j+1) (c := c)] at hedge
  refine h.turn hi hL rfl (fun q hq' => ?_) hedge ?_ ?_ ?_ (fun _ => rfl) (fun hh => ?_) ?_ (.inl ⟨?_,rfl⟩)
  · by_cases hqj : q = j
    · subst hqj
      rw [h.empty q hq'] at hq
      cases hq
    · rw [State.set_queue,State.setQueue_ne hqj]
      exact h.empty q hq'
  · rwa [State.set_procs_self]
  · rw [State.set_procs_self]
    exact fun _ hh => absurd hh he
  · change _++sendOf N (j+1) _ (fut N _ (j+1)) = _++sendOf N (j+1) _ (fut N s (j+1))
    rw [hf,State.set_procs_self,sendOf,sendOf,hsend,State.set_queue,State.setQueue_ne (by omega)]
  · rw [hf,State.set_procs_self,restOf,restOf,hrest hh]
    rfl
  · rw [hf,State.set_procs_self,List.length_cons]
    omega
  · rw [cost,cost,hf,State.set_procs_self,List.length_cons]
    omega

theorem Inv.wrote (h : Inv N s) {cap num : ℕ} {t' : State} (hi : i < s.n)
    (hw : write cap s i i num = some t') {c : Proc}
    (hedge : Edge N 0 (s.procs i).pc c.pc) (hends : Ends (s.procs i) c) (he : ¬ atEof c.pc)
    (hsend : ∀ f, sendOf N i (s.procs i) f = num::sendOf N i c f)
    (hu : ¬ unforkedPc (s.procs i).pc) : Inv N (t'.set i c) ∧ Shrinks N s (t'.set i c) := by
  have hin : i+1 < s.n := by
    by_contra hh
    exact hu ((h.ok i hi).last (by omega))
  have hr : s.hasReader i = true := by
    refine h.hasReader hin ?_
    rw [fut,hsend]
    simp
  obtain rfl : t' = s.setQueue i (s.queue i++[num]) := by
    unfold write at hw
    rw [hr] at hw
    split at hw
    · cases hw
    · split at hw
      · contradiction
      · split at hw
        · cases hw
        · cases hw
          rfl
  have hL : Local s ((s.setQueue i (s.queue i++[num])).set i c) i :=
    ⟨rfl,fun _ hk => State.set_procs_ne hk,fun q hq' _ => State.setQueue_ne hq'⟩
  have hf : fut N ((s.setQueue i (s.queue i++[num])).set i c) i = fut N s i :=
    hL.fut_self fun q hq => State.setQueue_ne (by omega)
  have hwt := hedge.weight
  have htk := hedge.taken
  rw [← State.set_procs_self (s := s.setQueue i (s.queue i++[num])) (i := i) (c := c)] at hedge
  refine h.turn hi hL rfl (fun q hq' => ?_) hedge ?_ ?_ ?_ (fun _ => rfl) (fun hh => absurd hh hu) ?_
    (.inl ⟨?_,rfl⟩)
  · rw [State.set_queue,State.setQueue_ne (by omega)]
    exact h.empty q hq'
  · rwa [State.set_procs_self]
  · rw [State.set_procs_self]
    exact fun _ hh => absurd hh he
  · rw [fut,fut,hf,State.set_procs_self,hsend,State.set_queue,State.setQueue_self,List.append_assoc]
    rfl
  · rw [State.set_procs_self,hf]
    omega
  · rw [cost,cost,State.set_procs_self,hf]
    omega

theorem Inv.makePipe (h : Inv N s) (hi : i < s.n) {b : Pc} (hlast : unforkedPc (s.procs i).pc)
    (hf : ¬ forkedPc (s.procs i).pc) (hw : ¬ holdsWrite (s.procs i).pc)
    (hin : ¬ inherits (s.procs i).pc) (hread : holdsRead (s.procs i).pc)
    (hmain : mainPc (s.procs i).pc → mainPc b)
    (hworker : workerPc (s.procs i).pc → workerPc b) (hb : unforkedPc b) (hbw : holdsWrite b)
    (hbi : ¬ inherits b) (hbe : ¬ atEof b) (hbf : ¬ unchecked b)
    (hsend : ∀ f, sendOf N i {s.procs i with pc := b} f = sendOf N i (s.procs i) f)
    (hrest : ∀ f, restOf N i {s.procs i with pc := b} f = restOf N i (s.procs i) f)
    (hwt : weight N b < weight N (s.procs i).pc) (htk : taken b = taken (s.procs i).pc) :
    Inv N (makePipe s i b) ∧ Shrinks N s (makePipe s i b) := by
  have hok := h.ok i hi
  have hn : s.n = i+1 := by
    by_contra hh
    exact hf (hok.inner (by omega))
  have hpipes : s.pipes = i := by
    have hm := h.made.2
    rw [hn,Nat.add_sub_cancel] at hm
    have := hm hw
    omega
  have hd : (s.procs i).dividend = i := hok.dividend.2 hin
  have hL : Local s (Primes.makePipe s i b) i :=
    ⟨rfl,fun _ hk => State.set_procs_ne hk,fun _ _ _ => rfl⟩
  have hfut : fut N (Primes.makePipe s i b) i = fut N s i := hL.fut_self fun _ _ => rfl
  have hp : (Primes.makePipe s i b).procs i = {s.procs i with
      pc := b
      p := Function.update (s.procs i).p (i%mod) i
      r := insert i (s.procs i).r
      w := insert i (s.procs i).w} := by
    unfold Primes.makePipe
    dsimp only
    rw [State.set_procs_self,hd,hpipes]
  have hs : ∀ f, sendOf N i ((Primes.makePipe s i b).procs i) f = sendOf N i (s.procs i) f := fun f => by
    rw [hp,← hsend f]
    cases i <;> rfl
  have hsent : fut N (Primes.makePipe s i b) (i+1) = fut N s (i+1) := by
    rw [fut,fut,hfut,hs]
    rfl
  have hnt : (Primes.makePipe s i b).n = i+1 := hn
  have hcost : cost N (Primes.makePipe s i b) i < cost N s i := by
    rw [cost,cost,hfut,hp]
    dsimp only
    omega
  suffices hInv : Inv N (Primes.makePipe s i b) from
    ⟨hInv,.inr ⟨rfl,hL.total_lt hInv hi hsent (.inl ⟨hcost,rfl⟩)⟩⟩
  refine ⟨h.pos,?_,h.empty,fun k hk => ?_,?_⟩
  · rw [hnt,Nat.add_sub_cancel,hp]
    refine ⟨fun _ => ?_,fun hh => absurd hbw hh⟩
    change s.pipes+1 = i+1
    rw [hpipes]
  · by_cases hki : k = i
    · subst hki
      constructor <;> rw [hp] <;> dsimp only
      · exact fun hk => hmain (hok.main hk)
      · exact fun hk => hworker (hok.worker hk)
      · exact fun _ => hb
      · exact fun hh => absurd hh (by omega)
      · rw [hok.child]
        rfl
      · exact ⟨fun hh => absurd hh hbi,fun _ => hd⟩
      · intro hk0
        rw [Function.update_of_ne (by unfold mod; omega)]
        exact hok.input hk0
      · exact fun _ => Function.update_self _ _ _
      · intro q
        rw [Finset.mem_insert,hok.writes]
        simp only [hw,hin,hbi,hbw,and_false,and_true,or_false]
      · intro hk0 _
        exact Finset.mem_insert_of_mem (hok.reads hk0 hread)
      · exact fun _ hh => absurd hh hbe
      · exact fun hh => absurd hh hbf
      · exact fun _ _ => Finset.mem_insert_self _ _
      · rw [hfut,htk]
        exact hok.room
    · exact (h.ok k hk).of_same rfl (hL.procs k hki) (hL.fut_ne hsent k hki)
  · rw [← h.printed,hnt,hn,Nat.add_sub_cancel,hfut,hp,← hrest]
    cases i <;> rfl

section Forked

variable {b d : Pc} (hn : s.n = i+1)

include hn

theorem doFork_self :
    (doFork s i b d).procs i = {s.procs i with pc := b, child := some (i+1)} := by
  unfold doFork
  dsimp only
  rw [State.set_procs_ne (by omega),State.set_procs_self,hn]

theorem doFork_child : (doFork s i b d).procs (i+1) = {s.procs i with pc := d, child := none} := by
  unfold doFork
  dsimp only
  rw [hn,State.set_procs_self]

theorem doFork_lt {k : ℕ} (hk : k < i) : (doFork s i b d).procs k = s.procs k := by
  unfold doFork
  dsimp only
  rw [State.set_procs_ne (by omega),State.set_procs_ne (by omega)]

theorem fut_doFork {k : ℕ} (hk : k ≤ i) : fut N (doFork s i b d) k = fut N s k := by
  induction k with
  | zero => rfl
  | succ k ih =>
    rw [fut,fut,ih (by omega),doFork_lt hn (by omega)]
    rfl

end Forked

theorem Inv.doFork (h : Inv N s) (hi : i < s.n) {b d : Pc} (hf : ¬ forkedPc (s.procs i).pc)
    (hw : holdsWrite (s.procs i).pc) (hin : ¬ inherits (s.procs i).pc)
    (hread : holdsRead (s.procs i).pc) (hmain : mainPc (s.procs i).pc → mainPc b)
    (hworker : workerPc (s.procs i).pc → workerPc b) (hb : forkedPc b) (hbw : holdsWrite b)
    (hbi : ¬ inherits b) (hbe : ¬ atEof b) (hbf : ¬ unchecked b) (hd : ∃ first, d = .childClose first)
    (hfirst : unchecked d → ∀ f, sendOf N i {s.procs i with pc := b} f ≠ [])
    (hrest : ∀ f, lines (sendOf N i {s.procs i with pc := b} f) = restOf N i (s.procs i) f)
    (htb : taken b = 0) (hroom : ∀ f, (i ≠ 0 → i+taken (s.procs i).pc+f.length ≤ N) →
      i+1+(sendOf N i {s.procs i with pc := b} f).length ≤ N) :
    Inv N (doFork s i b d) ∧ Shrinks N s (doFork s i b d) := by
  obtain ⟨first,rfl⟩ := hd
  have hok := h.ok i hi
  have hn : s.n = i+1 := by
    by_contra hh
    exact hf (hok.inner (by omega))
  have hpipes : s.pipes = i+1 := by
    have hm := h.made.1
    rw [hn,Nat.add_sub_cancel] at hm
    exact hm hw
  have hdiv : (s.procs i).dividend = i := hok.dividend.2 hin
  have hpi := doFork_self (b := b) (d := .childClose first) hn
  have hpc := doFork_child (b := b) (d := .childClose first) hn
  have hfut : ∀ k ≤ i, fut N (Primes.doFork s i b (.childClose first)) k = fut N s k :=
    fun k => fut_doFork hn
  have hchild : fut N (Primes.doFork s i b (.childClose first)) (i+1) =
      sendOf N i {s.procs i with pc := b} (fut N s i) := by
    have hq : (Primes.doFork s i b (.childClose first)).queue i = [] := h.empty i (by omega)
    rw [fut,hq,hfut i le_rfl,hpi,List.nil_append]
    cases i <;> rfl
  have hnt : (Primes.doFork s i b (.childClose first)).n = i+2 := by
    change s.n+1 = i+2
    omega
  refine ⟨?_,.inl (by omega)⟩
  refine ⟨by omega,?_,fun q hq => h.empty q (by omega),fun k hk => ?_,?_⟩
  · rw [hnt,show i+2-1 = i+1 by omega,hpc]
    exact ⟨False.elim,fun _ => by change s.pipes+1 = i+2; omega⟩
  · rcases lt_trichotomy k i with hki | rfl | hki
    · have hokk := h.ok k (by omega)
      constructor <;> simp only [doFork_lt hn hki,hnt,hfut k hki.le]
      exacts [hokk.main,hokk.worker,fun hh => absurd hh (by omega),fun _ => hokk.inner (by omega),
        by rw [hokk.child,if_pos (by omega),if_pos (by omega)],hokk.dividend,hokk.input,hokk.output,
        hokk.writes,hokk.reads,hokk.eof,hokk.first,fun hh => absurd hh (by omega),hokk.room]
    · constructor <;> simp only [hpi,hnt]
      · exact fun hh => hmain (hok.main hh)
      · exact fun hh => hworker (hok.worker hh)
      · exact fun hh => absurd hh (by omega)
      · exact fun _ => hb
      · rw [if_pos (by omega)]
      · exact ⟨fun hh => absurd hh hbi,fun _ => hdiv⟩
      · exact hok.input
      · exact fun _ => hok.output hw
      · intro q
        rw [hok.writes]
        simp only [hw,hin,hbi,hbw]
      · exact fun hh _ => hok.reads hh hread
      · exact fun _ hh => absurd hh hbe
      · exact fun hh => absurd hh hbf
      · exact fun hh => absurd hh (by omega)
      · intro h0
        have := hok.room h0
        rw [hfut k le_rfl]
        omega
    · obtain rfl : k = i+1 := by omega
      constructor <;> simp only [hpc,hnt,hchild,Nat.add_sub_cancel]
      · exact fun hh => absurd hh (by omega)
      · exact fun _ => trivial
      · exact fun _ => trivial
      · exact fun hh => absurd hh (by omega)
      · rw [if_neg (by omega)]
      · exact ⟨fun _ => by omega,fun hh => absurd trivial hh⟩
      · exact fun _ => hok.output hw
      · exact False.elim
      · intro q
        rw [hok.writes]
        simp only [hw,hin,show holdsWrite (.childClose first) = False from rfl,
          show inherits (.childClose first) = True from rfl,and_true,and_false,or_false,false_or]
        omega
      · exact fun _ _ => hok.own hn.symm hw
      · exact fun _ hh => hh.elim
      · exact fun hh => hfirst hh _
      · exact fun _ => False.elim
      · exact fun _ => hroom _ hok.room
  · rw [← h.printed,hnt,show i+2-1 = i+1 by omega,hpc,hn,Nat.add_sub_cancel,hchild,← hrest]
    rfl

/-- The first `close` of a child gives up the write end of the pipe it reads. -/
theorem Inv.childClose (h : Inv N s) (hi : i < s.n) {first : Bool}
    (hpc : (s.procs i).pc = .childClose first) : ∀ t, t = s.set i {s.procs i with
      pc := .readPrime first
      dividend := (s.procs i).dividend+1
      w := (s.procs i).w.erase (s.procs i).target} → Inv N t ∧ Shrinks N s t := by
  rintro t rfl
  have hok := h.ok i hi
  have hi0 : i ≠ 0 := fun h0 => by
    have := hok.main h0
    rw [hpc] at this
    exact this
  have hdiv : (s.procs i).dividend+1 = i := hok.dividend.1 (hpc ▸ trivial)
  have htarget : (s.procs i).target = i-1 := by
    rw [Proc.target,show (s.procs i).dividend = i-1 by omega,hok.input hi0]
  obtain ⟨j,rfl⟩ : ∃ j, i = j+1 := ⟨i-1,by omega⟩
  have hL := local_set s (j+1) {s.procs (j+1) with
      pc := .readPrime first
      dividend := (s.procs (j+1)).dividend+1
      w := (s.procs (j+1)).w.erase (s.procs (j+1)).target}
  have hf := hL.fut_self (N := N) fun _ _ => rfl
  refine h.local hL rfl (fun _ => ?_) h.empty ?_ ?_ (fun _ => rfl) (fun _ => ?_) hi (.inl ⟨?_,rfl⟩)
  · rw [State.set_procs_self,hpc]
    simp only [holdsWrite]
  · change _++sendOf N (j+1) _ (fut N _ (j+1)) = _++sendOf N (j+1) _ (fut N s (j+1))
    rw [hf,State.set_procs_self,sendOf,sendOf,hpc]
    rfl
  · constructor <;> simp only [State.set_procs_self,hf,State.set_n]
    · exact fun hh => absurd hh hi0
    · exact fun _ => trivial
    · exact fun _ => trivial
    · exact fun hh => absurd (hok.inner hh) (by rw [hpc]; exact id)
    · exact hok.child
    · exact ⟨False.elim,fun _ => hdiv⟩
    · exact hok.input
    · exact False.elim
    · intro q
      rw [Finset.mem_erase,hok.writes,htarget,hpc]
      simp [holdsWrite,inherits]
    · exact fun _ _ => hok.reads hi0 (hpc ▸ trivial)
    · exact fun _ hh => hh.elim
    · intro hh
      refine hok.first ?_
      rw [hpc]
      cases first
      · exact hh
      · trivial
    · exact fun _ => False.elim
    · have := hok.room
      rw [hpc] at this
      exact this
  · rw [hf,State.set_procs_self,restOf,restOf,hpc]
    rfl
  · rw [cost,cost,hf,State.set_procs_self,hpc]
    simp only [weight]
    omega

end Local

theorem lines_cons (p : ℕ) (l : List ℕ) : lines (p::l) = line p++lines (sift p l) := by
  rw [lines,sieve,List.flatMap_cons]
  rfl

theorem genRest_gen {N j : ℕ} (h : j ≤ N) : genRest N (.gen j) = j::genRest N (.gen (j+1)) := by
  simp only [genRest]
  rw [show N+1-j = N+1-(j+1)+1 by omega,List.range'_succ]

/-- Process `i` changes only its place, within what `Edge` allows. -/
theorem ends_goto {c : Proc} {b : Pc} (h : holdsWrite c.pc → holdsWrite b) : Ends c (c.goto b) :=
  ⟨rfl,rfl,rfl,.inl ⟨rfl,h⟩,.inl rfl⟩

section Calls

variable {N i j num : ℕ} {s : State} {l : List ℕ}

theorem sendOf_atEof {k : ℕ} {c : Proc} {f : List ℕ} (h : atEof c.pc) : sendOf N k c f = [] := by
  cases k <;> cases hc : c.pc <;> simp_all [sendOf,genRest,sendRest]

theorem restOf_atEof {k : ℕ} {c : Proc} {f : List ℕ} (h : atEof c.pc) : restOf N k c f = [] := by
  cases k <;> cases hc : c.pc <;> simp_all [restOf,genRest,lastRest,lines,sieve]

theorem Inv.ending (h : Inv N s) (hi : i < s.n) {c : Proc} (hedge : Edge N 0 (s.procs i).pc c.pc)
    (hends : Ends (s.procs i) c) (ha : atEof (s.procs i).pc) (hc : atEof c.pc) :
    Inv N (s.set i c) ∧ Shrinks N s (s.set i c) :=
  h.set hi hedge hends (fun h0 _ => (h.ok i hi).eof h0 ha) (by rw [sendOf_atEof ha,sendOf_atEof hc])
    fun _ => by rw [restOf_atEof ha,restOf_atEof hc]

theorem Inv.readEof (h : Inv N s) (hi : j+1 < s.n) (hf : fut N s (j+1) = []) {b : Pc}
    (hedge : Edge N 0 (s.procs (j+1)).pc b) (hw : holdsWrite (s.procs (j+1)).pc → holdsWrite b)
    (hr : reading (s.procs (j+1)).pc) (hb : atEof b) :
    Inv N (s.set (j+1) ((s.procs (j+1)).goto b)) ∧ Shrinks N s (s.set (j+1) ((s.procs (j+1)).goto b)) := by
  refine h.set hi hedge (ends_goto hw) (fun _ _ => hf) ?_ fun _ => ?_
  · rw [sendOf_atEof (c := (s.procs (j+1)).goto b) hb,hf]
    cases hc : (s.procs (j+1)).pc <;> simp_all [sendOf,sendRest,sift]
  · rw [restOf_atEof (c := (s.procs (j+1)).goto b) hb,hf]
    cases hc : (s.procs (j+1)).pc <;> simp_all [restOf,lastRest,sift,lines,sieve]

theorem Inv.readPrime_got (h : Inv N s) (hi : j+1 < s.n) {first : Bool}
    (hpc : (s.procs (j+1)).pc = .readPrime first) (hq : s.queue j = num::l) {c : Proc}
    (hc : c = {s.procs (j+1) with pc := .print (line num), prime := num}) :
    Inv N ((s.setQueue j l).set (j+1) c) ∧ Shrinks N s ((s.setQueue j l).set (j+1) c) := by
  subst hc
  refine h.got hi hq ?_ ⟨rfl,rfl,rfl,.inl ⟨rfl,by simp [hpc]⟩,.inl rfl⟩ id (fun f => ?_) fun _ f => ?_
  · constructor <;> simp [hpc]
  · simp [hpc,sendRest]
  · simp only [hpc,lastRest]
    rw [lines_cons]

/-- A number read by the loops: kept for the child, or dropped as a multiple of the stage's prime. -/
theorem Inv.loop_got (h : Inv N s) (hi : j+1 < s.n) {b : Pc}
    (hpc : (s.procs (j+1)).pc = .loopRead ∧ (b = .pipeNext num ∨ b = .loopRead) ∨
      (s.procs (j+1)).pc = .passRead ∧ (b = .passWrite num ∨ b = .passRead))
    (hb : reading b ↔ num%(s.procs (j+1)).prime = 0) (hq : s.queue j = num::l) :
    Inv N ((s.setQueue j l).set (j+1) ((s.procs (j+1)).goto b)) ∧
      Shrinks N s ((s.setQueue j l).set (j+1) ((s.procs (j+1)).goto b)) := by
  rcases hpc with ⟨hpc,rfl | rfl⟩ | ⟨hpc,rfl | rfl⟩
  all_goals
    have hnum : _ ↔ num%(s.procs (j+1)).prime = 0 := hb
    simp only [reading,false_iff,true_iff] at hnum
    refine h.got hi hq ?_ (ends_goto (by simp [hpc])) id (fun f => ?_) fun _ f => ?_
    · constructor <;> simp [hpc,Proc.goto]
    · simp [hpc,sendRest,Proc.goto,hnum,sift_cons]
    · simp_all [Proc.goto,lastRest,sift_cons]

theorem Inv.print_next (h : Inv N s) (hi : j+1 < s.n) {x : Char} {text : List Char}
    (hpc : (s.procs (j+1)).pc = .print (x::text)) {t : State}
    (ht : t = {s.set (j+1) ((s.procs (j+1)).goto (.print text)) with out := s.out++[x]}) :
    Inv N t ∧ Shrinks N s t := by
  subst ht
  have hL : Local s {s.set (j+1) ((s.procs (j+1)).goto (.print text)) with out := s.out++[x]} (j+1) :=
    ⟨rfl,fun _ hk => State.set_procs_ne hk,fun _ _ _ => rfl⟩
  have hf := hL.fut_self (N := N) fun _ _ => rfl
  refine h.turn hi hL rfl h.empty (d := 1) ?_ ?_ ?_ ?_ ?_ (fun _ => ?_) ?_ (.inr ⟨?_,?_⟩)
  · constructor <;> simp [hpc,Proc.goto]
  · rw [State.set_procs_self]
    exact ends_goto (by simp [hpc])
  · simp [Proc.goto]
  · change _++sendOf N (j+1) _ (fut N _ (j+1)) = _++sendOf N (j+1) _ (fut N s (j+1))
    rw [hf]
    simp [sendOf,hpc,Proc.goto,sendRest]
  · simp [hpc]
  · rw [hf]
    simp [restOf,hpc,Proc.goto,lastRest]
  · rw [hf]
    simp [hpc,Proc.goto]
  · rw [cost,cost,hf]
    simp [hpc,Proc.goto]
  · simp

/-- `main` before its loop: `pipe`, `fork` and the `close` of the end it does not use. -/
theorem Inv.main_pipe (h : Inv N s) (hi : 0 < s.n) (hpc : (s.procs 0).pc = .pipe) :
    Inv N (Primes.makePipe s 0 .fork) ∧ Shrinks N s (Primes.makePipe s 0 .fork) := by
  refine h.makePipe hi ?_ ?_ ?_ ?_ ?_ ?_ ?_ ?_ ?_ ?_ ?_ ?_ ?_ ?_ ?_ ?_ <;>
    simp [hpc,unforkedPc,forkedPc,holdsWrite,inherits,holdsRead,mainPc,workerPc,atEof,unchecked,
      sendOf,restOf,genRest]

theorem Inv.main_fork (hN : 2 ≤ N) (h : Inv N s) (hi : 0 < s.n) (hpc : (s.procs 0).pc = .fork) :
    Inv N (Primes.doFork s 0 .genClose (.childClose true)) ∧
      Shrinks N s (Primes.doFork s 0 .genClose (.childClose true)) := by
  refine h.doFork hi ?_ ?_ ?_ ?_ ?_ ?_ ?_ ?_ ?_ ?_ ?_ ?_ ?_ ?_ ?_ ?_ <;>
    simp [hpc,forkedPc,holdsWrite,inherits,holdsRead,mainPc,workerPc,atEof,unchecked,
      sendOf,restOf,genRest,numbers] <;> omega

theorem Inv.main_close (hN : 2 ≤ N) (h : Inv N s) (hi : 0 < s.n)
    (hpc : (s.procs 0).pc = .genClose) {c : Proc}
    (hc : c = {s.procs 0 with pc := .gen 2, r := (s.procs 0).r.erase (s.procs 0).target}) :
    Inv N (s.set 0 c) ∧ Shrinks N s (s.set 0 c) := by
  subst hc
  refine h.set hi ?_ ⟨rfl,rfl,rfl,.inl ⟨rfl,fun _ => trivial⟩,.inr (.inl ⟨rfl,hpc ▸ trivial⟩)⟩
    (fun h0 => absurd rfl h0) ?_ ?_
  · constructor <;> simp [hpc]
    omega
  · simp only [sendOf,hpc,genRest,numbers]
    congr 1
  · simp [hpc,unforkedPc]

theorem Inv.gen_next (h : Inv N s) (hi : 0 < s.n) {cap : ℕ} (hpc : (s.procs 0).pc = .gen j) (hj : j ≤ N)
    {t : State} (ht : write cap s 0 0 j = some t) :
    Inv N (t.set 0 ((s.procs 0).goto (.gen (j+1)))) ∧
      Shrinks N s (t.set 0 ((s.procs 0).goto (.gen (j+1)))) := by
  refine h.wrote hi ht ?_ (ends_goto fun _ => trivial) id (fun f => ?_) ?_
  · constructor <;> simp [hpc,Proc.goto]
    omega
  · simp only [sendOf,hpc,Proc.goto]
    exact genRest_gen hj
  · simp [hpc]

theorem Inv.gen_end (h : Inv N s) (hi : 0 < s.n) (hpc : (s.procs 0).pc = .gen j) (hj : ¬ j ≤ N) :
    Inv N (s.set 0 ((s.procs 0).goto .genCloseWrite)) ∧
      Shrinks N s (s.set 0 ((s.procs 0).goto .genCloseWrite)) := by
  refine h.set hi ?_ (ends_goto fun _ => trivial) (fun h0 => absurd rfl h0) ?_ ?_
  · constructor <;> simp [hpc,Proc.goto]
  · simp only [sendOf,hpc,Proc.goto,genRest]
    rw [show N+1-j = 0 by omega]
    rfl
  · simp [hpc]

theorem Inv.gen_close (h : Inv N s) (hi : 0 < s.n) (hpc : (s.procs 0).pc = .genCloseWrite)
    {c : Proc}
    (hc : c = {s.procs 0 with pc := .wait, w := (s.procs 0).w.erase (s.procs 0).target}) :
    Inv N (s.set 0 c) ∧ Shrinks N s (s.set 0 c) := by
  subst hc
  refine h.set hi ?_ ⟨rfl,rfl,rfl,.inr (.inl ⟨rfl,hpc ▸ trivial,id⟩),.inl rfl⟩
    (fun h0 => absurd rfl h0) ?_ ?_
  · constructor <;> simp [hpc]
  · simp only [sendOf,hpc,genRest]
  · simp [hpc,unforkedPc]

theorem Inv.read_end (h : Inv N s) (hi : j+1 < s.n) {t : State} {b : Pc}
    (hr : read s (j+1) j = some (.eof,t))
    (hpc : (s.procs (j+1)).pc = .readPrime false ∧ b = .eofCloseExit ∨
      (s.procs (j+1)).pc = .loopRead ∧ b = .eofClose ∨
      (s.procs (j+1)).pc = .passRead ∧ b = .eofCloseWrite) :
    Inv N (t.set (j+1) ((s.procs (j+1)).goto b)) ∧
      Shrinks N s (t.set (j+1) ((s.procs (j+1)).goto b)) := by
  obtain ⟨hq,hw,rfl⟩ := read_eof hr
  have hf := h.eof hi hq hw
  rcases hpc with ⟨hpc,rfl⟩ | ⟨hpc,rfl⟩ | ⟨hpc,rfl⟩
  all_goals
    refine h.readEof hi hf ?_ (by simp [hpc]) (by simp [hpc]) trivial
    constructor <;> simp [hpc]

theorem Inv.print_end (h : Inv N s) (hi : j+1 < s.n) (hpc : (s.procs (j+1)).pc = .print []) :
    Inv N (s.set (j+1) ((s.procs (j+1)).goto .loopRead)) ∧
      Shrinks N s (s.set (j+1) ((s.procs (j+1)).goto .loopRead)) := by
  refine h.set hi ?_ (ends_goto (by simp [hpc])) (fun _ => False.elim) ?_ fun _ => ?_
  · constructor <;> simp [hpc,Proc.goto]
  · simp [sendOf,hpc,Proc.goto,sendRest]
  · simp [restOf,hpc,Proc.goto,lastRest]

/-- The next stage, made by the one that found the first number to pass on. -/
theorem Inv.stage_pipe (h : Inv N s) (hi : j+1 < s.n) (hpc : (s.procs (j+1)).pc = .pipeNext num) :
    Inv N (Primes.makePipe s (j+1) (.forkNext num)) ∧
      Shrinks N s (Primes.makePipe s (j+1) (.forkNext num)) := by
  refine h.makePipe hi ?_ ?_ ?_ ?_ ?_ ?_ ?_ ?_ ?_ ?_ ?_ ?_ ?_ ?_ ?_ ?_ <;>
    simp [hpc,sendOf,restOf,sendRest,lastRest]

theorem Inv.stage_fork (h : Inv N s) (hi : j+1 < s.n) (hpc : (s.procs (j+1)).pc = .forkNext num) :
    Inv N (Primes.doFork s (j+1) (.closeRead num) (.childClose false)) ∧
      Shrinks N s (Primes.doFork s (j+1) (.closeRead num) (.childClose false)) := by
  refine h.doFork hi ?_ ?_ ?_ ?_ ?_ ?_ ?_ ?_ ?_ ?_ ?_ ?_ ?_ ?_ ?_ fun f hroom => ?_
  case refine_16 =>
    have := hroom (by omega)
    have := length_sift_le (s.procs (j+1)).prime f
    simp only [hpc,taken,sendOf,sendRest,List.length_cons] at *
    omega
  all_goals simp [hpc,sendOf,restOf,sendRest,lastRest]

theorem Inv.stage_close (h : Inv N s) (hi : j+1 < s.n) (hpc : (s.procs (j+1)).pc = .closeRead num)
    {c : Proc} (hc : c = {s.procs (j+1) with
      pc := .writeFirst num
      r := (s.procs (j+1)).r.erase (s.procs (j+1)).target}) :
    Inv N (s.set (j+1) c) ∧ Shrinks N s (s.set (j+1) c) := by
  subst hc
  refine h.set hi ?_ ⟨rfl,rfl,rfl,.inl ⟨rfl,fun _ => trivial⟩,.inr (.inl ⟨rfl,hpc ▸ trivial⟩)⟩
    (fun _ => False.elim) ?_ ?_
  · constructor <;> simp [hpc]
  · simp [sendOf,hpc,sendRest]
  · simp [hpc]

theorem Inv.pass_next (h : Inv N s) (hi : j+1 < s.n) {cap : ℕ}
    (hpc : (s.procs (j+1)).pc = .writeFirst num ∨ (s.procs (j+1)).pc = .passWrite num)
    {t : State} (ht : write cap s (j+1) (j+1) num = some t) :
    Inv N (t.set (j+1) ((s.procs (j+1)).goto .passRead)) ∧
      Shrinks N s (t.set (j+1) ((s.procs (j+1)).goto .passRead)) := by
  refine h.wrote hi ht ?_ (ends_goto fun _ => trivial) id (fun f => ?_) ?_ <;>
    rcases hpc with hpc | hpc
  · constructor <;> simp [hpc,Proc.goto]
  · constructor <;> simp [hpc,Proc.goto]
  all_goals simp [sendOf,hpc,Proc.goto,sendRest]

end Calls

section Step

variable {N cap i j : ℕ} {s t : State}

theorem Inv.step_main (hN : 2 ≤ N) (h : Inv N s) (hi : 0 < s.n) (hm : ¬ workerPc (s.procs 0).pc)
    (hs : Primes.step N cap s 0 = some t) : Inv N t ∧ Shrinks N s t := by
  rw [Primes.step,if_neg hi.not_ge] at hs
  cases hpc : (s.procs 0).pc with simp only [hpc] at hs hm
  | pipe =>
    cases hs
    exact h.main_pipe hi hpc
  | fork =>
    cases hs
    exact h.main_fork hN hi hpc
  | genClose =>
    cases hs
    exact h.main_close hN hi hpc rfl
  | gen j =>
    split at hs
    · next hj =>
      rw [(h.ok 0 hi).target_eq (hpc ▸ trivial),Option.map_eq_some_iff] at hs
      obtain ⟨t',ht',rfl⟩ := hs
      exact h.gen_next hi hpc hj ht'
    · next hj =>
      cases hs
      exact h.gen_end hi hpc hj
  | genCloseWrite =>
    cases hs
    exact h.gen_close hi hpc rfl
  | _ => exact absurd trivial hm

theorem Inv.step_read (h : Inv N s) (hi : j+1 < s.n) (hr : reading (s.procs (j+1)).pc)
    (hs : Primes.step N cap s (j+1) = some t) : Inv N t ∧ Shrinks N s t := by
  have hok := h.ok (j+1) hi
  have hsource := hok.source_eq (by omega) fun hc => by
    cases hpc : (s.procs (j+1)).pc <;> simp [hpc] at hr hc
  rw [Primes.step,if_neg hi.not_ge] at hs
  cases hpc : (s.procs (j+1)).pc with simp only [hpc,reading] at hs hr
  | readPrime first =>
    rw [hsource,Nat.add_sub_cancel,Option.map_eq_some_iff] at hs
    obtain ⟨⟨_ | _,t'⟩,hread,rfl⟩ := hs
    case got num =>
      obtain ⟨l,hq,rfl⟩ := read_got hread
      exact h.readPrime_got hi hpc hq rfl
    case eof =>
      cases first with
      | true =>
        obtain ⟨hq,hw,-⟩ := read_eof hread
        exact absurd (h.eof hi hq hw) (hok.first (by rw [hpc]; trivial))
      | false => exact h.read_end hi hread (.inl ⟨hpc,rfl⟩)
  | loopRead | passRead =>
    rw [hsource,Nat.add_sub_cancel,Option.map_eq_some_iff] at hs
    obtain ⟨⟨_ | _,t'⟩,hread,rfl⟩ := hs
    case got num =>
      obtain ⟨l,hq,rfl⟩ := read_got hread
      refine h.loop_got hi ?_ ?_ hq
      · split <;> simp [hpc]
      · split <;> simp_all
    case eof => exact h.read_end hi hread (by simp [hpc])

theorem Inv.step_stage (h : Inv N s) (hi : j+1 < s.n) (hr : ¬ reading (s.procs (j+1)).pc)
    (he : ¬ atEof (s.procs (j+1)).pc) (hw : workerPc (s.procs (j+1)).pc)
    (hs : Primes.step N cap s (j+1) = some t) : Inv N t ∧ Shrinks N s t := by
  have hok := h.ok (j+1) hi
  rw [Primes.step,if_neg hi.not_ge] at hs
  cases hpc : (s.procs (j+1)).pc with simp only [hpc,reading,atEof,workerPc,not_true] at hs hr he hw
  | childClose first =>
    cases hs
    exact h.childClose hi hpc _ rfl
  | print text =>
    cases text with
    | nil =>
      cases hs
      exact h.print_end hi hpc
    | cons x text =>
      cases hs
      exact h.print_next hi hpc rfl
  | pipeNext num =>
    cases hs
    exact h.stage_pipe hi hpc
  | forkNext num =>
    cases hs
    exact h.stage_fork hi hpc
  | closeRead num =>
    cases hs
    exact h.stage_close hi hpc rfl
  | writeFirst num | passWrite num =>
    rw [hok.target_eq (hpc ▸ trivial),Option.map_eq_some_iff] at hs
    obtain ⟨t',ht',rfl⟩ := hs
    exact h.pass_next hi (by simp [hpc]) ht'

theorem Inv.step_ending (h : Inv N s) (hi : i < s.n) (he : atEof (s.procs i).pc)
    (hs : Primes.step N cap s i = some t) : Inv N t ∧ Shrinks N s t := by
  have hends : ∀ c, Edge N 0 (s.procs i).pc c.pc → Ends (s.procs i) c → atEof c.pc →
      Inv N (s.set i c) ∧ Shrinks N s (s.set i c) := fun c hedge hends => h.ending hi hedge hends he
  rw [Primes.step,if_neg hi.not_ge] at hs
  cases hpc : (s.procs i).pc with simp only [hpc,atEof] at hs he
  | eofClose | eofCloseExit | eofCloseRead =>
    cases hs
    refine hends _ ?_ ⟨rfl,rfl,rfl,.inl ⟨rfl,by simp [hpc]⟩,.inr (.inr id)⟩ trivial
    constructor <;> simp [hpc]
  | eofCloseWrite =>
    cases hs
    refine hends _ ?_ ⟨rfl,rfl,rfl,.inr (.inl ⟨rfl,hpc ▸ trivial,id⟩),.inl rfl⟩ trivial
    constructor <;> simp [hpc]
  | wait =>
    split at hs
    · cases hs
      refine hends _ ?_ (ends_goto (by simp [hpc])) trivial
      constructor <;> simp [hpc,Proc.goto]
    · cases hs
  | exit =>
    cases hs
    refine hends _ ?_ ⟨rfl,rfl,rfl,.inr (.inr ⟨rfl,id⟩),.inr (.inr id)⟩ trivial
    constructor <;> simp [hpc]
  | done => cases hs

theorem Inv.step (hN : 2 ≤ N) (h : Inv N s) (hs : step N cap s i = some t) :
    Inv N t ∧ Shrinks N s t := by
  have hi : i < s.n := by
    by_contra hge
    rw [Primes.step,if_pos (not_lt.mp hge)] at hs
    cases hs
  have hok := h.ok i hi
  by_cases he : atEof (s.procs i).pc
  · exact h.step_ending hi he hs
  by_cases hw : workerPc (s.procs i).pc
  · obtain ⟨j,rfl⟩ : ∃ j, i = j+1 := by
      refine Nat.exists_eq_succ_of_ne_zero fun h0 => ?_
      have hm := hok.main h0
      cases hpc : (s.procs i).pc <;> simp [hpc] at hm he hw
    by_cases hr : reading (s.procs (j+1)).pc
    · exact h.step_read hi hr hs
    · exact h.step_stage hi hr he hw hs
  · obtain rfl : i = 0 := by
      by_contra h0
      exact hw (hok.worker h0)
    exact h.step_main hN hi hw hs

end Step

end Primes
end Xv6
