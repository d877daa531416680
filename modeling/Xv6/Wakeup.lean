import Xv6.SchedStep

/-! No wakeup is lost. A waiter loops around `sleep` with the lock of its condition held, a waker
makes the condition true under that lock and calls `wakeup` before it lets the lock go. -/
namespace Xv6.Sched

/-- Condition `i` was found false and its lock is still held. -/
def Frame.Tested (i : ℕ) : Frame → Prop
  | .sleepAcq w | .sleepRel w => w = .waiter i
  | _ => False

/-- The lock of condition `i` is gone, the process is not yet `SLEEPING`. -/
def Frame.Dozing (i : ℕ) : Frame → Prop
  | .sleepChan w | .sleepState w => w = .waiter i
  | _ => False

/-- A waker has made condition `i` true, and its scan is not past slot `p`. -/
def Frame.Scans (i p : ℕ) : Frame → Prop
  | .wakeupAcq w _ q | .wakeupTest w _ q | .wakeupSet w _ q => w = .cond i ∧ q ≤ p
  | .wakeupRel w _ q => w = .cond i ∧ q < p
  | _ => False

variable {s t : Sys} {c : Cpu} {me : Option ℕ} {o : Bool} {f g : Frame} {rest k : List Frame}
  {ins : Instr} {i p : ℕ}

theorem Frame.Tested.locks (h : f.Tested i) : .cond i ∈ f.locks me := by
  cases f <;> first | exact h.elim | (cases h; simp [Frame.locks])

theorem Frame.Dozing.locks (h : f.Dozing i) : f.locks me = own me := by
  cases f <;> first | exact h.elim | rfl

theorem Frame.Dozing.onState (h : f.Dozing i) : f.onState = .RUNNING := by
  cases f <;> first | exact h.elim | rfl

theorem Frame.Scans.locks (h : f.Scans i p) : .cond i ∈ f.locks me := by
  cases f <;> first | exact h.elim | (cases h.1; simp [Frame.locks])

theorem Frame.Scans.awake (h : f.Scans i p) (j : ℕ) : f.onState = .RUNNING ∧ ¬f.Dozing j := by
  cases f <;> first | exact h.elim | exact ⟨rfl,id⟩

theorem Frame.Calm.not_tested (h : f.Calm) : ¬f.Tested i := by
  cases f <;> simp [Frame.Calm,Frame.resumable,Frame.locks,Frame.Tested] at h ⊢

theorem Frame.Calm.not_dozing (h : f.Calm) : ¬f.Dozing i := by
  cases f <;> simp [Frame.Calm,Frame.resumable,Frame.locks,Frame.Dozing] at h ⊢
  all_goals exact absurd (h (some 0)) (by simp [own])

theorem Frame.Calm.ne_sleepState (h : f.Calm) (w : Sleeper) : f ≠ .sleepState w := by
  rintro rfl
  simp only [Frame.Calm,Frame.resumable,Frame.locks,reduceCtorEq,exists_false,false_or,
    Bool.false_eq_true] at h
  exact absurd (h (some 0)) (by simp [own])

/-- A process sleeps on the channel of condition `i`, or is about to. -/
def Pending (s : Sys) (i p : ℕ) : Prop :=
  (s.proc p).state = .SLEEPING ∧ (s.proc p).chan = some (.cond i) ∨
  ∃ c f rest, s.on c = some p ∧ s.stack (s.tid c) = f::rest ∧ f.Dozing i

theorem fetch_tested (h : fetch s me o f = some ins) (hg : ins.next = some g) (ht : g.Tested i) :
    f.Tested i ∨ f = .waiterTest i ∧ s.cond i = false := by
  cases f <;> simp only [fetch,Option.map_eq_some_iff,Option.some.injEq,reduceCtorEq] at h
  all_goals try obtain ⟨p,rfl,h⟩ := h
  all_goals repeat' split at h
  all_goals try cases h
  all_goals simp only [Instr.next,Option.some.injEq,reduceCtorEq] at hg
  all_goals subst hg
  case sleepAcq => exact .inl ht
  case waiterTest.isFalse.refl hc =>
    cases ht
    exact .inr ⟨rfl,by simpa using hc⟩
  case allocFound => cases o <;> exact ht.elim
  case sleepReacq w => cases w <;> exact ht.elim
  case wakeupAcq.isFalse.refl w _ _ _ => cases w <;> exact ht.elim
  all_goals cases ht

theorem fetch_dozing (h : fetch s me o f = some ins) (hg : ins.next = some g) (hd : g.Dozing i) :
    f.Dozing i ∨ f = .sleepRel (.waiter i) := by
  cases f <;> simp only [fetch,Option.map_eq_some_iff,Option.some.injEq,reduceCtorEq] at h
  all_goals try obtain ⟨p,rfl,h⟩ := h
  all_goals repeat' split at h
  all_goals try cases h
  all_goals simp only [Instr.next,Option.some.injEq,reduceCtorEq] at hg
  all_goals subst hg
  case sleepRel => exact .inr (by rw [hd])
  case sleepChan => exact .inl hd
  case allocFound => cases o <;> exact hd.elim
  case sleepReacq w => cases w <;> exact hd.elim
  case wakeupAcq.isFalse.refl w _ _ _ => cases w <;> exact hd.elim
  all_goals cases hd

theorem fetch_sleepState {w : Sleeper} (h : fetch s me o f = some ins)
    (hg : ins.next = some (.sleepState w)) : f = .sleepChan w := by
  cases f <;> simp only [fetch,Option.map_eq_some_iff,Option.some.injEq,reduceCtorEq] at h
  all_goals try obtain ⟨p,rfl,h⟩ := h
  all_goals repeat' split at h
  all_goals try cases h
  all_goals simp only [Instr.next,Option.some.injEq,reduceCtorEq] at hg
  case sleepChan => rw [Frame.sleepState.inj hg]
  case allocFound => cases o <;> cases hg
  case sleepReacq w => cases w <;> cases hg
  case wakeupAcq.isFalse.refl w _ _ _ => cases w <;> cases hg

/-- A condition is assigned under its lock; one that becomes true is followed by a scan. -/
theorem fetch_assign {b : Bool} {n : Option Frame} (h : fetch s me o f = some (.assign i b n)) :
    .cond i ∈ f.locks me ∧ (b = true → s.cond i = true ∨
      n = some (.wakeupAcq (.cond i) (some (.cond i)) 0)) ∧ ∀ g j, n = some g → ¬g.Tested j := by
  cases f <;> simp only [fetch,Option.map_eq_some_iff,Option.some.injEq,reduceCtorEq] at h
  all_goals try obtain ⟨p,rfl,h⟩ := h
  all_goals repeat' split at h
  all_goals try cases h
  case waiterBody =>
    refine ⟨by simp [Frame.locks],fun hb => .inl (Bool.and_eq_true_iff.mp hb).1,?_⟩
    rintro _ _ ⟨⟩
    exact id
  case wakerSet =>
    refine ⟨by simp [Frame.locks],fun _ => .inr rfl,?_⟩
    rintro _ _ ⟨⟩
    exact id

theorem exec_cond (ht : exec s c rest ins = some t) :
    t.cond = s.cond ∨ ∃ j b n, ins = .assign j b n ∧ t.cond = Function.update s.cond j b := by
  cases ins with
  | acquire l n | release l n =>
    obtain ⟨-,ht⟩ := Option.ite_none_right_eq_some.mp ht
    obtain rfl := Option.some.inj ht
    exact .inl rfl
  | goto n | store q r ev n | clear n | run p n =>
    obtain rfl := Option.some.inj ht
    exact .inl rfl
  | alloc q ok =>
    obtain rfl := Option.some.inj ht
    cases ok <;> exact .inl rfl
  | assign j b n =>
    obtain rfl := Option.some.inj ht
    exact .inr ⟨j,b,n,rfl,rfl⟩
  | swtch n =>
    simp only [exec] at ht
    split at ht
    · cases ht
    · obtain ⟨-,ht⟩ := Option.ite_none_right_eq_some.mp ht
      obtain rfl := Option.some.inj ht
      exact .inl rfl

/-- The waker's scan goes on, unless it is past slot `p`: then slot `p` was left because it is the
waker's own, was seen not to sleep on the channel, was made runnable, or is not in the table. -/
theorem fetch_scans (h : fetch s me o f = some ins) (hf : f.Scans i p) :
    (∃ g, ins.next = some g ∧ g.Scans i p) ∨ me = some p ∧ f.kind = .device ∨
    (∃ chan, f = .wakeupTest (.cond i) chan p ∧
      ¬((s.proc p).state = .SLEEPING ∧ (s.proc p).chan = chan)) ∨
    (∃ chan, f = .wakeupSet (.cond i) chan p) ∨ ¬p < NPROC := by
  cases f <;> try exact hf.elim
  case wakeupAcq w chan q =>
    obtain ⟨rfl,hq⟩ := hf
    simp only [fetch] at h
    split at h
    · split at h
      · rename_i hme
        rcases eq_or_lt_of_le hq with rfl | hq
        · exact .inr (.inl ⟨hme,rfl⟩)
        · cases h
          exact .inl ⟨_,rfl,rfl,hq⟩
      · cases h
        exact .inl ⟨_,rfl,rfl,hq⟩
    · exact .inr (.inr (.inr (.inr (by omega))))
  case wakeupTest w chan q =>
    obtain ⟨rfl,hq⟩ := hf
    simp only [fetch] at h
    split at h
    · cases h
      exact .inl ⟨_,rfl,rfl,hq⟩
    · rename_i hno
      rcases eq_or_lt_of_le hq with rfl | hq
      · exact .inr (.inr (.inl ⟨chan,rfl,hno⟩))
      · cases h
        exact .inl ⟨_,rfl,rfl,hq⟩
  case wakeupSet w chan q =>
    obtain ⟨rfl,hq⟩ := hf
    rcases eq_or_lt_of_le hq with rfl | hq
    · exact .inr (.inr (.inr (.inl ⟨chan,rfl⟩)))
    · cases h
      exact .inl ⟨_,rfl,rfl,hq⟩
  case wakeupRel w chan q =>
    obtain ⟨rfl,hq⟩ := hf
    cases h
    exact .inl ⟨_,rfl,rfl,hq⟩

/-- The channel of a process that runs is stored to on its own CPU only. -/
theorem Core.chan_elsewhere (h : Core s) (htop : s.stack (s.tid c) = f::rest)
    (hfetch : fetch s (s.cpuproc c) o f = some ins) (ht : Sched.exec s c rest ins = some t)
    {d : Cpu} (hdc : d ≠ c) (hon : s.on d = some p) (hrun : (s.proc p).state = .RUNNING) :
    (t.proc p).chan = (s.proc p).chan := by
  have hfound := h.found c f rest htop
  have hself : s.cpuproc c = some p → f.kind ≠ .sched → False := by
    intro hme hk
    have hc := h.on_of_self htop hme hk
    exact hdc (h.tid_inj (by rw [Sys.tid_of_some hon,Sys.tid_of_some hc]))
  cases exec_change hfetch ht with
  | same hproc => rw [hproc]
  | @store q r ev n hstore hproc =>
    rw [hproc]
    rcases eq_or_ne p q with rfl | hpq
    · rw [Function.update_self]
      generalize hme : s.cpuproc c = me at hstore
      cases hstore with
      | chosen | wakeup | kill | parent | ready | reparent => rfl
      | killWake => simp [hrun]
      | yield | chan | sleep | tidy | exit => exact (hself hme (by simp [Frame.kind])).elim
      | reap => simp [Frame.Found,hrun] at hfound
    · rw [Function.update_of_ne hpq]
  | @fail q hf hproc | @alloc q hf hproc =>
    subst hf
    rw [hproc]
    rcases eq_or_ne p q with rfl | hpq
    · simp [Frame.Found,hrun] at hfound
    · rw [Function.update_of_ne hpq]

structure Awake (s : Sys) : Prop where
  core : Core s
  bounded : Bounded s
  tested : ∀ c f rest i, s.stack (s.tid c) = f::rest → f.Tested i → s.cond i = false
  chan : ∀ c p w rest, s.on c = some p → s.stack (s.tid c) = .sleepState w::rest →
    (s.proc p).chan = some (w.chan p)
  pend : ∀ i p, s.cond i = true → Pending s i p →
    ∃ c f rest, s.stack (s.tid c) = f::rest ∧ f.Scans i p

namespace Awake

theorem running_of_dozing (h : Core s) (hc : s.on c = some p)
    (htop : s.stack (s.tid c) = f::rest) (hd : f.Dozing i) : (s.proc p).state = .RUNNING := by
  rw [h.running c p hc,← Sys.tid_of_some hc,htop]
  exact hd.onState

theorem used_of_pending (h : Core s) (hp : Pending s i p) : (s.proc p).state ≠ .UNUSED := by
  rcases hp with ⟨hst,-⟩ | ⟨c,f,rest,hc,htop,hd⟩
  · simp [hst]
  · simp [running_of_dozing h hc htop hd]

theorem lock_of_dozing (h : Core s) (hc : s.on c = some p)
    (htop : s.stack (s.tid c) = f::rest) (hd : f.Dozing i) : .proc p ∈ s.locksOf c := by
  apply Core.mem_locksOf htop
  rw [hd.locks,h.current c p hc]
  simp [own]

section Exec

variable (h : Awake s) (htop : s.stack (s.tid c) = f::rest)
  (hfetch : fetch s (s.cpuproc c) o f = some ins) (ht : exec s c rest ins = some t)
include h htop hfetch ht

theorem tested_exec {d : Cpu} (hd : t.stack (t.tid d) = g::k) (hg : g.Tested i) :
    t.cond i = false := by
  rcases eq_or_ne d c with rfl | hdc
  · rcases h.core.exec_top htop hfetch ht hd with ⟨hn,-⟩ | hcalm
    · have hquiet : t.cond = s.cond := by
        rcases exec_cond ht with hsame | ⟨j,b,n,rfl,-⟩
        · exact hsame
        · exact absurd hg ((fetch_assign hfetch).2.2 g i hn)
      rw [hquiet]
      rcases fetch_tested hfetch hn hg with hf | ⟨-,hfalse⟩
      · exact h.tested d f rest i htop hf
      · exact hfalse
    · exact absurd hg hcalm.not_tested
  · rw [(h.core.exec_others htop hfetch ht hdc).2] at hd
    have hfalse := h.tested d g k i hd hg
    rcases exec_cond ht with hsame | ⟨j,b,n,rfl,hset⟩
    · rw [hsame,hfalse]
    · have hji : j ≠ i := by
        rintro rfl
        exact hdc (h.core.locks.owner_unique (Core.mem_locksOf hd hg.locks)
          (Core.mem_locksOf htop (fetch_assign hfetch).1))
      rw [hset,Function.update_of_ne hji.symm,hfalse]

theorem chan_exec {d : Cpu} {w : Sleeper} (hon : t.on d = some p)
    (hd : t.stack (t.tid d) = .sleepState w::k) : (t.proc p).chan = some (w.chan p) := by
  rcases eq_or_ne d c with rfl | hdc
  · rcases h.core.exec_top htop hfetch ht hd with ⟨hn,hsame⟩ | hcalm
    · obtain rfl := fetch_sleepState hfetch hn
      have hcur := h.core.current d p (hsame ▸ hon)
      simp only [fetch,hcur,Option.map_some] at hfetch
      cases hfetch
      obtain rfl := Option.some.inj ht
      simp [Sys.goto]
    · exact absurd rfl (hcalm.ne_sleepState w)
  · obtain ⟨hon',htop'⟩ := h.core.exec_others htop hfetch ht hdc
    rw [hon'] at hon
    rw [htop'] at hd
    have hold := h.chan d p w k hon hd
    have hrun : (s.proc p).state = .RUNNING := by
      rw [h.core.running d p hon,← Sys.tid_of_some hon,hd]
      rfl
    rw [h.core.chan_elsewhere htop hfetch ht hdc hon hrun,hold]

/-- A process that sleeps after the step slept before or was about to. -/
theorem sleeping_exec (hst : (t.proc p).state = .SLEEPING)
    (hchan : (t.proc p).chan = some (.cond i)) : Pending s i p := by
  cases exec_change hfetch ht with
  | same hproc =>
    rw [hproc] at hst hchan
    exact .inl ⟨hst,hchan⟩
  | @store q r ev n hstore hproc =>
    rw [hproc] at hst hchan
    rcases eq_or_ne p q with rfl | hpq
    · rw [Function.update_self] at hst hchan
      generalize hme : s.cpuproc c = me at hstore
      cases hstore with
      | chosen | yield | wakeup | ready | exit | reap => simp [freeproc] at hst
      | kill | parent | reparent => exact .inl ⟨hst,hchan⟩
      | tidy => simp at hchan
      | killWake =>
        by_cases hs : (s.proc p).state = .SLEEPING
        · simp [hs] at hst
        · simp [hs] at hst
      | chan =>
        have hc := h.core.on_of_self htop hme (by simp [Frame.kind])
        have hrun := h.core.running c p hc
        rw [← Sys.tid_of_some hc,htop] at hrun
        rw [show (s.proc p).state = .RUNNING from hrun] at hst
        cases hst
      | @sleep _ w =>
        have hc := h.core.on_of_self htop hme (by simp [Frame.kind])
        have hw := h.chan c p w rest hc htop
        refine .inr ⟨c,_,rest,hc,htop,?_⟩
        rw [show (s.proc p).chan = some (.cond i) from hchan] at hw
        cases w with
        | waiter j => rw [Chan.cond.inj (Option.some.inj hw)]; rfl
        | wait addr => cases hw
    · rw [Function.update_of_ne hpq] at hst hchan
      exact .inl ⟨hst,hchan⟩
  | @fail q hf hproc | @alloc q hf hproc =>
    rw [hproc] at hst hchan
    rcases eq_or_ne p q with rfl | hpq
    · simp [freeproc] at hst
    · rw [Function.update_of_ne hpq] at hst hchan
      exact .inl ⟨hst,hchan⟩

theorem dozing_exec {d : Cpu} (hon : t.on d = some p) (hd : t.stack (t.tid d) = g::k)
    (hg : g.Dozing i) : (∃ d g k, s.on d = some p ∧ s.stack (s.tid d) = g::k ∧ g.Dozing i) ∨
      f = .sleepRel (.waiter i) := by
  rcases eq_or_ne d c with rfl | hdc
  · rcases h.core.exec_top htop hfetch ht hd with ⟨hn,hsame⟩ | hcalm
    · exact (fetch_dozing hfetch hn hg).imp_left fun hf => ⟨d,f,rest,hsame ▸ hon,htop,hf⟩
    · exact absurd hg hcalm.not_dozing
  · obtain ⟨hon',htop'⟩ := h.core.exec_others htop hfetch ht hdc
    exact .inl ⟨d,g,k,hon' ▸ hon,htop' ▸ hd,hg⟩

theorem pending_exec (hcond : s.cond i = true) (hp : Pending t i p) : Pending s i p := by
  rcases hp with ⟨hst,hchan⟩ | ⟨d,g,k,hon,hd,hg⟩
  · exact h.sleeping_exec htop hfetch ht hst hchan
  · rcases h.dozing_exec htop hfetch ht hon hd hg with hold | rfl
    · exact .inr hold
    · have hfalse := h.tested c _ rest i htop rfl
      rw [hcond] at hfalse
      cases hfalse

/-- The scan of the waker on CPU `c` stays ahead of a slot that is still to be woken. -/
theorem scans_exec (hcond : s.cond i = true) (hp : Pending t i p) (hf : f.Scans i p) :
    ∃ g, ins.next = some g ∧ g.Scans i p := by
  have hold := h.pending_exec htop hfetch ht hcond hp
  -- while the waker holds the lock of slot `p`, its process is not on its way to sleep
  have hdoze : ∀ d g k, .proc p ∈ f.locks (s.cpuproc c) → s.on d = some p →
      s.stack (s.tid d) = g::k → ¬g.Dozing i := by
    intro d g k hl hon hd hg
    have hdc := h.core.locks.owner_unique (lock_of_dozing h.core hon hd hg)
      (Core.mem_locksOf htop hl)
    subst hdc
    rw [htop] at hd
    obtain ⟨rfl,-⟩ := List.cons.inj hd
    exact (hf.awake i).2 hg
  rcases fetch_scans hfetch hf with hnext | ⟨hme,hk⟩ | ⟨chan,rfl,hno⟩ | ⟨chan,rfl⟩ | hbig
  · exact hnext
  · have hc := h.core.on_of_self htop hme (by simp [hk])
    rcases hold with ⟨hst,-⟩ | ⟨d,g,k,hon,hd,hg⟩
    · have hrun := h.core.running c p hc
      rw [← Sys.tid_of_some hc,htop,hst] at hrun
      exact absurd (hrun.trans (hf.awake i).1) (by simp)
    · rw [Sys.tid_of_some hon,← Sys.tid_of_some hc,htop] at hd
      rw [← (List.cons.inj hd).1] at hg
      exact absurd hg (hf.awake i).2
  · rcases hold with hsl | ⟨d,g,k,hon,hd,hg⟩
    · have hsane : (Frame.wakeupTest (.cond i) chan p).Sane :=
        h.bounded.frames (s.tid c) _ (by simp [htop])
      rw [hsane i rfl] at hno
      exact absurd hsl hno
    · exact absurd hg (hdoze d g k (by simp [Frame.locks]) hon hd)
  · rcases hp with ⟨hst,-⟩ | ⟨d,g,k,hon,hd,hg⟩
    · cases hfetch
      obtain rfl := Option.some.inj ht
      simp [Sys.goto] at hst
    · rcases h.dozing_exec htop hfetch ht hon hd hg with ⟨d,g,k,hon,hd,hg⟩ | hrel
      · exact absurd hg (hdoze d g k (by simp [Frame.locks]) hon hd)
      · cases hrel
  · exact absurd (h.bounded.slots p (used_of_pending h.core hold)) hbig

theorem pend_exec (hcond : t.cond i = true) (hp : Pending t i p) :
    ∃ d g k, t.stack (t.tid d) = g::k ∧ g.Scans i p := by
  have hnext : ∀ g, ins.next = some g → g.Scans i p →
      ∃ d g k, t.stack (t.tid d) = g::k ∧ g.Scans i p := by
    intro g hn hg
    have hkeeps := fetch_keeps hfetch
    rcases exec_next ht hn with hd | ⟨q,rfl⟩ | rfl
    · exact ⟨c,g,rest,hd,hg⟩
    · rw [hkeeps.2] at hg
      exact hg.elim
    · have hmem : .cond i ∈ g.locks (s.cpuproc c) := hg.locks
      rw [hkeeps.2,mem_own] at hmem
      obtain ⟨_,_,⟨⟩⟩ := hmem
  by_cases hold : s.cond i = true
  · obtain ⟨d,g,k,hd,hg⟩ := h.pend i p hold (h.pending_exec htop hfetch ht hold hp)
    rcases eq_or_ne d c with rfl | hdc
    · rw [htop] at hd
      rw [← (List.cons.inj hd).1] at hg
      obtain ⟨g,hn,hg⟩ := h.scans_exec htop hfetch ht hold hp hg
      exact hnext g hn hg
    · exact ⟨d,g,k,by rw [(h.core.exec_others htop hfetch ht hdc).2,hd],hg⟩
  · rcases exec_cond ht with hsame | ⟨j,b,n,rfl,hset⟩
    · rw [hsame] at hcond
      exact absurd hcond hold
    · rw [hset] at hcond
      rcases eq_or_ne i j with rfl | hij
      · rw [Function.update_self] at hcond
        have hscan := ((fetch_assign hfetch).2.1 hcond).resolve_left hold
        exact hnext _ hscan ⟨rfl,Nat.zero_le p⟩
      · rw [Function.update_of_ne hij] at hcond
        exact absurd hcond hold

end Exec

theorem start (h : Awake s) (hstart : Starts s c f) :
    Awake (s.goto c (f::s.stack (s.tid c))) := by
  have hcalm : f.Calm := .inr (.inr hstart.locks)
  have hother : ∀ d, d ≠ c →
      (s.goto c (f::s.stack (s.tid c))).stack (s.tid d) = s.stack (s.tid d) :=
    fun d hd => Function.update_of_ne (fun hi => hd (h.core.tid_inj hi)) _ _
  have hcases : ∀ d g k, (s.goto c (f::s.stack (s.tid c))).stack (s.tid d) = g::k →
      s.stack (s.tid d) = g::k ∨ g.Calm := by
    intro d g k hd
    rcases eq_or_ne d c with rfl | hdc
    · rw [← (List.cons.inj ((Sys.goto_top s d _).symm.trans hd)).1]
      exact .inr hcalm
    · exact .inl ((hother d hdc).symm.trans hd)
  refine ⟨h.core.start hstart,h.bounded.start hstart,?_,?_,?_⟩
  · intro d g k i hd hg
    rcases hcases d g k hd with hd | hcalm
    · exact h.tested d g k i hd hg
    · exact absurd hg hcalm.not_tested
  · intro d p w k hon hd
    rcases hcases d _ k hd with hd | hcalm
    · exact h.chan d p w k hon hd
    · exact absurd rfl (hcalm.ne_sleepState w)
  · intro i p hcond hp
    have hold : Pending s i p := by
      refine hp.imp_right ?_
      rintro ⟨d,g,k,hon,hd,hg⟩
      rcases hcases d g k hd with hd | hcalm
      · exact ⟨d,g,k,hon,hd,hg⟩
      · exact absurd hg hcalm.not_dozing
    obtain ⟨d,g,k,hd,hg⟩ := h.pend i p hcond hold
    have hdc : d ≠ c := by
      rintro rfl
      have hmem := Core.mem_locksOf hd hg.locks
      rw [hstart.free] at hmem
      cases hmem
    exact ⟨d,g,k,(hother d hdc).trans hd,hg⟩

theorem step (h : Awake s) {a : Action} (ht : Sched.step s a = some t) : Awake t := by
  rcases step_cases ht with ⟨c,o,f,rest,ins,htop,hi,ht⟩ | ⟨c,f,-,hstart,rfl⟩
  · exact {
      core := h.core.exec htop hi ht
      bounded := h.bounded.exec h.core htop hi ht
      tested := fun _ _ _ _ hd hg => h.tested_exec htop hi ht hd hg
      chan := fun _ _ _ _ hon hd => h.chan_exec htop hi ht hon hd
      pend := fun _ _ hcond hp => h.pend_exec htop hi ht hcond hp }
  · exact h.start (mayStart_starts hstart)

theorem init (cond : ℕ → Bool) : Awake (init cond) where
  core := Core.init cond
  bounded := Bounded.init cond
  tested c f rest i htop hf := by
    simp only [Sched.init,Sys.tid,List.cons.injEq] at htop
    rw [← htop.1] at hf
    exact hf.elim
  chan c p w rest hon _ := by simp [Sched.init] at hon
  pend i p _ hp := by
    rcases hp with ⟨hst,-⟩ | ⟨c,f,rest,hon,-⟩
    · simp only [Sched.init] at hst
      split at hst <;> simp at hst
    · simp [Sched.init] at hon

end Awake

/-- In every reachable state in which a process sleeps on the channel of a true condition, some
waker has made the condition true and its scan has not passed that process. -/
theorem no_lost_wakeup {cond : ℕ → Bool} {as : List Action}
    (hrun : Machine.run step (init cond) as = some s) (hst : (s.proc p).state = .SLEEPING)
    (hchan : (s.proc p).chan = some (.cond i)) (hcond : s.cond i = true) :
    ∃ c f rest, s.stack (s.tid c) = f::rest ∧ f.Scans i p := by
  have h : Awake s := Machine.run_invariant (fun _ _ _ h ht => Awake.step h ht) (.init cond) hrun
  exact h.pend i p hcond (.inl ⟨hst,hchan⟩)

/-- The first process goes to sleep on condition 0, then a device on CPU 1 makes it true. -/
def wakeAsleep : List Action :=
  List.replicate 5 (.run 0 false)++.start 0 (.waiterAcq 0)::List.replicate 7 (.run 0 false)++
    [.start 1 (.wakerAcq 0),.run 1 false,.run 1 false]

theorem no_lost_wakeup_wakeAsleep : ∃ s,
    Machine.run step (init fun _ => false) wakeAsleep = some s ∧ (s.proc 0).state = .SLEEPING ∧
      s.cond 0 = true ∧ ∃ c f rest, s.stack (s.tid c) = f::rest ∧ f.Scans 0 0 := by
  have hend : (Machine.run step (init fun _ => false) wakeAsleep).any (fun s =>
      (s.proc 0).state = .SLEEPING ∧ (s.proc 0).chan = some (.cond 0) ∧ s.cond 0 = true) = true := by
    decide +kernel
  obtain ⟨s,hs,hst,hchan,hcond⟩ := Machine.exists_run_of_any hend
  exact ⟨s,hs,hst,hcond,no_lost_wakeup hs hst hchan hcond⟩

end Xv6.Sched
