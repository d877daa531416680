import Xv6.SchedInv

/-! What one step changes: the tops of the stacks, the process table, and the slots in use. The
properties of single routines are derived from these facts. -/
namespace Xv6.Sched

variable {s t : Sys} {c : Cpu} {o : Bool} {f g : Frame} {rest k : List Frame} {i : Instr}

/-- The frames a thread can come to by a return, a switch or the start of a routine. -/
def Frame.Calm (f : Frame) : Prop :=
  f.resumable ∨ (∃ p, f = .schedBack p) ∨ ∀ me, f.locks me = []

/-- What a step of CPU `c` at frame `f` does to the process table. -/
inductive Change (s : Sys) (me : Option ℕ) (f : Frame) (t : Sys) : Prop
  | same (hproc : t.proc = s.proc) (hlog : t.log = s.log) (hpid : t.nextpid = s.nextpid)
  | store {q : ℕ} {g : Proc → Proc} {ev : List Event} {n : Frame} (hstore : Store s me f q g ev n)
      (hproc : t.proc = Function.update s.proc q (g (s.proc q))) (hlog : t.log = s.log++ev)
      (hpid : t.nextpid = s.nextpid)
  | fail {q : ℕ} (hf : f = .allocFound q)
      (hproc : t.proc = Function.update s.proc q
        (freeproc {s.proc q with pid := s.nextpid,state := .USED}))
      (hlog : t.log = s.log) (hpid : t.nextpid = s.nextpid+1)
  | alloc {q : ℕ} (hf : f = .allocFound q)
      (hproc : t.proc = Function.update s.proc q {s.proc q with pid := s.nextpid,state := .USED})
      (hlog : t.log = s.log++[.forked q (s.proc q).killed]) (hpid : t.nextpid = s.nextpid+1)

theorem exec_change (hfetch : fetch s (s.cpuproc c) o f = some i) (ht : exec s c rest i = some t) :
    Change s (s.cpuproc c) f t := by
  rcases fetch_cases hfetch with hi | hloud
  · cases i with
    | acquire l n | release l n =>
      obtain ⟨-,ht⟩ := Option.ite_none_right_eq_some.mp ht
      obtain rfl := Option.some.inj ht
      exact .same rfl rfl rfl
    | goto n | assign j b n =>
      obtain rfl := Option.some.inj ht
      exact .same rfl rfl rfl
    | _ => exact hi.elim
  · cases hloud with
    | store hstore =>
      obtain rfl := Option.some.inj ht
      exact .store hstore rfl rfl rfl
    | alloc =>
      obtain rfl := Option.some.inj ht
      cases o with
      | false => exact .fail rfl rfl rfl rfl
      | true => exact .alloc rfl rfl rfl rfl
    | run | clear =>
      obtain rfl := Option.some.inj ht
      exact .same rfl rfl rfl
    | yield | sleep | exit =>
      simp only [exec] at ht
      split at ht
      · cases ht
      · obtain ⟨-,ht⟩ := Option.ite_none_right_eq_some.mp ht
        obtain rfl := Option.some.inj ht
        exact .same rfl rfl rfl

@[simp] theorem Sys.goto_top (s : Sys) (c : Cpu) (k : List Frame) :
    (s.goto c k).stack ((s.goto c k).tid c) = k := by
  change Function.update s.stack (s.tid c) k (s.tid c) = k
  exact Function.update_self ..

theorem mem_update {j j' : Tid} {n : Option Frame} (htop : s.stack j = f::rest)
    (hg : g ∈ Function.update s.stack j (n.toList++rest) j') :
    g ∈ s.stack j' ∨ j' = j ∧ n = some g := by
  rcases eq_or_ne j' j with rfl | hj
  · rw [Function.update_self] at hg
    rcases List.mem_append.mp hg with hg | hg
    · exact .inr ⟨rfl,by simpa using hg⟩
    · exact .inl (by simp [htop,hg])
  · rw [Function.update_of_ne hj] at hg
    exact .inl hg

theorem exec_mem (htop : s.stack (s.tid c) = f::rest) (ht : exec s c rest i = some t) {j : Tid}
    (hg : g ∈ t.stack j) :
    g ∈ s.stack j ∨ j = s.tid c ∧ i.next = some g ∨ g = .forkret := by
  cases i with
  | acquire l n | release l n =>
    obtain ⟨-,ht⟩ := Option.ite_none_right_eq_some.mp ht
    obtain rfl := Option.some.inj ht
    exact (mem_update htop hg).imp_right .inl
  | goto n | store q r ev n | assign j b n | clear n =>
    obtain rfl := Option.some.inj ht
    exact (mem_update htop hg).imp_right .inl
  | run p n =>
    obtain rfl := Option.some.inj ht
    exact (mem_update (n := some n) htop hg).imp_right .inl
  | swtch n =>
    simp only [exec] at ht
    split at ht
    · cases ht
    · obtain ⟨-,ht⟩ := Option.ite_none_right_eq_some.mp ht
      obtain rfl := Option.some.inj ht
      exact (mem_update (n := some n) htop hg).imp_right .inl
  | alloc q ok =>
    obtain rfl := Option.some.inj ht
    cases ok with
    | false => exact (mem_update (n := some (.forkFail q)) htop hg).imp_right .inl
    | true =>
      change g ∈ Function.update (Function.update s.stack (.proc q) [.forkret]) (s.tid c)
        (.forkRel q::rest) j at hg
      rcases eq_or_ne j (s.tid c) with rfl | hj
      · rw [Function.update_self] at hg
        rcases List.mem_cons.mp hg with rfl | hg
        · exact .inr (.inl ⟨rfl,rfl⟩)
        · exact .inl (by simp [htop,hg])
      · rw [Function.update_of_ne hj] at hg
        rcases eq_or_ne j (.proc q) with rfl | hq
        · rw [Function.update_self] at hg
          exact .inr (.inr (List.mem_singleton.mp hg))
        · rw [Function.update_of_ne hq] at hg
          exact .inl hg

theorem exec_next (ht : exec s c rest i = some t) (hg : i.next = some g) :
    t.stack (t.tid c) = g::rest ∨ (∃ p, i = .run p g) ∨ i = .swtch g := by
  cases i with
  | acquire l n | release l n =>
    obtain ⟨-,ht⟩ := Option.ite_none_right_eq_some.mp ht
    obtain rfl := Option.some.inj ht
    obtain rfl : n = some g := hg
    exact .inl (Sys.goto_top ..)
  | goto n | store q r ev n | assign j b n | clear n =>
    obtain rfl := Option.some.inj ht
    obtain rfl : n = some g := hg
    exact .inl (Sys.goto_top ..)
  | alloc q ok =>
    obtain rfl := Option.some.inj ht
    rw [Sys.goto_top,← Option.some.inj hg]
    exact .inl rfl
  | run p n => exact .inr (.inl ⟨p,by rw [Option.some.inj hg]⟩)
  | swtch n => exact .inr (.inr (by rw [Option.some.inj hg]))

namespace Core

theorem exec_others (h : Core s) {o : Bool} {i : Instr} (htop : s.stack (s.tid c) = f::rest)
    (hfetch : fetch s (s.cpuproc c) o f = some i) (ht : Sched.exec s c rest i = some t) {d : Cpu}
    (hd : d ≠ c) : t.on d = s.on d ∧ t.stack (t.tid d) = s.stack (s.tid d) := by
  have htid : s.tid d ≠ s.tid c := fun hi => hd (h.tid_inj hi)
  cases i with
  | acquire | release =>
    obtain ⟨-,ht⟩ := Option.ite_none_right_eq_some.mp ht
    obtain rfl := Option.some.inj ht
    exact ⟨rfl,Function.update_of_ne htid _ _⟩
  | goto n | store q g ev n | assign j b n | clear n =>
    obtain rfl := Option.some.inj ht
    exact ⟨rfl,Function.update_of_ne htid _ _⟩
  | alloc q ok =>
    have hloud := (fetch_cases hfetch).resolve_left id
    cases hloud
    have hst : (s.proc q).state = .UNUSED := h.found c _ _ htop
    have hq : s.tid d ≠ .proc q := by
      intro hq
      have hlive := onState_live (s.stack (.proc q))
      rw [← h.running d q (Sys.tid_eq_proc.mp hq)] at hlive
      exact hlive.1 hst
    obtain rfl := Option.some.inj ht
    cases o with
    | false => exact ⟨rfl,Function.update_of_ne htid _ _⟩
    | true =>
      exact ⟨rfl,(Function.update_of_ne htid _ _).trans (Function.update_of_ne hq _ _)⟩
  | run p n =>
    obtain rfl := Option.some.inj ht
    have hon : Function.update s.on c (some p) d = s.on d := Function.update_of_ne hd _ _
    refine ⟨hon,?_⟩
    simp only [Sys.tid,hon]
    exact Function.update_of_ne htid _ _
  | swtch n =>
    simp only [Sched.exec] at ht
    split at ht
    · cases ht
    · obtain ⟨-,ht⟩ := Option.ite_none_right_eq_some.mp ht
      obtain rfl := Option.some.inj ht
      have hon : Function.update s.on c none d = s.on d := Function.update_of_ne hd _ _
      refine ⟨hon,?_⟩
      simp only [Sys.tid,hon]
      exact Function.update_of_ne htid _ _

theorem exec_top (h : Core s) (htop : s.stack (s.tid c) = f::rest)
    (hfetch : fetch s (s.cpuproc c) o f = some i) (ht : Sched.exec s c rest i = some t)
    (hg : t.stack (t.tid c) = g::k) : i.next = some g ∧ t.on c = s.on c ∨ g.Calm := by
  have hnext : ∀ n : Option Frame, n.toList++rest = g::k → n = some g ∨ g.Calm := by
    intro n hn
    cases n with
    | none => exact .inr (.inr (.inr (h.shape.below (s.tid c) g (by
        simp only [Option.toList_none,List.nil_append] at hn
        simp [htop,hn]))))
    | some n => exact .inl (by rw [(List.cons.inj hn).1])
  cases i with
  | acquire l n | release l n =>
    obtain ⟨-,ht⟩ := Option.ite_none_right_eq_some.mp ht
    obtain rfl := Option.some.inj ht
    rw [Sys.goto_top] at hg
    exact (hnext n hg).imp_left fun hn => ⟨hn,rfl⟩
  | goto n | store q r ev n | assign j b n | clear n =>
    obtain rfl := Option.some.inj ht
    rw [Sys.goto_top] at hg
    exact (hnext n hg).imp_left fun hn => ⟨hn,rfl⟩
  | alloc q ok =>
    obtain rfl := Option.some.inj ht
    rw [Sys.goto_top] at hg
    refine .inl ⟨congrArg some (List.cons.inj hg).1,?_⟩
    cases ok <;> rfl
  | run p n =>
    have hloud := (fetch_cases hfetch).resolve_left id
    cases hloud
    obtain ⟨hst,hoff⟩ : (s.proc p).state = .RUNNING ∧ ∀ d, s.on d ≠ some p := h.found c _ _ htop
    obtain ⟨f,l,hs,hf⟩ := h.ready p hoff (.inr (.inr hst))
    obtain rfl := Option.some.inj ht
    have hne : Tid.proc p ≠ s.tid c := fun hp => hoff c (Sys.tid_eq_proc.mp hp.symm)
    rw [Sys.tid_of_some (Function.update_self c (some p) s.on)] at hg
    rw [(List.cons.inj (((Function.update_of_ne hne _ _).trans hs).symm.trans hg)).1] at hf
    exact .inr (.inl hf)
  | swtch n =>
    simp only [Sched.exec] at ht
    split at ht
    · cases ht
    · rename_i p hp
      obtain ⟨-,ht⟩ := Option.ite_none_right_eq_some.mp ht
      obtain rfl := Option.some.inj ht
      obtain ⟨l,hs⟩ := h.waiting c p hp
      have hne : Tid.sched c ≠ s.tid c := by simp [Sys.tid_of_some hp]
      rw [Sys.tid_of_none (Function.update_self c none s.on)] at hg
      exact .inr (.inr (.inl ⟨p,
        (List.cons.inj (((Function.update_of_ne hne _ _).trans hs).symm.trans hg)).1.symm⟩))

/-- A slot that is not in use is stored to by `kill` only, or by `reparent`. -/
theorem store_unused (h : Core s) (htop : s.stack (s.tid c) = f::rest) {q : ℕ} {r : Proc → Proc}
    {ev : List Event} (hstore : Store s (s.cpuproc c) f q r ev g)
    (hst : (s.proc q).state = .UNUSED) : (r (s.proc q)).state = .UNUSED ∧
      ((∃ pid, f = .killSet pid q) ∨ (∃ pid, f = .killWake pid q) ∨ ∃ status, f = .exitScan status q) := by
  have hlive : s.on c ≠ some q := by
    intro hc
    have hlive := onState_live (s.stack (.proc q))
    rw [← h.running c q hc] at hlive
    exact hlive.1 hst
  have hself : s.cpuproc c = some q → f.kind ≠ .sched → False :=
    fun hme hk => hlive (h.on_of_self htop hme hk)
  have hfork : f.kind = .call → f.forking ≠ some q := by
    intro hk hf
    obtain ⟨p,hp,-⟩ := h.on_of_kind htop (by simp [hk]) (by simp [hk])
    rw [Sys.tid_of_some hp] at htop
    simp [h.forks p f q (by simp [htop]) hf] at hst
  have hfound := h.found c f rest htop
  generalize hme : s.cpuproc c = me at hstore
  cases hstore with
  | chosen | wakeup | reap => simp [Frame.Found,hst] at hfound
  | yield | chan | sleep | tidy | exit => exact (hself hme (by simp [Frame.kind])).elim
  | parent | ready => exact (hfork rfl rfl).elim
  | kill => exact ⟨hst,.inl ⟨_,rfl⟩⟩
  | killWake => exact ⟨by simp [hst],.inr (.inl ⟨_,rfl⟩)⟩
  | reparent => exact ⟨hst,.inr (.inr ⟨_,rfl⟩)⟩

/-- A store keeps the pid of a slot and its being in use, unless `wait` frees the slot. -/
theorem store_pid (h : Core s) (htop : s.stack (s.tid c) = f::rest) {q : ℕ}
    {r : Proc → Proc} {ev : List Event} (hstore : Store s (s.cpuproc c) f q r ev g) :
    ((r (s.proc q)).pid = (s.proc q).pid ∧
      ((r (s.proc q)).state = .UNUSED ↔ (s.proc q).state = .UNUSED)) ∨
    r = freeproc ∧ ∃ addr, f = .waitFound addr q := by
  have hkeep := fun hun => (h.store_unused htop hstore hun).1
  generalize s.cpuproc c = me at hstore
  cases hstore with
  | reap => exact .inr ⟨rfl,_,rfl⟩
  | killWake => by_cases hst : (s.proc q).state = .SLEEPING <;> simp [hst]
  | kill | chan | tidy | parent | reparent => exact .inl ⟨rfl,Iff.rfl⟩
  | _ => exact .inl ⟨rfl,by simp,hkeep⟩

end Core

/-- What the arguments of a routine satisfy: `allocproc` looks at slots of the table, and the code
that made condition `i` true wakes the channel of `i`. -/
def Frame.Sane : Frame → Prop
  | .allocTest q | .allocFound q => q < NPROC
  | .wakeupAcq w chan _ | .wakeupTest w chan _ | .wakeupSet w chan _ | .wakeupRel w chan _ =>
    ∀ i, w = .cond i → chan = some (.cond i)
  | _ => True

@[simp] theorem Sleeper.resume_sane (w : Sleeper) : w.resume.Sane := by
  cases w <;> trivial

@[simp] theorem Waker.resume_sane (w : Waker) : w.resume.Sane := by
  cases w <;> trivial

theorem Frame.Calm.sane (h : f.Calm) : f.Sane := by
  cases f <;> first
    | trivial
    | exact absurd h (by simp [Frame.Calm,Frame.resumable,Frame.locks])

theorem fetch_sane {me : Option ℕ} (hf : f.Sane) (h : fetch s me o f = some i)
    (hg : i.next = some g) : g.Sane := by
  cases f <;> simp only [fetch,Option.map_eq_some_iff,Option.some.injEq,reduceCtorEq] at h
  all_goals try obtain ⟨p,rfl,h⟩ := h
  all_goals repeat' split at h
  all_goals try cases h
  all_goals simp only [Instr.next,Option.some.injEq,reduceCtorEq] at hg
  all_goals subst hg
  all_goals first
    | trivial
    | exact hf
    | assumption
    | exact Sleeper.resume_sane _
    | exact Waker.resume_sane _
    | (rintro _ ⟨⟩ <;> rfl)
    | (split <;> trivial)

structure Bounded (s : Sys) : Prop where
  frames : ∀ j, ∀ f ∈ s.stack j, f.Sane
  slots : ∀ q, (s.proc q).state ≠ .UNUSED → q < NPROC

namespace Bounded

theorem exec (h : Bounded s) (hcore : Core s) (htop : s.stack (s.tid c) = f::rest)
    (hfetch : fetch s (s.cpuproc c) o f = some i) (ht : Sched.exec s c rest i = some t) :
    Bounded t := by
  have hf : f.Sane := h.frames (s.tid c) f (by simp [htop])
  constructor
  · intro j g hg
    rcases exec_mem htop ht hg with hg | ⟨-,hg⟩ | rfl
    · exact h.frames j g hg
    · exact fetch_sane hf hfetch hg
    · trivial
  · intro q hq
    by_contra hbig
    have hun : (s.proc q).state = .UNUSED := by
      by_contra hne
      exact hbig (h.slots q hne)
    cases exec_change hfetch ht with
    | same hproc => exact hq (by rw [hproc,hun])
    | @store q' r ev n hstore hproc =>
      rw [hproc] at hq
      rcases eq_or_ne q q' with rfl | hne
      · rw [Function.update_self] at hq
        exact hq (hcore.store_unused htop hstore hun).1
      · rw [Function.update_of_ne hne] at hq
        exact hq hun
    | @fail q' hf' hproc | @alloc q' hf' hproc =>
      rw [hproc] at hq
      rcases eq_or_ne q q' with rfl | hne
      · subst hf'
        exact hbig hf
      · rw [Function.update_of_ne hne] at hq
        exact hq hun

theorem start (h : Bounded s) (hstart : Starts s c f) :
    Bounded (s.goto c (f::s.stack (s.tid c))) := by
  refine ⟨fun j g hg => ?_,h.slots⟩
  change g ∈ Function.update s.stack (s.tid c) _ j at hg
  rcases eq_or_ne j (s.tid c) with rfl | hj
  · rw [Function.update_self] at hg
    rcases List.mem_cons.mp hg with rfl | hg
    · exact Frame.Calm.sane (.inr (.inr hstart.locks))
    · exact h.frames _ g hg
  · rw [Function.update_of_ne hj] at hg
    exact h.frames j g hg

theorem init (cond : ℕ → Bool) : Bounded (init cond) := by
  constructor
  · intro j f hf
    cases j <;> simp only [Sched.init] at hf
    · rw [List.mem_singleton.mp hf]
      trivial
    · split at hf
      · rw [List.mem_singleton.mp hf]
        trivial
      · simp at hf
  · intro q hq
    simp only [Sched.init] at hq
    split at hq
    · subst q
      decide
    · simp at hq

end Bounded

structure Pids (s : Sys) : Prop where
  pos : 0 < s.nextpid
  unused : ∀ q, (s.proc q).state = .UNUSED → (s.proc q).pid = 0
  used : ∀ q, (s.proc q).state ≠ .UNUSED → 0 < (s.proc q).pid
  next : ∀ q, (s.proc q).pid < s.nextpid
  unique : ∀ q q', (s.proc q).pid = (s.proc q').pid → (s.proc q).pid ≠ 0 → q = q'

namespace Pids

theorem congr (h : Pids s) (hproc : t.proc = s.proc) (hnext : t.nextpid = s.nextpid) : Pids t :=
  ⟨hnext ▸ h.pos,by rw [hproc]; exact h.unused,by rw [hproc]; exact h.used,
    by rw [hproc,hnext]; exact h.next,by rw [hproc]; exact h.unique⟩

theorem update (h : Pids s) {q : ℕ} {r : Proc}
    (hproc : t.proc = Function.update s.proc q r) (hnext : s.nextpid ≤ t.nextpid)
    (hr : (r.pid = (s.proc q).pid ∧ (r.state = .UNUSED ↔ (s.proc q).state = .UNUSED)) ∨
      r.pid = 0 ∧ r.state = .UNUSED) : Pids t := by
  have hq : t.proc q = r := by rw [hproc,Function.update_self]
  have hne : ∀ k, k ≠ q → t.proc k = s.proc k := fun k hk => by rw [hproc,Function.update_of_ne hk]
  have hpid : ∀ k, (t.proc k).pid ≠ 0 → (t.proc k).pid = (s.proc k).pid := by
    intro k hk
    rcases eq_or_ne k q with rfl | hkq
    · rw [hq] at hk ⊢
      rcases hr with hr | hr
      · exact hr.1
      · exact absurd hr.1 hk
    · rw [hne k hkq]
  have hpos := h.pos.trans_le hnext
  constructor
  case pos => exact hpos
  case unused =>
    intro k hk
    rcases eq_or_ne k q with rfl | hkq
    · rw [hq] at hk ⊢
      rcases hr with ⟨hr,hun⟩ | ⟨hr,-⟩
      · rw [hr,h.unused k (hun.mp hk)]
      · exact hr
    · rw [hne k hkq] at hk ⊢
      exact h.unused k hk
  case used =>
    intro k hk
    rcases eq_or_ne k q with rfl | hkq
    · rw [hq] at hk ⊢
      rcases hr with ⟨hr,hun⟩ | ⟨-,hr⟩
      · rw [hr]
        exact h.used k fun hs => hk (hun.mpr hs)
      · exact absurd hr hk
    · rw [hne k hkq] at hk ⊢
      exact h.used k hk
  case next =>
    intro k
    by_cases hk : (t.proc k).pid = 0
    · rwa [hk]
    · rw [hpid k hk]
      exact (h.next k).trans_le hnext
  case unique =>
    intro k k' heq hk
    have hk' := hpid k' (heq ▸ hk)
    rw [hpid k hk] at heq hk
    exact h.unique k k' (heq.trans hk') hk

theorem alloc (h : Pids s) {q : ℕ} {r : Proc} (hproc : t.proc = Function.update s.proc q r)
    (hnext : t.nextpid = s.nextpid+1) (hr : r.pid = s.nextpid) (hst : r.state ≠ .UNUSED) :
    Pids t := by
  have hpos := h.pos
  have hq : t.proc q = r := by rw [hproc,Function.update_self]
  have hne : ∀ k, k ≠ q → t.proc k = s.proc k := fun k hk => by rw [hproc,Function.update_of_ne hk]
  constructor
  case pos => omega
  case unused =>
    intro k hk
    rcases eq_or_ne k q with rfl | hkq
    · exact absurd (hq ▸ hk) hst
    · rw [hne k hkq] at hk ⊢
      exact h.unused k hk
  case used =>
    intro k hk
    rcases eq_or_ne k q with rfl | hkq
    · rwa [hq,hr]
    · rw [hne k hkq] at hk ⊢
      exact h.used k hk
  case next =>
    intro k
    rcases eq_or_ne k q with rfl | hkq
    · rw [hq,hr]
      omega
    · rw [hne k hkq]
      have := h.next k
      omega
  case unique =>
    intro k k' heq hk
    have hlt := h.next
    rcases eq_or_ne k q with rfl | hkq <;> rcases eq_or_ne k' k with rfl | hk'
    · rfl
    · rw [hq,hr,hne k' hk'] at heq
      exact absurd heq (hlt k').ne'
    · rfl
    · rw [hne k hkq] at heq hk
      rcases eq_or_ne k' q with rfl | hkq'
      · rw [hq,hr] at heq
        exact absurd heq (hlt k).ne
      · rw [hne k' hkq'] at heq
        exact h.unique k k' heq hk

theorem exec (h : Pids s) (hcore : Core s) (htop : s.stack (s.tid c) = f::rest)
    (hfetch : fetch s (s.cpuproc c) o f = some i) (ht : Sched.exec s c rest i = some t) :
    Pids t := by
  cases exec_change hfetch ht with
  | same hproc _ hpid => exact h.congr hproc hpid
  | store hstore hproc _ hpid =>
    refine h.update hproc hpid.ge ?_
    rcases hcore.store_pid htop hstore with hkeep | ⟨rfl,-⟩
    · exact .inl hkeep
    · exact .inr ⟨rfl,rfl⟩
  | fail _ hproc _ hpid => exact h.update hproc (by omega) (.inr ⟨rfl,rfl⟩)
  | alloc _ hproc _ hpid => exact h.alloc hproc hpid rfl (by simp)

theorem init (cond : ℕ → Bool) : Pids (init cond) := by
  have hpid : ∀ q, (Sched.init cond).proc q =
      if q = initproc then {state := .RUNNABLE,pid := 1} else {} := fun q => rfl
  refine ⟨by simp [Sched.init],?_,?_,?_,?_⟩
  · intro q hq
    rw [hpid] at hq ⊢
    split at hq <;> simp_all
  · intro q hq
    rw [hpid] at hq ⊢
    split at hq <;> simp_all
  · intro q
    rw [hpid]
    split <;> simp [Sched.init]
  · intro q q' heq hq
    rw [hpid] at heq hq
    rw [hpid] at heq
    split_ifs at heq hq <;> simp_all

theorem of_run {cond : ℕ → Bool} {as : List Action}
    (hrun : Machine.run step (Sched.init cond) as = some s) : Pids s := by
  have hstep : ∀ s a t, Core s ∧ Pids s → step s a = some t → Core t ∧ Pids t := by
    rintro s a t ⟨hcore,h⟩ ht
    refine ⟨hcore.step ht,?_⟩
    rcases step_cases ht with ⟨c,o,f,rest,i,htop,hi,ht⟩ | ⟨c,f,-,-,rfl⟩
    · exact h.exec hcore htop hi ht
    · exact h.congr rfl rfl
  exact (Machine.run_invariant hstep ⟨Core.init cond,Pids.init cond⟩ hrun).2

end Pids

end Xv6.Sched
