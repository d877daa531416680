import Xv6.OneCpu
import Xv6.SchedStep

/-! `fork`, `exit` and `wait`: every process has a live parent, and every process that exits waits as
a zombie until its parent takes its status, once. -/
namespace Xv6.Sched

def exitsOf (q : ℕ) (log : List Event) : List (ℤ × ℤ) :=
  log.filterMap fun
    | .exited k pid status => if k = q then some (pid,status) else none
    | _ => none

/-- The exits of slot `q` that a `wait` has reported, in order. -/
def reapsOf (q : ℕ) (log : List Event) : List (ℤ × ℤ) :=
  log.filterMap fun
    | .reaped _ k pid status => if k = q then some (pid,status) else none
    | _ => none

def exitPids (log : List Event) : List ℤ :=
  log.filterMap fun
    | .exited _ pid _ => some pid
    | _ => none

def unreported (r : Proc) : List (ℤ × ℤ) := if r.state = .ZOMBIE then [(r.pid,r.xstate)] else []

def ProcState.live : ProcState → Bool
  | .SLEEPING | .RUNNABLE | .RUNNING => true
  | _ => false

def Frame.adopted : Frame → Option ℕ
  | .forkWaitRel q | .forkAcq q | .forkSet q => some q
  | _ => none

/-- The frames of `exit` up to the store of `ZOMBIE`. -/
def Frame.exiting : Frame → Bool
  | .exitWait _ | .exitScan _ _ | .exitAcq _ | .exitSet _ => true
  | .wakeupAcq w _ _ | .wakeupTest w _ _ | .wakeupSet w _ _ | .wakeupRel w _ _ =>
    decide (w.kind = .call)
  | _ => false

def NoChild (s : Sys) (p : ℕ) (k : ℕ) : Prop := ∀ q < k, (s.proc q).parent ≠ some p

def Childless (s : Sys) (p : ℕ) : Prop := ∀ q, (s.proc q).parent ≠ some p

def Waker.Knows (s : Sys) (p : ℕ) : Waker → Prop
  | .cond _ => True
  | .child _ k => NoChild s p (k+1)
  | .parent _ => Childless s p

def Frame.Knows (s : Sys) (p : ℕ) : Frame → Prop
  | .exitScan _ k => NoChild s p k
  | .wakeupAcq w _ _ | .wakeupTest w _ _ | .wakeupSet w _ _ | .wakeupRel w _ _ => w.Knows s p
  | .exitAcq _ | .exitSet _ => Childless s p
  | .waitScan _ k havekids => havekids = false → NoChild s p k
  | .waitAcq _ q | .waitTest _ q | .waitFound _ q => (s.proc q).parent = some p
  | .waitBad q | .waitRet (.badAddr q) => (s.proc q).parent = some p ∧ (s.proc q).state = .ZOMBIE
  | .waitReaped _ pid | .waitRet (.reaped pid) => ∃ q status, .reaped p q pid status ∈ s.log
  | .waitKilledRel _ killed => killed = true → (s.proc p).killed = true
  | .waitRet .killed => (s.proc p).killed = true
  | .waitRet .noKids => Childless s p
  | _ => True

variable {s t : Sys} {c : Cpu} {o : Bool} {f g : Frame} {rest : List Frame} {i : Instr} {p q : ℕ}

theorem Frame.knows_of_not_wait {me : Option ℕ} (h : .wait ∉ f.locks me) : f.Knows s p := by
  cases f with
  | wakeupAcq w | wakeupTest w | wakeupSet w | wakeupRel w =>
    cases w <;> first | trivial | simp [Frame.locks] at h
  | _ => first | trivial | simp [Frame.locks] at h

theorem Frame.Calm.not_wait (h : f.Calm) : .wait ∉ f.locks none := by
  rcases h with h | ⟨p,rfl⟩ | h
  · simp [Frame.resumable_locks h,own]
  · simp [Frame.locks]
  · simp [h]

theorem Frame.Knows.mono (h : f.Knows s p)
    (hparent : ∀ q, (t.proc q).parent = (s.proc q).parent)
    (hzombie : ∀ q, (s.proc q).state = .ZOMBIE → (t.proc q).state = .ZOMBIE)
    (hkilled : (s.proc p).killed = true → (t.proc p).killed = true) (hlog : s.log ⊆ t.log) :
    f.Knows t p := by
  have hno : ∀ k, NoChild s p k → NoChild t p k := fun k hk q hq => by
    rw [hparent q]
    exact hk q hq
  have hall : Childless s p → Childless t p := fun hk q => by
    rw [hparent q]
    exact hk q
  have hreaped : ∀ pid, (∃ q status, .reaped p q pid status ∈ s.log) →
      ∃ q status, .reaped p q pid status ∈ t.log :=
    fun pid ⟨q,status,hmem⟩ => ⟨q,status,hlog hmem⟩
  cases f with
  | exitScan _ k => exact hno k h
  | wakeupAcq w | wakeupTest w | wakeupSet w | wakeupRel w =>
    cases w with
    | cond i => trivial
    | child _ k => exact hno (k+1) h
    | parent _ => exact hall h
  | exitAcq _ | exitSet _ => exact hall h
  | waitScan _ k havekids => exact fun hk => hno k (h hk)
  | waitAcq _ q | waitTest _ q | waitFound _ q => exact (hparent q).trans h
  | waitBad q => exact ⟨(hparent q).trans h.1,hzombie q h.2⟩
  | waitReaped _ pid => exact hreaped pid h
  | waitKilledRel _ killed => exact fun hk => hkilled (h hk)
  | waitRet r =>
    cases r with
    | reaped pid => exact hreaped pid h
    | noKids => exact hall h
    | killed => exact hkilled h
    | badAddr q => exact ⟨(hparent q).trans h.1,hzombie q h.2⟩
  | _ => trivial

theorem fetch_knows (h : f.Knows s p) (hfound : f.Found s)
    (hbig : ∀ q, ¬q < NPROC → (s.proc q).parent = none) (hfetch : fetch s (some p) o f = some i)
    (hi : i.quiet) (hg : i.next = some g) : g.Knows s p := by
  have hall : ∀ k, ¬k < NPROC → NoChild s p k → Childless s p := by
    intro k hk hno q
    by_cases hq : q < k
    · exact hno q hq
    · rw [hbig q (by omega)]
      simp
  have hsucc : ∀ k, (s.proc k).parent ≠ some p → NoChild s p k → NoChild s p (k+1) := by
    intro k hk hno q hq
    rcases Nat.lt_succ_iff_lt_or_eq.mp hq with hq | rfl
    · exact hno q hq
    · exact hk
  cases f <;> simp only [fetch,Option.map_some,Option.some.injEq,reduceCtorEq] at hfetch
  all_goals repeat' split at hfetch
  all_goals try cases hfetch
  all_goals try exact hi.elim
  all_goals simp only [Instr.next,Option.some.injEq,reduceCtorEq] at hg
  all_goals subst hg
  all_goals try trivial
  case sleepReacq.refl w =>
    cases w with
    | waiter i => trivial
    | wait addr => exact fun _ q hq => absurd hq (by omega)
  case wakeupAcq.isFalse.refl w _ _ _ => cases w <;> exact h
  case exitWait.refl => exact fun q hq => absurd hq (by omega)
  case exitScan.isTrue.isFalse.refl hne => exact hsucc _ hne h
  case exitScan.isFalse.refl hend => exact hall _ hend h
  case waitStart.refl => exact fun _ q hq => absurd hq (by omega)
  case waitScan.isTrue.isFalse.refl hne => exact fun hk => hsucc _ hne (h hk)
  case waitScan.isFalse.isFalse.refl hend hk => exact hall _ hend (h (by simpa using hk))
  case waitNext.refl => exact fun hk => by cases hk
  case waitKilledTest.refl => exact id
  case waitKilledRel.isTrue.refl hk => exact h hk

theorem Core.store_live (h : Core s) (htop : s.stack (s.tid c) = f::rest) {r : Proc → Proc}
    {ev : List Event} (hstore : Store s (s.cpuproc c) f q r ev g)
    (hst : (s.proc q).state.live) :
    (r (s.proc q)).state.live ∨ s.on c = some q ∧ ∃ status, f = .exitSet status := by
  have hfound := h.found c f rest htop
  have hself := h.on_of_self htop (q := q)
  generalize s.cpuproc c = me at hstore hself
  cases hstore with
  | exit => exact .inr ⟨hself rfl (by simp [Frame.kind]),_,rfl⟩
  | reap =>
    have hz : (s.proc q).state = .ZOMBIE := hfound
    simp [hz,ProcState.live] at hst
  | killWake =>
    by_cases hs : (s.proc q).state = .SLEEPING
    · simp [hs,ProcState.live]
    · simp [hs,hst]
  | kill | chan | tidy | parent | reparent => exact .inl hst
  | _ => exact .inl rfl

/-- The process that runs a call is `RUNNING` up to the store of another state. -/
theorem Core.self_running (h : Core s) (htop : s.stack (s.tid c) = f::rest)
    (hme : s.cpuproc c = some q) (hk : f.kind ≠ .sched) (hon : f.onState = .RUNNING) :
    s.on c = some q ∧ (s.proc q).state = .RUNNING := by
  have hc := h.on_of_self htop hme hk
  refine ⟨hc,?_⟩
  rw [h.running c q hc,← Sys.tid_of_some hc,htop]
  exact hon

/-- Every exit of a slot has been reported once, but for the one its zombie still holds. -/
def Accounted (s : Sys) : Prop :=
  ∀ k, exitsOf k s.log = reapsOf k s.log++unreported (s.proc k)

theorem unreported_of_ne {r : Proc} (h : r.state ≠ .ZOMBIE) : unreported r = [] := if_neg h

theorem unreported_of_eq {r : Proc} (h : r.state = .ZOMBIE) : unreported r = [(r.pid,r.xstate)] :=
  if_pos h

theorem Accounted.keep (h : Accounted s) (hlog : t.log = s.log) {r : Proc}
    (hproc : t.proc = Function.update s.proc q r) (hr : unreported r = unreported (s.proc q)) :
    Accounted t := by
  intro k
  rw [hlog,hproc,h k]
  rcases eq_or_ne k q with rfl | hk
  · rw [Function.update_self,hr]
  · rw [Function.update_of_ne hk]

theorem Accounted.store (h : Accounted s) (hcore : Core s) (htop : s.stack (s.tid c) = f::rest)
    {r : Proc → Proc} {ev : List Event} (hstore : Store s (s.cpuproc c) f q r ev g)
    (hproc : t.proc = Function.update s.proc q (r (s.proc q))) (hlog : t.log = s.log++ev) :
    Accounted t := by
  have hfound := hcore.found c f rest htop
  have hself := hcore.self_running htop (q := q)
  have hfork : f = .forkSet q → (s.proc q).state = .USED := by
    rintro rfl
    obtain ⟨p,hp,-⟩ := hcore.on_of_kind htop (by simp [Frame.kind]) (by simp [Frame.kind])
    rw [Sys.tid_of_some hp] at htop
    exact hcore.forks p _ q (by rw [htop]; exact List.mem_cons_self) rfl
  generalize s.cpuproc c = me at hstore hself
  cases hstore with
  | exit =>
    intro k
    obtain ⟨-,hrun⟩ := hself rfl (by simp [Frame.kind]) rfl
    have hk := h k
    rw [hlog,hproc]
    rcases eq_or_ne k q with rfl | hne
    · rw [unreported_of_ne (by simp [hrun])] at hk
      simp_all [exitsOf,reapsOf,unreported]
    · rw [Function.update_of_ne hne]
      simpa [exitsOf,reapsOf,hne.symm] using hk
  | reap =>
    intro k
    have hk := h k
    rw [hlog,hproc]
    rcases eq_or_ne k q with rfl | hne
    · rw [unreported_of_eq hfound] at hk
      simp_all [exitsOf,reapsOf,unreported,freeproc]
    · rw [Function.update_of_ne hne]
      simpa [exitsOf,reapsOf,hne.symm] using hk
  | kill | chan | tidy | parent | reparent =>
    rw [List.append_nil] at hlog
    exact h.keep hlog hproc rfl
  | killWake =>
    rw [List.append_nil] at hlog
    refine h.keep hlog hproc ?_
    by_cases hs : (s.proc q).state = .SLEEPING <;> simp [hs,unreported]
  | yield | sleep =>
    rw [List.append_nil] at hlog
    obtain ⟨-,hrun⟩ := hself rfl (by simp [Frame.kind]) rfl
    exact h.keep hlog hproc (by simp [unreported,hrun])
  | chosen | wakeup =>
    rw [List.append_nil] at hlog
    simp only [Frame.Found] at hfound
    exact h.keep hlog hproc (by simp [unreported,hfound])
  | ready =>
    rw [List.append_nil] at hlog
    exact h.keep hlog hproc (by simp [unreported,hfork rfl])

theorem Store.parent_cases {me : Option ℕ} {r : Proc → Proc} {ev : List Event}
    (h : Store s me f q r ev g) :
    (r (s.proc q)).parent = (s.proc q).parent ∨
    (∃ p, me = some p ∧ f = .forkParent q ∧ (r (s.proc q)).parent = some p) ∨
    (∃ p status, me = some p ∧ f = .exitScan status q ∧ (s.proc q).parent = some p ∧
      (r (s.proc q)).parent = some initproc) ∨
    ∃ addr, f = .waitFound addr q ∧ (r (s.proc q)).parent = none := by
  cases h with
  | parent => exact .inr (.inl ⟨_,rfl,rfl,rfl⟩)
  | reparent hq hp => exact .inr (.inr (.inl ⟨_,_,rfl,rfl,hp,rfl⟩))
  | reap => exact .inr (.inr (.inr ⟨_,rfl,rfl⟩))
  | killWake => exact .inl (by by_cases hs : (s.proc q).state = .SLEEPING <;> simp [hs])
  | _ => exact .inl rfl

theorem Core.store_zombie (h : Core s) (htop : s.stack (s.tid c) = f::rest) {r : Proc → Proc}
    {ev : List Event} (hstore : Store s (s.cpuproc c) f q r ev g)
    (hst : (s.proc q).state = .ZOMBIE) :
    (r (s.proc q)).state = .ZOMBIE ∨ ∃ addr, f = .waitFound addr q := by
  have hfound := h.found c f rest htop
  have hself := h.self_running htop (q := q)
  have hmove := hstore.move hfound
  generalize s.cpuproc c = me at hstore hself hmove
  cases hstore with
  | reap => exact .inr ⟨_,rfl⟩
  | kill | chan | tidy | parent | reparent => exact .inl hst
  | killWake => exact .inl (by simp [hst])
  | exit => exact .inl rfl
  | yield | sleep => simp [(hself rfl (by simp [Frame.kind]) rfl).2] at hst
  | chosen | wakeup => simp [Frame.Found,hst] at hfound
  | ready =>
    obtain ⟨p,hp,-⟩ := h.on_of_kind htop (by simp [Frame.kind]) (by simp [Frame.kind])
    rw [Sys.tid_of_some hp] at htop
    simp [h.forks p (.forkSet q) q (by simp [htop]) rfl] at hst

/-- No pid exits twice, and a process that has not exited has a pid of its own. -/
structure Once (s : Sys) : Prop where
  nodup : (exitPids s.log).Nodup
  past : ∀ pid ∈ exitPids s.log, pid < s.nextpid
  fresh : ∀ q, (s.proc q).state ≠ .UNUSED → (s.proc q).state ≠ .ZOMBIE →
    (s.proc q).pid ∉ exitPids s.log

/-- The pid of a process that has not exited is an old one, or the next one. -/
theorem exec_live_pid (hcore : Core s) (htop : s.stack (s.tid c) = f::rest)
    (hfetch : fetch s (s.cpuproc c) o f = some i) (ht : exec s c rest i = some t) {k : ℕ}
    (hun : (t.proc k).state ≠ .UNUSED) (hz : (t.proc k).state ≠ .ZOMBIE) :
    ((s.proc k).state ≠ .UNUSED ∧ (s.proc k).state ≠ .ZOMBIE ∧ (t.proc k).pid = (s.proc k).pid) ∨
      (t.proc k).pid = s.nextpid := by
  cases exec_change hfetch ht with
  | same hproc =>
    rw [hproc] at hun hz ⊢
    exact .inl ⟨hun,hz,rfl⟩
  | @store q r ev n hstore hproc =>
    rw [hproc] at hun hz ⊢
    rcases eq_or_ne k q with rfl | hne
    · rw [Function.update_self] at hun hz ⊢
      rcases hcore.store_pid htop hstore with ⟨hpid,hiff⟩ | ⟨rfl,-⟩
      · refine .inl ⟨fun hs => hun (hiff.mpr hs),fun hs => ?_,hpid⟩
        obtain ⟨addr,rfl⟩ := (hcore.store_zombie htop hstore hs).resolve_left hz
        generalize s.cpuproc c = me at hstore
        cases hstore
        exact hun rfl
      · exact absurd rfl hun
    · rw [Function.update_of_ne hne] at hun hz ⊢
      exact .inl ⟨hun,hz,rfl⟩
  | @fail q hf hproc =>
    rw [hproc] at hun hz ⊢
    rcases eq_or_ne k q with rfl | hne
    · rw [Function.update_self] at hun
      exact absurd rfl hun
    · rw [Function.update_of_ne hne] at hun hz ⊢
      exact .inl ⟨hun,hz,rfl⟩
  | @alloc q hf hproc =>
    rw [hproc] at hun hz ⊢
    rcases eq_or_ne k q with rfl | hne
    · rw [Function.update_self]
      exact .inr rfl
    · rw [Function.update_of_ne hne] at hun hz ⊢
      exact .inl ⟨hun,hz,rfl⟩

theorem exec_exits (hcore : Core s) (htop : s.stack (s.tid c) = f::rest)
    (hfetch : fetch s (s.cpuproc c) o f = some i) (ht : exec s c rest i = some t) :
    exitPids t.log = exitPids s.log ∨ ∃ q, s.on c = some q ∧ (s.proc q).state = .RUNNING ∧
      (t.proc q).state = .ZOMBIE ∧ exitPids t.log = exitPids s.log++[(s.proc q).pid] := by
  cases exec_change hfetch ht with
  | same _ hlog | fail _ _ hlog => exact .inl (by rw [hlog])
  | alloc _ _ hlog => exact .inl (by rw [hlog]; simp [exitPids])
  | store hstore hproc hlog =>
    rw [hlog]
    generalize hme : s.cpuproc c = me at hstore
    cases hstore with
    | exit =>
      obtain ⟨hc,hrun⟩ := hcore.self_running htop hme (by simp [Frame.kind]) rfl
      exact .inr ⟨_,hc,hrun,by rw [hproc,Function.update_self],by simp [exitPids]⟩
    | _ => exact .inl (by simp [exitPids])

theorem Once.exec (h : Once s) (hcore : Core s) (hpids : Pids s)
    (htop : s.stack (s.tid c) = f::rest) (hfetch : fetch s (s.cpuproc c) o f = some i)
    (ht : Sched.exec s c rest i = some t) : Once t := by
  have hnext : s.nextpid ≤ t.nextpid := by
    cases exec_change hfetch ht with
    | same _ _ hpid | store _ _ _ hpid | fail _ _ _ hpid | alloc _ _ _ hpid => omega
  rcases exec_exits hcore htop hfetch ht with hsame | ⟨p,-,hrun,hzombie,hlog⟩
  · refine ⟨hsame ▸ h.nodup,?_,?_⟩
    · rw [hsame]
      exact fun pid hpid => (h.past pid hpid).trans_le hnext
    · intro k hun hz
      rw [hsame]
      rcases exec_live_pid hcore htop hfetch ht hun hz with ⟨hun,hz,hpid⟩ | hpid
      · exact hpid ▸ h.fresh k hun hz
      · exact fun hmem => (h.past _ hmem).ne hpid
  · have hp := h.fresh p (by simp [hrun]) (by simp [hrun])
    refine ⟨?_,?_,?_⟩
    · rw [hlog,List.nodup_append]
      refine ⟨h.nodup,List.nodup_singleton _,fun pid hpid pid' hpid' => ?_⟩
      rw [List.mem_singleton.mp hpid']
      exact ne_of_mem_of_not_mem hpid hp
    · intro pid hpid
      rw [hlog] at hpid
      rcases List.mem_append.mp hpid with hpid | hpid
      · exact (h.past pid hpid).trans_le hnext
      · rw [List.mem_singleton.mp hpid]
        exact (hpids.next p).trans_le hnext
    · intro k hun hz hmem
      rw [hlog] at hmem
      have hkp : k ≠ p := fun hk => hz (hk ▸ hzombie)
      rcases exec_live_pid hcore htop hfetch ht hun hz with ⟨hun,hz,hpid⟩ | hpid
      · rw [hpid] at hmem
        rcases List.mem_append.mp hmem with hmem | hmem
        · exact h.fresh k hun hz hmem
        · exact hkp (hpids.unique k p (List.mem_singleton.mp hmem) (hpids.used k hun).ne')
      · rw [hpid] at hmem
        rcases List.mem_append.mp hmem with hmem | hmem
        · exact (h.past _ hmem).ne rfl
        · exact (hpids.next p).ne (List.mem_singleton.mp hmem).symm

theorem fetch_adopted {me : Option ℕ} (h : fetch s me o f = some i) (hg : i.next = some g)
    (hq : g.adopted = some q) : f.adopted = some q ∨ f = .forkParent q := by
  cases f <;> simp only [fetch,Option.map_eq_some_iff,Option.some.injEq,reduceCtorEq] at h
  all_goals try obtain ⟨p,rfl,h⟩ := h
  all_goals repeat' split at h
  all_goals try cases h
  all_goals simp only [Instr.next,Option.some.injEq,reduceCtorEq] at hg
  all_goals subst hg
  case forkParent => exact .inr (by rw [Option.some.inj hq])
  case forkWaitRel | forkAcq => exact .inl hq
  case allocFound => cases o <;> cases hq
  case sleepReacq w => cases w <;> cases hq
  case wakeupAcq.isFalse.refl w _ _ _ => cases w <;> cases hq
  all_goals cases hq

theorem fetch_exiting {me : Option ℕ} (h : fetch s me o f = some i) (hg : i.next = some g)
    (hq : g.exiting) : f.exiting := by
  cases f <;> simp only [fetch,Option.map_eq_some_iff,Option.some.injEq,reduceCtorEq] at h
  all_goals try obtain ⟨p,rfl,h⟩ := h
  all_goals repeat' split at h
  all_goals try cases h
  all_goals simp only [Instr.next,Option.some.injEq,reduceCtorEq] at hg
  all_goals subst hg
  case allocFound => cases o <;> cases hq
  case sleepReacq w => cases w <;> cases hq
  case wakeupAcq.isFalse.refl w _ _ _ => cases w <;> first | rfl | cases hq
  all_goals first | exact hq | rfl

theorem Frame.forking_of_adopted (h : f.adopted = some q) : f.forking = some q := by
  cases f <;> first | exact h | cases h

theorem exec_log (hfetch : fetch s (s.cpuproc c) o f = some i) (ht : exec s c rest i = some t) :
    s.log ⊆ t.log := by
  cases exec_change hfetch ht with
  | same _ hlog | fail _ _ hlog => rw [hlog]; exact List.Subset.refl _
  | store _ _ hlog | alloc _ _ hlog => rw [hlog]; exact List.subset_append_left ..

theorem exec_quiet (hi : i.quiet) (ht : exec s c rest i = some t) :
    t.proc = s.proc ∧ t.log = s.log := by
  cases i with
  | acquire l n | release l n =>
    obtain ⟨-,ht⟩ := Option.ite_none_right_eq_some.mp ht
    obtain rfl := Option.some.inj ht
    exact ⟨rfl,rfl⟩
  | goto n | assign j b n =>
    obtain rfl := Option.some.inj ht
    exact ⟨rfl,rfl⟩
  | _ => exact hi.elim

structure Family (s : Sys) : Prop where
  core : Core s
  bounded : Bounded s
  pids : Pids s
  accounted : Accounted s
  once : Once s
  alive : ∀ q r, (s.proc q).parent = some r → (s.proc r).state.live
  parent : ∀ q, q ≠ initproc → (s.proc q).state ≠ .UNUSED → (s.proc q).state ≠ .USED →
    (s.proc q).parent ≠ none
  orphan : ∀ q, (s.proc q).state = .UNUSED → (s.proc q).parent = none
  first : (s.proc initproc).state.live
  adopted : ∀ p f q, f ∈ s.stack (.proc p) → f.adopted = some q → (s.proc q).parent = some p
  exiting : ∀ p f, f ∈ s.stack (.proc p) → f.exiting → p ≠ initproc
  knows : ∀ c p f rest, s.on c = some p → s.stack (s.tid c) = f::rest → f.Knows s p

namespace Family

section Exec

variable (h : Family s) (htop : s.stack (s.tid c) = f::rest)
  (hfetch : fetch s (s.cpuproc c) o f = some i) (ht : exec s c rest i = some t)
include h htop hfetch ht

theorem live_exec {r : ℕ} (hr : (s.proc r).state.live) :
    (t.proc r).state.live ∨ s.on c = some r ∧ ∃ status, f = .exitSet status := by
  cases exec_change hfetch ht with
  | same hproc => exact .inl (by rwa [hproc])
  | @store q g ev n hstore hproc =>
    rw [hproc]
    rcases eq_or_ne r q with rfl | hne
    · rw [Function.update_self]
      exact h.core.store_live htop hstore hr
    · rw [Function.update_of_ne hne]
      exact .inl hr
  | @fail q hf hproc | @alloc q hf hproc =>
    rw [hproc]
    rcases eq_or_ne r q with rfl | hne
    · subst hf
      have hun : (s.proc r).state = .UNUSED := h.core.found c _ _ htop
      simp [hun,ProcState.live] at hr
    · rw [Function.update_of_ne hne]
      exact .inl hr

theorem parent_exec (k : ℕ) : (t.proc k).parent = (s.proc k).parent ∨
    (∃ p, s.cpuproc c = some p ∧ f = .forkParent k ∧ (t.proc k).parent = some p) ∨
    (∃ p status, s.cpuproc c = some p ∧ f = .exitScan status k ∧ (s.proc k).parent = some p ∧
      (t.proc k).parent = some initproc) ∨
    ∃ addr, f = .waitFound addr k ∧ (t.proc k).parent = none := by
  cases exec_change hfetch ht with
  | same hproc => exact .inl (by rw [hproc])
  | @store q g ev n hstore hproc =>
    rw [hproc]
    rcases eq_or_ne k q with rfl | hne
    · rw [Function.update_self]
      exact hstore.parent_cases
    · exact .inl (by rw [Function.update_of_ne hne])
  | @fail q hf hproc =>
    rw [hproc]
    rcases eq_or_ne k q with rfl | hne
    · subst hf
      rw [Function.update_self]
      exact .inl (h.orphan k (h.core.found c _ _ htop)).symm
    · exact .inl (by rw [Function.update_of_ne hne])
  | @alloc q hf hproc =>
    rw [hproc]
    rcases eq_or_ne k q with rfl | hne
    · rw [Function.update_self]
      exact .inl rfl
    · exact .inl (by rw [Function.update_of_ne hne])

theorem parent_of_not_wait (hw : .wait ∉ f.locks (s.cpuproc c)) (k : ℕ) :
    (t.proc k).parent = (s.proc k).parent := by
  rcases h.parent_exec htop hfetch ht k with hk | ⟨_,_,rfl,_⟩ | ⟨_,_,_,rfl,_⟩ | ⟨_,rfl,_⟩
  · exact hk
  all_goals simp [Frame.locks] at hw

theorem alive_exec {k r : ℕ} (hk : (t.proc k).parent = some r) : (t.proc r).state.live := by
  rcases h.parent_exec htop hfetch ht k with hsame | ⟨p,hme,rfl,hp⟩ | ⟨p,st,hme,rfl,-,hp⟩ | ⟨_,_,hp⟩
  · rw [hsame] at hk
    refine (h.live_exec htop hfetch ht (h.alive k r hk)).resolve_right ?_
    rintro ⟨hc,st,rfl⟩
    exact h.knows c r _ rest hc htop k hk
  · obtain rfl := Option.some.inj (hp.symm.trans hk)
    have hrun := (h.core.self_running htop hme (by simp [Frame.kind]) rfl).2
    refine (h.live_exec htop hfetch ht (by rw [hrun]; rfl)).resolve_right ?_
    rintro ⟨-,st,⟨⟩⟩
  · obtain rfl := Option.some.inj (hp.symm.trans hk)
    refine (h.live_exec htop hfetch ht h.first).resolve_right ?_
    rintro ⟨-,st,⟨⟩⟩
  · rw [hp] at hk
    cases hk

theorem first_exec : (t.proc initproc).state.live := by
  refine (h.live_exec htop hfetch ht h.first).resolve_right ?_
  rintro ⟨hc,st,rfl⟩
  rw [Sys.tid_of_some hc] at htop
  exact h.exiting initproc (.exitSet st) (by simp [htop]) rfl rfl

theorem has_parent_exec {k : ℕ} (hk : k ≠ initproc) (hun : (t.proc k).state ≠ .UNUSED)
    (hused : (t.proc k).state ≠ .USED) : (t.proc k).parent ≠ none := by
  cases exec_change hfetch ht with
  | same hproc =>
    rw [hproc] at hun hused ⊢
    exact h.parent k hk hun hused
  | @store q g ev n hstore hproc =>
    rw [hproc] at hun hused ⊢
    rcases eq_or_ne k q with rfl | hne
    · rw [Function.update_self] at hun hused ⊢
      have hun' : (s.proc k).state ≠ .UNUSED := fun hs =>
        hun (h.core.store_unused htop hstore hs).1
      have hold : (s.proc k).parent ≠ none := by
        by_cases hs : (s.proc k).state = .USED
        · -- only its own `fork` makes a slot runnable, after it has set the parent
          have hmove := hstore.move (h.core.found c f rest htop)
          obtain ⟨rfl,-⟩ := (h.core.store_used htop hmove hs).resolve_left hused
          obtain ⟨p,hp,-⟩ := h.core.on_of_kind htop (by simp [Frame.kind]) (by simp [Frame.kind])
          rw [Sys.tid_of_some hp] at htop
          rw [h.adopted p (.forkSet k) k (by simp [htop]) rfl]
          simp
        · exact h.parent k hk hun' hs
      rcases hstore.parent_cases with hp | ⟨p,-,-,hp⟩ | ⟨p,_,-,-,-,hp⟩ | ⟨addr,hf,-⟩
      · rwa [hp]
      · simp [hp]
      · simp [hp]
      · subst hf
        generalize s.cpuproc c = me at hstore
        cases hstore
        exact absurd rfl hun
    · rw [Function.update_of_ne hne] at hun hused ⊢
      exact h.parent k hk hun hused
  | @fail q hf hproc | @alloc q hf hproc =>
    rw [hproc] at hun hused ⊢
    rcases eq_or_ne k q with rfl | hne
    · simp [freeproc] at hun hused
    · rw [Function.update_of_ne hne] at hun hused ⊢
      exact h.parent k hk hun hused

theorem orphan_exec {k : ℕ} (hk : (t.proc k).state = .UNUSED) : (t.proc k).parent = none := by
  cases exec_change hfetch ht with
  | same hproc =>
    rw [hproc] at hk ⊢
    exact h.orphan k hk
  | @store q g ev n hstore hproc =>
    rw [hproc] at hk ⊢
    rcases eq_or_ne k q with rfl | hne
    · rw [Function.update_self] at hk ⊢
      rcases h.core.store_pid htop hstore with ⟨-,hun⟩ | ⟨rfl,-⟩
      · have hold := h.orphan k (hun.mp hk)
        have hwho := (h.core.store_unused htop hstore (hun.mp hk)).2
        rcases hstore.parent_cases with hp | ⟨p,-,rfl,-⟩ | ⟨p,_,-,-,hp,-⟩ | ⟨addr,-,hp⟩
        · rw [hp,hold]
        · simp at hwho
        · simp [hold] at hp
        · exact hp
      · rfl
    · rw [Function.update_of_ne hne] at hk ⊢
      exact h.orphan k hk
  | @fail q hf hproc =>
    rw [hproc] at hk ⊢
    rcases eq_or_ne k q with rfl | hne
    · rw [Function.update_self]
      rfl
    · rw [Function.update_of_ne hne] at hk ⊢
      exact h.orphan k hk
  | @alloc q hf hproc =>
    rw [hproc] at hk ⊢
    rcases eq_or_ne k q with rfl | hne
    · simp at hk
    · rw [Function.update_of_ne hne] at hk ⊢
      exact h.orphan k hk

/-- The parent that `fork` has set stays: the slot is in use, not a zombie, and `p` does not exit. -/
theorem adopted_keep {g : Frame} {k : ℕ} (hg : g ∈ s.stack (.proc p)) (hk : g.adopted = some k) :
    (t.proc k).parent = some p := by
  have hold := h.adopted p g k hg hk
  have hused := h.core.forks p g k hg (Frame.forking_of_adopted hk)
  -- a call that process `p` is in is its only frame
  have honly : s.cpuproc c = some p → f.kind = .call → f = g := by
    intro hme hcall
    have hc := h.core.on_of_self htop hme (by simp [hcall])
    rw [h.core.shape.rest_eq_nil htop hcall,Sys.tid_of_some hc] at htop
    rw [htop] at hg
    exact (List.mem_singleton.mp hg).symm
  rcases h.parent_exec htop hfetch ht k with hp | ⟨p',hme,rfl,hp⟩ | ⟨p',st,hme,rfl,hp,-⟩ | ⟨_,rfl,-⟩
  · rw [hp,hold]
  · have hc := h.core.on_of_self htop hme (by simp [Frame.kind])
    have hpp : p' = p := h.core.forker p' p (.forkParent k) g k
      (by rw [← Sys.tid_of_some hc,htop]; exact List.mem_cons_self) hg rfl
      (Frame.forking_of_adopted hk)
    rw [hp,hpp]
  · obtain rfl := Option.some.inj (hp.symm.trans hold)
    rw [← honly hme rfl] at hk
    cases hk
  · have hz : (s.proc k).state = .ZOMBIE := h.core.found c _ _ htop
    simp [hz] at hused

theorem adopted_exec {g : Frame} {k : ℕ} (hg : g ∈ t.stack (.proc p)) (hk : g.adopted = some k) :
    (t.proc k).parent = some p := by
  rcases exec_mem htop ht hg with hg | ⟨hj,hn⟩ | rfl
  · exact h.adopted_keep htop hfetch ht hg hk
  · rcases fetch_adopted hfetch hn hk with hf | rfl
    · exact h.adopted_keep htop hfetch ht (by rw [hj,htop]; exact List.mem_cons_self) hf
    · have hc := Sys.tid_eq_proc.mp hj.symm
      simp only [fetch,h.core.current c p hc,Option.map_some] at hfetch
      cases hfetch
      obtain rfl := Option.some.inj ht
      simp [Sys.goto]
  · cases hk

theorem exiting_exec {g : Frame} (hg : g ∈ t.stack (.proc p)) (he : g.exiting) : p ≠ initproc := by
  rcases exec_mem htop ht hg with hg | ⟨hj,hn⟩ | rfl
  · exact h.exiting p g hg he
  · exact h.exiting p f (by rw [hj,htop]; exact List.mem_cons_self) (fetch_exiting hfetch hn he)
  · cases he

theorem accounted_exec : Accounted t := by
  cases exec_change hfetch ht with
  | same hproc hlog =>
    intro k
    rw [hlog,hproc]
    exact h.accounted k
  | store hstore hproc hlog => exact h.accounted.store h.core htop hstore hproc hlog
  | @fail q hf hproc hlog =>
    subst hf
    have hun : (s.proc q).state = .UNUSED := h.core.found c _ _ htop
    exact h.accounted.keep hlog hproc (by simp [unreported,freeproc,hun])
  | @alloc q hf hproc hlog =>
    subst hf
    have hun : (s.proc q).state = .UNUSED := h.core.found c _ _ htop
    intro k
    have hk := h.accounted k
    rw [hlog,hproc]
    rcases eq_or_ne k q with rfl | hne
    · rw [unreported_of_ne (by simp [hun])] at hk
      simpa [exitsOf,reapsOf,unreported] using hk
    · rw [Function.update_of_ne hne]
      simpa [exitsOf,reapsOf] using hk

theorem zombie_exec {k : ℕ} (hk : (s.proc k).state = .ZOMBIE)
    (hw : ∀ addr, f ≠ .waitFound addr k) : (t.proc k).state = .ZOMBIE := by
  cases exec_change hfetch ht with
  | same hproc => rw [hproc,hk]
  | @store q g ev n hstore hproc =>
    rw [hproc]
    rcases eq_or_ne k q with rfl | hne
    · rw [Function.update_self]
      exact (h.core.store_zombie htop hstore hk).resolve_right fun ⟨addr,hf⟩ => hw addr hf
    · rw [Function.update_of_ne hne,hk]
  | @fail q hf hproc | @alloc q hf hproc =>
    rw [hproc,Function.update_of_ne,hk]
    rintro rfl
    subst hf
    have hun : (s.proc k).state = .UNUSED := h.core.found c _ _ htop
    simp [hun] at hk

theorem killed_exec {d : Cpu} (hd : s.on d = some p) (hk : (s.proc p).killed = true) :
    (t.proc p).killed = true := by
  have hlive := onState_live (s.stack (.proc p))
  rw [← h.core.running d p hd] at hlive
  cases exec_change hfetch ht with
  | same hproc => rw [hproc,hk]
  | @store q g ev n hstore hproc =>
    rw [hproc]
    rcases eq_or_ne p q with rfl | hne
    · rw [Function.update_self]
      generalize s.cpuproc c = me at hstore
      cases hstore with
      | reap => exact absurd hd (h.core.off_of_waitFound htop d)
      | killWake => by_cases hs : (s.proc p).state = .SLEEPING <;> simp [hs,hk]
      | kill => rfl
      | _ => exact hk
    · rw [Function.update_of_ne hne,hk]
  | @fail q hf hproc | @alloc q hf hproc =>
    rw [hproc,Function.update_of_ne,hk]
    rintro rfl
    subst hf
    exact hlive.1 (h.core.found c _ _ htop)

/-- Parents are beyond the reach of other CPUs while a process holds `wait_lock`. -/
theorem knows_elsewhere {d : Cpu} {k : List Frame} (hdc : d ≠ c) (hon : s.on d = some p)
    (hd : s.stack (s.tid d) = g::k) : g.Knows t p := by
  by_cases hw : .wait ∈ g.locks (s.cpuproc d)
  · have hf : .wait ∉ f.locks (s.cpuproc c) := fun hl =>
      hdc (h.core.locks.owner_unique (Core.mem_locksOf hd hw) (Core.mem_locksOf htop hl))
    refine (h.knows d p g k hon hd).mono (h.parent_of_not_wait htop hfetch ht hf) ?_
      (h.killed_exec htop hfetch ht hon) (exec_log hfetch ht)
    intro q hq
    refine h.zombie_exec htop hfetch ht hq fun addr hw => hf ?_
    simp [hw,Frame.locks]
  · exact Frame.knows_of_not_wait hw

theorem knows_store {r : Proc → Proc} {ev : List Event} (hc : s.on c = some p)
    (hstore : Store s (s.cpuproc c) f q r ev g)
    (hproc : t.proc = Function.update s.proc q (r (s.proc q))) (hlog : t.log = s.log++ev) :
    g.Knows t p := by
  have hme := h.core.current c p hc
  have hknows := h.knows c p f rest hc htop
  rw [hme] at hstore
  cases hstore with
  | wakeup =>
    have hparent : ∀ k, (t.proc k).parent = (s.proc k).parent := by
      intro k
      rw [hproc]
      rcases eq_or_ne k q with rfl | hk
      · rw [Function.update_self]
      · rw [Function.update_of_ne hk]
    exact Frame.Knows.mono (f := .wakeupRel ..) hknows hparent
      (fun k hk => h.zombie_exec htop hfetch ht hk (by simp)) (h.killed_exec htop hfetch ht hc)
      (exec_log hfetch ht)
  | reparent hq hp =>
    intro k hk
    rw [hproc]
    rcases eq_or_ne k q with rfl | hne
    · rw [Sys.tid_of_some hc] at htop
      have hinit := h.exiting p _ (by rw [htop]; exact List.mem_cons_self) rfl
      simp [hinit.symm]
    · rw [Function.update_of_ne hne]
      exact hknows k (by omega)
  | reap => exact ⟨q,(s.proc q).xstate,by rw [hlog]; simp⟩
  | _ => trivial

theorem knows_exec {d : Cpu} {k : List Frame} (hon : t.on d = some p)
    (hd : t.stack (t.tid d) = g::k) : g.Knows t p := by
  rcases eq_or_ne d c with rfl | hdc
  · rcases h.core.exec_top htop hfetch ht hd with ⟨hn,hsame⟩ | hcalm
    · have hc : s.on d = some p := hsame ▸ hon
      have hbig : ∀ q, ¬q < NPROC → (s.proc q).parent = none := fun q hq =>
        h.orphan q (by_contra fun hne => hq (h.bounded.slots q hne))
      rcases fetch_cases hfetch with hi | hloud
      · have hfetch' := hfetch
        rw [h.core.current d p hc] at hfetch'
        have hknows := fetch_knows (h.knows d p f rest hc htop) (h.core.found d f rest htop) hbig
          hfetch' hi hn
        obtain ⟨hproc,hlog⟩ := exec_quiet hi ht
        exact hknows.mono (by simp [hproc]) (by simp [hproc]) (by simp [hproc]) (by simp [hlog])
      · cases hloud with
        | store hstore =>
          obtain rfl := Option.some.inj hn
          refine h.knows_store htop hfetch ht hc hstore ?_ ?_ <;>
            obtain rfl := Option.some.inj ht <;> rfl
        | alloc =>
          obtain rfl := Option.some.inj hn
          cases o <;> trivial
        | _ =>
          obtain rfl := Option.some.inj hn
          trivial
    · exact Frame.knows_of_not_wait hcalm.not_wait
  · obtain ⟨hon',hd'⟩ := h.core.exec_others htop hfetch ht hdc
    exact h.knows_elsewhere htop hfetch ht hdc (hon' ▸ hon) (hd' ▸ hd)

end Exec

theorem exec (h : Family s) (htop : s.stack (s.tid c) = f::rest)
    (hfetch : fetch s (s.cpuproc c) o f = some i) (ht : Sched.exec s c rest i = some t) :
    Family t where
  core := h.core.exec htop hfetch ht
  bounded := h.bounded.exec h.core htop hfetch ht
  pids := h.pids.exec h.core htop hfetch ht
  accounted := h.accounted_exec htop hfetch ht
  once := h.once.exec h.core h.pids htop hfetch ht
  alive _ _ hk := h.alive_exec htop hfetch ht hk
  parent _ hk hun hused := h.has_parent_exec htop hfetch ht hk hun hused
  orphan _ hk := h.orphan_exec htop hfetch ht hk
  first := h.first_exec htop hfetch ht
  adopted _ _ _ hg hk := h.adopted_exec htop hfetch ht hg hk
  exiting _ _ hg he := h.exiting_exec htop hfetch ht hg he
  knows _ _ _ _ hon hd := h.knows_exec htop hfetch ht hon hd

theorem start (h : Family s) (hstart : s.mayStart c f) :
    Family (s.goto c (f::s.stack (s.tid c))) := by
  have hstarts := mayStart_starts hstart
  have hmem : ∀ p g, g ∈ (s.goto c (f::s.stack (s.tid c))).stack (.proc p) →
      g ∈ s.stack (.proc p) ∨ s.on c = some p ∧ g = f := by
    intro p g hg
    change g ∈ Function.update s.stack (s.tid c) _ (.proc p) at hg
    by_cases hp : Tid.proc p = s.tid c
    · rw [hp,Function.update_self] at hg
      rcases List.mem_cons.mp hg with rfl | hg
      · exact .inr ⟨Sys.tid_eq_proc.mp hp.symm,rfl⟩
      · exact .inl (hp ▸ hg)
    · rw [Function.update_of_ne hp] at hg
      exact .inl hg
  refine ⟨h.core.start hstarts,h.bounded.start hstarts,h.pids.congr rfl rfl,h.accounted,
    ⟨h.once.nodup,h.once.past,h.once.fresh⟩,h.alive,h.parent,h.orphan,h.first,?_,?_,?_⟩
  · intro p g q hg hq
    rcases hmem p g hg with hg | ⟨-,rfl⟩
    · exact h.adopted p g q hg hq
    · have hfork := Frame.forking_of_adopted hq
      rw [hstarts.forking] at hfork
      cases hfork
  · intro p g hg he
    rcases hmem p g hg with hg | ⟨hc,rfl⟩
    · exact h.exiting p g hg he
    · have hcur := h.core.current c p hc
      simp only [Sys.mayStart,Bool.and_eq_true] at hstart
      have hstart := hstart.2
      split at hstart <;> simp_all [Frame.exiting]
  · intro d p g k hon hd
    rcases eq_or_ne d c with rfl | hdc
    · rw [Sys.goto_top] at hd
      have hnil : .wait ∉ g.locks none := by
        rw [← (List.cons.inj hd).1,hstarts.locks]
        simp
      exact Frame.knows_of_not_wait hnil
    · change Function.update s.stack (s.tid c) _ (s.tid d) = _ at hd
      rw [Function.update_of_ne fun hi => hdc (h.core.tid_inj hi)] at hd
      exact (h.knows d p g k hon hd).mono (fun _ => rfl) (fun _ => id) id (List.Subset.refl _)

theorem init (cond : ℕ → Bool) : Family (init cond) := by
  have hproc : ∀ q, (Sched.init cond).proc q =
      if q = initproc then {state := .RUNNABLE,pid := 1} else {} := fun q => rfl
  have hparent : ∀ q, ((Sched.init cond).proc q).parent = none := by
    intro q
    rw [hproc]
    split <;> rfl
  have honce : Once (Sched.init cond) :=
    ⟨List.nodup_nil,by simp [Sched.init,exitPids],by simp [Sched.init,exitPids]⟩
  refine ⟨Core.init cond,Bounded.init cond,Pids.init cond,?_,honce,?_,?_,fun q _ => hparent q,rfl,
    ?_,?_,?_⟩
  · intro q
    rw [unreported_of_ne]
    · rfl
    · rw [hproc]
      split <;> simp
  · intro q r hr
    simp [hparent] at hr
  · intro q hq hun
    rw [hproc,if_neg hq] at hun
    exact absurd rfl hun
  · intro p f q hf hq
    simp only [Sched.init] at hf
    split at hf
    · rw [List.mem_singleton.mp hf] at hq
      cases hq
    · cases hf
  · intro p f hf he
    simp only [Sched.init] at hf
    split at hf
    · rw [List.mem_singleton.mp hf] at he
      cases he
    · cases hf
  · intro c p f rest hon
    cases hon

theorem of_run {cond : ℕ → Bool} {as : List Action}
    (hrun : Machine.run step (Sched.init cond) as = some s) : Family s := by
  refine Machine.run_invariant ?_ (Family.init cond) hrun
  intro s a t h ht
  rcases step_cases ht with ⟨c,o,f,rest,i,htop,hi,ht⟩ | ⟨c,f,-,hstart,rfl⟩
  · exact h.exec htop hi ht
  · exact h.start hstart

/-- The step that reports an exit is made by the parent, of a zombie, and returns its pid. -/
theorem reaped_step (h : Family s) {a : Action} (ht : step s a = some t) {r : ℕ} {pid status : ℤ}
    (hlog : t.log = s.log++[.reaped r q pid status]) :
    (s.proc q).state = .ZOMBIE ∧ (s.proc q).parent = some r ∧ (s.proc q).pid = pid ∧
      (s.proc q).xstate = status ∧
      ∃ c rest, t.on c = some r ∧ t.stack (t.tid c) = .waitReaped q pid::rest := by
  rcases step_cases ht with ⟨c,o,f,rest,i,htop,hfetch,ht⟩ | ⟨c,f,-,-,rfl⟩
  · cases exec_change hfetch ht with
    | same _ hsame | fail _ _ hsame => simp [hsame] at hlog
    | alloc _ _ hsame => simp [hsame] at hlog
    | store hstore _ hev =>
      have hev := List.append_cancel_left (hev.symm.trans hlog)
      generalize hme : s.cpuproc c = me at hstore
      cases hstore with
      | @reap p addr q =>
        simp only [List.cons.injEq,Event.reaped.injEq,and_true] at hev
        obtain ⟨rfl,rfl,rfl,rfl⟩ := hev
        have hc := h.core.on_of_self htop hme (by simp [Frame.kind])
        refine ⟨h.core.found c _ _ htop,h.knows c p _ rest hc htop,rfl,rfl,c,rest,?_⟩
        simp only [fetch,hme,Option.map_some,Option.some.injEq] at hfetch
        split at hfetch
        · cases hfetch
          obtain rfl := Option.some.inj ht
          simp [Sys.goto] at hlog
        · cases hfetch
          obtain rfl := Option.some.inj ht
          exact ⟨hc,Sys.goto_top ..⟩
      | _ => simp at hev
  · simp [Sys.goto] at hlog

theorem exited_step (h : Family s) {a : Action} (ht : step s a = some t) {pid status : ℤ}
    (hlog : t.log = s.log++[.exited q pid status]) : (s.proc q).pid = pid ∧
      ∃ c rest, s.on c = some q ∧ s.stack (s.tid c) = .exitSet status::rest := by
  rcases step_cases ht with ⟨c,o,f,rest,i,htop,hfetch,ht⟩ | ⟨c,f,-,-,rfl⟩
  · cases exec_change hfetch ht with
    | same _ hsame | fail _ _ hsame => simp [hsame] at hlog
    | alloc _ _ hsame => simp [hsame] at hlog
    | store hstore _ hev =>
      have hev := List.append_cancel_left (hev.symm.trans hlog)
      generalize hme : s.cpuproc c = me at hstore
      cases hstore with
      | exit =>
        simp only [List.cons.injEq,Event.exited.injEq,and_true] at hev
        obtain ⟨rfl,rfl,rfl⟩ := hev
        exact ⟨rfl,c,rest,h.core.on_of_self htop hme (by simp [Frame.kind]),htop⟩
      | _ => simp at hev
  · simp [Sys.goto] at hlog

end Family

/-- Why `wait` returns to process `p` what it returns. -/
def WaitResult.Justified (s : Sys) (p : ℕ) : WaitResult → Prop
  | .reaped pid => ∃ q status, .reaped p q pid status ∈ s.log
  | .noKids => Childless s p
  | .killed => (s.proc p).killed = true
  | .badAddr q => (s.proc q).parent = some p ∧ (s.proc q).state = .ZOMBIE

/-- In every reachable state: a process other than the first has a parent that is neither gone nor a
zombie; the exits of each slot are those that `wait` has reported and the one its zombie holds, with
the same pids and statuses, and no pid exits twice; a report is made by the parent of a zombie; an
exit is recorded by the call of `exit` with that status; and `wait` returns for one of its reasons. -/
theorem exit_wait {cond : ℕ → Bool} {as : List Action}
    (hrun : Machine.run step (init cond) as = some s) :
    (∀ q, q ≠ initproc → (s.proc q).state ≠ .UNUSED → (s.proc q).state ≠ .USED →
      ∃ r, (s.proc q).parent = some r ∧ (s.proc r).state ≠ .UNUSED ∧ (s.proc r).state ≠ .ZOMBIE) ∧
    (∀ q, exitsOf q s.log = reapsOf q s.log++unreported (s.proc q)) ∧ (exitPids s.log).Nodup ∧
    (∀ a t r q pid status, step s a = some t → t.log = s.log++[.reaped r q pid status] →
      (s.proc q).state = .ZOMBIE ∧ (s.proc q).parent = some r ∧ (s.proc q).pid = pid ∧
        (s.proc q).xstate = status ∧
        ∃ c rest, t.on c = some r ∧ t.stack (t.tid c) = .waitReaped q pid::rest) ∧
    (∀ a t q pid status, step s a = some t → t.log = s.log++[.exited q pid status] →
      (s.proc q).pid = pid ∧
        ∃ c rest, s.on c = some q ∧ s.stack (s.tid c) = .exitSet status::rest) ∧
    (∀ c p r rest, s.on c = some p → s.stack (s.tid c) = .waitRet r::rest → r.Justified s p) := by
  have h := Family.of_run hrun
  refine ⟨fun q hq hun hused => ?_,h.accounted,h.once.nodup,fun _ _ _ _ _ _ ht hlog => h.reaped_step ht hlog,
    fun _ _ _ _ _ ht hlog => h.exited_step ht hlog,fun c p r rest hon htop => ?_⟩
  · obtain ⟨r,hr⟩ := Option.ne_none_iff_exists'.mp (h.parent q hq hun hused)
    have hlive := h.alive q r hr
    refine ⟨r,hr,?_,?_⟩ <;> intro hst <;> simp [hst,ProcState.live] at hlive
  · have hknows := h.knows c p _ rest hon htop
    cases r <;> exact hknows

section Run

variable {c : Cpu} {o : Bool} {q p : ℕ} {rest : List Frame} {w : Waker} {chan : Option Chan}
  {status : ℤ}

theorem step_run {f : Frame} (htop : s.stack (s.tid c) = f::rest) :
    step s (.run c o) = (fetch s (s.cpuproc c) o f).bind (exec s c rest) := by
  rw [step,htop]

theorem goto_goto (a b : List Frame) : (s.goto c a).goto c b = s.goto c b := by
  simp [Sys.goto,Sys.tid,Function.update_idem]

/-- A round of `wakeup` at a slot that is not asleep takes its lock and gives it back. -/
theorem run_wakeup_round (htop : s.stack (s.tid c) = .wakeupAcq w chan q::rest) (hq : q < NPROC)
    (hme : s.cpuproc c ≠ some q) (hlock : s.lock (.proc q) = none)
    (hawake : (s.proc q).state ≠ .SLEEPING) :
    Machine.run step s (List.replicate 3 (.run c o)) =
      some (s.goto c (.wakeupAcq w chan (q+1)::rest)) := by
  have hback : Function.update s.lock (.proc q) none = s.lock := by
    rw [Function.update_eq_self_iff,hlock]
  let t : Sys := {s with lock := Function.update s.lock (.proc q) (some c)}
  have hacq : step s (.run c o) = some (t.goto c (.wakeupTest w chan q::rest)) := by
    simp [step_run htop,fetch,exec,hq,hme,hlock,t]
  have htest : step (t.goto c (.wakeupTest w chan q::rest)) (.run c o) =
      some (t.goto c (.wakeupRel w chan q::rest)) := by
    rw [step_run (Sys.goto_top ..)]
    have hnot : ((t.goto c (.wakeupTest w chan q::rest)).proc q).state ≠ .SLEEPING := hawake
    simp [fetch,exec,hnot,goto_goto]
  have hrel : step (t.goto c (.wakeupRel w chan q::rest)) (.run c o) =
      some (s.goto c (.wakeupAcq w chan (q+1)::rest)) := by
    rw [step_run (Sys.goto_top ..)]
    simp [fetch,exec,Sys.goto,Sys.tid,t,hback]
  exact Machine.run_cons.mpr ⟨_,hacq,Machine.run_cons.mpr ⟨_,htest,Machine.run_cons.mpr ⟨_,hrel,rfl⟩⟩⟩

theorem run_wakeup (htop : s.stack (s.tid c) = .wakeupAcq w chan q::rest)
    (hme : s.cpuproc c = some p) (hlock : ∀ r < NPROC, r ≠ p → s.lock (.proc r) = none)
    (hawake : ∀ r < NPROC, (s.proc r).state ≠ .SLEEPING) :
    ∃ k, Machine.run step s (List.replicate k (.run c o)) = some (s.goto c (w.resume::rest)) := by
  generalize hn : NPROC-q = n
  induction n generalizing q s with
  | zero =>
    refine ⟨1,?_⟩
    have hq : ¬ q < NPROC := by omega
    simp [Machine.run,step_run htop,fetch,hq,exec]
  | succ n ih =>
    have hq : q < NPROC := by omega
    obtain ⟨k,hk⟩ := ih (s := s.goto c (.wakeupAcq w chan (q+1)::rest)) (Sys.goto_top ..) hme hlock hawake
      (by omega)
    rw [goto_goto] at hk
    by_cases hqp : q = p
    · refine ⟨1+k,?_⟩
      rw [List.replicate_add,Machine.run_append]
      refine ⟨_,?_,hk⟩
      have hp : p < NPROC := hqp ▸ hq
      simp [Machine.run,step_run htop,fetch,hme,hqp,hp,exec]
    · refine ⟨3+k,?_⟩
      have hne : s.cpuproc c ≠ some q := by
        rw [hme]
        exact fun heq => hqp (Option.some.inj heq).symm
      rw [List.replicate_add,Machine.run_append]
      exact ⟨_,run_wakeup_round htop hq hne (hlock q hq hqp) (hawake q hq),hk⟩

/-- `reparent` in `exit` of a process without children. -/
theorem run_exitScan (htop : s.stack (s.tid c) = .exitScan status q::rest)
    (hme : s.cpuproc c = some p) (hkids : ∀ r < NPROC, (s.proc r).parent ≠ some p) :
    ∃ k, Machine.run step s (List.replicate k (.run c o)) = some (s.goto c
      (.wakeupAcq (.parent status) ((s.proc p).parent.map Chan.proc) 0::rest)) := by
  generalize hn : NPROC-q = n
  induction n generalizing q s with
  | zero =>
    refine ⟨1,?_⟩
    have hq : ¬ q < NPROC := by omega
    simp [Machine.run,step_run htop,fetch,hq,hme,exec]
  | succ n ih =>
    have hq : q < NPROC := by omega
    obtain ⟨k,hk⟩ := ih (s := s.goto c (.exitScan status (q+1)::rest)) (Sys.goto_top ..) hme hkids
      (by omega)
    rw [goto_goto] at hk
    refine ⟨1+k,?_⟩
    rw [List.replicate_add,Machine.run_append]
    refine ⟨_,?_,hk⟩
    simp [Machine.run,step_run htop,fetch,hq,hme,hkids q hq,exec]

end Run

/-- The first process forks on CPU 0; its child enters `exit(7)` on CPU 1. -/
def childEnters : List Action :=
  List.replicate 5 (.run 0 false)++.start 0 (.allocAcq 0)::List.replicate 13 (.run 0 true)++
    List.replicate 8 (.run 1 true)++[.start 1 (.exitWait 7),.run 1 true]

/-- The child becomes a zombie, and the parent calls `wait` and finds it. -/
def childFound : List Action :=
  List.replicate 7 (.run 1 true)++.start 0 (.waitStart 0)::List.replicate 5 (.run 0 true)

@[irreducible] def exiting : Sys :=
  (Machine.run step (init fun _ => false) childEnters).getD (init fun _ => false)

theorem childEnters_isSome :
    (Machine.run step (init fun _ => false) childEnters).isSome = true := by
  decide +kernel

theorem run_childEnters : Machine.run step (init fun _ => false) childEnters = some exiting := by
  unfold exiting
  exact (Option.getD_of_ne_none (Option.isSome_iff_ne_none.mp childEnters_isSome) _).symm

theorem exiting_top : exiting.stack (exiting.tid 1) = [.exitScan 7 0] ∧
    exiting.cpuproc 1 = some 1 := by
  decide +kernel

theorem exiting_slots (r : ℕ) (hr : r < NPROC) : (exiting.proc r).parent ≠ some 1 ∧
    (exiting.proc r).state ≠ .SLEEPING ∧ exiting.lock (.proc r) = none := by
  revert r
  decide +kernel

theorem run_exiting : ∃ as, Machine.run step (init fun _ => false) as =
    some (exiting.goto 1 [.exitAcq 7]) := by
  obtain ⟨htop,hme⟩ := exiting_top
  obtain ⟨k,hk⟩ := run_exitScan (o := true) htop hme fun r hr => (exiting_slots r hr).1
  obtain ⟨l,hl⟩ := run_wakeup (o := true) (s := exiting.goto 1 _) (Sys.goto_top ..) hme
    (fun r hr _ => (exiting_slots r hr).2.2) fun r hr => (exiting_slots r hr).2.1
  rw [goto_goto] at hl
  exact ⟨childEnters++List.replicate k (.run 1 true)++List.replicate l (.run 1 true),
    Machine.run_append.mpr ⟨_,Machine.run_append.mpr ⟨_,run_childEnters,hk⟩,hl⟩⟩

/-- The next step reports the child with its pid and its status. -/
theorem exit_wait_child : ∃ as s t, Machine.run step (init fun _ => false) as = some s ∧
    step s (.run 0 true) = some t ∧ t.log = s.log++[.reaped 0 1 2 7] ∧
    (s.proc 1).state = .ZOMBIE ∧ (s.proc 1).parent = some 0 ∧ (s.proc 1).pid = 2 ∧
    (s.proc 1).xstate = 7 ∧ exitsOf 1 s.log = [(2,7)] ∧
    exitsOf 1 s.log = reapsOf 1 s.log++unreported (s.proc 1) := by
  obtain ⟨as,has⟩ := run_exiting
  have hend : (Machine.run step (exiting.goto 1 [.exitAcq 7]) childFound).any (fun s =>
      exitsOf 1 s.log = [(2,7)] ∧ (step s (.run 0 true)).any (fun t =>
        t.log = s.log++[.reaped 0 1 2 7])) = true := by decide +kernel
  obtain ⟨s,hs,hexits,hstep⟩ := Machine.exists_run_of_any hend
  obtain ⟨t,ht,hlog⟩ := (Option.any_eq_true _ _).mp hstep
  have hlog := of_decide_eq_true hlog
  have hrun : Machine.run step (init fun _ => false) (as++childFound) = some s :=
    Machine.run_append.mpr ⟨_,has,hs⟩
  obtain ⟨-,hall,-,hreap,-⟩ := exit_wait hrun
  obtain ⟨hzombie,hparent,hpid,hstatus,-⟩ := hreap _ t 0 1 2 7 ht hlog
  exact ⟨_,s,t,hrun,ht,hlog,hzombie,hparent,hpid,hstatus,hexits,hall 1⟩

end Xv6.Sched
