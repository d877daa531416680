import Xv6.Log

/-! Crash atomicity of the log. The invariant has three parts: what the history says about
operations and groups, who is inside which operation, and how cache, header and disk
stand to each other in every phase of a commit. A crash keeps the first part and the
consequence `Recoverable` of the third, on which recovery then works. -/
namespace Xv6
namespace Log

open Bytes

def applyUpdates (d : Disk) (us : List Update) : Disk :=
  us.foldl (fun d u => Function.update d u.blockno u.data) d

theorem applyUpdates_append (d : Disk) (us vs : List Update) :
    applyUpdates d (us++vs) = applyUpdates (applyUpdates d us) vs := by
  simp [applyUpdates,List.foldl_append]

theorem applyUpdates_other {d : Disk} {us : List Update} {b : ℕ}
    (h : b ∉ us.map Update.blockno) : applyUpdates d us b = d b := by
  induction us generalizing d with
  | nil => rfl
  | cons u us ih =>
    simp only [List.map_cons,List.mem_cons,not_or] at h
    have hh := ih (d:=Function.update d u.blockno u.data) h.2
    simpa [applyUpdates,h.1] using hh

def opUpdates (us : List Update) (o : ℕ) : List Update := us.filter fun u => u.op = o

theorem opUpdates_append (us vs : List Update) (o : ℕ) :
    opUpdates (us++vs) o = opUpdates us o ++ opUpdates vs o := by
  simp [opUpdates]

theorem opUpdates_eq_nil {us : List Update} {o : ℕ} :
    opUpdates us o = [] ↔ ∀ u ∈ us, u.op ≠ o := by
  simp [opUpdates]

/-- The header names blocks whose log copies are current; all other home blocks are. -/
structure LogHolds (sb : Superblock) (disk : Disk) (lh : List ℕ) (home : Disk) : Prop where
  outside : ∀ b ∈ lh, ¬ inLog sb b
  room : lh.length ≤ sb.nlog-1
  slots : ∀ i b, lh[i]? = some b → disk (sb.logstart+i+1) = home b
  rest : ∀ b, ¬ inLog sb b → b ∉ lh → disk b = home b

/-- The home blocks after the first `k` groups of a boot. -/
def groupsHome (base : Disk) (closed : List (List Update)) (k : ℕ) : Disk :=
  applyUpdates base (closed.take k).flatten

/-- What a crash leaves: the disk stands for a prefix with every returned commit in it. -/
def Recoverable (sb : Superblock) (s : State) : Prop :=
  ∃ k, s.returned ≤ k ∧ k ≤ s.closed.length ∧
    LogHolds sb s.disk (decodeHead (s.disk sb.logstart)) (groupsHome s.base s.closed k)

structure Hist (s : State) : Prop where
  endedLt : ∀ o ∈ s.ended, o < s.nextOp
  curLt : ∀ u ∈ s.cur, u.op < s.nextOp
  closedEnded : ∀ g ∈ s.closed, ∀ u ∈ g, u.op ∈ s.ended
  apart : s.closed.Pairwise fun g h => ∀ u ∈ g, ∀ v ∈ h, u.op ≠ v.op
  curApart : ∀ g ∈ s.closed, ∀ u ∈ g, ∀ v ∈ s.cur, u.op ≠ v.op
  durableEnded : ∀ o ∈ s.durable, o ∈ s.ended
  durableCur : ∀ u ∈ s.cur, u.op ∉ s.durable
  durableRest : ∀ g ∈ s.closed.drop s.returned, ∀ u ∈ g, u.op ∉ s.durable
  returnedLe : s.returned ≤ s.closed.length

structure Procs (s : State) : Prop where
  active : ∃ S : Finset ℕ, S.card = s.outstanding ∧ ∀ p, p ∈ S ↔ ∃ o, s.status p = .op o
  committer : s.committing = true ↔ ∃ p ph, s.status p = .commit ph
  alone : ∀ p q ph ph', s.status p = .commit ph → s.status q = .commit ph' → p = q
  idle : s.committing = true → s.outstanding = 0
  dirtyHeld : ∀ b ∈ s.dirty, ∃ p o, s.holder b = some p ∧ s.status p = .op o
  fresh : ∀ p o, s.status p = .op o → o < s.nextOp ∧ o ∉ s.ended
  inj : ∀ p q o, s.status p = .op o → s.status q = .op o → p = q
  curActive : ∀ u ∈ s.cur, u.op ∈ s.ended ∨ ∃ p, s.status p = .op u.op

structure Head (sb : Superblock) (s : State) : Prop where
  nodup : s.lh.Nodup
  outside : ∀ b ∈ s.lh, ¬ inLog sb b ∧ b < 2^32
  room : s.lh.length ≤ sb.nlog-1
  capacity : s.lh.length ≤ LOGSIZE
  coherent : ∀ b, inLog sb b → bread s b = s.disk b

/-- No commit is running: the disk holds every closed group, the cache the open one. -/
structure Quiet (sb : Superblock) (s : State) : Prop where
  clean : decodeHead (s.disk sb.logstart) = []
  returned : s.returned = s.closed.length
  lh : ∀ b, b ∈ s.lh ↔ b ∈ s.cur.map Update.blockno
  pin : ∀ b, s.pin b = if b ∈ s.lh then 1 else 0
  home : ∀ b, ¬ inLog sb b → s.disk b = groupsHome s.base s.closed s.closed.length b
  view : ∀ b, ¬ inLog sb b → b ∉ s.dirty →
    bread s b = applyUpdates (groupsHome s.base s.closed s.closed.length) s.cur b

structure Committing (sb : Superblock) (s : State) : Prop where
  cur : s.cur = []
  returned : s.returned+1 = s.closed.length
  dirty : s.dirty = []
  view : ∀ b, ¬ inLog sb b → bread s b = groupsHome s.base s.closed s.closed.length b

/-- The blocks that the header does not name are the same before and after the group. -/
def Named (sb : Superblock) (s : State) : Prop :=
  ∀ b, ¬ inLog sb b → b ∉ s.lh → groupsHome s.base s.closed s.closed.length b = groupsHome s.base s.closed s.returned b

def AtPhase (sb : Superblock) (s : State) : Phase → Prop
  | .writeLog t =>
    t ≤ s.lh.length ∧ decodeHead (s.disk sb.logstart) = [] ∧ Named sb s ∧
    (∀ b, s.pin b = if b ∈ s.lh then 1 else 0) ∧
    (∀ b, ¬ inLog sb b → s.disk b = groupsHome s.base s.closed s.returned b) ∧
    (∀ i b, i < t → s.lh[i]? = some b →
      s.disk (sb.logstart+i+1) = groupsHome s.base s.closed s.closed.length b)
  | .install t =>
    t ≤ s.lh.length ∧ decodeHead (s.disk sb.logstart) = s.lh ∧ Named sb s ∧
    (∀ b, s.pin b = if b ∈ s.lh.drop t then 1 else 0) ∧
    (∀ b, ¬ inLog sb b → b ∉ s.lh.drop t → s.disk b = groupsHome s.base s.closed s.closed.length b) ∧
    (∀ i b, s.lh[i]? = some b → s.disk (sb.logstart+i+1) = groupsHome s.base s.closed s.closed.length b)
  | .finish =>
    s.lh = [] ∧ decodeHead (s.disk sb.logstart) = [] ∧ (∀ b, s.pin b = 0) ∧
    (∀ b, ¬ inLog sb b → s.disk b = groupsHome s.base s.closed s.closed.length b)

structure Live (sb : Superblock) (s : State) : Prop where
  procs : Procs s
  head : Head sb s
  quiet : s.committing = false → Quiet sb s
  commit : ∀ p ph, s.status p = .commit ph → Committing sb s ∧ AtPhase sb s ph

/-- `recover_from_log` between two writes: `t` blocks are installed. -/
structure Recovering (sb : Superblock) (s : State) (t : ℕ) : Prop where
  head : s.lh = decodeHead (s.disk sb.logstart)
  coherent : ∀ b, bread s b = s.disk b
  installed : ∃ k, s.returned ≤ k ∧ k ≤ s.closed.length ∧
    LogHolds sb s.disk s.lh (groupsHome s.base s.closed k) ∧
    ∀ b, ¬ inLog sb b → b ∉ s.lh.drop t → s.disk b = groupsHome s.base s.closed k b

structure Fresh (s : State) : Prop where
  cache : ∀ b, s.cache b = none
  holder : ∀ b, s.holder b = none
  pin : ∀ b, s.pin b = 0
  dirty : s.dirty = []
  outstanding : s.outstanding = 0
  committing : s.committing = false
  status : ∀ p, s.status p = .idle

def ModeInv (sb : Superblock) (s : State) : Mode → Prop
  | .running => Live sb s
  | .panicked _ => True
  | .booting => Fresh s
  | .recovering t => Recovering sb s t ∧ (∀ p, s.status p = .idle) ∧ s.outstanding = 0 ∧
      s.committing = false ∧ s.dirty = [] ∧ (∀ b, s.pin b = 0)

structure Inv (sb : Superblock) (s : State) : Prop where
  hist : Hist s
  recoverable : Recoverable sb s
  room : s.lh.length ≤ sb.nlog-1
  mode : ModeInv sb s s.mode

theorem bread_fill (s : State) (b : ℕ) (c : ℕ) :
    (Function.update s.cache b (some (bread s b)) c).getD (s.disk c) = bread s c := by
  by_cases h : c = b
  · subst h
    simp
  · simp [h,bread]

theorem groupsHome_append {base : Disk} {closed : List (List Update)} {g : List Update} {k : ℕ}
    (hk : k ≤ closed.length) : groupsHome base (closed++[g]) k = groupsHome base closed k := by
  simp only [groupsHome,List.take_append_of_le_length hk]

/-- Closing a group applies its updates on top of the groups before it. -/
theorem groupsHome_close (base : Disk) (closed : List (List Update)) (g : List Update) :
    groupsHome base (closed++[g]) (closed++[g]).length =
      applyUpdates (groupsHome base closed closed.length) g := by
  rw [groupsHome,groupsHome,List.take_length,List.take_length]
  simp [applyUpdates_append]

theorem inLog_start (sb : Superblock) : inLog sb sb.logstart := Or.inl rfl

theorem inLog_slot {sb : Superblock} {i n : ℕ} (hi : i < n) (hn : n ≤ sb.nlog-1) :
    inLog sb (sb.logstart+i+1) := by
  right
  omega

theorem Live.recoverable {sb : Superblock} {s : State} (hl : Live sb s) (hh : Hist s) :
    Recoverable sb s := by
  cases hc : s.committing with
  | false =>
    have hq := hl.quiet hc
    refine ⟨s.closed.length,hh.returnedLe,le_rfl,?_⟩
    rw [hq.clean]
    exact ⟨by simp,by simp,by simp,fun b hb _ => hq.home b hb⟩
  | true =>
    obtain ⟨p,ph,hp⟩ := hl.procs.committer.mp hc
    obtain ⟨hcm,hat⟩ := hl.commit p ph hp
    cases ph with
    | writeLog t =>
      obtain ⟨_,hclean,_,_,hdisk,_⟩ := hat
      refine ⟨s.returned,le_rfl,hh.returnedLe,?_⟩
      rw [hclean]
      exact ⟨by simp,by simp,by simp,fun b hb _ => hdisk b hb⟩
    | install t =>
      obtain ⟨_,hhead,_,_,hdisk,hslots⟩ := hat
      refine ⟨s.closed.length,hh.returnedLe,le_rfl,?_⟩
      rw [hhead]
      refine ⟨fun b hb => (hl.head.outside b hb).1,hl.head.room,hslots,?_⟩
      intro b hb hn
      exact hdisk b hb fun hd => hn (List.mem_of_mem_drop hd)
    | finish =>
      obtain ⟨_,hclean,_,hdisk⟩ := hat
      refine ⟨s.closed.length,hh.returnedLe,le_rfl,?_⟩
      rw [hclean]
      exact ⟨by simp,by simp,by simp,fun b hb _ => hdisk b hb⟩

/-- Two states that agree on everything the data part of the invariant reads. -/
structure SameData (s t : State) : Prop where
  disk : t.disk = s.disk
  view : bread t = bread s
  lh : t.lh = s.lh
  pin : t.pin = s.pin
  dirty : t.dirty = s.dirty
  base : t.base = s.base
  closed : t.closed = s.closed
  cur : t.cur = s.cur
  returned : t.returned = s.returned

namespace SameData

variable {sb : Superblock} {s t : State}

theorem head (h : SameData s t) (hs : Head sb s) : Head sb t := by
  constructor
  · simpa only [h.lh] using hs.nodup
  · simpa only [h.lh] using hs.outside
  · simpa only [h.lh] using hs.room
  · simpa only [h.lh] using hs.capacity
  · simpa only [h.view,h.disk] using hs.coherent

theorem quiet (h : SameData s t) (hs : Quiet sb s) : Quiet sb t := by
  constructor
  · simpa only [h.disk] using hs.clean
  · simpa only [h.returned,h.closed] using hs.returned
  · simpa only [h.lh,h.cur] using hs.lh
  · simpa only [h.lh,h.pin] using hs.pin
  · simpa only [h.disk,h.base,h.closed] using hs.home
  · simpa only [h.view,h.dirty,h.base,h.closed,h.cur] using hs.view

theorem committing (h : SameData s t) (hs : Committing sb s) : Committing sb t := by
  constructor
  · simpa only [h.cur] using hs.cur
  · simpa only [h.returned,h.closed] using hs.returned
  · simpa only [h.dirty] using hs.dirty
  · simpa only [h.view,h.base,h.closed] using hs.view

theorem atPhase (h : SameData s t) {ph : Phase} (hs : AtPhase sb s ph) : AtPhase sb t ph := by
  cases ph <;>
    simpa only [AtPhase,Named,h.disk,h.lh,h.pin,h.base,h.closed,h.returned] using hs

end SameData

theorem Live.congr {sb : Superblock} {s t : State} (hl : Live sb s) (h : SameData s t)
    (hp : Procs t) (hc : t.committing = s.committing)
    (hst : ∀ p ph, t.status p = .commit ph → s.status p = .commit ph) : Live sb t := by
  refine ⟨hp,h.head hl.head,?_,?_⟩
  · intro hq
    exact h.quiet (hl.quiet (hc ▸ hq))
  · intro p ph hph
    obtain ⟨hcm,hat⟩ := hl.commit p ph (hst p ph hph)
    exact ⟨h.committing hcm,h.atPhase hat⟩

/-- Changes of status that enter or leave neither an operation nor a commit. -/
theorem Procs.restatus {s : State} {st : ℕ → Status} (hp : Procs s)
    (hop : ∀ q o, st q = .op o ↔ s.status q = .op o)
    (hcm : ∀ q ph, st q = .commit ph ↔ s.status q = .commit ph) :
    Procs { s with status := st } := by
  constructor
  · simpa only [hop] using hp.active
  · simpa only [hcm] using hp.committer
  · simpa only [hcm] using hp.alone
  · exact hp.idle
  · simpa only [hop] using hp.dirtyHeld
  · simpa only [hop] using hp.fresh
  · simpa only [hop] using hp.inj
  · simpa only [hop] using hp.curActive

theorem live_wait {sb : Superblock} {s : State} {p : ℕ} (hl : Live sb s)
    (hidle : s.status p = .idle) : Live sb (setStatus s p .waiting) := by
  have hop : ∀ q o, Function.update s.status p .waiting q = .op o ↔ s.status q = .op o := by
    intro q o
    by_cases hq : q = p <;> simp [hq,hidle]
  have hcm : ∀ q ph, Function.update s.status p .waiting q = .commit ph ↔
      s.status q = .commit ph := by
    intro q ph
    by_cases hq : q = p <;> simp [hq,hidle]
  exact hl.congr ⟨rfl,rfl,rfl,rfl,rfl,rfl,rfl,rfl,rfl⟩ (hl.procs.restatus hop hcm) rfl
    fun q ph => (hcm q ph).mp

theorem live_enter {sb : Superblock} {s : State} {p : ℕ} (hh : Hist s) (hl : Live sb s)
    (hidle : s.status p = .idle) (hc : s.committing = false) :
    Live sb { setStatus s p (.op s.nextOp) with
      outstanding := s.outstanding+1, nextOp := s.nextOp+1 } := by
  have hp := hl.procs
  have hcm : ∀ q ph, Function.update s.status p (.op s.nextOp) q = .commit ph ↔
      s.status q = .commit ph := by
    intro q ph
    by_cases hq : q = p <;> simp [hq,hidle]
  have hst : ∀ q o, Function.update s.status p (.op s.nextOp) q = .op o →
      q = p ∧ o = s.nextOp ∨ q ≠ p ∧ s.status q = .op o := by
    intro q o hq
    by_cases he : q = p
    · subst he
      simp only [Function.update_self,Status.op.injEq] at hq
      exact Or.inl ⟨rfl,hq.symm⟩
    · exact Or.inr ⟨he,by simpa [he] using hq⟩
  have hkeep : ∀ q o, s.status q = .op o →
      Function.update s.status p (.op s.nextOp) q = .op o := by
    intro q o hq
    have he : q ≠ p := by
      rintro rfl
      simp [hidle] at hq
    simpa [he] using hq
  refine hl.congr ⟨rfl,rfl,rfl,rfl,rfl,rfl,rfl,rfl,rfl⟩ ⟨?_,?_,?_,?_,?_,?_,?_,?_⟩ rfl
    fun q ph => (hcm q ph).mp
  · obtain ⟨S,hcard,hS⟩ := hp.active
    have hn : p ∉ S := by
      intro hm
      obtain ⟨o,ho⟩ := (hS p).mp hm
      simp [hidle] at ho
    refine ⟨insert p S,by simp [Finset.card_insert_of_notMem hn,hcard],?_⟩
    intro q
    by_cases he : q = p <;> simp [setStatus,he,hS]
  · simpa only [setStatus,hcm] using hp.committer
  · simpa only [setStatus,hcm] using hp.alone
  · intro ht
    exact absurd (hc.symm.trans ht) (by simp)
  · intro b hb
    obtain ⟨q,o,hq,ho⟩ := hp.dirtyHeld b hb
    exact ⟨q,o,hq,hkeep q o ho⟩
  · intro q o hq
    rcases hst q o hq with ⟨_,rfl⟩ | ⟨_,ho⟩
    · exact ⟨Nat.lt_succ_self _,fun hm => absurd (hh.endedLt _ hm) (lt_irrefl _)⟩
    · have hf := hp.fresh q o ho
      exact ⟨Nat.lt_succ_of_lt hf.1,hf.2⟩
  · intro q r o hq hr
    rcases hst q o hq with ⟨rfl,rfl⟩ | ⟨_,ho⟩ <;> rcases hst r _ hr with ⟨rfl,he⟩ | ⟨_,ho'⟩
    · rfl
    · exact absurd (hp.fresh r _ ho').1 (lt_irrefl _)
    · exact absurd (he ▸ (hp.fresh q _ ho).1) (lt_irrefl _)
    · exact hp.inj q r o ho ho'
  · intro u hu
    rcases hp.curActive u hu with he | ⟨q,hq⟩
    · exact Or.inl he
    · exact Or.inr ⟨q,hkeep q _ hq⟩

theorem Procs.not_committing {s : State} {p o : ℕ} (hp : Procs s) (ho : s.status p = .op o) :
    s.committing = false := by
  obtain ⟨S,hcard,hS⟩ := hp.active
  have hm : p ∈ S := (hS p).mpr ⟨o,ho⟩
  have hpos : 0 < s.outstanding := hcard ▸ Finset.card_pos.mpr ⟨p,hm⟩
  cases hc : s.committing with
  | false => rfl
  | true => exact absurd (hp.idle hc) (by omega)

theorem live_bread {sb : Superblock} {s : State} {p b : ℕ} (hl : Live sb s)
    (hfree : s.holder b = none) :
    Live sb { s with
      holder := Function.update s.holder b (some p)
      cache := Function.update s.cache b (some (bread s b)) } := by
  have hp := hl.procs
  refine hl.congr ⟨rfl,funext (bread_fill s b),rfl,rfl,rfl,rfl,rfl,rfl,rfl⟩
    ⟨hp.active,hp.committer,hp.alone,hp.idle,?_,hp.fresh,hp.inj,hp.curActive⟩ rfl fun _ _ h => h
  intro c hc
  obtain ⟨q,o,hq,ho⟩ := hp.dirtyHeld c hc
  have hne : c ≠ b := by
    rintro rfl
    simp [hfree] at hq
  exact ⟨q,o,by simpa [hne] using hq,ho⟩

theorem live_brelse {sb : Superblock} {s : State} {b : ℕ} (hl : Live sb s) (hd : b ∉ s.dirty) :
    Live sb { s with holder := Function.update s.holder b none } := by
  have hp := hl.procs
  refine hl.congr ⟨rfl,rfl,rfl,rfl,rfl,rfl,rfl,rfl,rfl⟩
    ⟨hp.active,hp.committer,hp.alone,hp.idle,?_,hp.fresh,hp.inj,hp.curActive⟩ rfl fun _ _ h => h
  intro c hc
  obtain ⟨q,o,hq,ho⟩ := hp.dirtyHeld c hc
  have hne : c ≠ b := by
    rintro rfl
    exact hd hc
  exact ⟨q,o,by simpa [hne] using hq,ho⟩

/-- An unpinned buffer that nobody holds agrees with the disk, in every phase. -/
theorem Live.unpinned_clean {sb : Superblock} {s : State} {b : ℕ} (hl : Live sb s)
    (hfree : s.holder b = none) (hpin : s.pin b = 0) : bread s b = s.disk b := by
  by_cases hb : inLog sb b
  · exact hl.head.coherent b hb
  have hd : b ∉ s.dirty := by
    intro hm
    obtain ⟨q,o,hq,_⟩ := hl.procs.dirtyHeld b hm
    simp [hfree] at hq
  cases hc : s.committing with
  | false =>
    have hq := hl.quiet hc
    have hn : b ∉ s.lh := by
      intro hm
      simp [hq.pin,hm] at hpin
    rw [hq.view b hb hd,applyUpdates_other (fun hm => hn ((hq.lh b).mpr hm)),hq.home b hb]
  | true =>
    obtain ⟨p,ph,hp⟩ := hl.procs.committer.mp hc
    obtain ⟨hcm,hat⟩ := hl.commit p ph hp
    rw [hcm.view b hb]
    cases ph with
    | writeLog t =>
      obtain ⟨_,_,hnamed,hpins,hdisk,_⟩ := hat
      have hn : b ∉ s.lh := by
        intro hm
        simp [hpins,hm] at hpin
      rw [hdisk b hb,hnamed b hb hn]
    | install t =>
      obtain ⟨_,_,_,hpins,hdisk,_⟩ := hat
      have hn : b ∉ s.lh.drop t := by
        intro hm
        simp [hpins,hm] at hpin
      rw [hdisk b hb hn]
    | finish =>
      obtain ⟨_,_,_,hdisk⟩ := hat
      rw [hdisk b hb]

theorem live_evict {sb : Superblock} {s : State} {b : ℕ} (hl : Live sb s)
    (hfree : s.holder b = none) (hpin : s.pin b = 0) :
    Live sb { s with cache := Function.update s.cache b none } := by
  have hp := hl.procs
  have hview : bread { s with cache := Function.update s.cache b none } = bread s := by
    funext c
    by_cases hc : c = b
    · subst hc
      rw [hl.unpinned_clean hfree hpin]
      simp [bread]
    · simp [bread,hc]
  exact hl.congr ⟨rfl,hview,rfl,rfl,rfl,rfl,rfl,rfl,rfl⟩
    ⟨hp.active,hp.committer,hp.alone,hp.idle,hp.dirtyHeld,hp.fresh,hp.inj,hp.curActive⟩ rfl
    fun _ _ h => h

theorem live_modify {sb : Superblock} {s : State} {p b o : ℕ} {d : Block} (hl : Live sb s)
    (ho : s.status p = .op o) (hold : s.holder b = some p) (hb : ¬ inLog sb b) :
    Live sb { s with cache := Function.update s.cache b (some d), dirty := b::s.dirty } := by
  have hp := hl.procs
  have hc := hp.not_committing ho
  have hview : ∀ c, c ≠ b →
      bread { s with cache := Function.update s.cache b (some d), dirty := b::s.dirty } c =
        bread s c := by
    intro c hne
    simp [bread,hne]
  refine ⟨⟨hp.active,hp.committer,hp.alone,hp.idle,?_,hp.fresh,hp.inj,hp.curActive⟩,?_,?_,?_⟩
  · intro c hm
    rcases List.mem_cons.mp hm with rfl | hm
    · exact ⟨p,o,hold,ho⟩
    · exact hp.dirtyHeld c hm
  · have hh := hl.head
    refine ⟨hh.nodup,hh.outside,hh.room,hh.capacity,?_⟩
    intro c hlog
    rw [hview c (by rintro rfl; exact hb hlog)]
    exact hh.coherent c hlog
  · intro _
    have hq := hl.quiet hc
    refine ⟨hq.clean,hq.returned,hq.lh,hq.pin,hq.home,?_⟩
    intro c hlog hm
    simp only [List.mem_cons,not_or] at hm
    rw [hview c hm.1]
    exact hq.view c hlog hm.2
  · intro q ph hph
    have ht := hp.committer.mpr ⟨q,ph,hph⟩
    simp [hc] at ht

theorem live_record {sb : Superblock} {s : State} {p b o : ℕ} (hl : Live sb s)
    (ho : s.status p = .op o) (hb : ¬ inLog sb b) (hlt : b < 2^32)
    (hcap : s.lh.length < LOGSIZE) (hroom : s.lh.length < sb.nlog-1) :
    Live sb { s with
      lh := if b ∈ s.lh then s.lh else s.lh++[b]
      pin := if b ∈ s.lh then s.pin else Function.update s.pin b (s.pin b+1)
      dirty := s.dirty.filter (· ≠ b)
      cur := s.cur++[⟨o,b,bread s b⟩] } := by
  have hp := hl.procs
  have hh := hl.head
  have hc := hp.not_committing ho
  refine ⟨⟨hp.active,hp.committer,hp.alone,hp.idle,?_,hp.fresh,hp.inj,?_⟩,?_,?_,?_⟩
  · intro c hm
    exact hp.dirtyHeld c (List.mem_of_mem_filter hm)
  · intro u hu
    rcases List.mem_append.mp hu with hu | hu
    · exact hp.curActive u hu
    · rw [List.mem_singleton.mp hu]
      exact Or.inr ⟨p,ho⟩
  · by_cases hm : b ∈ s.lh
    · simp only [hm,if_true]
      exact ⟨hh.nodup,hh.outside,hh.room,hh.capacity,hh.coherent⟩
    · simp only [hm,if_false]
      refine ⟨?_,?_,?_,?_,hh.coherent⟩
      · exact List.nodup_append.mpr ⟨hh.nodup,by simp,by
          intro c hcm d hd
          rw [List.mem_singleton.mp hd]
          rintro rfl
          exact hm hcm⟩
      · intro c hcm
        rcases List.mem_append.mp hcm with hcm | hcm
        · exact hh.outside c hcm
        · rw [List.mem_singleton.mp hcm]
          exact ⟨hb,hlt⟩
      · simp only [List.length_append,List.length_singleton]
        omega
      · simp only [List.length_append,List.length_singleton]
        omega
  · intro _
    have hq := hl.quiet hc
    refine ⟨hq.clean,hq.returned,?_,?_,hq.home,?_⟩
    · intro c
      by_cases hm : b ∈ s.lh
      · simp only [hm,if_true,List.map_append,List.map_cons,List.map_nil,List.mem_append,
          List.mem_singleton,← hq.lh c]
        exact ⟨Or.inl,fun h => h.elim id (by rintro rfl; exact hm)⟩
      · simp [hm,← hq.lh c]
    · intro c
      by_cases hm : b ∈ s.lh
      · simp only [hm,if_true]
        exact hq.pin c
      · by_cases hcb : c = b
        · subst hcb
          simp [hm,hq.pin]
        · simp [hm,hcb,hq.pin]
    · intro c hlog hm
      simp only [List.mem_filter,decide_eq_true_eq,not_and,not_not] at hm
      rw [applyUpdates_append]
      by_cases hcb : c = b
      · subst hcb
        simp [applyUpdates,bread]
      · have hd : c ∉ s.dirty := fun h => hcb (hm h)
        have hv := hq.view c hlog hd
        rw [applyUpdates_other (by simpa using hcb)]
        exact hv
  · intro q ph hph
    have ht := hp.committer.mpr ⟨q,ph,hph⟩
    simp [hc] at ht

theorem wakeup_op {st : ℕ → Status} {q o : ℕ} : wakeup st q = .op o ↔ st q = .op o := by
  unfold wakeup
  split <;> simp_all

theorem wakeup_commit {st : ℕ → Status} {q : ℕ} {ph : Phase} :
    wakeup st q = .commit ph ↔ st q = .commit ph := by
  unfold wakeup
  split <;> simp_all

theorem live_leave {sb : Superblock} {s : State} {p o : ℕ} (hl : Live sb s)
    (ho : s.status p = .op o) (hd : ∀ b ∈ s.dirty, s.holder b ≠ some p) :
    Live sb { s with
      outstanding := s.outstanding-1
      ended := s.ended++[o]
      status := Function.update (wakeup s.status) p .idle } := by
  have hp := hl.procs
  have hc := hp.not_committing ho
  have hop : ∀ q o', Function.update (wakeup s.status) p .idle q = .op o' ↔
      q ≠ p ∧ s.status q = .op o' := by
    intro q o'
    by_cases hq : q = p <;> simp [hq,wakeup_op]
  have hcm : ∀ q ph, Function.update (wakeup s.status) p .idle q = .commit ph ↔
      s.status q = .commit ph := by
    intro q ph
    by_cases hq : q = p <;> simp [hq,wakeup_commit,ho]
  refine hl.congr ⟨rfl,rfl,rfl,rfl,rfl,rfl,rfl,rfl,rfl⟩ ⟨?_,?_,?_,?_,?_,?_,?_,?_⟩ rfl
    fun q ph => (hcm q ph).mp
  · obtain ⟨S,hcard,hS⟩ := hp.active
    have hm : p ∈ S := (hS p).mpr ⟨o,ho⟩
    refine ⟨S.erase p,by simp [Finset.card_erase_of_mem hm,hcard],?_⟩
    intro q
    simp only [Finset.mem_erase,hop,hS]
    exact ⟨fun ⟨hne,o',h⟩ => ⟨o',hne,h⟩,fun ⟨o',hne,h⟩ => ⟨hne,o',h⟩⟩
  · simpa only [hcm] using hp.committer
  · simpa only [hcm] using hp.alone
  · intro ht
    exact absurd (hc.symm.trans ht) (by simp)
  · intro b hb
    obtain ⟨q,o',hq,ho'⟩ := hp.dirtyHeld b hb
    have hne : q ≠ p := by
      rintro rfl
      exact hd b hb hq
    exact ⟨q,o',hq,(hop q o').mpr ⟨hne,ho'⟩⟩
  · intro q o' hq
    obtain ⟨hne,ho'⟩ := (hop q o').mp hq
    have hf := hp.fresh q o' ho'
    refine ⟨hf.1,?_⟩
    simp only [List.mem_append,List.mem_singleton,not_or]
    refine ⟨hf.2,?_⟩
    rintro rfl
    exact hne (hp.inj q p o' ho' ho)
  · intro q r o' hq hr
    exact hp.inj q r o' ((hop q o').mp hq).2 ((hop r o').mp hr).2
  · intro u hu
    rcases hp.curActive u hu with he | ⟨q,hq⟩
    · exact Or.inl (List.mem_append.mpr (Or.inl he))
    · by_cases hqp : q = p
      · subst hqp
        rw [ho] at hq
        exact Or.inl (by simp [Status.op.inj hq])
      · exact Or.inr ⟨q,(hop q u.op).mpr ⟨hqp,hq⟩⟩

/-- If the count drops to zero, `p` was the only process inside an operation. -/
theorem Procs.last {s : State} {p o : ℕ} (hp : Procs s) (ho : s.status p = .op o)
    (hlast : s.outstanding-1 = 0) {q o' : ℕ} (hq : s.status q = .op o') : q = p := by
  obtain ⟨S,hcard,hS⟩ := hp.active
  have hle : S.card ≤ 1 := by omega
  exact Finset.card_le_one.mp hle q ((hS q).mpr ⟨o',hq⟩) p ((hS p).mpr ⟨o,ho⟩)

/-- The last operation of a group ends: the group is closed and `p` starts `commit`. -/
theorem live_close {sb : Superblock} {s : State} {p o : ℕ} (hl : Live sb s)
    (ho : s.status p = .op o) (hd : ∀ b ∈ s.dirty, s.holder b ≠ some p)
    (hlast : s.outstanding-1 = 0) :
    Live sb { s with
      outstanding := s.outstanding-1
      ended := s.ended++[o]
      status := Function.update s.status p (.commit (if s.lh = [] then .finish else .writeLog 0))
      committing := true
      closed := s.closed++[s.cur]
      cur := [] } := by
  have hp := hl.procs
  have hc := hp.not_committing ho
  have hq := hl.quiet hc
  set ph₀ : Phase := if s.lh = [] then .finish else .writeLog 0 with hph₀
  set t : State := { s with
      outstanding := s.outstanding-1
      ended := s.ended++[o]
      status := Function.update s.status p (.commit ph₀)
      committing := true
      closed := s.closed++[s.cur]
      cur := [] } with ht
  have hnone : ∀ q o', t.status q ≠ .op o' := by
    intro q o' h
    by_cases hqp : q = p
    · subst hqp
      simp [ht] at h
    · exact hqp (hp.last ho hlast (by simpa [ht,hqp] using h))
  have hcommit : ∀ q ph, t.status q = .commit ph → q = p ∧ ph = ph₀ := by
    intro q ph h
    by_cases hqp : q = p
    · subst hqp
      exact ⟨rfl,by simpa [ht] using h.symm⟩
    · have hm := hp.committer.mpr ⟨q,ph,by simpa [ht,hqp] using h⟩
      simp [hc] at hm
  have hdirty : s.dirty = [] := by
    rw [List.eq_nil_iff_forall_not_mem]
    intro b hb
    obtain ⟨q,o',hq',ho'⟩ := hp.dirtyHeld b hb
    exact hd b hb (hp.last ho hlast ho' ▸ hq')
  have hhome : groupsHome t.base t.closed t.closed.length =
      applyUpdates (groupsHome s.base s.closed s.closed.length) s.cur :=
    groupsHome_close s.base s.closed s.cur
  have hold : groupsHome t.base t.closed s.closed.length =
      groupsHome s.base s.closed s.closed.length := groupsHome_append le_rfl
  have hnamed : ∀ b, b ∉ s.lh →
      applyUpdates (groupsHome s.base s.closed s.closed.length) s.cur b = groupsHome s.base s.closed s.closed.length b :=
    fun b hb => applyUpdates_other fun hm => hb ((hq.lh b).mpr hm)
  refine ⟨⟨?_,?_,?_,?_,?_,?_,?_,?_⟩,?_,?_,?_⟩
  · exact ⟨∅,by simp [ht,hlast],fun q => by simpa using hnone q⟩
  · exact ⟨fun _ => ⟨p,ph₀,by simp [ht]⟩,fun _ => rfl⟩
  · intro q r ph ph' h h'
    rw [(hcommit q ph h).1,(hcommit r ph' h').1]
  · exact fun _ => hlast
  · simp [ht,hdirty]
  · exact fun q o' h => absurd h (hnone q o')
  · exact fun q r o' h => absurd h (hnone q o')
  · simp [ht]
  · exact ⟨hl.head.nodup,hl.head.outside,hl.head.room,hl.head.capacity,hl.head.coherent⟩
  · simp [ht]
  · intro q ph h
    obtain ⟨_,rfl⟩ := hcommit q ph h
    refine ⟨⟨rfl,by simp [ht,hq.returned],hdirty,?_⟩,?_⟩
    · intro b hb
      rw [hhome]
      exact hq.view b hb (by simp [hdirty])
    · have hret : groupsHome t.base t.closed t.returned = groupsHome s.base s.closed s.closed.length := by
        rw [← hold]
        exact congrArg (groupsHome t.base t.closed) hq.returned
      by_cases hlh : s.lh = []
      · simp only [hph₀,hlh,if_true]
        refine ⟨hlh,hq.clean,fun b => by simp [ht,hq.pin,hlh],?_⟩
        intro b hb
        rw [hhome,hnamed b (by simp [hlh])]
        exact hq.home b hb
      · simp only [hph₀,hlh,if_false]
        refine ⟨Nat.zero_le _,hq.clean,?_,hq.pin,?_,by simp⟩
        · intro b _ hn
          rw [hhome,hret,hnamed b hn]
        · intro b hb
          rw [hret]
          exact hq.home b hb

theorem Live.phase {sb : Superblock} {s t : State} {p : ℕ} {ph ph' : Phase} (hl : Live sb s)
    (hph : s.status p = .commit ph)
    (hst : t.status = Function.update s.status p (.commit ph'))
    (hother : t.outstanding = s.outstanding ∧ t.committing = s.committing ∧
      t.holder = s.holder ∧ t.nextOp = s.nextOp ∧ t.ended = s.ended)
    (hd : t.dirty = s.dirty) (hcur : t.cur = s.cur) (hh : Head sb t) (hc : Committing sb t)
    (hat : AtPhase sb t ph') : Live sb t := by
  have hp := hl.procs
  have hcm := hp.committer.mpr ⟨p,ph,hph⟩
  obtain ⟨h₁,h₂,h₃,h₄,h₅⟩ := hother
  have hop : ∀ q o, t.status q = .op o ↔ s.status q = .op o := by
    intro q o
    by_cases hq : q = p <;> simp [hst,hq,hph]
  have hcommit : ∀ q ph'', t.status q = .commit ph'' → q = p ∧ ph'' = ph' := by
    intro q ph'' h
    by_cases hq : q = p
    · subst hq
      exact ⟨rfl,by simpa [hst] using h.symm⟩
    · exact absurd (hp.alone q p ph'' ph (by simpa [hst,hq] using h) hph) hq
  refine ⟨⟨?_,?_,?_,?_,?_,?_,?_,?_⟩,hh,?_,?_⟩
  · simpa only [hop,h₁] using hp.active
  · rw [h₂]
    exact ⟨fun _ => ⟨p,ph',by simp [hst]⟩,fun _ => hcm⟩
  · intro q r a b ha hb
    rw [(hcommit q a ha).1,(hcommit r b hb).1]
  · simpa only [h₁,h₂] using hp.idle
  · simpa only [hop,hd,h₃] using hp.dirtyHeld
  · simpa only [hop,h₄,h₅] using hp.fresh
  · simpa only [hop] using hp.inj
  · simpa only [hop,hcur,h₅] using hp.curActive
  · intro hf
    rw [h₂,hcm] at hf
    cases hf
  · intro q ph'' h
    obtain ⟨_,rfl⟩ := hcommit q ph'' h
    exact ⟨hc,hat⟩

theorem bread_bwrite (s : State) (b c : ℕ) (d : Block) :
    bread (bwrite s b d) c = if c = b then d else bread s c := by
  by_cases h : c = b <;> simp [bread,bwrite,h]

theorem bread_setStatus (s : State) (p : ℕ) (x : Status) : bread (setStatus s p x) = bread s := rfl

theorem live_logCopy {sb : Superblock} {s : State} {p tail b : ℕ} (hl : Live sb s)
    (hph : s.status p = .commit (.writeLog tail)) (hb : s.lh[tail]? = some b) :
    Live sb (setStatus (bwrite { s with cache := Function.update s.cache b (some (bread s b)) }
      (sb.logstart+tail+1) (bread s b)) p (.commit (.writeLog (tail+1)))) := by
  obtain ⟨hcm,htail,hclean,hnamed,hpins,hdisk,hslots⟩ := hl.commit p _ hph
  have hh := hl.head
  have hlen : tail < s.lh.length := (List.getElem?_eq_some_iff.mp hb).1
  have hslot : inLog sb (sb.logstart+tail+1) := inLog_slot hlen hh.room
  have hbout : ¬ inLog sb b := (hh.outside b (List.mem_of_getElem? hb)).1
  -- the copy only touches the log slot, in the cache as on disk
  set u : State := { s with cache := Function.update s.cache b (some (bread s b)) } with hu
  have hfill : bread u = bread s := funext (bread_fill s b)
  have hview : ∀ c, c ≠ sb.logstart+tail+1 →
      bread (bwrite u (sb.logstart+tail+1) (bread s b)) c = bread s c := by
    intro c hc
    rw [bread_bwrite,if_neg hc,hfill]
  refine hl.phase hph rfl ⟨rfl,rfl,rfl,rfl,rfl⟩ rfl rfl ⟨hh.nodup,hh.outside,hh.room,
    hh.capacity,?_⟩ ⟨hcm.cur,hcm.returned,hcm.dirty,?_⟩ ⟨hlen,?_,hnamed,hpins,?_,?_⟩
  · intro c hc
    by_cases he : c = sb.logstart+tail+1
    · subst he
      simp [bread,bwrite,setStatus]
    · rw [bread_setStatus,hview c he,hh.coherent c hc]
      simp [bwrite,setStatus,u,he]
  · intro c hc
    have he : c ≠ sb.logstart+tail+1 := by
      rintro rfl
      exact hc hslot
    rw [bread_setStatus,hview c he]
    exact hcm.view c hc
  · have he : sb.logstart ≠ sb.logstart+tail+1 := by omega
    simpa [bwrite,setStatus,u,he] using hclean
  · intro c hc
    have he : c ≠ sb.logstart+tail+1 := by
      rintro rfl
      exact hc hslot
    simpa [bwrite,setStatus,u,he] using hdisk c hc
  · intro i c hi hic
    by_cases hit : i = tail
    · subst hit
      have hbc : b = c := Option.some.inj (hb.symm.trans hic)
      subst hbc
      have hv := hcm.view b hbout
      simpa [bwrite,setStatus] using hv
    · have he : sb.logstart+i+1 ≠ sb.logstart+tail+1 := by omega
      have hv := hslots i c (by omega) hic
      simpa [bwrite,setStatus,u,hit] using hv

theorem live_logHead {sb : Superblock} {s : State} {p tail : ℕ} (hl : Live sb s)
    (hph : s.status p = .commit (.writeLog tail)) (hb : s.lh[tail]? = none) :
    Live sb (setStatus (bwrite s sb.logstart (encodeHead s.lh (bread s sb.logstart))) p
      (.commit (.install 0))) := by
  obtain ⟨hcm,htail,hclean,hnamed,hpins,hdisk,hslots⟩ := hl.commit p _ hph
  have hh := hl.head
  have hlen : s.lh.length ≤ tail := List.getElem?_eq_none_iff.mp hb
  have hdec : decodeHead (encodeHead s.lh (bread s sb.logstart)) = s.lh := by
    apply decodeHead_encodeHead
    · have hcap := hh.capacity
      have hsize : LOGSIZE < 2^31 := by decide
      omega
    · exact fun b hb => (hh.outside b hb).2
  refine hl.phase hph rfl ⟨rfl,rfl,rfl,rfl,rfl⟩ rfl rfl ⟨hh.nodup,hh.outside,hh.room,
    hh.capacity,?_⟩ ⟨hcm.cur,hcm.returned,hcm.dirty,?_⟩ ⟨Nat.zero_le _,?_,hnamed,?_,?_,?_⟩
  · intro c hc
    rw [bread_setStatus,bread_bwrite]
    by_cases he : c = sb.logstart
    · simp [bwrite,setStatus,he]
    · simpa [bwrite,setStatus,he] using hh.coherent c hc
  · intro c hc
    have he : c ≠ sb.logstart := by
      rintro rfl
      exact hc (inLog_start sb)
    rw [bread_setStatus,bread_bwrite,if_neg he]
    exact hcm.view c hc
  · simpa [bwrite,setStatus] using hdec
  · simpa [bwrite,setStatus] using hpins
  · intro c hc hn
    have he : c ≠ sb.logstart := by
      rintro rfl
      exact hc (inLog_start sb)
    change c ∉ s.lh at hn
    have hv := (hdisk c hc).trans (hnamed c hc hn).symm
    simpa [bwrite,setStatus,he] using hv
  · intro i c hic
    have hi : i < s.lh.length := (List.getElem?_eq_some_iff.mp hic).1
    have he : sb.logstart+i+1 ≠ sb.logstart := by omega
    have hv := hslots i c (by omega) hic
    simpa [bwrite,setStatus,he] using hv

theorem live_writeLogStep {sb : Superblock} {s t : State} {p tail : ℕ} (hl : Live sb s)
    (hph : s.status p = .commit (.writeLog tail)) (hstep : writeLogStep sb s p tail = some t) :
    Live sb t := by
  unfold writeLogStep at hstep
  dsimp only at hstep
  split at hstep
  case h_1 b hb =>
    split at hstep
    · cases hstep
      exact live_logCopy hl hph hb
    · cases hstep
  case h_2 hb =>
    split at hstep
    · cases hstep
      exact live_logHead hl hph hb
    · cases hstep

theorem live_installCopy {sb : Superblock} {s : State} {p tail b : ℕ} (hl : Live sb s)
    (hph : s.status p = .commit (.install tail)) (hb : s.lh[tail]? = some b) {lbuf : ℕ}
    (hlbuf : lbuf = sb.logstart+tail+1) :
    Live sb (setStatus { bwrite { s with cache := Function.update s.cache lbuf (some (bread s lbuf)) }
      b (bread s lbuf) with pin := Function.update s.pin b (s.pin b-1) } p
      (.commit (.install (tail+1)))) := by
  subst hlbuf
  obtain ⟨hcm,htail,hhead,hnamed,hpins,hdisk,hslots⟩ := hl.commit p _ hph
  have hh := hl.head
  obtain ⟨hlen,hget⟩ := List.getElem?_eq_some_iff.mp hb
  have hslot : inLog sb (sb.logstart+tail+1) := inLog_slot hlen hh.room
  have hbout : ¬ inLog sb b := (hh.outside b (List.mem_of_getElem? hb)).1
  have hdata : bread s (sb.logstart+tail+1) = groupsHome s.base s.closed s.closed.length b := by
    rw [hh.coherent _ hslot,hslots tail b hb]
  set u : State := { s with
    cache := Function.update s.cache (sb.logstart+tail+1)
      (some (bread s (sb.logstart+tail+1))) } with hu
  have hfill : bread u = bread s := funext (bread_fill s _)
  have hview : bread (bwrite u b (bread s (sb.logstart+tail+1))) = bread s := by
    funext c
    rw [bread_bwrite,hfill]
    split
    · rename_i he
      rw [he,hdata,hcm.view b hbout]
    · rfl
  have hdrop : s.lh.drop tail = b::s.lh.drop (tail+1) := by
    rw [List.drop_eq_getElem_cons hlen,hget]
  have hnot : b ∉ s.lh.drop (tail+1) := by
    have hn := (hh.nodup.sublist (List.drop_sublist tail s.lh))
    rw [hdrop] at hn
    exact (List.nodup_cons.mp hn).1
  refine hl.phase hph rfl ⟨rfl,rfl,rfl,rfl,rfl⟩ rfl rfl ⟨hh.nodup,hh.outside,hh.room,
    hh.capacity,?_⟩ ⟨hcm.cur,hcm.returned,hcm.dirty,?_⟩ ⟨hlen,?_,hnamed,?_,?_,?_⟩
  · intro c hc
    have he : c ≠ b := by
      rintro rfl
      exact hbout hc
    change bread (bwrite u b _) c = Function.update s.disk b _ c
    rw [hview,Function.update_of_ne he,hh.coherent c hc]
  · intro c hc
    change bread (bwrite u b _) c = groupsHome s.base s.closed s.closed.length c
    rw [hview,hcm.view c hc]
  · have he : sb.logstart ≠ b := by
      rintro rfl
      exact hbout (inLog_start sb)
    simpa [bwrite,setStatus,u,he] using hhead
  · intro c
    change Function.update s.pin b (s.pin b-1) c = if c ∈ s.lh.drop (tail+1) then 1 else 0
    have hv := hpins c
    rw [hdrop] at hv
    by_cases he : c = b
    · subst he
      simpa [hnot] using congrArg (·-1) hv
    · simpa [he] using hv
  · intro c hc hn
    change c ∉ s.lh.drop (tail+1) at hn
    by_cases he : c = b
    · subst he
      simpa [bwrite,setStatus] using hdata
    · have hv := hdisk c hc (by rw [hdrop]; simpa [he] using hn)
      simpa [bwrite,setStatus,u,he] using hv
  · intro i c hic
    have hi : i < s.lh.length := (List.getElem?_eq_some_iff.mp hic).1
    have he : sb.logstart+i+1 ≠ b := by
      intro he
      exact hbout (he ▸ inLog_slot hi hh.room)
    have hv := hslots i c hic
    simpa [bwrite,setStatus,u,he] using hv

theorem live_installHead {sb : Superblock} {s : State} {p tail : ℕ} (hl : Live sb s)
    (hph : s.status p = .commit (.install tail)) (hb : s.lh[tail]? = none) :
    Live sb (setStatus { bwrite s sb.logstart (encodeHead [] (bread s sb.logstart)) with lh := [] } p
      (.commit .finish)) := by
  obtain ⟨hcm,htail,hhead,hnamed,hpins,hdisk,hslots⟩ := hl.commit p _ hph
  have hh := hl.head
  have hlen : s.lh.length ≤ tail := List.getElem?_eq_none_iff.mp hb
  have hdrop : s.lh.drop tail = [] := List.drop_eq_nil_of_le hlen
  have hdec : decodeHead (encodeHead [] (bread s sb.logstart)) = [] :=
    decodeHead_encodeHead _ (by simp) (by simp)
  refine hl.phase hph rfl ⟨rfl,rfl,rfl,rfl,rfl⟩ rfl rfl ⟨by simp [setStatus],
    by simp [setStatus],by simp [setStatus],by simp [setStatus],?_⟩
    ⟨hcm.cur,hcm.returned,hcm.dirty,?_⟩ ⟨rfl,?_,?_,?_⟩
  · intro c hc
    have hv := hh.coherent c hc
    by_cases he : c = sb.logstart
    · simp [bread,bwrite,setStatus,he]
    · simpa [bread,bwrite,setStatus,he] using hv
  · intro c hc
    have he : c ≠ sb.logstart := by
      rintro rfl
      exact hc (inLog_start sb)
    have hv := hcm.view c hc
    simpa [bread,bwrite,setStatus,he] using hv
  · simpa [bwrite,setStatus] using hdec
  · intro c
    change s.pin c = 0
    simpa [hdrop] using hpins c
  · intro c hc
    have he : c ≠ sb.logstart := by
      rintro rfl
      exact hc (inLog_start sb)
    have hv := hdisk c hc (by simp [hdrop])
    simpa [bwrite,setStatus,he] using hv

theorem live_installStep {sb : Superblock} {s t : State} {p tail : ℕ} (hl : Live sb s)
    (hph : s.status p = .commit (.install tail)) (hstep : installStep sb s p tail = some t) :
    Live sb t := by
  unfold installStep at hstep
  dsimp only at hstep
  split at hstep
  case h_1 b hb =>
    split at hstep
    · cases hstep
      exact live_installCopy hl hph hb rfl
    · cases hstep
  case h_2 hb =>
    split at hstep
    · cases hstep
      exact live_installHead hl hph hb
    · cases hstep

theorem live_finishStep {sb : Superblock} {s : State} {p : ℕ} (hl : Live sb s)
    (hph : s.status p = .commit .finish) : Live sb (finishStep s p) := by
  obtain ⟨hcm,hlh,hclean,hpins,hdisk⟩ := hl.commit p _ hph
  have hp := hl.procs
  have hh := hl.head
  have hop : ∀ q o, Function.update (wakeup s.status) p .idle q = .op o ↔ s.status q = .op o := by
    intro q o
    by_cases hq : q = p <;> simp [hq,wakeup_op,hph]
  have hnone : ∀ q ph, Function.update (wakeup s.status) p .idle q ≠ .commit ph := by
    intro q ph h
    by_cases hq : q = p
    · simp [hq] at h
    · exact hq (hp.alone q p ph _ (wakeup_commit.mp (by simpa [hq] using h)) hph)
  refine ⟨⟨?_,?_,?_,?_,?_,?_,?_,?_⟩,?_,?_,?_⟩
  · simpa only [finishStep,hop] using hp.active
  · simpa [finishStep] using hnone
  · exact fun q r a b ha => absurd ha (hnone q a)
  · simp [finishStep]
  · simpa only [finishStep,hop] using hp.dirtyHeld
  · simpa only [finishStep,hop] using hp.fresh
  · simpa only [finishStep,hop] using hp.inj
  · simpa only [finishStep,hop] using hp.curActive
  · exact ⟨hh.nodup,hh.outside,hh.room,hh.capacity,hh.coherent⟩
  · intro _
    refine ⟨hclean,rfl,?_,?_,hdisk,?_⟩
    · simp [finishStep,hlh,hcm.cur]
    · simpa [finishStep,hlh] using hpins
    · intro b hb _
      change bread s b = applyUpdates (groupsHome s.base s.closed s.closed.length) s.cur b
      rw [hcm.cur,hcm.view b hb]
      rfl
  · exact fun q ph h => absurd h (hnone q ph)

theorem Hist.congr {s t : State} (hh : Hist s) (hn : t.nextOp = s.nextOp) (he : t.ended = s.ended)
    (hc : t.cur = s.cur) (hg : t.closed = s.closed) (hd : t.durable = s.durable)
    (hr : t.returned = s.returned) : Hist t := by
  constructor
  · simpa only [he,hn] using hh.endedLt
  · simpa only [hc,hn] using hh.curLt
  · simpa only [hg,he] using hh.closedEnded
  · simpa only [hg] using hh.apart
  · simpa only [hg,hc] using hh.curApart
  · simpa only [hd,he] using hh.durableEnded
  · simpa only [hc,hd] using hh.durableCur
  · simpa only [hg,hr,hd] using hh.durableRest
  · simpa only [hg,hr] using hh.returnedLe

theorem Hist.enter {s : State} (hh : Hist s) {p : ℕ} :
    Hist { setStatus s p (.op s.nextOp) with
      outstanding := s.outstanding+1, nextOp := s.nextOp+1 } :=
  ⟨fun o ho => Nat.lt_succ_of_lt (hh.endedLt o ho),fun u hu => Nat.lt_succ_of_lt (hh.curLt u hu),
    hh.closedEnded,hh.apart,hh.curApart,hh.durableEnded,hh.durableCur,hh.durableRest,hh.returnedLe⟩

/-- A new update belongs to an operation that no closed group and no ended one knows. -/
theorem hist_record {s : State} {p b o : ℕ} (hh : Hist s) (hp : Procs s)
    (ho : s.status p = .op o) {lh : List ℕ} {pin : ℕ → ℕ} {dirty : List ℕ} {d : Block} :
    Hist { s with lh := lh, pin := pin, dirty := dirty, cur := s.cur++[⟨o,b,d⟩] } := by
  obtain ⟨hlt,hne⟩ := hp.fresh p o ho
  have hcases : ∀ u ∈ s.cur++[(⟨o,b,d⟩ : Update)], u ∈ s.cur ∨ u.op = o := by
    intro u hu
    rcases List.mem_append.mp hu with hu | hu
    · exact Or.inl hu
    · rw [List.mem_singleton.mp hu]
      exact Or.inr rfl
  refine ⟨hh.endedLt,?_,hh.closedEnded,hh.apart,?_,hh.durableEnded,?_,hh.durableRest,hh.returnedLe⟩
  · intro u hu
    rcases hcases u hu with hu | hu
    · exact hh.curLt u hu
    · exact hu ▸ hlt
  · intro g hg v hv u hu
    rcases hcases u hu with hu | hu
    · exact hh.curApart g hg v hv u hu
    · rintro he
      exact hne (hu ▸ he ▸ hh.closedEnded g hg v hv)
  · intro u hu
    rcases hcases u hu with hu | hu
    · exact hh.durableCur u hu
    · exact fun hm => hne (hu ▸ hh.durableEnded _ hm)

theorem hist_leave {s : State} {p o : ℕ} (hh : Hist s) (hp : Procs s) (ho : s.status p = .op o)
    {n : ℕ} {st : ℕ → Status} :
    Hist { s with outstanding := n, ended := s.ended++[o], status := st } := by
  refine ⟨?_,hh.curLt,?_,hh.apart,hh.curApart,?_,hh.durableCur,hh.durableRest,hh.returnedLe⟩
  · intro o' ho'
    rcases List.mem_append.mp ho' with ho' | ho'
    · exact hh.endedLt o' ho'
    · rw [List.mem_singleton.mp ho']
      exact (hp.fresh p o ho).1
  · exact fun g hg u hu => List.mem_append.mpr (Or.inl (hh.closedEnded g hg u hu))
  · exact fun o' ho' => List.mem_append.mpr (Or.inl (hh.durableEnded o' ho'))

/-- When the last operation ends, all operations of the open group have ended. -/
theorem hist_close {s : State} {p o : ℕ} (hh : Hist s) (hp : Procs s) (ho : s.status p = .op o)
    (hlast : s.outstanding-1 = 0) {n : ℕ} {st : ℕ → Status} :
    Hist { s with
      outstanding := n
      ended := s.ended++[o]
      status := st
      committing := true
      closed := s.closed++[s.cur]
      cur := [] } := by
  have hl : Hist { s with outstanding := n, ended := s.ended++[o], status := st } :=
    hist_leave hh hp ho
  refine ⟨hl.endedLt,by simp,?_,?_,by simp,hl.durableEnded,by simp,?_,?_⟩
  · intro g hg u hu
    rcases List.mem_append.mp hg with hg | hg
    · exact hl.closedEnded g hg u hu
    · rw [List.mem_singleton.mp hg] at hu
      rcases hp.curActive u hu with he | ⟨q,hq⟩
      · exact List.mem_append.mpr (Or.inl he)
      · have hqp := hp.last ho hlast hq
        subst hqp
        rw [ho] at hq
        simp [Status.op.inj hq]
  · rw [List.pairwise_append]
    refine ⟨hh.apart,by simp,?_⟩
    intro g hg h' hh' u hu v hv
    rw [List.mem_singleton.mp hh'] at hv
    exact hh.curApart g hg u hu v hv
  · intro g hg u hu
    have hg' : g ∈ s.closed.drop s.returned ∨ g = s.cur := by
      change g ∈ (s.closed++[s.cur]).drop s.returned at hg
      rw [List.drop_append_of_le_length hh.returnedLe] at hg
      simpa using hg
    rcases hg' with hg' | rfl
    · exact hh.durableRest g hg' u hu
    · exact hh.durableCur u hu
  · have hr := hh.returnedLe
    simp only [List.length_append,List.length_singleton]
    omega

theorem hist_finish {s : State} {p : ℕ} (hh : Hist s) (hcur : s.cur = []) :
    Hist (finishStep s p) :=
  ⟨hh.endedLt,hh.curLt,hh.closedEnded,hh.apart,hh.curApart,fun _ h => h,
    by simp [finishStep,hcur],by simp [finishStep],le_rfl⟩

theorem Recovering.recoverable {sb : Superblock} {s : State} {t : ℕ} (h : Recovering sb s t) :
    Recoverable sb s := by
  obtain ⟨k,hk,hk',hlog,_⟩ := h.installed
  exact ⟨k,hk,hk',h.head ▸ hlog⟩

theorem Recovering.room {sb : Superblock} {s : State} {t : ℕ} (h : Recovering sb s t) :
    s.lh.length ≤ sb.nlog-1 := by
  obtain ⟨_,_,_,hlog,_⟩ := h.installed
  exact hlog.room

theorem recovering_readHead {sb : Superblock} {s : State} (hf : Fresh s)
    (hr : Recoverable sb s) : Recovering sb (readHead sb s) 0 := by
  have hdisk : bread s = s.disk := by
    funext b
    simp [bread,hf.cache]
  have hview : bread (readHead sb s) = s.disk := by
    rw [← hdisk]
    exact funext (bread_fill s sb.logstart)
  obtain ⟨k,hk,hk',hlog⟩ := hr
  rw [← congrFun hdisk sb.logstart] at hlog
  refine ⟨by simp [readHead,hdisk],fun b => congrFun hview b,k,hk,hk',hlog,?_⟩
  intro b hb hn
  exact hlog.rest b hb hn

/-- Installing a block again during recovery moves it closer to the committed contents. -/
theorem recovering_install {sb : Superblock} {s : State} {t b : ℕ} (h : Recovering sb s t)
    (hb : s.lh[t]? = some b) :
    Recovering sb (recoverStep sb s t) (t+1) := by
  obtain ⟨k,hk,hk',hlog,hinst⟩ := h.installed
  obtain ⟨hlen,hget⟩ := List.getElem?_eq_some_iff.mp hb
  have hbout : ¬ inLog sb b := hlog.outside b (List.mem_of_getElem? hb)
  have hdata : bread s (sb.logstart+t+1) = groupsHome s.base s.closed k b := by
    rw [h.coherent,hlog.slots t b hb]
  have hdrop : s.lh.drop t = b::s.lh.drop (t+1) := by
    rw [List.drop_eq_getElem_cons hlen,hget]
  have hlogne : ∀ c, inLog sb c → c ≠ b := by
    rintro c hc rfl
    exact hbout hc
  have hstart : sb.logstart ≠ b := hlogne _ (inLog_start sb)
  simp only [recoverStep,hb]
  refine ⟨?_,?_,k,hk,hk',⟨hlog.outside,hlog.room,?_,?_⟩,?_⟩
  · simpa [bwrite,hstart] using h.head
  · intro c
    by_cases hc : c = b
    · simp [bread,bwrite,hc]
    · have hv := h.coherent c
      by_cases hl : c = sb.logstart+t+1
      · simpa [bread,bwrite,hc,← hl] using hv
      · simpa [bread,bwrite,hc,hl] using hv
  · intro i c hic
    have hi : i < s.lh.length := (List.getElem?_eq_some_iff.mp hic).1
    have hne := hlogne _ (inLog_slot hi hlog.room)
    simpa [bwrite,hne] using hlog.slots i c hic
  · intro c hc hn
    have hne : c ≠ b := by
      rintro rfl
      exact hn (List.mem_of_getElem? hb)
    simpa [bwrite,hne] using hlog.rest c hc hn
  · intro c hc hn
    change c ∉ s.lh.drop (t+1) at hn
    by_cases he : c = b
    · subst he
      simpa [bwrite] using hdata
    · have hv := hinst c hc (by rw [hdrop]; simpa [he] using hn)
      simpa [bwrite,he] using hv

/-- The end of recovery: every home block holds the same prefix of groups. -/
theorem recovered_home {sb : Superblock} {s : State} {t : ℕ} (h : Recovering sb s t)
    (hb : s.lh[t]? = none) : ∃ k, s.returned ≤ k ∧ k ≤ s.closed.length ∧
      ∀ b, ¬ inLog sb b → (recoverStep sb s t).disk b = groupsHome s.base s.closed k b := by
  obtain ⟨k,hk,hk',_,hinst⟩ := h.installed
  have hdrop : s.lh.drop t = [] := List.drop_eq_nil_of_le (List.getElem?_eq_none_iff.mp hb)
  refine ⟨k,hk,hk',?_⟩
  intro b hout
  have hne : b ≠ sb.logstart := by
    rintro rfl
    exact hout (inLog_start sb)
  have hv := hinst b hout (by simp [hdrop])
  simpa [recoverStep,hb,bwrite,hne] using hv

theorem recovered_coherent {sb : Superblock} {s : State} {t : ℕ} (h : Recovering sb s t)
    (hb : s.lh[t]? = none) (b : ℕ) :
    bread (recoverStep sb s t) b = (recoverStep sb s t).disk b := by
  have hv := h.coherent b
  by_cases hne : b = sb.logstart
  · simp [recoverStep,hb,bwrite,bread,hne]
  · simpa [recoverStep,hb,bwrite,bread,hne] using hv

theorem live_start {sb : Superblock} {s : State} (hst : ∀ p, s.status p = .idle)
    (hout : s.outstanding = 0) (hcm : s.committing = false) (hd : s.dirty = [])
    (hpin : ∀ b, s.pin b = 0) (hlh : s.lh = []) (hcur : s.cur = []) (hclosed : s.closed = [])
    (hret : s.returned = 0) (hbase : s.base = s.disk) (hview : ∀ b, bread s b = s.disk b)
    (hclean : decodeHead (s.disk sb.logstart) = []) : Live sb s := by
  refine ⟨⟨⟨∅,by simp [hout],by simp [hst]⟩,by simp [hcm,hst],by simp [hst],by simp [hcm],
    by simp [hd],by simp [hst],by simp [hst],by simp [hcur]⟩,
    ⟨by simp [hlh],by simp [hlh],by simp [hlh],by simp [hlh],fun b _ => hview b⟩,?_,by simp [hst]⟩
  intro _
  refine ⟨hclean,by simp [hret,hclosed],by simp [hlh,hcur],by simp [hlh,hpin],?_,?_⟩
  · intro b _
    simp [groupsHome,applyUpdates,hclosed,hbase]
  · intro b _ _
    simp [groupsHome,applyUpdates,hclosed,hcur,hbase,hview]

theorem hist_start {s : State} (hcur : s.cur = []) (hclosed : s.closed = []) (he : s.ended = [])
    (hd : s.durable = []) (hret : s.returned = 0) : Hist s := by
  constructor <;> simp [hcur,hclosed,he,hd,hret]

theorem inv_boot {sb : Superblock} {disk : Disk} (hclean : decodeHead (disk sb.logstart) = []) :
    Inv sb (boot disk) := by
  have hh : Hist (boot disk) := hist_start rfl rfl rfl rfl rfl
  have hl : Live sb (boot disk) :=
    live_start (fun _ => rfl) rfl rfl rfl (fun _ => rfl) rfl rfl rfl rfl rfl (fun _ => rfl) hclean
  exact ⟨hh,hl.recoverable hh,hl.head.room,hl⟩

theorem inv_of_live {sb : Superblock} {s : State} (hm : s.mode = .running) (hh : Hist s)
    (hl : Live sb s) : Inv sb s :=
  ⟨hh,hl.recoverable hh,hl.head.room,by rw [hm]; exact hl⟩

theorem Inv.live {sb : Superblock} {s : State} (hi : Inv sb s) (hm : s.mode = .running) :
    Live sb s := by
  have hmode := hi.mode
  rw [hm] at hmode
  exact hmode

theorem inv_endOp {sb : Superblock} {s : State} {p o : ℕ} (hi : Inv sb s)
    (hm : s.mode = .running) (ho : s.status p = .op o)
    (hd : ∀ b ∈ s.dirty, s.holder b ≠ some p) : Inv sb (endOp s p o) := by
  have hl := hi.live hm
  have hc := hl.procs.not_committing ho
  unfold endOp
  dsimp only
  rw [if_neg (by simp [hc])]
  split
  · rename_i hlast
    exact inv_of_live hm (hist_close hi.hist hl.procs ho hlast) (live_close hl ho hd hlast)
  · exact inv_of_live hm (hist_leave hi.hist hl.procs ho) (live_leave hl ho hd)

theorem writeLogStep_keeps {sb : Superblock} {s t : State} {p tail : ℕ}
    (h : writeLogStep sb s p tail = some t) :
    t.mode = s.mode ∧ t.committing = s.committing ∧ t.nextOp = s.nextOp ∧ t.ended = s.ended ∧
      t.cur = s.cur ∧ t.closed = s.closed ∧ t.durable = s.durable ∧ t.returned = s.returned := by
  simp only [writeLogStep] at h
  split at h <;> split at h <;> cases h <;> simp [setStatus,bwrite]

theorem installStep_keeps {sb : Superblock} {s t : State} {p tail : ℕ}
    (h : installStep sb s p tail = some t) :
    t.mode = s.mode ∧ t.committing = s.committing ∧ t.nextOp = s.nextOp ∧ t.ended = s.ended ∧
      t.cur = s.cur ∧ t.closed = s.closed ∧ t.durable = s.durable ∧ t.returned = s.returned := by
  simp only [installStep] at h
  split at h <;> split at h <;> cases h <;> simp [setStatus,bwrite]

theorem inv_recoverStep {sb : Superblock} {s : State} {t : ℕ} (hi : Inv sb s)
    (hm : s.mode = .recovering t) : Inv sb (recoverStep sb s t) := by
  have hmode := hi.mode
  rw [hm] at hmode
  obtain ⟨hr,hst,hout,hcm,hd,hpin⟩ := hmode
  have hh := hi.hist
  cases hb : s.lh[t]? with
  | some b =>
    have hnext := recovering_install hr hb
    refine ⟨?_,hnext.recoverable,hnext.room,?_⟩
    · simp only [recoverStep,hb]
      exact hh.congr rfl rfl rfl rfl rfl rfl
    · have hmode : (recoverStep sb s t).mode = .recovering (t+1) := by simp [recoverStep,hb]
      rw [hmode]
      refine ⟨hnext,?_⟩
      simpa [recoverStep,hb,bwrite] using ⟨hst,hout,hcm,hd,hpin⟩
  | none =>
    have hcoh := recovered_coherent hr hb
    have hclean : decodeHead ((recoverStep sb s t).disk sb.logstart) = [] := by
      have hdec : decodeHead (encodeHead [] (bread s sb.logstart)) = [] :=
        decodeHead_encodeHead _ (by simp) (by simp)
      simpa [recoverStep,hb,bwrite] using hdec
    refine inv_of_live (by simp [recoverStep,hb]) ?_ ?_
    · apply hist_start <;> simp [recoverStep,hb]
    · refine live_start ?_ ?_ ?_ ?_ ?_ ?_ ?_ ?_ ?_ ?_ hcoh hclean <;>
        simp [recoverStep,hb,bwrite,hst,hout,hcm,hd,hpin]

/-- Every step keeps the invariant, crashes and recovery included. -/
theorem step_inv {sb : Superblock} {s t : State} {a : Action} (hi : Inv sb s)
    (hstep : step sb s a = some t) : Inv sb t := by
  have hh := hi.hist
  cases step_trans hstep with
  | wait hm hp =>
    exact inv_of_live hm (hh.congr rfl rfl rfl rfl rfl rfl) (live_wait (hi.live hm) hp)
  | enter hm hp hc => exact inv_of_live hm hh.enter (live_enter hh (hi.live hm) hp hc)
  | bread hm hb =>
    exact inv_of_live hm (hh.congr rfl rfl rfl rfl rfl rfl) (live_bread (hi.live hm) hb)
  | modify hm ho hb hout =>
    exact inv_of_live hm (hh.congr rfl rfl rfl rfl rfl rfl) (live_modify (hi.live hm) ho hb hout)
  | overflow | outsideTrans =>
    exact ⟨hh.congr rfl rfl rfl rfl rfl rfl,hi.recoverable,hi.room,trivial⟩
  | record hm ho hout hb hfit =>
    have hl := hi.live hm
    exact inv_of_live hm (hist_record hh hl.procs ho) (live_record hl ho hout hb hfit.1 hfit.2)
  | brelse hm hb =>
    exact inv_of_live hm (hh.congr rfl rfl rfl rfl rfl rfl) (live_brelse (hi.live hm) hb)
  | evict hm hb hpin =>
    exact inv_of_live hm (hh.congr rfl rfl rfl rfl rfl rfl) (live_evict (hi.live hm) hb hpin)
  | endOp hm ho hd => exact inv_endOp hi hm ho hd
  | writeLog hm hp ht =>
    obtain ⟨h₁,_,h₂,h₃,h₄,h₅,h₆,h₇⟩ := writeLogStep_keeps ht
    exact inv_of_live (h₁.trans hm) (hh.congr h₂ h₃ h₄ h₅ h₆ h₇)
      (live_writeLogStep (hi.live hm) hp ht)
  | install hm hp ht =>
    obtain ⟨h₁,_,h₂,h₃,h₄,h₅,h₆,h₇⟩ := installStep_keeps ht
    exact inv_of_live (h₁.trans hm) (hh.congr h₂ h₃ h₄ h₅ h₆ h₇)
      (live_installStep (hi.live hm) hp ht)
  | finish hm hp =>
    have hl := hi.live hm
    exact inv_of_live hm (hist_finish hh (hl.commit _ _ hp).1.cur) (live_finishStep hl hp)
  | crash =>
    exact ⟨hh.congr rfl rfl rfl rfl rfl rfl,hi.recoverable,Nat.zero_le _,
      ⟨fun _ => rfl,fun _ => rfl,fun _ => rfl,rfl,rfl,rfl,fun _ => rfl⟩⟩
  | readHead hm =>
    have hmode := hi.mode
    rw [hm] at hmode
    have hr := recovering_readHead hmode hi.recoverable
    exact ⟨hh.congr rfl rfl rfl rfl rfl rfl,hr.recoverable,hr.room,
      hr,hmode.status,hmode.outstanding,hmode.committing,hmode.dirty,hmode.pin⟩
  | recover hm => exact inv_recoverStep hi hm

theorem run_inv {sb : Superblock} {disk : Disk} {as : List Action} {s : State}
    (hclean : decodeHead (disk sb.logstart) = [])
    (hrun : Machine.run (step sb) (boot disk) as = some s) : Inv sb s :=
  Machine.run_invariant (fun _ _ _ => step_inv) (inv_boot hclean) hrun

/-- A prefix of the groups contains an operation's updates entirely or not at all. -/
theorem Hist.all_or_nothing {s : State} (hh : Hist s) (k o : ℕ) :
    opUpdates (s.closed.take k).flatten o = [] ∨
      opUpdates (s.closed.take k).flatten o = opUpdates (s.closed.flatten++s.cur) o := by
  by_cases hn : opUpdates (s.closed.take k).flatten o = []
  · exact Or.inl hn
  right
  simp only [opUpdates_eq_nil,List.mem_flatten,not_forall,not_not] at hn
  obtain ⟨u,⟨g,hg,hu⟩,rfl⟩ := hn
  have hsplit : s.closed.flatten = (s.closed.take k).flatten ++ (s.closed.drop k).flatten := by
    rw [← List.flatten_append,List.take_append_drop]
  have hrest : opUpdates (s.closed.drop k).flatten u.op = [] := by
    rw [opUpdates_eq_nil]
    intro v hv
    obtain ⟨h,hh',hvh⟩ := List.mem_flatten.mp hv
    have hp := hh.apart
    rw [← List.take_append_drop k s.closed,List.pairwise_append] at hp
    exact (hp.2.2 g hg h hh' u hu v hvh).symm
  have hcur : opUpdates s.cur u.op = [] := by
    rw [opUpdates_eq_nil]
    intro v hv
    exact (hh.curApart g (List.mem_of_mem_take hg) u hu v hv).symm
  rw [hsplit,opUpdates_append,opUpdates_append,hrest,hcur]
  simp

theorem Hist.durable_present {s : State} (hh : Hist s) {k o : ℕ} (hk : s.returned ≤ k)
    (ho : o ∈ s.durable) :
    opUpdates (s.closed.take k).flatten o = opUpdates (s.closed.flatten++s.cur) o := by
  have hsplit : s.closed.flatten = (s.closed.take k).flatten ++ (s.closed.drop k).flatten := by
    rw [← List.flatten_append,List.take_append_drop]
  have hrest : opUpdates (s.closed.drop k).flatten o = [] := by
    rw [opUpdates_eq_nil]
    rintro v hv rfl
    obtain ⟨g,hg,hvg⟩ := List.mem_flatten.mp hv
    have hd : g ∈ s.closed.drop s.returned := by
      rw [show k = s.returned+(k-s.returned) by omega,← List.drop_drop] at hg
      exact List.mem_of_mem_drop hg
    exact hh.durableRest g hd v hvg ho
  have hcur : opUpdates s.cur o = [] := by
    rw [opUpdates_eq_nil]
    rintro v hv rfl
    exact hh.durableCur v hv ho
  rw [hsplit,opUpdates_append,opUpdates_append,hrest,hcur]
  simp

/-- Whatever was running at the crash, and however often recovery was cut, the recovered
disk holds exactly a prefix of the groups. Every operation is in it entirely or not at
all, only ended operations are, and all those whose commit had returned are. -/
theorem recovery_is_group_prefix (sb : Superblock) (disk : Disk)
    (hclean : decodeHead (disk sb.logstart) = []) (as : List Action) (s t : State)
    (hrun : Machine.run (step sb) (boot disk) as = some s)
    (hrec : step sb s .recover = some t) (hdone : t.mode = .running) :
    ∃ k ≤ s.closed.length,
      (∀ b, ¬ inLog sb b → t.disk b = applyUpdates s.base (s.closed.take k).flatten b ∧
        bread t b = t.disk b) ∧
      (∀ o, opUpdates (s.closed.take k).flatten o = [] ∨
        opUpdates (s.closed.take k).flatten o = opUpdates (s.closed.flatten++s.cur) o) ∧
      (∀ u ∈ (s.closed.take k).flatten, u.op ∈ s.ended) ∧
      (∀ o ∈ s.durable,
        opUpdates (s.closed.take k).flatten o = opUpdates (s.closed.flatten++s.cur) o) := by
  have hi := run_inv hclean hrun
  have hh := hi.hist
  cases step_trans hrec with
  | readHead hm => simp [readHead] at hdone
  | @recover tail hm =>
    have hmode := hi.mode
    rw [hm] at hmode
    have hb : s.lh[tail]? = none := by
      cases hb : s.lh[tail]? with
      | none => rfl
      | some b => simp [recoverStep,hb] at hdone
    obtain ⟨k,hk,hk',hhome⟩ := recovered_home hmode.1 hb
    refine ⟨k,hk',fun b hout => ⟨hhome b hout,recovered_coherent hmode.1 hb b⟩,
      hh.all_or_nothing k,?_,fun o => hh.durable_present hk⟩
    intro u hu
    obtain ⟨g,hg,hug⟩ := List.mem_flatten.mp hu
    exact hh.closedEnded g (List.mem_of_mem_take hg) u hug

/-- One operation writes block 100; power fails between the commit point and the
installation, and again after the block was installed by recovery. -/
def cutRun : List Action :=
  [.beginOp 0,.bread 0 100,.modify 0 100 (fun _ => 7),.logWrite 0 100,.brelse 0 100,.endOp 0,
    .commit 0,.commit 0,.crash,.recover,.recover,.crash,.recover,.recover]

theorem recovery_is_group_prefix_cut :
    ∃ s t, Machine.run (step Mkfs.superblock) (boot fun _ _ => 0) cutRun = some s ∧
      step Mkfs.superblock s .recover = some t ∧ t.mode = .running ∧ t.disk 100 0 = 7 ∧
      ∃ k ≤ s.closed.length, ∀ b, ¬ inLog Mkfs.superblock b →
        t.disk b = applyUpdates s.base (s.closed.take k).flatten b ∧ bread t b = t.disk b := by
  have hend : (Machine.run (step Mkfs.superblock) (boot fun _ _ => 0) (cutRun++[.recover])).any
      (fun t => t.mode = .running ∧ t.disk 100 0 = 7) = true := by decide +kernel
  obtain ⟨t,ht,hmode,hbyte⟩ := Machine.exists_run_of_any hend
  obtain ⟨s,hs,hrec⟩ := Machine.run_append.mp ht
  obtain ⟨u,hu,hut⟩ := Machine.run_cons.mp hrec
  obtain rfl := Option.some.inj hut
  obtain ⟨k,hk,hhome,-⟩ := recovery_is_group_prefix Mkfs.superblock (fun _ _ => 0) rfl cutRun s u hs hu
    hmode
  exact ⟨s,u,hs,hu,hmode,hbyte,k,hk,hhome⟩

end Log
end Xv6
