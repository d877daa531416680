import Xv6.BioInv

/-! The buffer cache over whole runs, and what is left of it when `refcnt` wraps around. -/
namespace Xv6.Bio

open Sys Links

variable {β : Type}

/-- Only a miss changes the block of a buffer, and only of the buffer it recycles. -/
theorem block_of_step {s t : Sys β} {a : Action β} (hstep : step s a = some t) (b : ℕ) :
    ((t.bufs b).dev = (s.bufs b).dev ∧ (t.bufs b).blockno = (s.bufs b).blockno) ∨
      s.victim = some b := by
  have hset : ∀ (c : ℕ) (x : Buf β),x.dev = (s.bufs c).dev → x.blockno = (s.bufs c).blockno →
      (Function.update s.bufs c x b).dev = (s.bufs b).dev ∧
      (Function.update s.bufs c x b).blockno = (s.bufs b).blockno := by
    intro c x h₁ h₂
    by_cases hc : b = c
    · subst hc
      simpa using ⟨h₁,h₂⟩
    · simp [Function.update_of_ne hc]
  rw [step.eq_def] at hstep
  split_ifs at hstep with hp
  cases a with
  | bread p n =>
    simp only [Option.ite_none_right_eq_some,Option.some.injEq] at hstep
    obtain ⟨hp,rfl⟩ := hstep
    rw [Sys.bget]
    split
    · exact .inl (hset _ _ rfl rfl)
    · split
      · rename_i c hc
        by_cases hbc : b = c
        · exact .inr (hbc ▸ hc)
        · left
          simp only [Sys.setOp,Sys.setBuf,Function.update_of_ne hbc]
          split_ifs <;> exact ⟨rfl,rfl⟩
      · exact .inl ⟨rfl,rfl⟩
  | acquiresleep p =>
    simp only at hstep
    split at hstep
    · simp only [Option.ite_none_right_eq_some,Option.some.injEq] at hstep
      obtain ⟨hl,rfl⟩ := hstep
      rw [Sys.acquire]
      simp only
      split_ifs <;> exact .inl (hset _ _ rfl rfl)
    · cases hstep
  | diskRead p =>
    simp only at hstep
    split at hstep
    · cases hstep
      exact .inl (hset _ _ rfl rfl)
    · cases hstep
  | store p c x =>
    simp only [Option.ite_none_right_eq_some,Option.some.injEq] at hstep
    obtain ⟨-,rfl⟩ := hstep
    exact .inl (hset _ _ rfl rfl)
  | bwrite p c =>
    simp only [Option.ite_none_right_eq_some,Option.some.injEq] at hstep
    obtain ⟨-,rfl⟩ := hstep
    split_ifs <;> exact .inl ⟨rfl,rfl⟩
  | diskWrite p =>
    simp only at hstep
    split at hstep
    · cases hstep
      exact .inl ⟨rfl,rfl⟩
    · cases hstep
  | brelse p c =>
    simp only [Option.ite_none_right_eq_some,Option.some.injEq] at hstep
    obtain ⟨-,rfl⟩ := hstep
    split_ifs
    · exact .inl (hset _ _ rfl rfl)
    · exact .inl ⟨rfl,rfl⟩
  | brelseEnd p =>
    simp only at hstep
    split at hstep
    · cases hstep
      rw [Sys.finishRelease]
      simp only
      split_ifs <;> exact .inl (hset _ _ rfl rfl)
    · cases hstep
  | bpin | bunpin =>
    simp only [Option.ite_none_right_eq_some,Option.some.injEq] at hstep
    obtain ⟨-,rfl⟩ := hstep
    exact .inl (hset _ _ rfl rfl)

structure Transparent (disk : ℕ → β) (s : Sys β) : Prop where
  list : ∃ ns : List ℕ,ns.Perm (List.range NBUF) ∧ Path s.links.next head ns head ∧
    Path s.links.prev head ns.reverse head
  unique : ∀ b c,b < NBUF → c < NBUF → (s.bufs b).dev = ROOTDEV → (s.bufs c).dev = ROOTDEV →
    (s.bufs b).blockno = (s.bufs c).blockno → b = c
  kept : ∀ a t b,step s a = some t → (s.bufs b).refcnt ≠ 0 →
    (t.bufs b).dev = (s.bufs b).dev ∧ (t.bufs b).blockno = (s.bufs b).blockno
  /-- Every `bread` so far returned what the record before it says. -/
  reads : ∀ r n x l,s.hist = r++.bread n x::l → x = expected disk l n
  /-- A miss recycles the buffer that was released longest ago. -/
  recycled : ∀ p n t b,
    (∀ c,c < NBUF → ¬ ((s.bufs c).dev = ROOTDEV ∧ (s.bufs c).blockno = n)) →
    step s (.bread p n) = some t → t.procs p = .locking b n →
    (s.bufs b).refcnt = 0 ∧ ∀ c,c < NBUF → c ≠ b → (s.bufs c).refcnt = 0 → Older s.hist b c

theorem Inv.transparent {disk : ℕ → β} {s : Sys β} (h : Inv disk s) : Transparent disk s := by
  refine ⟨?_,h.unique,fun a t b hstep hb => ?_,h.reads,fun p n t b hn hstep ht => ?_⟩
  · obtain ⟨ns,hns,-⟩ := h.list
    exact ⟨ns,hns.perm,hns.both.forward,hns.both.backward⟩
  · refine (block_of_step hstep b).resolve_right fun hv => hb ?_
    exact (h.victim_some hv).2.1
  · rw [step.eq_def] at hstep
    split_ifs at hstep
    simp only [Option.ite_none_right_eq_some,Option.some.injEq] at hstep
    obtain ⟨hp,rfl⟩ := hstep
    have hmiss : s.lookup ROOTDEV n = none := by
      cases hl : s.lookup ROOTDEV n with
      | none => rfl
      | some c =>
        obtain ⟨hc,hcn⟩ := h.lookup_some hl
        exact absurd hcn (hn c hc)
    cases hv : s.victim with
    | none =>
      simp only [Sys.bget,hmiss,hv,hp] at ht
      cases ht
    | some c =>
      simp only [Sys.bget,hmiss,hv,Sys.setOp,Function.update_self,Op.locking.injEq] at ht
      obtain ⟨rfl,-⟩ := ht
      exact (h.victim_some hv).2

/-- In every run in which each `bunpin` undoes a `bpin` and no buffer is pinned close to `2^32`
times at once, the cache is transparent. -/
theorem cache_transparent (disk : ℕ → β) (zero : β) (as : List (Action β)) (s : Sys β)
    (hroom : Machine.Along step Room (init disk zero) as)
    (hrun : Machine.run step (init disk zero) as = some s) : Transparent disk s :=
  (Machine.run_invariant_along (fun _ _ _ h hr ht => inv_step h hr ht) (.init disk zero) hroom
    hrun).transparent

/-- Two processes on one block: the second one waits for the lock and sees what the first one
stored; a pin keeps the buffer when both are done. -/
def sharedBlock : List (Action ℕ) :=
  [.bread 0 7,.acquiresleep 0,.bread 1 7,.diskRead 0,.store 0 0 42,.bpin 0 0,.brelse 0 0,
    .acquiresleep 1,.brelseEnd 0,.bwrite 1 0,.diskWrite 1,.brelse 1 0,.brelseEnd 1,
    .bread 0 8,.acquiresleep 0,.diskRead 0,.bunpin 1 0]

theorem cache_transparent_sharedBlock : ∃ s : Sys ℕ,
    Machine.run step (init id 0) sharedBlock = some s ∧
      s.hist = [.bread 8 8,.bwrite 7 42,.bread 7 42,.store 7 42,.bread 7 7] ∧
      Transparent id s := by
  have hrun : (Machine.run step (init id 0) sharedBlock).map Sys.hist =
      some [.bread 8 8,.bwrite 7 42,.bread 7 42,.store 7 42,.bread 7 7] := by decide +kernel
  obtain ⟨s,hs,hhist⟩ := Option.map_eq_some_iff.mp hrun
  exact ⟨s,hs,hhist,cache_transparent id 0 sharedBlock s (by decide +kernel) hs⟩

def pinned (s : Sys β) (b k : ℕ) : Sys β :=
  {s with
    bufs := Function.update s.bufs b
      {s.bufs b with refcnt := (s.bufs b).refcnt+BitVec.ofNat 32 k}
    pins := Function.update s.pins b (s.pins b+k)}

theorem run_bpin {s : Sys β} {p : Fin NPROC} {b : ℕ} (hpanic : s.panic = none) (hb : b < NBUF)
    (hp : s.procs p = .idle) (k : ℕ) :
    Machine.run step s (List.replicate k (.bpin p b)) = some (pinned s b k) := by
  induction k with
  | zero => simp [pinned]
  | succ k ih =>
    rw [List.replicate_succ']
    refine Machine.run_append.mpr ⟨_,ih,Machine.run_cons.mpr ⟨_,?_,rfl⟩⟩
    have hguard : b < NBUF ∧ (pinned s b k).procs p = .idle := ⟨hb,hp⟩
    rw [step.eq_def,if_neg (by simp [pinned,hpanic])]
    simp only [if_pos hguard]
    simp only [pinned,Sys.setBuf,Function.update_self,Function.update_idem,BitVec.add_assoc,
      ofNat_add_one,Nat.add_assoc]

/-- A block is being read when `2^32-1` pins take `refcnt` back to 0; the buffer is recycled for
another block, and the end of the read makes it valid. -/
def wrapped : List (Action ℕ) :=
  [.bread 0 1,.acquiresleep 0]++List.replicate (2^32-1) (.bpin 1 0)++
    [.bread 1 2,.diskRead 0,.brelse 0 0,.acquiresleep 1]

def unmatched : List (Action ℕ) :=
  [.bread 0 1,.acquiresleep 0,.bunpin 1 0,.bread 1 2,.diskRead 0,.brelse 0 0,.acquiresleep 1]

theorem not_transparent_of_hist {s : Sys ℕ} (hhist : s.hist = [.bread 2 1,.bread 1 1,.evict 1]) :
    ¬ Transparent id s := by
  intro h
  have := h.reads [] 2 1 [.bread 1 1,.evict 1] hhist
  simp [expected,cached,onDisk] at this

theorem run_wrapped : ∃ s : Sys ℕ, Machine.run step (init id 0) wrapped = some s ∧
    s.hist = [.bread 2 1,.bread 1 1,.evict 1] := by
  have hrun : ((Machine.run step (init id 0) [.bread 0 1,.acquiresleep 0]).bind fun s =>
      Machine.run step (pinned s 0 (2^32-1))
        [.bread 1 2,.diskRead 0,.brelse 0 0,.acquiresleep 1]).map Sys.hist =
      some [.bread 2 1,.bread 1 1,.evict 1] := by decide +kernel
  obtain ⟨s,hs,hhist⟩ := Option.map_eq_some_iff.mp hrun
  obtain ⟨s₁,hs₁,hs⟩ := Option.bind_eq_some_iff.mp hs
  have hidle : (Machine.run step (init id 0) [.bread 0 1,.acquiresleep 0]).map
      (fun s => (s.panic,s.procs 1)) = some (none,.idle) := by decide +kernel
  rw [hs₁] at hidle
  obtain ⟨hpanic,hproc⟩ : s₁.panic = none ∧ s₁.procs 1 = .idle := by simpa using hidle
  refine ⟨s,?_,hhist⟩
  rw [wrapped]
  refine Machine.run_append.mpr ⟨_,Machine.run_append.mpr ⟨s₁,hs₁,?_⟩,hs⟩
  exact run_bpin hpanic (by decide) hproc _

/-- A count that one `bunpin` without a `bpin`, or `2^32-1` pins, take to 0 while a block is being
read: `bread` of block 2 returns block 1. -/
theorem cache_recycles_buffer_in_use :
    (∃ s : Sys ℕ, Machine.run step (init id 0) unmatched = some s ∧
      s.hist = [.bread 2 1,.bread 1 1,.evict 1] ∧ ¬ Transparent id s) ∧
    ∃ s : Sys ℕ, Machine.run step (init id 0) wrapped = some s ∧
      s.hist = [.bread 2 1,.bread 1 1,.evict 1] ∧ ¬ Transparent id s := by
  constructor
  · have hrun : (Machine.run step (init id 0) unmatched).map Sys.hist =
        some [.bread 2 1,.bread 1 1,.evict 1] := by decide +kernel
    obtain ⟨s,hs,hhist⟩ := Option.map_eq_some_iff.mp hrun
    exact ⟨s,hs,hhist,not_transparent_of_hist hhist⟩
  · obtain ⟨s,hs,hhist⟩ := run_wrapped
    exact ⟨s,hs,hhist,not_transparent_of_hist hhist⟩

end Xv6.Bio
