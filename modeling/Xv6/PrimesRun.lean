import Xv6.PrimesStep
import Xv6.Machine

/-! The sieve over whole runs: no process is left asleep, no run goes on for ever, and the lines
printed are those of the primes. -/
namespace Xv6
namespace Primes

open Sieve

section Sleep

variable {N cap i : ℕ} {s : State}

theorem read_none {q : ℕ} (h : read s i q = none) (hr : q ∈ (s.procs i).r) :
    s.queue q = [] ∧ s.hasWriter q = true := by
  unfold read at h
  rw [if_neg (not_not.2 hr)] at h
  split at h
  · cases h
  · next hq =>
      split at h
      · next hw => exact ⟨hq,hw⟩
      · cases h

theorem write_none {q num : ℕ} (h : write cap s i q num = none) (hw : q ∈ (s.procs i).w) :
    cap ≤ (s.queue q).length := by
  unfold write at h
  rw [if_neg (not_not.2 hw)] at h
  split at h
  · cases h
  · split at h
    · assumption
    · cases h

@[simp] def writing (N : ℕ) : Pc → Prop
  | .gen j => j ≤ N
  | .writeFirst _ | .passWrite _ => True
  | _ => False

/-- A process that cannot go on is at a `read`, a `write` or a `wait`, or it is done. -/
theorem Inv.asleep (h : Inv N s) (hi : i < s.n) (hs : Primes.step N cap s i = none) :
    (reading (s.procs i).pc ∧ i ≠ 0 ∧ s.queue (i-1) = [] ∧ s.hasWriter (i-1) = true) ∨
    (writing N (s.procs i).pc ∧ cap ≤ (s.queue i).length) ∨
    ((s.procs i).pc = .wait ∧ i+1 < s.n ∧ (s.procs (i+1)).pc ≠ .done) ∨ (s.procs i).pc = .done := by
  have hok := h.ok i hi
  have hread : ∀ a, (s.procs i).pc = a → reading a → Primes.read s i (s.procs i).source = none →
      i ≠ 0 ∧ s.queue (i-1) = [] ∧ s.hasWriter (i-1) = true := fun a ha hra hr => by
    have hi0 : i ≠ 0 := fun h0 => by
      have := hok.main h0
      rw [ha] at this
      cases a <;> simp_all
    have hn : ¬ inherits (s.procs i).pc := by
      rw [ha]
      cases a <;> simp_all
    rw [hok.source_eq hi0 hn] at hr
    refine ⟨hi0,read_none hr (hok.reads hi0 ?_)⟩
    rw [ha]
    cases a <;> simp_all
  have hwrite : ∀ num, holdsWrite (s.procs i).pc → write cap s i (s.procs i).target num = none →
      cap ≤ (s.queue i).length := fun num hw hr => by
    rw [hok.target_eq hw] at hr
    exact write_none hr ((hok.writes i).2 (.inl ⟨rfl,hw⟩))
  unfold Primes.step at hs
  rw [if_neg (by omega)] at hs
  dsimp only at hs
  split at hs
  case h_4 j hpc =>
    split at hs
    · next hj =>
      exact .inr (.inl ⟨hpc ▸ hj,hwrite j (hpc ▸ trivial) (Option.map_eq_none_iff.1 hs)⟩)
    · cases hs
  case h_7 first hpc => exact .inl ⟨hpc ▸ trivial,hread _ hpc trivial (Option.map_eq_none_iff.1 hs)⟩
  case h_10 hpc | h_15 hpc => exact .inl ⟨hpc ▸ trivial,hread _ hpc trivial (Option.map_eq_none_iff.1 hs)⟩
  case h_14 num hpc | h_16 num hpc =>
    exact .inr (.inl ⟨hpc ▸ trivial,hwrite num (hpc ▸ trivial) (Option.map_eq_none_iff.1 hs)⟩)
  case h_21 hpc =>
    split at hs
    · cases hs
    · next hc =>
      rw [hok.child] at hc
      split at hc
      · next hi1 => exact .inr (.inr (.inl ⟨hpc,hi1,by simpa using hc⟩))
      · simp at hc
  case h_23 hpc => exact .inr (.inr (.inr hpc))
  all_goals cases hs

/-- The writer of an empty pipe is not asleep at a `write`, so a sleeping reader would have all the
stages before it asleep at a `read`, and `main` reads nothing. -/
theorem Inv.no_reader_asleep (hcap : 0 < cap) (h : Inv N s)
    (hstop : ∀ i < s.n, Primes.step N cap s i = none) : ∀ k < s.n, ¬ reading (s.procs k).pc := by
  intro k
  induction k with
  | zero =>
    intro hk hr
    have := (h.ok 0 hk).main rfl
    cases hc : (s.procs 0).pc <;> simp_all
  | succ k ih =>
    intro hk hr
    have hempty : s.queue k = [] ∧ s.hasWriter k = true := by
      rcases h.asleep hk (hstop _ hk) with hh | hh | hh | hh
      · exact hh.2.2
      · cases hc : (s.procs (k+1)).pc <;> simp_all
      · rw [hh.1] at hr
        exact hr.elim
      · rw [hh] at hr
        exact hr.elim
    have hw := hempty.2
    rw [State.hasWriter,decide_eq_true_eq] at hw
    obtain ⟨j,hj,hjw⟩ := hw
    have hkw : holdsWrite (s.procs k).pc := by
      rcases (mem_w_iff h hj).1 hjw with ⟨rfl,hh⟩ | ⟨rfl,hh⟩
      · exact hh
      · cases hc : (s.procs (k+1)).pc <;> simp_all
    have hkr := ih (by omega)
    rcases h.asleep (by omega) (hstop k (by omega)) with hh | hh | hh | hh
    · exact hkr hh.1
    · have := hh.2
      rw [hempty.1] at this
      exact absurd this (by rw [List.length_nil]; omega)
    · rw [hh.1] at hkw
      exact hkw
    · rw [hh] at hkw
      exact hkw

theorem Inv.all_done (hcap : 0 < cap) (h : Inv N s)
    (hstop : ∀ i < s.n, Primes.step N cap s i = none) : ∀ k < s.n, (s.procs k).pc = .done := by
  -- Downwards from the last process, which has nobody to wait for or to write to.
  have hdown : ∀ m k, k+m = s.n → k < s.n → (s.procs k).pc = .done := by
    intro m
    induction m using Nat.strong_induction_on with
    | _ m ih =>
      intro k hkm hk
      have hnext : k+1 < s.n → (s.procs (k+1)).pc = .done := fun hk1 =>
        ih (m-1) (by omega) (k+1) (by omega) hk1
      rcases h.asleep hk (hstop k hk) with hh | hh | hh | hh
      · exact absurd hh.1 (h.no_reader_asleep hcap hstop k hk)
      · have hk1 : k+1 < s.n := by
          by_contra hlast
          have := (h.ok k hk).last (by omega)
          cases hc : (s.procs k).pc <;> simp_all
        have hf := (h.ok (k+1) hk1).eof (by omega) (by rw [hnext hk1]; trivial)
        rw [fut,List.append_eq_nil_iff] at hf
        rw [hf.1] at hh
        exact absurd hh.2 (by rw [List.length_nil]; omega)
      · exact absurd (hnext hh.2.1) hh.2.2
      · exact hh
  exact fun k hk => hdown (s.n-k) k (by omega) hk

end Sleep

theorem range_succ_eq {N : ℕ} (hN : 2 ≤ N) : List.range (N+1) = 0::1::numbers N := by
  obtain ⟨m,rfl⟩ : ∃ m, N = m+1 := ⟨N-1,by omega⟩
  rw [List.range_eq_range',List.range'_succ,List.range'_succ]
  rfl

theorem lines_numbers {N : ℕ} (hN : 2 ≤ N) :
    lines (numbers N) = ((List.range (N+1)).filter Nat.Prime).flatMap line := by
  rw [lines,numbers,sieve_range,← numbers,range_succ_eq hN,List.filter_cons_of_neg (by decide),
    List.filter_cons_of_neg (by decide)]

section Runs

variable {N cap : ℕ} {s t u : State} {as : List ℕ}

theorem inv_run (hN : 2 ≤ N) (h : Machine.run (step N cap) initial as = some s) : Inv N s :=
  Machine.run_invariant (fun _ _ _ hs ht => (hs.step hN ht).1) (inv_initial N) h

theorem Inv.n_le (h : Inv N s) : s.n ≤ N+1 := by
  by_contra hh
  have := (h.ok (s.n-1) (by omega)).room (by omega)
  omega

def left (N : ℕ) (s : State) : ℕ ×ₗ ℕ := toLex (N+1-s.n,total N s)

theorem left_lt (hN : 2 ≤ N) {i : ℕ} (h : Inv N s) (hs : step N cap s i = some t) :
    left N t < left N s := by
  obtain ⟨ht,hn | ⟨hn,hlt⟩⟩ := h.step hN hs
  · have := ht.n_le
    exact Prod.Lex.toLex_lt_toLex.2 (.inl (by dsimp only; omega))
  · exact Prod.Lex.toLex_lt_toLex.2 (.inr ⟨by dsimp only; omega,hlt⟩)

theorem no_infinite_run (hN : 2 ≤ N) (sched : ℕ → ℕ) (states : ℕ → State) (h0 : states 0 = initial) :
    ∃ m, step N cap (states m) (sched m) ≠ some (states (m+1)) := by
  by_contra hall
  push Not at hall
  have hinv : ∀ m, Inv N (states m) := fun m => by
    induction m with
    | zero => exact h0 ▸ inv_initial N
    | succ m ih => exact (ih.step hN (hall m)).1
  obtain ⟨m,hm⟩ := WellFounded.not_rel_apply_succ (r := (· < ·)) fun m => left N (states m)
  exact hm (left_lt hN (hinv m) (hall m))

theorem step_other {i k : ℕ} (hs : step N cap s i = some t) (hk : k ≠ i)
    (ha : ¬ atEof (s.procs k).pc) : ¬ atEof (t.procs k).pc := by
  have hset : ∀ s' : State, s'.procs = s.procs → ∀ c, ¬ atEof ((s'.set i c).procs k).pc :=
    fun s' hs' c => by rwa [State.set_procs_ne hk,hs']
  have hwrite : ∀ {q num t'}, write cap s i q num = some t' → t'.procs = s.procs := fun hw => by
    unfold write at hw
    repeat' split at hw
    all_goals cases hw
    all_goals rfl
  have hread : ∀ {q r t'}, read s i q = some (r,t') → t'.procs = s.procs := fun {q r t'} hr => by
    cases r with
    | got num =>
      obtain ⟨l,_,rfl⟩ := read_got hr
      rfl
    | eof => rw [(read_eof hr).2.2]
  have hfork : ∀ a first, ¬ atEof ((doFork s i a (.childClose first)).procs k).pc := fun a first => by
    by_cases hkn : k = s.n
    · subst hkn
      change ¬ atEof ((State.set _ s.n _).procs s.n).pc
      rw [State.set_procs_self]
      exact id
    · change ¬ atEof ((State.set _ s.n _).procs k).pc
      rwa [State.set_procs_ne hkn,State.set_procs_ne hk]
  unfold step at hs
  split at hs
  · cases hs
  dsimp only at hs
  split at hs
  case h_2 | h_12 => cases hs; exact hfork _ _
  case h_4 =>
    split at hs
    · obtain ⟨t',ht',rfl⟩ := Option.map_eq_some_iff.1 hs
      exact hset t' (hwrite ht') _
    · cases hs
      exact hset s rfl _
  case h_14 | h_16 =>
    obtain ⟨t',ht',rfl⟩ := Option.map_eq_some_iff.1 hs
    exact hset t' (hwrite ht') _
  case h_7 | h_10 | h_15 =>
    obtain ⟨⟨r,t'⟩,hr,rfl⟩ := Option.map_eq_some_iff.1 hs
    cases r <;> exact hset t' (hread hr) _
  case h_21 =>
    split at hs
    · cases hs
      exact hset s rfl _
    · cases hs
  case h_23 => cases hs
  all_goals
    cases hs
    exact hset s rfl _

theorem step_eof {k : ℕ} (h : Inv N s) (hk : k ≠ 0) (hs : step N cap s k = some t)
    (ha : ¬ atEof (s.procs k).pc) (hb : atEof (t.procs k).pc) :
    read s k (k-1) = some (.eof,s) := by
  unfold step at hs
  split at hs
  · cases hs
  next hi =>
  rw [not_le] at hi
  have hok := h.ok k hi
  have hsource := hok.source_eq hk
  have hworker := hok.worker hk
  have hread : ∀ {t'}, read s k (k-1) = some (.eof,t') → read s k (k-1) = some (.eof,s) := fun hr => by
    rw [hr,(read_eof hr).2.2]
  dsimp only at hs
  split at hs
  case h_7 first hpc =>
    rw [hsource (by simp [hpc])] at hs
    obtain ⟨⟨r,t'⟩,hr,rfl⟩ := Option.map_eq_some_iff.1 hs
    cases r with
    | got num => simp at hb
    | eof => exact hread hr
  case h_10 hpc | h_15 hpc =>
    rw [hsource (by simp [hpc])] at hs
    obtain ⟨⟨r,t'⟩,hr,rfl⟩ := Option.map_eq_some_iff.1 hs
    cases r with
    | got num =>
      dsimp only at hb
      rw [State.set_procs_self,Proc.goto] at hb
      dsimp only at hb
      split at hb <;> exact hb.elim
    | eof => exact hread hr
  case h_12 num hpc =>
    cases hs
    change atEof ((State.set _ s.n _).procs k).pc at hb
    rw [State.set_procs_ne (by omega),State.set_procs_self] at hb
    exact hb.elim
  case h_11 =>
    cases hs
    change atEof ((State.set _ k _).procs k).pc at hb
    rw [State.set_procs_self] at hb
    exact hb.elim
  case h_14 | h_16 =>
    obtain ⟨t',ht',rfl⟩ := Option.map_eq_some_iff.1 hs
    simp [Proc.goto] at hb
  all_goals simp_all [Proc.goto]
  all_goals
    subst hs
    simp at hb

theorem eof_seen (hN : 2 ≤ N) {k : ℕ} (hk : k ≠ 0) (h : Inv N s) (ha : ¬ atEof (s.procs k).pc)
    (hrun : Machine.run (step N cap) s as = some u) (hb : atEof (u.procs k).pc) :
    ∃ bs cs t, as = bs++k::cs ∧ Machine.run (step N cap) s bs = some t ∧
      read t k (k-1) = some (.eof,t) ∧ fut N t k = [] := by
  induction as generalizing s with
  | nil =>
    cases hrun
    exact absurd hb ha
  | cons i as ih =>
    obtain ⟨t,ht,hu⟩ := Machine.run_cons.1 hrun
    by_cases hat : atEof (t.procs k).pc
    · have hik : k = i := by
        by_contra hne
        exact step_other ht hne ha hat
      subst hik
      have hr := step_eof h hk ht ha hat
      have hkn : k < s.n := by
        by_contra hh
        unfold step at ht
        rw [if_pos (by omega)] at ht
        cases ht
      obtain ⟨j,rfl⟩ : ∃ j, k = j+1 := ⟨k-1,by omega⟩
      obtain ⟨hq,hw,_⟩ := read_eof hr
      exact ⟨[],as,s,rfl,rfl,hr,h.eof hkn hq hw⟩
    · obtain ⟨bs,cs,v,rfl,hv,hr⟩ := ih (h.step hN ht).1 hat hu
      exact ⟨i::bs,cs,v,rfl,Machine.run_cons.2 ⟨t,ht,hv⟩,hr⟩

/-- The sieve under every schedule, for every bound and every size of the pipes: no run goes on for
ever, and when no process can go on, the primes up to `N` are printed in increasing order, every
process is done, no number is left in a pipe, and every stage has read an end of file with nothing
left to come to it. -/
theorem primes_under_every_schedule (hN : 2 ≤ N) (hcap : 0 < cap) :
    (∀ (sched : ℕ → ℕ) (states : ℕ → State), states 0 = initial →
      ∃ m, step N cap (states m) (sched m) ≠ some (states (m+1))) ∧
    ∀ as s, Machine.run (step N cap) initial as = some s →
      s.out <+: ((List.range (N+1)).filter Nat.Prime).flatMap line ∧
      ((∀ i, step N cap s i = none) →
        s.out = ((List.range (N+1)).filter Nat.Prime).flatMap line ∧
        (∀ k < s.n, (s.procs k).pc = .done) ∧ (∀ q, s.queue q = []) ∧
        ∀ k < s.n, k ≠ 0 → ∃ bs cs t, as = bs++k::cs ∧ Machine.run (step N cap) initial bs = some t ∧
          read t k (k-1) = some (.eof,t) ∧ fut N t k = []) := by
  refine ⟨fun sched states h0 => no_infinite_run hN sched states h0,fun as s hrun => ?_⟩
  have h := inv_run hN hrun
  have hprinted := h.printed
  rw [lines_numbers hN] at hprinted
  refine ⟨⟨_,hprinted⟩,fun hstop => ?_⟩
  have hdone := h.all_done hcap fun i _ => hstop i
  have hpos := h.pos
  refine ⟨?_,hdone,fun q => ?_,fun k hk hk0 => ?_⟩
  · rw [← hprinted,restOf_atEof (by rw [hdone (s.n-1) (by omega)]; trivial),List.append_nil]
  · by_cases hq : s.n ≤ q+1
    · exact h.empty q hq
    · have hf := (h.ok (q+1) (by omega)).eof (by omega) (by rw [hdone (q+1) (by omega)]; trivial)
      exact (List.append_eq_nil_iff.1 hf).1
  · exact eof_seen hN hk0 (inv_initial N) id hrun (by rw [hdone k hk]; trivial)

/-- The program as it is, with the 512 bytes of a pipe. -/
theorem primes_under_every_schedule_35 : (2 ≤ 35 ∧ 0 < 128) ∧
    ∀ as s, Machine.run (step 35 128) initial as = some s → (∀ i, step 35 128 s i = none) →
      s.out = ([2,3,5,7,11,13,17,19,23,29,31].flatMap line) := by
  refine ⟨by decide,fun as s hrun hstop => ?_⟩
  have h := (((@primes_under_every_schedule 35 128 (by decide) (by decide)).2 as s hrun).2 hstop).1
  rw [h]
  congr 1

end Runs

end Primes
end Xv6
