import Xv6.LogCrash

/-! Space in the log. `begin_op` reserves `MAXOPBLOCKS` entries of an in-memory header with
room for `LOGSIZE`, while `log_write` also stops at the `sb.nlog-1` blocks of the log area,
one fewer with the `nlog` that `mkfs` writes. -/
namespace Xv6
namespace Log

/-- The distinct blocks that operation `o` has logged since its `begin_op`. -/
def opBlocks (s : State) (o : ℕ) : List ℕ := ((opUpdates s.cur o).map Update.blockno).dedup

/-- The distinct blocks logged since the last commit, by all operations together. -/
def groupBlocks (s : State) : List ℕ := (s.cur.map Update.blockno).dedup

/-- No operation logs more than `MAXOPBLOCKS` distinct blocks. -/
def OpBounded (s : State) : Action → Prop
  | .logWrite p b =>
    match s.status p with
    | .op o => (b::opBlocks s o).dedup.length ≤ MAXOPBLOCKS
    | _ => True
  | _ => True

/-- A step neither overflows the log nor records a block without a slot in the log area. -/
def Fits (sb : Superblock) (s : State) (a : Action) : Prop :=
  match step sb s a with
  | some t => t.mode ≠ .panicked "too big a transaction" ∧
      ∀ i < t.lh.length, sb.logstart+1+i < sb.logstart+sb.nlog
  | none => True

/-- At a `log_write` the group has not yet filled the data blocks of the log area. -/
def RoomLeft (sb : Superblock) (s : State) : Action → Prop
  | .logWrite _ _ => (groupBlocks s).length+1 < sb.nlog
  | _ => True

/-- `begin_op` admits an operation only with two entries to spare after its reservation. -/
def Margin (sb : Superblock) (s : State) : Action → Prop
  | .beginOp _ => s.committing = false → s.lh.length + (s.outstanding+1)*MAXOPBLOCKS ≤ LOGSIZE →
      s.lh.length + (s.outstanding+1)*MAXOPBLOCKS + 1 < sb.nlog
  | _ => True

instance decidableOpBounded (s : State) : (a : Action) → Decidable (OpBounded s a)
  | .logWrite p b =>
    match h : s.status p with
    | .op o => decidable_of_iff ((b::opBlocks s o).dedup.length ≤ MAXOPBLOCKS)
        (by simp [OpBounded,h])
    | .idle | .waiting | .commit _ => isTrue (by simp [OpBounded,h])
  | .beginOp _ | .bread _ _ | .modify _ _ _ | .brelse _ _ | .evict _ | .endOp _ | .commit _
  | .crash | .recover => isTrue trivial

instance decidableFits (sb : Superblock) (s : State) (a : Action) : Decidable (Fits sb s a) :=
  match h : step sb s a with
  | some t => decidable_of_iff (t.mode ≠ .panicked "too big a transaction" ∧
      ∀ i < t.lh.length, sb.logstart+1+i < sb.logstart+sb.nlog) (by simp [Fits,h])
  | none => isTrue (by simp [Fits,h])

instance decidableRoomLeft (sb : Superblock) (s : State) : (a : Action) → Decidable (RoomLeft sb s a)
  | .logWrite _ _ => inferInstanceAs (Decidable ((groupBlocks s).length+1 < sb.nlog))
  | .beginOp _ | .bread _ _ | .modify _ _ _ | .brelse _ _ | .evict _ | .endOp _ | .commit _
  | .crash | .recover => isTrue trivial

/-- Absorption keeps one header entry for each distinct block of the open group. -/
theorem Live.lh_length {sb : Superblock} {s : State} (hl : Live sb s)
    (hc : s.committing = false) : s.lh.length = (groupBlocks s).length := by
  apply List.Perm.length_eq
  unfold groupBlocks
  rw [List.perm_ext_iff_of_nodup hl.head.nodup (List.nodup_dedup _)]
  intro b
  rw [(hl.quiet hc).lh b]
  simp

theorem overflow_is_logWrite {sb : Superblock} {s t : State} {a : Action}
    (hstep : step sb s a = some t) (hmode : t.mode = .panicked "too big a transaction") :
    ∃ p b, a = .logWrite p b := by
  cases step_trans hstep with
  | overflow | outsideTrans | record => exact ⟨_,_,rfl⟩
  | wait hm | enter hm | finish hm => simp [setStatus,finishStep,hm] at hmode
  | bread hm | modify hm | brelse hm | evict hm => simp [hm] at hmode
  | endOp hm =>
    unfold endOp at hmode
    dsimp only at hmode
    split at hmode
    · simp at hmode
    · split at hmode <;> simp [setStatus,hm] at hmode
  | writeLog hm hp ht => simp [(writeLogStep_keeps ht).1,hm] at hmode
  | install hm hp ht => simp [(installStep_keeps ht).1,hm] at hmode
  | crash => simp [crash] at hmode
  | readHead => simp [readHead] at hmode
  | recover =>
    unfold recoverStep at hmode
    split at hmode <;> simp at hmode

/-- Where `log_write` is enabled, it overflows exactly when the group has filled the area. -/
theorem logWrite_overflow_iff {sb : Superblock} {s t : State} {p b : ℕ} (hi : Inv sb s)
    (hn : sb.nlog = LOGSIZE) (hstep : step sb s (.logWrite p b) = some t) :
    t.mode ≠ .panicked "too big a transaction" ↔ (groupBlocks s).length+1 < sb.nlog := by
  have hlen : ∀ o, s.status p = .op o → s.mode = .running →
      s.lh.length = (groupBlocks s).length := by
    intro o ho hm
    have hl := hi.live hm
    exact hl.lh_length (hl.procs.not_committing ho)
  cases step_trans hstep with
  | overflow hm ho hfull =>
    have hl := hlen _ ho hm
    exact iff_of_false (fun h => h rfl) (by omega)
  | outsideTrans hm ho hfit =>
    have hl := hlen _ ho hm
    exact iff_of_true (by simp) (by omega)
  | record hm ho _ _ hfit =>
    have hl := hlen _ ho hm
    exact iff_of_true (by simp [hm]) (by omega)

/-- A step of a run fits the log exactly when it leaves room; the slots never run out. -/
theorem fits_iff_roomLeft {sb : Superblock} {s t : State} {a : Action} (hi : Inv sb s)
    (hn : sb.nlog = LOGSIZE) (hstep : step sb s a = some t) :
    Fits sb s a ↔ RoomLeft sb s a := by
  have hroom := (step_inv hi hstep).room
  have hslots : ∀ i < t.lh.length, sb.logstart+1+i < sb.logstart+sb.nlog := by
    intro i hlt
    omega
  have hfits : Fits sb s a ↔ t.mode ≠ .panicked "too big a transaction" := by
    simp only [Fits,hstep]
    exact ⟨fun h => h.1,fun h => ⟨h,hslots⟩⟩
  rw [hfits]
  by_cases hw : ∃ p b, a = .logWrite p b
  · obtain ⟨p,b,rfl⟩ := hw
    exact logWrite_overflow_iff hi hn hstep
  · have hleft : RoomLeft sb s a := by
      cases a <;> first | trivial | exact absurd ⟨_,_,rfl⟩ hw
    exact iff_of_true (fun h => hw (overflow_is_logWrite hstep h)) hleft

/-- The part of its reservation that the operation of `p` has not used. -/
def unused (s : State) (p : ℕ) : ℕ :=
  match s.status p with
  | .op o => MAXOPBLOCKS-(opBlocks s o).length
  | _ => 0

def Reserved (sb : Superblock) (s : State) : Prop :=
  ∀ S : Finset ℕ, (∀ p, p ∈ S ↔ ∃ o, s.status p = .op o) →
    s.lh.length + ∑ p ∈ S, unused s p + 1 < sb.nlog

theorem unused_le (s : State) (p : ℕ) : unused s p ≤ MAXOPBLOCKS := by
  unfold unused
  split <;> omega

theorem Reserved.mono {sb : Superblock} {s t : State} (h : Reserved sb s)
    (hlh : t.lh.length ≤ s.lh.length) (hop : ∀ p o, t.status p = .op o ↔ s.status p = .op o)
    (hun : ∀ p, unused t p ≤ unused s p) : Reserved sb t := by
  intro S hS
  have hs := h S (by simpa only [hop] using hS)
  have hsum : ∑ p ∈ S, unused t p ≤ ∑ p ∈ S, unused s p := Finset.sum_le_sum fun p _ => hun p
  omega

theorem Reserved.same {sb : Superblock} {s t : State} (h : Reserved sb s) (hlh : t.lh = s.lh)
    (hcur : t.cur = s.cur) (hop : ∀ p o, t.status p = .op o ↔ s.status p = .op o) :
    Reserved sb t := by
  refine h.mono (by rw [hlh]) hop fun p => ?_
  cases hs : s.status p with
  | op o =>
    have ht := (hop p o).mpr hs
    simp [unused,hs,ht,opBlocks,hcur]
  | idle | waiting | commit =>
    have ht : ∀ o, t.status p ≠ .op o := fun o ho => by simp [(hop p o).mp ho] at hs
    cases htp : t.status p with
    | op o => exact absurd htp (ht o)
    | idle | waiting | commit => simp [unused,htp]

theorem reserved_empty {sb : Superblock} {s : State} (hn : sb.nlog = LOGSIZE) (hlh : s.lh = [])
    (hst : ∀ p o, s.status p ≠ .op o) : Reserved sb s := by
  intro S hS
  have he : S = ∅ := by
    rw [Finset.eq_empty_iff_forall_notMem]
    intro p hp
    obtain ⟨o,ho⟩ := (hS p).mp hp
    exact hst p o ho
  have hl : LOGSIZE = 30 := rfl
  simp only [hlh,he,hn,List.length_nil,Finset.sum_empty]
  omega

theorem opBlocks_length (s : State) (o : ℕ) :
    (opBlocks s o).length = ((opUpdates s.cur o).map Update.blockno).toFinset.card :=
  (List.card_toFinset _).symm

/-- A `log_write` of an active operation: absorbed by the header, or paid from what the
operation had reserved. -/
theorem reserved_record {sb : Superblock} {s : State} {p b o : ℕ} (hl : Live sb s)
    (h : Reserved sb s) (ho : s.status p = .op o) (hb : OpBounded s (.logWrite p b))
    {pin : ℕ → ℕ} {dirty : List ℕ} {d : Block} :
    Reserved sb { s with
      lh := if b ∈ s.lh then s.lh else s.lh++[b]
      pin := pin
      dirty := dirty
      cur := s.cur++[⟨o,b,d⟩] } := by
  set t : State := { s with
      lh := if b ∈ s.lh then s.lh else s.lh++[b]
      pin := pin
      dirty := dirty
      cur := s.cur++[⟨o,b,d⟩] } with ht
  have hother : ∀ o', o' ≠ o → opBlocks t o' = opBlocks s o' := by
    intro o' hne
    simp [opBlocks,opUpdates,ht,hne.symm]
  have hmine : (opBlocks t o).length =
      (insert b ((opUpdates s.cur o).map Update.blockno).toFinset).card := by
    rw [opBlocks_length]
    congr 1
    ext c
    simp [opUpdates,ht,eq_comm]
  have hbound : (opBlocks t o).length ≤ MAXOPBLOCKS := by
    have hb' : (b::opBlocks s o).dedup.length ≤ MAXOPBLOCKS := by simpa [OpBounded,ho] using hb
    rw [hmine]
    have he : insert b ((opUpdates s.cur o).map Update.blockno).toFinset =
        (b::opBlocks s o).toFinset := by
      ext c
      simp [opBlocks]
    rw [he,List.card_toFinset]
    exact hb'
  have hun : ∀ q, q ≠ p → unused t q = unused s q := by
    intro q hq
    cases hs : s.status q with
    | op o' =>
      have hne : o' ≠ o := by
        rintro rfl
        exact hq (hl.procs.inj q p o' hs ho)
      have htq : t.status q = .op o' := hs
      simp only [unused,htq,hs,hother o' hne]
    | idle | waiting | commit => simp [unused,ht,hs]
  have hup : unused t p = MAXOPBLOCKS-(opBlocks t o).length := by simp [unused,ht,ho]
  have hus : unused s p = MAXOPBLOCKS-(opBlocks s o).length := by simp [unused,ho]
  by_cases hm : b ∈ s.lh
  · refine h.mono (by simp [ht,hm]) (fun _ _ => Iff.rfl) fun q => ?_
    by_cases hq : q = p
    · subst hq
      have hle := Finset.card_le_card (Finset.subset_insert b
        ((opUpdates s.cur o).map Update.blockno).toFinset)
      rw [← opBlocks_length,← hmine] at hle
      omega
    · exact (hun q hq).le
  · intro S hS
    have hs := h S hS
    have hp : p ∈ S := (hS p).mpr ⟨o,ho⟩
    have hnew : b ∉ ((opUpdates s.cur o).map Update.blockno).toFinset := by
      intro hmem
      apply hm
      rw [(hl.quiet (hl.procs.not_committing ho)).lh b]
      simp only [List.mem_toFinset,List.mem_map,opUpdates,List.mem_filter] at hmem
      obtain ⟨u,⟨hu,_⟩,hub⟩ := hmem
      exact List.mem_map.mpr ⟨u,hu,hub⟩
    have hcard := Finset.card_insert_of_notMem hnew
    rw [← hmine,← opBlocks_length] at hcard
    have hsum : ∑ q ∈ S.erase p, unused t q = ∑ q ∈ S.erase p, unused s q :=
      Finset.sum_congr rfl fun q hq => hun q (Finset.ne_of_mem_erase hq)
    have h₁ := Finset.add_sum_erase S (unused t) hp
    have h₂ := Finset.add_sum_erase S (unused s) hp
    have hlen : t.lh.length = s.lh.length+1 := by simp [ht,hm]
    omega

theorem reserved_enter {sb : Superblock} {s : State} (hp : Procs s)
    (hm : s.lh.length + s.outstanding*MAXOPBLOCKS + 1 < sb.nlog) : Reserved sb s := by
  intro S hS
  obtain ⟨T,hcard,hT⟩ := hp.active
  have he : S = T := by
    ext p
    rw [hS,hT]
  have hsum : ∑ p ∈ S, unused s p ≤ S.card*MAXOPBLOCKS :=
    Finset.sum_le_card_nsmul S _ _ fun p _ => unused_le s p
  rw [he,hcard] at hsum
  rw [he]
  omega

theorem reserved_leave {sb : Superblock} {s : State} {p o : ℕ} (h : Reserved sb s)
    (ho : s.status p = .op o) {n : ℕ} {ended : List ℕ} :
    Reserved sb { s with
      outstanding := n, ended := ended, status := Function.update (wakeup s.status) p .idle } := by
  intro S hS
  have hop : ∀ q o', Function.update (wakeup s.status) p .idle q = .op o' ↔
      q ≠ p ∧ s.status q = .op o' := by
    intro q o'
    by_cases hq : q = p <;> simp [hq,wakeup_op]
  have hn : p ∉ S := by
    intro hm
    obtain ⟨o',ho'⟩ := (hS p).mp hm
    exact ((hop p o').mp ho').1 rfl
  have hs := h (insert p S) (by
    intro q
    by_cases hq : q = p
    · simp [hq,ho]
    · simp [hq,hS,wakeup_op])
  rw [Finset.sum_insert hn] at hs
  have hsum : ∑ q ∈ S, unused { s with
      outstanding := n, ended := ended, status := Function.update (wakeup s.status) p .idle } q =
      ∑ q ∈ S, unused s q := by
    apply Finset.sum_congr rfl
    intro q hq
    obtain ⟨o',ho'⟩ := (hS q).mp hq
    have hst := ((hop q o').mp ho').2
    simp only at ho'
    simp [unused,ho',hst,opBlocks]
  rw [hsum]
  change s.lh.length+_+1 < sb.nlog
  omega

def Spacious (sb : Superblock) (s : State) : Prop :=
  Inv sb s ∧ (s.mode = .running → s.committing = false → Reserved sb s)

theorem step_spacious {sb : Superblock} {s t : State} {a : Action} (hn : sb.nlog = LOGSIZE)
    (hs : Spacious sb s) (hb : OpBounded s a) (hm : Margin sb s a)
    (hstep : step sb s a = some t) : Spacious sb t := by
  obtain ⟨hi,hres⟩ := hs
  have hti := step_inv hi hstep
  refine ⟨hti,fun hrun hc => ?_⟩
  cases step_trans hstep with
  | @wait p hm' hp =>
    refine (hres hm' hc).same rfl rfl fun q o => ?_
    by_cases hq : q = p <;> simp [setStatus,hq,hp]
  | enter hm' hp hcm hfit => exact reserved_enter (hti.live hrun).procs (hm hcm hfit)
  | overflow | outsideTrans => cases hrun
  | record hm' ho =>
    have hl := hi.live hm'
    exact reserved_record hl (hres hm' hc) ho hb
  | @endOp p o hm' ho hd =>
    have hcm := (hi.live hm').procs.not_committing ho
    unfold endOp at hc ⊢
    dsimp only at hc ⊢
    rw [if_neg (by simp [hcm])] at hc ⊢
    split at hc
    · simp at hc
    · rename_i hlast
      rw [if_neg hlast]
      exact reserved_leave (hres hm' hcm) ho
  | writeLog hm' hp ht =>
    rw [(writeLogStep_keeps ht).2.1,(hi.live hm').procs.committer.mpr ⟨_,_,hp⟩] at hc
    cases hc
  | install hm' hp ht =>
    rw [(installStep_keeps ht).2.1,(hi.live hm').procs.committer.mpr ⟨_,_,hp⟩] at hc
    cases hc
  | @finish p hm' hp =>
    have hl := hi.live hm'
    have hcm := hl.procs.committer.mpr ⟨p,_,hp⟩
    refine reserved_empty hn (hl.commit p _ hp).2.1 fun q o ho => ?_
    by_cases hq : q = p
    · simp [finishStep,hq] at ho
    · have hs : s.status q = .op o := wakeup_op.mp (by simpa [finishStep,hq] using ho)
      simp [hl.procs.not_committing hs] at hcm
  | crash => cases hrun
  | readHead => cases hrun
  | @recover k hmode =>
    have hm' := hi.mode
    rw [hmode] at hm'
    cases hb : s.lh[k]? with
    | some b => simp [recoverStep,hb] at hrun
    | none =>
      exact reserved_empty hn (by simp [recoverStep,hb])
        (by simp [recoverStep,hb,bwrite,hm'.2.1])
  | bread hm' | modify hm' | brelse hm' | evict hm' =>
    exact (hres hm' hc).same rfl rfl fun _ _ => Iff.rfl

theorem Spacious.roomLeft {sb : Superblock} {s t : State} {a : Action} (hs : Spacious sb s)
    (hstep : step sb s a = some t) : RoomLeft sb s a := by
  have hgroup : ∀ p o, s.status p = .op o → s.mode = .running →
      (groupBlocks s).length+1 < sb.nlog := by
    intro p o ho hm
    have hl := hs.1.live hm
    have hc := hl.procs.not_committing ho
    obtain ⟨S,_,hS⟩ := hl.procs.active
    have hres := hs.2 hm hc S hS
    rw [← hl.lh_length hc]
    omega
  cases step_trans hstep with
  | overflow hm ho | outsideTrans hm ho | record hm ho => exact hgroup _ _ ho hm
  | _ => trivial

/-- With `sb.nlog = LOGSIZE`, a run never exhausts the log if and only if each `log_write`
finds fewer than `LOGSIZE-1` distinct blocks logged by the operations of its group. Bounded
operations guarantee this when `begin_op` never hands out the last two entries. -/
theorem fits_iff_group_below_area (sb : Superblock) (hn : sb.nlog = LOGSIZE) (disk : Disk)
    (hclean : decodeHead (disk sb.logstart) = []) (as : List Action) (s : State)
    (hrun : Machine.run (step sb) (boot disk) as = some s) :
    (Machine.Along (step sb) (Fits sb) (boot disk) as ↔
      Machine.Along (step sb) (RoomLeft sb) (boot disk) as) ∧
    (Machine.Along (step sb) (fun u a => OpBounded u a ∧ Margin sb u a) (boot disk) as →
      Machine.Along (step sb) (RoomLeft sb) (boot disk) as) := by
  constructor
  · exact Machine.along_congr (fun _ _ _ => step_inv)
      (fun _ _ _ hi hstep => fits_iff_roomLeft hi hn hstep) (inv_boot hclean) hrun
  · intro hmargin
    have hstart : Spacious sb (boot disk) :=
      ⟨inv_boot hclean,fun _ _ => reserved_empty hn rfl (by simp [boot])⟩
    exact Machine.along_of_invariant
      (fun _ _ _ hs hP hstep => step_spacious hn hs hP.1 hP.2 hstep)
      (fun _ _ _ hs _ hstep => hs.roomLeft hstep) hstart hmargin hrun

def absorbedOp : List Action :=
  [.beginOp 0,.bread 0 100,.logWrite 0 100,.logWrite 0 100,.brelse 0 100,.endOp 0]

theorem absorbedOp_fits :
    ∃ s, Machine.run (step Mkfs.superblock) (boot fun _ _ => 0) absorbedOp = some s ∧
      Machine.Along (step Mkfs.superblock) (Fits Mkfs.superblock) (boot fun _ _ => 0)
        absorbedOp :=
  ⟨_,rfl,(fits_iff_group_below_area Mkfs.superblock rfl (fun _ _ => 0) rfl absorbedOp _ rfl).1.mpr
    (by decide +kernel)⟩

def threeFullOps : List Action :=
  [.beginOp 0,.beginOp 1,.beginOp 2] ++
    (List.range 30).flatMap fun i => [.bread (i/10) (100+i),.logWrite (i/10) (100+i)]

/-- Each stays within its reservation, and the thirtieth `log_write` panics. -/
theorem threeFullOps_overflow :
    Machine.Along (step Mkfs.superblock) OpBounded (boot fun _ _ => 0) threeFullOps ∧
      (Machine.run (step Mkfs.superblock) (boot fun _ _ => 0) threeFullOps).map State.mode =
        some (.panicked "too big a transaction") ∧
      ¬ Machine.Along (step Mkfs.superblock) (Fits Mkfs.superblock) (boot fun _ _ => 0)
        threeFullOps := by
  refine ⟨?_,?_,?_⟩ <;> decide +kernel

end Log
end Xv6
