import Xv6.BioList

/-! The invariant of the buffer cache: every reference is counted, and a valid buffer holds what
the record says its block is. -/
namespace Xv6.Bio

open Sys

variable {β : Type}

def cached : List (Event β) → ℕ → Option β
  | [], _ => none
  | .bread m x::l, n => if n = m then some x else cached l n
  | .store m x::l, n => if n = m then some x else cached l n
  | .evict m::l, n => if n = m then none else cached l n
  | .bwrite _ _::l, n => cached l n
  | .release _::l, n => cached l n

def onDisk (disk : ℕ → β) : List (Event β) → ℕ → β
  | [], n => disk n
  | .bwrite m x::l, n => if n = m then x else onDisk disk l n
  | .bread _ _::l, n => onDisk disk l n
  | .store _ _::l, n => onDisk disk l n
  | .evict _::l, n => onDisk disk l n
  | .release _::l, n => onDisk disk l n

def expected (disk : ℕ → β) (l : List (Event β)) (n : ℕ) : β :=
  (cached l n).getD (onDisk disk l n)

/-- A process that counts in `refcnt` beside the holder of the lock. -/
def Op.refers (b : ℕ) : Op → Bool
  | .idle => false
  | .locking c _ => c = b
  | .reading _ _ => false
  | .writing _ _ => false
  | .releasing c => c = b

def users (procs : Fin NPROC → Op) (b : ℕ) : ℕ :=
  (Finset.univ.filter fun p => (procs p).refers b = true).card

theorem users_le (procs : Fin NPROC → Op) (b : ℕ) : users procs b ≤ NPROC := by
  have := Finset.card_filter_le (Finset.univ : Finset (Fin NPROC))
    fun p => (procs p).refers b = true
  simpa [users] using this

theorem users_update (procs : Fin NPROC → Op) (p : Fin NPROC) (o : Op) (b : ℕ) :
    users (Function.update procs p o) b+((procs p).refers b).toNat =
      users procs b+(o.refers b).toNat := by
  have hcard : ∀ f : Fin NPROC → Op,users f b = ∑ q,((f q).refers b).toNat := by
    intro f
    rw [users,Finset.card_filter]
    exact Finset.sum_congr rfl fun q _ => by cases (f q).refers b <;> rfl
  have hrest : ∀ f : Fin NPROC → Op,∑ q,((f q).refers b).toNat =
      ((f p).refers b).toNat+∑ q ∈ Finset.univ.erase p,((f q).refers b).toNat :=
    fun f => (Finset.add_sum_erase _ _ (Finset.mem_univ p)).symm
  have hsame : ∑ q ∈ Finset.univ.erase p,((Function.update procs p o q).refers b).toNat =
      ∑ q ∈ Finset.univ.erase p,((procs q).refers b).toNat :=
    Finset.sum_congr rfl fun q hq => by rw [Function.update_of_ne (Finset.ne_of_mem_erase hq)]
  rw [hcard,hcard,hrest,hrest procs,hsame,Function.update_self]
  omega

def Sys.refs (s : Sys β) (b : ℕ) : ℕ :=
  users s.procs b+(s.bufs b).lock.isSome.toNat+s.pins b

theorem ofNat_add_one (k : ℕ) : BitVec.ofNat 32 k+1 = BitVec.ofNat 32 (k+1) :=
  (BitVec.ofNat_add k 1).symm

theorem ofNat_sub_one {k : ℕ} (hk : k ≠ 0) : BitVec.ofNat 32 k-1 = BitVec.ofNat 32 (k-1) := by
  obtain ⟨k,rfl⟩ := Nat.exists_eq_succ_of_ne_zero hk
  rw [Nat.succ_eq_add_one,← ofNat_add_one,BitVec.add_sub_cancel,Nat.add_sub_cancel]

def OpOk (s : Sys β) (p : Fin NPROC) : Op → Prop
  | .idle => True
  | .locking b n => b < NBUF ∧ (s.bufs b).dev = ROOTDEV ∧ (s.bufs b).blockno = n
  | .reading b n => (s.bufs b).lock = some p ∧ (s.bufs b).blockno = n ∧ (s.bufs b).valid = false
  | .writing b n => (s.bufs b).lock = some p ∧ (s.bufs b).blockno = n
  | .releasing b => b < NBUF

structure Inv (disk : ℕ → β) (s : Sys β) : Prop where
  list : ∃ ns,Holds s.links ns ∧ Ordered s.hist ns
  refcnt : ∀ b,(s.bufs b).refcnt = BitVec.ofNat 32 (s.refs b)
  room : ∀ b,s.pins b+NPROC+1 < 2^32
  unique : ∀ b c,b < NBUF → c < NBUF → (s.bufs b).dev = ROOTDEV → (s.bufs c).dev = ROOTDEV →
    (s.bufs b).blockno = (s.bufs c).blockno → b = c
  op : ∀ p,OpOk s p (s.procs p)
  lock : ∀ b p,(s.bufs b).lock = some p → b < NBUF ∧ (s.bufs b).dev = ROOTDEV ∧
    ((s.bufs b).valid = true ∨ ∃ n,s.procs p = .reading b n)
  data : ∀ b,b < NBUF → (s.bufs b).dev = ROOTDEV →
    cached s.hist (s.bufs b).blockno = if (s.bufs b).valid then some (s.bufs b).data else none
  absent : ∀ n,(∀ b,b < NBUF → (s.bufs b).dev = ROOTDEV → (s.bufs b).blockno ≠ n) →
    cached s.hist n = none
  written : ∀ n,s.disk n = onDisk disk s.hist n
  reads : ∀ r n x l,s.hist = r++.bread n x::l → x = expected disk l n

namespace Inv

variable {disk : ℕ → β} {s : Sys β} {p : Fin NPROC} {b n : ℕ}

theorem refs_lt (h : Inv disk s) (b : ℕ) : s.refs b < 2^32 := by
  have h₁ := users_le s.procs b
  have h₂ := Bool.toNat_le (s.bufs b).lock.isSome
  have h₃ := h.room b
  rw [Sys.refs]
  omega

theorem refcnt_eq_zero (h : Inv disk s) : (s.bufs b).refcnt = 0 ↔ s.refs b = 0 := by
  rw [h.refcnt,← BitVec.toNat_inj,BitVec.toNat_ofNat,Nat.mod_eq_of_lt (h.refs_lt b)]
  rfl

theorem lookup_eq (h : Inv disk s) : ∃ ns,Holds s.links ns ∧ Ordered s.hist ns ∧
    s.lookup ROOTDEV n = ns.find? (fun b => (s.bufs b).dev == ROOTDEV && (s.bufs b).blockno == n) ∧
    s.victim = ns.reverse.find? fun b => (s.bufs b).refcnt == 0 := by
  obtain ⟨ns,hns,hord⟩ := h.list
  have hlen := hns.length
  refine ⟨ns,hns,hord,scan_eq hns.both.forward hns.head_notMem (by omega),
    scan_eq hns.both.backward ?_ (by simp [hlen])⟩
  rw [List.mem_reverse]
  exact hns.head_notMem

theorem lookup_some (h : Inv disk s) (hb : s.lookup ROOTDEV n = some b) :
    b < NBUF ∧ (s.bufs b).dev = ROOTDEV ∧ (s.bufs b).blockno = n := by
  obtain ⟨ns,hns,-,hl,-⟩ := h.lookup_eq (n := n)
  rw [hl] at hb
  refine ⟨hns.mem_iff.mp (List.mem_of_find?_eq_some hb),?_⟩
  simpa using List.find?_some hb

theorem lookup_none (h : Inv disk s) (hn : s.lookup ROOTDEV n = none) :
    ∀ b,b < NBUF → (s.bufs b).dev = ROOTDEV → (s.bufs b).blockno ≠ n := by
  obtain ⟨ns,hns,-,hl,-⟩ := h.lookup_eq (n := n)
  rw [hl,List.find?_eq_none] at hn
  intro b hb hdev heq
  exact hn b (hns.mem_iff.mpr hb) (by simp [hdev,heq])

/-- The buffer that `bget` recycles has no references and was released before all others that
have none. -/
theorem victim_some (h : Inv disk s) (hb : s.victim = some b) :
    b < NBUF ∧ (s.bufs b).refcnt = 0 ∧
    ∀ c,c < NBUF → c ≠ b → (s.bufs c).refcnt = 0 → Older s.hist b c := by
  obtain ⟨ns,hns,hord,-,hv⟩ := h.lookup_eq (n := 0)
  rw [hv] at hb
  refine ⟨hns.mem_iff.mp (List.mem_reverse.mp (List.mem_of_find?_eq_some hb)),
    by simpa using List.find?_some hb,fun c hc hcb hr => ?_⟩
  exact oldest_of_find hord hb (hns.mem_iff.mpr hc) hcb (by simpa using hr)

theorem counted {t : Sys β} (h : Inv disk s)
    (hbufs : ∀ c,t.bufs c = {s.bufs c with refcnt := (t.bufs c).refcnt})
    (hlinks : t.links = s.links) (hhist : t.hist = s.hist) (hdisk : t.disk = s.disk)
    (hrefs : ∀ c,(t.bufs c).refcnt = BitVec.ofNat 32 (t.refs c))
    (hroom : ∀ c,t.pins c+NPROC+1 < 2^32) (hop : ∀ q,OpOk s q (t.procs q))
    (hreading : ∀ q c m,s.procs q = .reading c m → t.procs q = .reading c m) : Inv disk t := by
  have hdev : ∀ c,(t.bufs c).dev = (s.bufs c).dev := fun c => by rw [hbufs]
  have hblock : ∀ c,(t.bufs c).blockno = (s.bufs c).blockno := fun c => by rw [hbufs]
  have hlock : ∀ c,(t.bufs c).lock = (s.bufs c).lock := fun c => by rw [hbufs]
  have hvalid : ∀ c,(t.bufs c).valid = (s.bufs c).valid := fun c => by rw [hbufs]
  have hdata : ∀ c,(t.bufs c).data = (s.bufs c).data := fun c => by rw [hbufs]
  exact
    { list := by
        rw [hlinks,hhist]
        exact h.list
      refcnt := hrefs
      room := hroom
      unique := fun b c hb hc => by simpa only [hdev,hblock] using h.unique b c hb hc
      op := fun q => by
        have := hop q
        cases hq : t.procs q <;> simp only [hq,OpOk,hdev,hblock,hlock,hvalid] at this ⊢ <;> exact this
      lock := fun c q hc => by
        rw [hlock] at hc
        obtain ⟨h₁,h₂,h₃⟩ := h.lock c q hc
        rw [hdev,hvalid]
        exact ⟨h₁,h₂,h₃.imp_right fun ⟨m,hm⟩ => ⟨m,hreading q c m hm⟩⟩
      data := fun c hc => by simpa only [hdev,hblock,hvalid,hdata,hhist] using h.data c hc
      absent := fun m hm => by
        rw [hhist]
        exact h.absent m (by simpa only [hdev,hblock] using hm)
      written := by simpa only [hdisk,hhist] using h.written
      reads := by simpa only [hhist] using h.reads }

theorem moved (h : Inv disk s) (hb : b < NBUF) :
    Inv disk ({s with links := s.links.moveToFront b}.log (.release b)) :=
  {h with
    list := by
      obtain ⟨ns,hns,hord⟩ := h.list
      exact ⟨b::ns.erase b,hns.moveToFront hb,hord.release hns.nodup⟩
    reads := fun r m x l hl => by
      rcases r with _ | ⟨e,r⟩
      · cases (List.cons.inj hl).1
      · exact h.reads r m x l (List.cons.inj hl).2}

theorem hit (h : Inv disk s) (hp : s.procs p = .idle) (hb : s.lookup ROOTDEV n = some b) :
    Inv disk ((s.setBuf b {s.bufs b with refcnt := (s.bufs b).refcnt+1}).setOp p
      (.locking b n)) := by
  obtain ⟨hlt,hdev,hblock⟩ := h.lookup_some hb
  refine h.counted (fun c => ?_) rfl rfl rfl (fun c => ?_) h.room (fun q => ?_) fun q c m hq => ?_
  · by_cases hc : c = b
    · subst hc
      simp [Sys.setBuf,Sys.setOp]
    · simp [Sys.setBuf,Sys.setOp,Function.update_of_ne hc]
  · have hu := users_update s.procs p (.locking b n) c
    rw [hp] at hu
    by_cases hc : c = b
    · subst hc
      simp only [Sys.setBuf,Sys.setOp,Sys.refs,Function.update_self,h.refcnt]
      rw [ofNat_add_one]
      congr 1
      simp only [Op.refers,decide_true,Bool.toNat_true,Bool.toNat_false] at hu
      omega
    · simp only [Sys.setBuf,Sys.setOp,Sys.refs,Function.update_of_ne hc,h.refcnt]
      congr 1
      simp only [Op.refers,decide_eq_false (Ne.symm hc),Bool.toNat_false] at hu
      omega
  · by_cases hq : q = p
    · subst hq
      simpa [Sys.setOp,OpOk] using ⟨hlt,hdev,hblock⟩
    · simpa [Sys.setBuf,Sys.setOp,Function.update_of_ne hq] using h.op q
  · refine (Function.update_of_ne ?_ _ _).trans hq
    rintro rfl
    rw [hp] at hq
    cases hq

theorem bpin (h : Inv disk s) (hroom : s.pins b+NPROC+2 < 2^32) :
    Inv disk {s.setBuf b {s.bufs b with refcnt := (s.bufs b).refcnt+1} with
      pins := Function.update s.pins b (s.pins b+1)} := by
  refine h.counted (fun c => ?_) rfl rfl rfl (fun c => ?_) (fun c => ?_) h.op fun _ _ _ hq => hq
  · by_cases hc : c = b
    · subst hc
      simp [Sys.setBuf]
    · simp [Sys.setBuf,Function.update_of_ne hc]
  · by_cases hc : c = b
    · subst hc
      simp only [Sys.setBuf,Sys.refs,Function.update_self,h.refcnt]
      rw [ofNat_add_one]
      rfl
    · simp only [Sys.setBuf,Sys.refs,Function.update_of_ne hc,h.refcnt]
  · by_cases hc : c = b
    · subst hc
      simp only [Function.update_self]
      omega
    · simpa only [Function.update_of_ne hc] using h.room c

theorem bunpin (h : Inv disk s) (hpin : s.pins b ≠ 0) :
    Inv disk {s.setBuf b {s.bufs b with refcnt := (s.bufs b).refcnt-1} with
      pins := Function.update s.pins b (s.pins b-1)} := by
  refine h.counted (fun c => ?_) rfl rfl rfl (fun c => ?_) (fun c => ?_) h.op fun _ _ _ hq => hq
  · by_cases hc : c = b
    · subst hc
      simp [Sys.setBuf]
    · simp [Sys.setBuf,Function.update_of_ne hc]
  · by_cases hc : c = b
    · subst hc
      simp only [Sys.setBuf,Sys.refs,Function.update_self,h.refcnt]
      rw [ofNat_sub_one (by omega)]
      congr 1
      omega
    · simp only [Sys.setBuf,Sys.refs,Function.update_of_ne hc,h.refcnt]
  · by_cases hc : c = b
    · subst hc
      have := h.room c
      simp only [Function.update_self]
      omega
    · simpa only [Function.update_of_ne hc] using h.room c

theorem refs_ne_zero (h : (s.procs p).refers b = true) : s.refs b ≠ 0 := by
  have := users_update s.procs p .idle b
  rw [h] at this
  simp only [Bool.toNat_true,Op.refers,Bool.toNat_false] at this
  rw [Sys.refs]
  omega

theorem brelseEnd (h : Inv disk s) (hp : s.procs p = .releasing b) :
    Inv disk ((s.setBuf b {s.bufs b with refcnt := (s.bufs b).refcnt-1}).setOp p .idle) := by
  refine h.counted (fun c => ?_) rfl rfl rfl (fun c => ?_) h.room (fun q => ?_) fun q c m hq => ?_
  · by_cases hc : c = b
    · subst hc
      simp [Sys.setBuf,Sys.setOp]
    · simp [Sys.setBuf,Sys.setOp,Function.update_of_ne hc]
  · have hu := users_update s.procs p .idle c
    rw [hp] at hu
    by_cases hc : c = b
    · subst hc
      have hne := refs_ne_zero (s := s) (p := p) (b := c) (by simp [hp,Op.refers])
      simp only [Sys.setBuf,Sys.setOp,Function.update_self,h.refcnt]
      rw [ofNat_sub_one hne]
      congr 1
      simp only [Sys.refs,Function.update_self]
      simp only [Op.refers,decide_true,Bool.toNat_true,Bool.toNat_false] at hu
      omega
    · simp only [Sys.setBuf,Sys.setOp,Sys.refs,Function.update_of_ne hc,h.refcnt]
      congr 1
      simp only [Op.refers,decide_eq_false (Ne.symm hc),Bool.toNat_false] at hu
      omega
  · by_cases hq : q = p
    · subst hq
      simp [Sys.setOp,OpOk]
    · simpa [Sys.setBuf,Sys.setOp,Function.update_of_ne hq] using h.op q
  · refine (Function.update_of_ne ?_ _ _).trans hq
    rintro rfl
    rw [hp] at hq
    cases hq

theorem bwrite (h : Inv disk s) (hp : s.procs p = .idle) (hlock : (s.bufs b).lock = some p) :
    Inv disk (s.setOp p (.writing b (s.bufs b).blockno)) := by
  refine h.counted (fun c => rfl) rfl rfl rfl (fun c => ?_) h.room (fun q => ?_) fun q c m hq => ?_
  · have hu := users_update s.procs p (.writing b (s.bufs b).blockno) c
    rw [hp] at hu
    simp only [Sys.setOp,Sys.refs,h.refcnt]
    congr 1
    simp only [Op.refers,Bool.toNat_false] at hu
    omega
  · by_cases hq : q = p
    · subst hq
      simpa [Sys.setOp,OpOk] using hlock
    · simpa [Sys.setOp,Function.update_of_ne hq] using h.op q
  · refine (Function.update_of_ne ?_ _ _).trans hq
    rintro rfl
    rw [hp] at hq
    cases hq

theorem unused (h : Inv disk s) (hb : (s.bufs b).refcnt = 0) :
    (s.bufs b).lock = none ∧ s.pins b = 0 ∧ users s.procs b = 0 ∧
    ∀ q,(s.procs q).refers b = false := by
  have hrefs := h.refcnt_eq_zero.mp hb
  have hq : ∀ q,(s.procs q).refers b = false := by
    intro q
    by_contra hne
    exact refs_ne_zero (Bool.eq_true_of_not_eq_false hne) hrefs
  rw [Sys.refs] at hrefs
  refine ⟨?_,by omega,by omega,hq⟩
  cases hl : (s.bufs b).lock with
  | none => rfl
  | some q =>
    simp only [hl,Option.isSome_some,Bool.toNat_true] at hrefs
    omega

theorem evict (h : Inv disk s) (e : List (Event β))
    (he : e = if (s.bufs b).dev = ROOTDEV then .evict (s.bufs b).blockno::s.hist else s.hist)
    (hb : b < NBUF) :
    (∃ ns,Holds s.links ns ∧ Ordered e ns) ∧
    (∀ c,c < NBUF → c ≠ b → (s.bufs c).dev = ROOTDEV →
      cached e (s.bufs c).blockno = cached s.hist (s.bufs c).blockno) ∧
    (∀ m,(∀ c,c < NBUF → c ≠ b → (s.bufs c).dev = ROOTDEV → (s.bufs c).blockno ≠ m) →
      cached e m = none) ∧
    (∀ m,onDisk disk e m = onDisk disk s.hist m) ∧
    ∀ r m x l,e = r++.bread m x::l → x = expected disk l m := by
  obtain ⟨ns,hns,hord⟩ := h.list
  split_ifs at he with hdev
  · subst he
    refine ⟨⟨ns,hns,hord.cons (by simp)⟩,fun c hc hcb hcd => ?_,fun m hm => ?_,fun m => rfl,
      fun r m x l hl => ?_⟩
    · exact if_neg fun heq => hcb (h.unique c b hc hb hcd hdev heq)
    · by_cases hmb : m = (s.bufs b).blockno
      · exact if_pos hmb
      · refine (if_neg hmb).trans (h.absent m fun c hc hcd => ?_)
        by_cases hcb : c = b
        · exact hcb ▸ Ne.symm hmb
        · exact hm c hc hcb hcd
    · rcases r with _ | ⟨e,r⟩
      · cases (List.cons.inj hl).1
      · exact h.reads r m x l (List.cons.inj hl).2
  · subst he
    refine ⟨⟨ns,hns,hord⟩,fun _ _ _ _ => rfl,fun m hm => ?_,fun m => rfl,h.reads⟩
    refine h.absent m fun c hc hcd => hm c hc ?_ hcd
    rintro rfl
    exact hdev hcd

theorem op_frame {t : Sys β} {q : Fin NPROC} (h : Inv disk s)
    (hbufs : ∀ c,c ≠ b → t.bufs c = s.bufs c) (howner : (s.bufs b).lock ≠ some q)
    (hrefers : (s.procs q).refers b = true →
      (t.bufs b).dev = (s.bufs b).dev ∧ (t.bufs b).blockno = (s.bufs b).blockno) :
    OpOk t q (s.procs q) := by
  have hok := h.op q
  cases hop : s.procs q with
  | idle => trivial
  | locking c m =>
    rw [hop] at hok hrefers
    by_cases hcb : c = b
    · subst hcb
      obtain ⟨hdev,hblock⟩ := hrefers (by simp [Op.refers])
      exact ⟨hok.1,hdev.trans hok.2.1,hblock.trans hok.2.2⟩
    · simpa only [OpOk,hbufs c hcb] using hok
  | reading c m | writing c m =>
    rw [hop] at hok
    have hcb : c ≠ b := by
      rintro rfl
      exact howner hok.1
    simpa only [OpOk,hbufs c hcb] using hok
  | releasing c =>
    rw [hop] at hok
    exact hok

theorem lock_frame {t : Sys β} {o : Op} {c : ℕ} {q : Fin NPROC} (h : Inv disk s)
    (hbufs : ∀ c,c ≠ b → t.bufs c = s.bufs c) (hprocs : t.procs = Function.update s.procs p o)
    (hreading : ∀ c m,s.procs p = .reading c m → c = b) (hcb : c ≠ b)
    (hc : (t.bufs c).lock = some q) : c < NBUF ∧ (t.bufs c).dev = ROOTDEV ∧
      ((t.bufs c).valid = true ∨ ∃ m,t.procs q = .reading c m) := by
  rw [hbufs c hcb] at hc ⊢
  obtain ⟨hlt,hdev,hvalid⟩ := h.lock c q hc
  refine ⟨hlt,hdev,hvalid.imp_right fun ⟨m,hm⟩ => ⟨m,?_⟩⟩
  rw [hprocs]
  refine (Function.update_of_ne ?_ _ _).trans hm
  rintro rfl
  exact hcb (hreading c m hm)

theorem miss (h : Inv disk s) (hp : s.procs p = .idle) (hn : s.lookup ROOTDEV n = none)
    (hb : s.victim = some b) {e : List (Event β)}
    (he : e = if (s.bufs b).dev = ROOTDEV then .evict (s.bufs b).blockno::s.hist else s.hist) :
    Inv disk (({s with hist := e}.setBuf b {s.bufs b with
      dev := ROOTDEV, blockno := n, valid := false, refcnt := 1}).setOp p (.locking b n)) := by
  obtain ⟨hlt,hzero,-⟩ := h.victim_some hb
  obtain ⟨hlock,hpins,husers,hnone⟩ := h.unused hzero
  obtain ⟨hlist,hother,habsent,hdisk,hreads⟩ := h.evict e he hlt
  have hmiss := h.lookup_none hn
  generalize ht : ({s with hist := e}.setBuf b {s.bufs b with
      dev := ROOTDEV, blockno := n, valid := false, refcnt := 1}).setOp p (.locking b n) = t
  have hbuf : t.bufs b = {s.bufs b with
      dev := ROOTDEV, blockno := n, valid := false, refcnt := 1} := by
    rw [← ht]
    exact Function.update_self ..
  have hbufs : ∀ c,c ≠ b → t.bufs c = s.bufs c := by
    intro c hc
    rw [← ht]
    exact Function.update_of_ne hc _ _
  have hprocs : t.procs = Function.update s.procs p (.locking b n) := by
    rw [← ht]
    rfl
  have hhist : t.hist = e := by rw [← ht]; rfl
  have hpin : t.pins = s.pins := by rw [← ht]; rfl
  refine
    { list := by rw [hhist,← ht]; exact hlist
      refcnt := fun c => ?_
      room := fun c => by rw [hpin]; exact h.room c
      unique := fun c d hc hd => ?_
      op := fun q => ?_
      lock := fun c q hc => ?_
      data := fun c hc hdev => ?_
      absent := fun m hm => ?_
      written := fun m => ?_
      reads := by rw [hhist]; exact hreads }
  · have hu := users_update s.procs p (.locking b n) c
    rw [hp] at hu
    by_cases hc : c = b
    · subst hc
      rw [hbuf,Sys.refs,hbuf,hpin,hprocs,hpins,hlock]
      simp only [Op.refers,decide_true,Bool.toNat_true,Bool.toNat_false,husers] at hu
      simp [show users (Function.update s.procs p (.locking c n)) c = 1 by omega]
    · rw [hbufs c hc,Sys.refs,hbufs c hc,hpin,hprocs,h.refcnt,Sys.refs]
      simp only [Op.refers,decide_eq_false (Ne.symm hc),Bool.toNat_false] at hu
      congr 1
      omega
  · by_cases hcb : c = b <;> by_cases hdb : d = b
    · intros
      rw [hcb,hdb]
    · subst hcb
      rw [hbuf,hbufs d hdb]
      intro _ hdd heq
      exact absurd heq.symm (hmiss d hd hdd)
    · subst hdb
      rw [hbuf,hbufs c hcb]
      intro hcd _ heq
      exact absurd heq (hmiss c hc hcd)
    · rw [hbufs c hcb,hbufs d hdb]
      exact h.unique c d hc hd
  · rw [hprocs]
    by_cases hq : q = p
    · subst hq
      rw [Function.update_self]
      exact ⟨hlt,by rw [hbuf],by rw [hbuf]⟩
    · rw [Function.update_of_ne hq]
      exact h.op_frame hbufs (by simp [hlock]) fun href => by simp [hnone q] at href
  · have hcb : c ≠ b := by
      rintro rfl
      rw [hbuf] at hc
      simp [hlock] at hc
    exact h.lock_frame hbufs hprocs (fun _ _ hm => by simp [hp] at hm) hcb hc
  · rw [hhist]
    by_cases hcb : c = b
    · subst hcb
      rw [hbuf]
      exact habsent n fun d hd _ hdd => hmiss d hd hdd
    · rw [hbufs c hcb] at hdev ⊢
      rw [hother c hc hcb hdev]
      exact h.data c hc hdev
  · rw [hhist]
    refine habsent m fun c hc hcb hcd => ?_
    have := hm c hc
    rw [hbufs c hcb] at this
    exact this hcd
  · rw [hhist,hdisk,← h.written,← ht]
    rfl

/-- A step of a process that alone may have the lock of `b`, on the lock, the data or the disk
block of this buffer. -/
theorem touched {t : Sys β} {o : Op} (h : Inv disk s) (hlt : b < NBUF)
    (hdev : (s.bufs b).dev = ROOTDEV) (hbufs : ∀ c,c ≠ b → t.bufs c = s.bufs c)
    (hbuf : (t.bufs b).dev = (s.bufs b).dev ∧ (t.bufs b).blockno = (s.bufs b).blockno ∧
      (t.bufs b).refcnt = (s.bufs b).refcnt)
    (hprocs : t.procs = Function.update s.procs p o) (hlinks : t.links = s.links)
    (hpins : t.pins = s.pins) (howner : ∀ q,q ≠ p → (s.bufs b).lock ≠ some q)
    (hreading : ∀ c m,s.procs p = .reading c m → c = b)
    (hrefs : ∀ c,((s.procs p).refers c).toNat+(s.bufs c).lock.isSome.toNat =
      (o.refers c).toNat+(t.bufs c).lock.isSome.toNat)
    (hop : OpOk t p o)
    (hlock : ∀ q,(t.bufs b).lock = some q →
      q = p ∧ ((t.bufs b).valid = true ∨ ∃ m,o = .reading b m))
    (hhist : t.hist = s.hist ∨ ∃ e,t.hist = e::s.hist ∧ (∀ c,e ≠ .release c) ∧
      ∀ m x,e = .bread m x → x = expected disk s.hist m)
    (hcached : ∀ m,cached t.hist m = if m = (s.bufs b).blockno then
      (if (t.bufs b).valid then some (t.bufs b).data else none) else cached s.hist m)
    (hdisk : ∀ m,t.disk m = onDisk disk t.hist m) : Inv disk t := by
  refine
    { list := ?_
      refcnt := fun c => ?_
      room := fun c => by rw [hpins]; exact h.room c
      unique := fun c d hc hd => ?_
      op := fun q => ?_
      lock := fun c q hc => ?_
      data := fun c hc hcd => ?_
      absent := fun m hm => ?_
      written := hdisk
      reads := fun r m x l hl => ?_ }
  · obtain ⟨ns,hns,hord⟩ := h.list
    rw [hlinks]
    rcases hhist with hhist | ⟨e,hhist,he,-⟩
    · exact ⟨ns,hns,hhist ▸ hord⟩
    · exact ⟨ns,hns,hhist ▸ hord.cons he⟩
  · have hu := users_update s.procs p o c
    have hr := hrefs c
    have hcount : (t.bufs c).refcnt = (s.bufs c).refcnt := by
      by_cases hc : c = b
      · rw [hc]
        exact hbuf.2.2
      · rw [hbufs c hc]
    rw [hcount,h.refcnt,Sys.refs,Sys.refs,hprocs,hpins]
    congr 1
    omega
  · have hsame : ∀ c,(t.bufs c).dev = (s.bufs c).dev ∧ (t.bufs c).blockno = (s.bufs c).blockno := by
      intro c
      by_cases hcb : c = b
      · rw [hcb]
        exact ⟨hbuf.1,hbuf.2.1⟩
      · rw [hbufs c hcb]
        exact ⟨rfl,rfl⟩
    rw [(hsame c).1,(hsame c).2,(hsame d).1,(hsame d).2]
    exact h.unique c d hc hd
  · rw [hprocs]
    by_cases hq : q = p
    · subst hq
      rwa [Function.update_self]
    · rw [Function.update_of_ne hq]
      exact h.op_frame hbufs (howner q hq) fun _ => ⟨hbuf.1,hbuf.2.1⟩
  · by_cases hcb : c = b
    · subst hcb
      obtain ⟨rfl,hv⟩ := hlock q hc
      refine ⟨hlt,hbuf.1.trans hdev,hv.imp_right fun ⟨m,hm⟩ => ⟨m,?_⟩⟩
      rw [hprocs,Function.update_self,hm]
    · exact h.lock_frame hbufs hprocs hreading hcb hc
  · rw [hcached]
    by_cases hcb : c = b
    · subst hcb
      rw [if_pos hbuf.2.1]
    · rw [hbufs c hcb] at hcd ⊢
      rw [if_neg fun heq => hcb (h.unique c b hc hlt hcd hdev heq)]
      exact h.data c hc hcd
  · have hmb : m ≠ (s.bufs b).blockno := by
      have := hm b hlt (hbuf.1.trans hdev)
      rw [hbuf.2.1] at this
      exact this.symm
    rw [hcached,if_neg hmb]
    refine h.absent m fun c hc hcd => ?_
    by_cases hcb : c = b
    · rw [hcb]
      exact hmb.symm
    · have := hm c hc
      rw [hbufs c hcb] at this
      exact this hcd
  · rcases hhist with hhist | ⟨e,hhist,-,he⟩
    · exact h.reads r m x l (hhist ▸ hl)
    · rw [hhist] at hl
      rcases r with _ | ⟨e',r⟩
      · obtain ⟨h₁,rfl⟩ := List.cons.inj hl
        exact he m x h₁
      · exact h.reads r m x l (List.cons.inj hl).2

theorem acquire (h : Inv disk s) (hp : s.procs p = .locking b n) (hl : (s.bufs b).lock = none) :
    Inv disk (s.acquire p b n) := by
  have hop := h.op p
  rw [hp] at hop
  obtain ⟨hlt,hdev,hblock⟩ := hop
  have hdata := h.data b hlt hdev
  rw [hblock] at hdata
  have hself : ((s.setBuf b {s.bufs b with lock := some p}).bufs b) =
      {s.bufs b with lock := some p} := Function.update_self ..
  rw [Sys.acquire]
  simp only [hself]
  have hrefs : ∀ o : Op,(∀ c,o.refers c = false) → ∀ c,
      ((s.procs p).refers c).toNat+(s.bufs c).lock.isSome.toNat = (o.refers c).toNat+
        ((s.setBuf b {s.bufs b with lock := some p}).bufs c).lock.isSome.toNat := by
    intro o ho c
    rw [ho,hp]
    by_cases hc : c = b
    · subst hc
      simp [hself,hl,Op.refers]
    · simp [Sys.setBuf,Function.update_of_ne hc,Op.refers,Ne.symm hc]
  split_ifs with hv
  · refine h.touched (p := p) (o := .idle) hlt hdev (fun c hc => Function.update_of_ne hc _ _)
      ?_ rfl rfl rfl (fun q _ => by simp [hl]) (fun c m hr => ?_) (hrefs .idle fun _ => rfl)
      trivial (fun q hq => ?_) (.inr ⟨_,rfl,by simp,fun m x hx => ?_⟩) (fun m => ?_)
      fun m => h.written m
    · simp [Sys.setBuf,Sys.setOp,Sys.log]
    · rw [hp] at hr
      cases hr
    · obtain rfl : p = q := by simpa [Sys.setBuf,Sys.setOp,Sys.log] using hq
      exact ⟨rfl,.inl (by simpa [Sys.setBuf,Sys.setOp,Sys.log] using hv)⟩
    · cases hx
      rw [expected,hdata,if_pos hv]
      rfl
    · rw [hblock]
      simp [Sys.setBuf,Sys.setOp,Sys.log,cached,hv]
  · refine h.touched (p := p) (o := .reading b n) hlt hdev (fun c hc => Function.update_of_ne hc _ _)
      ?_ rfl rfl rfl (fun q _ => by simp [hl]) (fun c m hr => ?_)
      (hrefs (.reading b n) fun _ => rfl) ?_ (fun q hq => ?_) (.inl rfl) (fun m => ?_)
      fun m => h.written m
    · simp [Sys.setBuf,Sys.setOp]
    · rw [hp] at hr
      cases hr
    · simpa [OpOk,Sys.setBuf,Sys.setOp] using And.intro hblock (by simpa using hv)
    · obtain rfl : p = q := by simpa [Sys.setBuf,Sys.setOp] using hq
      exact ⟨rfl,.inr ⟨n,rfl⟩⟩
    · have hv : (s.bufs b).valid = false := by simpa using hv
      simp only [hv,Bool.false_eq_true,if_false] at hdata
      by_cases hm : m = (s.bufs b).blockno
      · subst hm
        simpa [Sys.setBuf,Sys.setOp,hv,hblock] using hdata
      · rw [if_neg hm]
        rfl

theorem owner (hl : (s.bufs b).lock = some p) (q : Fin NPROC) (hq : q ≠ p) :
    (s.bufs b).lock ≠ some q := by
  rw [hl]
  exact fun heq => hq (Option.some.inj heq).symm

theorem finishRead (h : Inv disk s) (hp : s.procs p = .reading b n) :
    Inv disk (s.finishRead p b n) := by
  have hop := h.op p
  rw [hp] at hop
  obtain ⟨hl,hblock,hv⟩ := hop
  obtain ⟨hlt,hdev,-⟩ := h.lock b p hl
  have hdata := h.data b hlt hdev
  rw [hblock,hv] at hdata
  refine h.touched (p := p) (o := .idle) hlt hdev (fun c hc => Function.update_of_ne hc _ _)
    ?_ rfl rfl rfl (owner hl) (fun c m hr => ?_) (fun c => ?_) trivial (fun q hq => ?_)
    (.inr ⟨_,rfl,by simp,fun m x hx => ?_⟩) (fun m => ?_) fun m => h.written m
  · simp [Sys.finishRead,Sys.setBuf,Sys.setOp,Sys.log]
  · rw [hp] at hr
    cases hr
    rfl
  · rw [hp]
    by_cases hc : c = b
    · subst hc
      simp [Sys.finishRead,Sys.setBuf,Sys.setOp,Sys.log,Op.refers]
    · simp [Sys.finishRead,Sys.setBuf,Sys.setOp,Sys.log,Function.update_of_ne hc,Op.refers]
  · have hq : (s.bufs b).lock = some q := by
      simpa [Sys.finishRead,Sys.setBuf,Sys.setOp,Sys.log] using hq
    rw [hl] at hq
    exact ⟨(Option.some.inj hq).symm,.inl (by simp [Sys.finishRead,Sys.setBuf,Sys.setOp,Sys.log])⟩
  · cases hx
    rw [expected,hdata,h.written]
    rfl
  · rw [hblock]
    simp [Sys.finishRead,Sys.setBuf,Sys.setOp,Sys.log,cached]

theorem store {x : β} (h : Inv disk s) (hp : s.procs p = .idle) (hl : (s.bufs b).lock = some p) :
    Inv disk ((s.setBuf b {s.bufs b with data := x}).log (.store (s.bufs b).blockno x)) := by
  obtain ⟨hlt,hdev,hv⟩ := h.lock b p hl
  have hv : (s.bufs b).valid = true := by
    rcases hv with hv | ⟨m,hm⟩
    · exact hv
    · rw [hp] at hm
      cases hm
  refine h.touched (p := p) (o := .idle) hlt hdev (fun c hc => Function.update_of_ne hc _ _)
    ?_ ?_ rfl rfl (owner hl) (fun c m hr => ?_) (fun c => ?_) trivial (fun q hq => ?_)
    (.inr ⟨_,rfl,by simp,by simp⟩) (fun m => ?_) fun m => h.written m
  · simp [Sys.setBuf,Sys.log]
  · rw [← hp,Function.update_eq_self]
    rfl
  · rw [hp] at hr
    cases hr
  · rw [hp]
    by_cases hc : c = b
    · subst hc
      simp [Sys.setBuf,Sys.log]
    · simp [Sys.setBuf,Sys.log,Function.update_of_ne hc]
  · have hq : (s.bufs b).lock = some q := by simpa [Sys.setBuf,Sys.log] using hq
    rw [hl] at hq
    exact ⟨(Option.some.inj hq).symm,.inl (by simpa [Sys.setBuf,Sys.log] using hv)⟩
  · simp [Sys.setBuf,Sys.log,cached,hv]

theorem diskWrite (h : Inv disk s) (hp : s.procs p = .writing b n) :
    Inv disk ({s.setOp p .idle with disk := Function.update s.disk n (s.bufs b).data}.log
      (.bwrite n (s.bufs b).data)) := by
  have hop := h.op p
  rw [hp] at hop
  obtain ⟨hl,hblock⟩ := hop
  obtain ⟨hlt,hdev,hv⟩ := h.lock b p hl
  refine h.touched (p := p) (o := .idle) hlt hdev (fun _ _ => rfl) ⟨rfl,rfl,rfl⟩ rfl rfl rfl
    (owner hl) (fun c m hr => ?_) (fun c => ?_) trivial (fun q hq => ?_)
    (.inr ⟨_,rfl,by simp,by simp⟩) (fun m => ?_) fun m => ?_
  · rw [hp] at hr
    cases hr
  · rw [hp]
    rfl
  · have hq : (s.bufs b).lock = some q := hq
    rw [hl] at hq
    refine ⟨(Option.some.inj hq).symm,.inl (hv.resolve_right ?_)⟩
    rintro ⟨m,hm⟩
    rw [hp] at hm
    cases hm
  · change cached s.hist m = if m = (s.bufs b).blockno then
      (if (s.bufs b).valid then some (s.bufs b).data else none) else cached s.hist m
    split_ifs with hm hv
    · rw [hm,h.data b hlt hdev,if_pos hv]
    · rw [hm,h.data b hlt hdev,if_neg hv]
    · rfl
  · change Function.update s.disk n (s.bufs b).data m =
      if m = n then (s.bufs b).data else onDisk disk s.hist m
    rw [Function.update_apply,h.written]

theorem brelse (h : Inv disk s) (hp : s.procs p = .idle) (hl : (s.bufs b).lock = some p) :
    Inv disk ((s.setBuf b {s.bufs b with lock := none}).setOp p (.releasing b)) := by
  obtain ⟨hlt,hdev,-⟩ := h.lock b p hl
  refine h.touched (p := p) (o := .releasing b) hlt hdev (fun c hc => Function.update_of_ne hc _ _)
    ?_ rfl rfl rfl (owner hl) (fun c m hr => ?_) (fun c => ?_) hlt (fun q hq => ?_) (.inl rfl)
    (fun m => ?_) fun m => h.written m
  · simp [Sys.setBuf,Sys.setOp]
  · rw [hp] at hr
    cases hr
  · rw [hp]
    by_cases hc : c = b
    · subst hc
      simp [Sys.setBuf,Sys.setOp,Op.refers,hl]
    · simp [Sys.setBuf,Sys.setOp,Function.update_of_ne hc,Op.refers,Ne.symm hc]
  · simp [Sys.setBuf,Sys.setOp] at hq
  · simp only [Sys.setBuf,Sys.setOp,Function.update_self]
    split_ifs with hm hv
    · rw [hm,h.data b hlt hdev,if_pos hv]
    · rw [hm,h.data b hlt hdev,if_neg hv]
    · rfl

theorem init (disk : ℕ → β) (zero : β) : Inv disk (init disk zero) := by
  refine
    { list := ⟨_,.binit,ordered_reverse_range NBUF⟩
      refcnt := fun b => ?_
      room := fun b => by simp [Bio.init,NPROC]
      unique := fun b c _ _ hb => by cases hb
      op := fun p => trivial
      lock := fun b p hl => by cases hl
      data := fun b _ hb => by cases hb
      absent := fun n _ => rfl
      written := fun n => rfl
      reads := fun r n x l hl => by cases r <;> cases hl }
  have hu : users (Bio.init disk zero).procs b = 0 := by
    simp [users,Bio.init,Op.refers]
  simp [Sys.refs,hu]
  rfl

end Inv

/-- `bpin` meets few enough pins of its buffer, and `bunpin` undoes one of them. -/
def Room (s : Sys β) : Action β → Prop
  | .bpin _ b => s.pins b+NPROC+2 < 2^32
  | .bunpin _ b => s.pins b ≠ 0
  | _ => True

instance (s : Sys β) : (a : Action β) → Decidable (Room s a)
  | .bpin _ b => inferInstanceAs (Decidable (s.pins b+NPROC+2 < 2^32))
  | .bunpin _ b => inferInstanceAs (Decidable (s.pins b ≠ 0))
  | .bread .. | .acquiresleep .. | .diskRead .. | .store .. | .bwrite .. | .diskWrite ..
  | .brelse .. | .brelseEnd .. => inferInstanceAs (Decidable True)

theorem inv_step {disk : ℕ → β} {s t : Sys β} {a : Action β} (h : Inv disk s) (hroom : Room s a)
    (hstep : step s a = some t) : Inv disk t := by
  have hpanic : ∀ m,Inv disk {s with panic := m} := fun m =>
    h.counted (fun _ => rfl) rfl rfl rfl h.refcnt h.room h.op fun _ _ _ hq => hq
  rw [step.eq_def] at hstep
  split_ifs at hstep with hp
  cases a with
  | bread p n =>
    simp only [Option.ite_none_right_eq_some,Option.some.injEq] at hstep
    obtain ⟨hp,rfl⟩ := hstep
    rw [Sys.bget]
    split
    · exact h.hit hp ‹_›
    · split
      · rename_i b hb
        have := h.miss hp ‹_› hb rfl
        simp only
        split_ifs with hdev
        · rw [if_pos hdev] at this
          exact this
        · rw [if_neg hdev] at this
          exact this
      · exact hpanic _
  | acquiresleep p =>
    simp only at hstep
    split at hstep
    · simp only [Option.ite_none_right_eq_some,Option.some.injEq] at hstep
      obtain ⟨hl,rfl⟩ := hstep
      exact h.acquire ‹_› hl
    · cases hstep
  | diskRead p =>
    simp only at hstep
    split at hstep
    · cases hstep
      exact h.finishRead ‹_›
    · cases hstep
  | store p b x =>
    simp only [Option.ite_none_right_eq_some,Option.some.injEq] at hstep
    obtain ⟨⟨_,hp,hl⟩,rfl⟩ := hstep
    exact h.store hp hl
  | bwrite p b =>
    simp only [Option.ite_none_right_eq_some,Option.some.injEq] at hstep
    obtain ⟨⟨_,hp⟩,rfl⟩ := hstep
    split_ifs with hl
    · exact h.bwrite hp hl
    · exact hpanic _
  | diskWrite p =>
    simp only at hstep
    split at hstep
    · cases hstep
      exact h.diskWrite ‹_›
    · cases hstep
  | brelse p b =>
    simp only [Option.ite_none_right_eq_some,Option.some.injEq] at hstep
    obtain ⟨⟨_,hp⟩,rfl⟩ := hstep
    split_ifs with hl
    · exact h.brelse hp hl
    · exact hpanic _
  | brelseEnd p =>
    simp only at hstep
    split at hstep
    · rename_i b hp
      cases hstep
      have hlt := h.op p
      rw [hp] at hlt
      rw [Sys.finishRelease]
      simp only
      split_ifs with hz
      · exact (h.brelseEnd hp).moved hlt
      · exact h.brelseEnd hp
    · cases hstep
  | bpin p b =>
    simp only [Option.ite_none_right_eq_some,Option.some.injEq] at hstep
    obtain ⟨_,rfl⟩ := hstep
    exact h.bpin hroom
  | bunpin p b =>
    simp only [Option.ite_none_right_eq_some,Option.some.injEq] at hstep
    obtain ⟨_,rfl⟩ := hstep
    exact h.bunpin hroom

end Xv6.Bio
