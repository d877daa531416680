import Mathlib.Data.List.Perm.Basic
import Xv6.Virtio

/-! The invariant of the disk driver: every request under way owns three descriptors, and its
head is in exactly one of the places it passes through until `b->disk` is cleared. -/
namespace Xv6.Virtio

open Sys

variable {β : Type}

structure Keeps (d d' : Disk β) : Prop where
  busy : ∀ x, d.free x = false → d'.free x = false ∧ d'.desc x = d.desc x
  avail : d'.avail = d.avail
  used : d'.used = d.used
  info : d'.info = d.info
  bufs : d'.bufs = d.bufs

theorem Keeps.refl (d : Disk β) : Keeps d d := ⟨fun _ h => ⟨h,rfl⟩,rfl,rfl,rfl,rfl⟩

/-- The memory after an `alloc_desc` that returns `i`. -/
def Disk.mark (d : Disk β) (i : ℕ) : Disk β := {d with free := Function.update d.free i false}

@[simp] theorem mark_free (d : Disk β) (i x : ℕ) :
    (d.mark i).free x = if x = i then false else d.free x := by
  simp [Disk.mark,Function.update_apply]

@[simp] theorem mark_desc (d : Disk β) (i : ℕ) : (d.mark i).desc = d.desc := rfl

theorem allocDesc_some {d d' : Disk β} {i : ℕ} (h : allocDesc d = some (i,d')) :
    i < NUM ∧ d.free i = true ∧ d' = d.mark i := by
  obtain ⟨x,hx,hi⟩ := Option.map_eq_some_iff.mp h
  obtain ⟨rfl,rfl⟩ := Prod.mk.injEq .. ▸ hi
  exact ⟨List.mem_range.mp (List.mem_of_find?_eq_some hx),List.find?_some hx,rfl⟩

def Disk.release (d : Disk β) (i : ℕ) : Disk β :=
  {d with desc := Function.update d.desc i {}, free := Function.update d.free i true}

@[simp] theorem release_free (d : Disk β) (i x : ℕ) :
    (d.release i).free x = if x = i then true else d.free x := by
  simp [Disk.release,Function.update_apply]

@[simp] theorem release_desc (d : Disk β) (i x : ℕ) :
    (d.release i).desc x = if x = i then {} else d.desc x := by
  simp [Disk.release,Function.update_apply]

theorem freeDesc_ok {d : Disk β} {i : ℕ} (hi : i < NUM) (hb : d.free i = false) :
    freeDesc d i = .ok (d.release i) := by
  rw [freeDesc,if_neg (by omega),if_neg (by simp [hb]),Disk.release]

theorem freeChain_succ {d : Disk β} {i r : ℕ} (hi : i < NUM) (hb : d.free i = false) :
    freeChain (r+1) d i = if (d.desc i).flags &&& VRING_DESC_F_NEXT ≠ 0 then
      freeChain r (d.release i) (d.desc i).next else .ok (d.release i) := by
  rw [freeChain,freeDesc_ok hi hb]
  rfl

/-- An attempt at three descriptors has them, or leaves everything in use alone. -/
theorem alloc3Desc_spec (d : Disk β) :
    (∃ d',alloc3Desc d = .ok (none,d') ∧ Keeps d d') ∨
    ∃ i j k d',alloc3Desc d = .ok (some (i,j,k),d') ∧ Keeps d d' ∧
      (i < NUM ∧ j < NUM ∧ k < NUM) ∧ [i,j,k].Nodup ∧
      ∀ x ∈ [i,j,k],d.free x = true ∧ d'.free x = false := by
  rcases h₁ : allocDesc d with _ | ⟨i,d₁⟩
  · exact .inl ⟨d,by simp [alloc3Desc,h₁],.refl d⟩
  obtain ⟨hi,hfi,rfl⟩ := allocDesc_some h₁
  rcases h₂ : allocDesc (d.mark i) with _ | ⟨j,d₂⟩
  · refine .inl ⟨(d.mark i).release i,?_,fun x hx => ?_,rfl,rfl,rfl,rfl⟩
    · simp only [alloc3Desc,h₁,h₂]
      rw [freeDesc_ok hi (by simp)]
      rfl
    · have hne : x ≠ i := by rintro rfl; simp [hfi] at hx
      simp [hne,hx]
  obtain ⟨hj,hfj,rfl⟩ := allocDesc_some h₂
  obtain ⟨hji,hfj⟩ : j ≠ i ∧ d.free j = true := by simpa using hfj
  rcases h₃ : allocDesc ((d.mark i).mark j) with _ | ⟨k,d₃⟩
  · refine .inl ⟨(((d.mark i).mark j).release i).release j,?_,fun x hx => ?_,rfl,rfl,rfl,rfl⟩
    · simp only [alloc3Desc,h₁,h₂,h₃]
      rw [freeDesc_ok hi (by simp)]
      change (freeDesc _ j >>= _) = _
      rw [freeDesc_ok hj (by simp [hji])]
      rfl
    · have hi' : x ≠ i := by rintro rfl; simp [hfi] at hx
      have hj' : x ≠ j := by rintro rfl; simp [hfj] at hx
      simp [hi',hj',hx]
  obtain ⟨hk,hfk,rfl⟩ := allocDesc_some h₃
  obtain ⟨hkj,hki,hfk⟩ : k ≠ j ∧ k ≠ i ∧ d.free k = true := by simpa using hfk
  refine .inr ⟨i,j,k,((d.mark i).mark j).mark k,by simp only [alloc3Desc,h₁,h₂,h₃],
    ⟨fun x hx => ⟨by simp [hx],rfl⟩,rfl,rfl,rfl,rfl⟩,⟨hi,hj,hk⟩,
    by simp [hji.symm,hki.symm,hkj.symm],fun x hx => ?_⟩
  simp only [List.mem_cons,List.not_mem_nil,or_false] at hx
  obtain rfl | rfl | rfl := hx
  · exact ⟨hfi,by simp⟩
  · exact ⟨hfj,by simp⟩
  · exact ⟨hfk,by simp⟩

def Chain.descs (c : Chain) : List ℕ := [c.i,c.j,c.k]

/-- The descriptors of a request are its own and lead the device from one to the next. -/
structure ChainOk (d : Disk β) (c : Chain) : Prop where
  bound : c.i < NUM ∧ c.j < NUM ∧ c.k < NUM
  nodup : c.descs.Nodup
  busy : ∀ x ∈ c.descs,d.free x = false
  header : (d.desc c.i).addr = .ops c.i ∧ (d.desc c.i).flags &&& VRING_DESC_F_NEXT ≠ 0 ∧
    (d.desc c.i).next = c.j
  data : (d.desc c.j).addr = .data c.b ∧ (d.desc c.j).flags &&& VRING_DESC_F_NEXT ≠ 0 ∧
    (d.desc c.j).next = c.k
  status : (d.desc c.k).addr = .status c.i ∧ (d.desc c.k).flags &&& VRING_DESC_F_NEXT = 0
  buf : (d.info c.i).b = some c.b

namespace ChainOk

variable {d d' : Disk β} {c : Chain}

/-- Only its own descriptors and its own buffer pointer matter to a request. -/
theorem congr (h : ChainOk d c)
    (hx : ∀ x ∈ c.descs,d'.free x = false ∧ d'.desc x = d.desc x)
    (hb : (d'.info c.i).b = (d.info c.i).b) : ChainOk d' c := by
  have hi := (hx c.i (by simp [Chain.descs])).2
  have hj := (hx c.j (by simp [Chain.descs])).2
  have hk := (hx c.k (by simp [Chain.descs])).2
  exact ⟨h.bound,h.nodup,fun x m => (hx x m).1,hi ▸ h.header,hj ▸ h.data,hk ▸ h.status,
    hb.trans h.buf⟩

theorem keeps (h : ChainOk d c) (hk : Keeps d d') : ChainOk d' c :=
  h.congr (fun x m => hk.busy x (h.busy x m)) (by rw [hk.info])

theorem format {b n i j k : ℕ} (write : Bool) (hb : i < NUM ∧ j < NUM ∧ k < NUM)
    (hn : [i,j,k].Nodup) (hf : ∀ x ∈ [i,j,k],d.free x = false) :
    ChainOk (Virtio.format d b write i j k) ⟨n,b,i,j,k⟩ := by
  obtain ⟨⟨hij,hik⟩,hjk⟩ : (i ≠ j ∧ i ≠ k) ∧ j ≠ k := by simpa [not_or] using hn
  have hi : (Virtio.format d b write i j k).desc i = ⟨.ops i,16,VRING_DESC_F_NEXT,j⟩ := by
    simp [Virtio.format,Function.update_of_ne hij,Function.update_of_ne hik]
  have hj : (Virtio.format d b write i j k).desc j =
      ⟨.data b,BSIZE,(if write then 0 else VRING_DESC_F_WRITE) ||| VRING_DESC_F_NEXT,k⟩ := by
    simp [Virtio.format,Function.update_of_ne hjk]
  have hk : (Virtio.format d b write i j k).desc k = ⟨.status i,1,VRING_DESC_F_WRITE,0⟩ := by
    simp [Virtio.format]
  refine ⟨hb,hn,hf,?_,?_,?_,?_⟩
  · change ((Virtio.format d b write i j k).desc i).addr = _ ∧ _
    rw [hi]
    exact ⟨rfl,show VRING_DESC_F_NEXT &&& VRING_DESC_F_NEXT ≠ 0 by decide,rfl⟩
  · change ((Virtio.format d b write i j k).desc j).addr = _ ∧ _
    rw [hj]
    exact ⟨rfl,by cases write <;> simp [VRING_DESC_F_NEXT,VRING_DESC_F_WRITE],rfl⟩
  · change ((Virtio.format d b write i j k).desc k).addr = _ ∧ _
    rw [hk]
    exact ⟨rfl,show VRING_DESC_F_WRITE &&& VRING_DESC_F_NEXT = 0 by decide⟩
  · simp [Virtio.format]

/-- `free_chain` gives back the descriptors of the request and touches no others, whatever
`info[]` holds by then. -/
theorem freeChain (h : ChainOk d c) (f : ℕ → Info) :
    ∃ d',Virtio.freeChain (NUM+1) {d with info := f} c.i = .ok d' ∧
      (∀ x,x ∉ c.descs → d'.free x = d.free x ∧ d'.desc x = d.desc x) ∧
      d'.avail = d.avail ∧ d'.used = d.used ∧ d'.bufs = d.bufs ∧ d'.info = f := by
  obtain ⟨⟨hij,hik⟩,hjk⟩ : (c.i ≠ c.j ∧ c.i ≠ c.k) ∧ c.j ≠ c.k := by
    simpa [Chain.descs,not_or] using h.nodup
  have hbi := h.busy c.i (by simp [Chain.descs])
  have hbj := h.busy c.j (by simp [Chain.descs])
  have hbk := h.busy c.k (by simp [Chain.descs])
  generalize hd : ({d with info := f} : Disk β) = e
  have hfree : e.free = d.free := hd ▸ rfl
  have hdesc : e.desc = d.desc := hd ▸ rfl
  have hi : e.desc c.i = d.desc c.i := by rw [hdesc]
  have hj : (e.release c.i).desc c.j = d.desc c.j := by simp [hij.symm,hdesc]
  have hk : ((e.release c.i).release c.j).desc c.k = d.desc c.k := by
    simp [hik.symm,hjk.symm,hdesc]
  refine ⟨((e.release c.i).release c.j).release c.k,?_,fun x hx => ?_,hd ▸ ⟨rfl,rfl,rfl,rfl⟩⟩
  · rw [freeChain_succ h.bound.1 (by rw [hfree,hbi]),hi,if_pos h.header.2.1,h.header.2.2,
      show NUM = 6+1+1 from rfl,freeChain_succ h.bound.2.1 (by simp [hij.symm,hfree,hbj]),hj,
      if_pos h.data.2.1,h.data.2.2,
      freeChain_succ h.bound.2.2 (by simp [hik.symm,hjk.symm,hfree,hbk]),hk,
      if_neg (not_not_intro h.status.2)]
  · obtain ⟨hi,hj,hk⟩ : x ≠ c.i ∧ x ≠ c.j ∧ x ≠ c.k := by simpa [Chain.descs] using hx
    simp [hi,hj,hk,hfree,hdesc]

end ChainOk

def Call.chain : Call → Option Chain
  | .idle => none
  | .alloc _ _ => none
  | .slot c => some c
  | .publish c => some c
  | .wait c => some c

def Call.buf : Call → Option ℕ
  | .idle => none
  | .alloc b _ => some b
  | .slot c => some c.b
  | .publish c => some c.b
  | .wait c => some c.b

theorem Call.buf_of_chain {x : Call} {c : Chain} (h : x.chain = some c) : x.buf = some c.b := by
  cases x <;> simp_all [Call.chain,Call.buf]

def Sys.queue (s : Sys β) : List ℕ := s.avail.contents++s.taken++s.performed++s.used.contents

structure Inv (s : Sys β) : Prop where
  panic : s.panic = none
  /-- A call holds `b->lock`. -/
  held : ∀ p b,(s.calls p).buf = some b → s.holder b = some p
  chain : ∀ p c,(s.calls p).chain = some c → ChainOk s.toDisk c
  apart : ∀ p q c d,p ≠ q → (s.calls p).chain = some c → (s.calls q).chain = some d →
    c.n ≠ d.n ∧ c.descs.Disjoint d.descs
  numbered : ∀ p c,(s.calls p).chain = some c → s.number c.i = c.n ∧ c.n < s.requests
  /-- Until it is published a request is the business of the owner of `vdisk_lock`. -/
  ready : ∀ p c,s.calls p = .slot c ∨ s.calls p = .publish c →
    s.lock = some (.proc p) ∧ (s.bufs c.b).disk = true
  staged : ∀ p c,s.calls p = .publish c → s.avail.data (Ring.slot NUM s.avail.nwrite) = c.i
  queued : ∀ h,h ∈ s.queue ↔ ∃ p c,s.calls p = .wait c ∧ c.i = h ∧ (s.bufs c.b).disk = true
  nodup : s.queue.Nodup
  status : ∀ h,h ∈ s.performed ∨ h ∈ s.used.contents → (s.info h).status = 0

namespace Inv

variable {s : Sys β} {p b : ℕ} {c : Chain}

theorem init (blockno : ℕ → ℕ) (data sectors : ℕ → β) : Inv (init blockno data sectors) := by
  have hused : (Virtio.init blockno data sectors).used.contents = [] :=
    Ring.Buf.contents_of_empty rfl
  have hqueue : (Virtio.init blockno data sectors).queue = [] := by
    rw [Sys.queue,hused,Ring.Buf.contents_of_empty rfl]
    rfl
  exact
    { panic := rfl
      held := fun _ _ h => by cases h
      chain := fun _ _ h => by cases h
      apart := fun _ _ _ _ _ h => by cases h
      numbered := fun _ _ h => by cases h
      ready := fun _ _ h => by rcases h with h | h <;> cases h
      staged := fun _ _ h => by cases h
      queued := fun h => by
        rw [hqueue]
        simp [Virtio.init]
      nodup := by
        rw [hqueue]
        exact List.nodup_nil
      status := fun _ h => by
        rw [hused] at h
        rcases h with h | h <;> cases h }

theorem acquiresleep (h : Inv s) (hb : s.holder b = none) :
    Inv {s with holder := Function.update s.holder b (some p)} :=
  {h with
    held := fun q x hx => by
      have := h.held q x hx
      exact (Function.update_of_ne (by rintro rfl; simp [hb] at this) _ _).trans this}

theorem releasesleep (h : Inv s) (hb : s.holder b = some p) (hp : s.calls p = .idle) :
    Inv {s with holder := Function.update s.holder b none} :=
  {h with
    held := fun q x hx => by
      have := h.held q x hx
      refine (Function.update_of_ne ?_ _ _).trans this
      rintro rfl
      obtain rfl : p = q := by simpa using hb.symm.trans this
      simp [hp,Call.buf] at hx}

theorem chain_setCall {x : Call} (hx : x.chain = (s.calls p).chain) (q : ℕ) :
    ((s.setCall p x).calls q).chain = (s.calls q).chain := by
  by_cases hq : q = p
  · subst hq
    simp [Sys.setCall,hx]
  · simp [Sys.setCall,Function.update_of_ne hq]

theorem setCall {x : Call} (h : Inv s) (hx : x.chain = none) (hp : (s.calls p).chain = none)
    (hb : ∀ b,x.buf = some b → s.holder b = some p) : Inv (s.setCall p x) := by
  have hchain := chain_setCall (s := s) (p := p) (hx.trans hp.symm)
  have hcall : ∀ {q c},((s.setCall p x).calls q).chain = some c →
      (s.setCall p x).calls q = s.calls q := by
    intro q c hc
    refine Function.update_of_ne ?_ _ _
    rintro rfl
    rw [hchain,hp] at hc
    cases hc
  exact
    {h with
      held := fun q b hq => by
        by_cases hqp : q = p
        · subst hqp
          exact hb b (by simpa [Sys.setCall] using hq)
        · exact h.held q b (by simpa [Sys.setCall,Function.update_of_ne hqp] using hq)
      chain := fun q c hc => h.chain q c (hchain q ▸ hc)
      apart := fun q r c d hqr hc hd => h.apart q r c d hqr (hchain q ▸ hc) (hchain r ▸ hd)
      numbered := fun q c hc => h.numbered q c (hchain q ▸ hc)
      ready := fun q c hc => by
        have := hcall (show ((s.setCall p x).calls q).chain = some c by
          rcases hc with hc | hc <;> rw [hc] <;> rfl)
        exact h.ready q c (this ▸ hc)
      staged := fun q c hc => by
        have := hcall (show ((s.setCall p x).calls q).chain = some c by rw [hc]; rfl)
        exact h.staged q c (this ▸ hc)
      queued := fun i => by
        rw [show (s.setCall p x).queue = s.queue from rfl,h.queued]
        constructor
        · rintro ⟨q,c,hw,hi⟩
          refine ⟨q,c,?_,hi⟩
          refine (Function.update_of_ne ?_ _ _).trans hw
          rintro rfl
          rw [hw] at hp
          cases hp
        · rintro ⟨q,c,hw,hi⟩
          exact ⟨q,c,hcall (c := c) (by rw [hw]; rfl) ▸ hw,hi⟩}

theorem waiter {i : ℕ} (h : Inv s) (hi : i ∈ s.queue) :
    ∃ p c,s.calls p = .wait c ∧ c.i = i ∧ (s.bufs c.b).disk = true ∧ ChainOk s.toDisk c := by
  obtain ⟨p,c,hw,rfl,hd⟩ := (h.queued i).mp hi
  exact ⟨p,c,hw,rfl,hd,h.chain p c (by rw [hw]; rfl)⟩

theorem ne_of_ne {q : ℕ} {d : Chain} (h : Inv s) (hpq : p ≠ q) (hc : (s.calls p).chain = some c)
    (hd : (s.calls q).chain = some d) : c.b ≠ d.b ∧ c.i ≠ d.i := by
  constructor
  · intro hb
    have hp := h.held p c.b (Call.buf_of_chain hc)
    rw [hb,h.held q d.b (Call.buf_of_chain hd)] at hp
    exact hpq (Option.some.inj hp).symm
  · intro hi
    have := (h.apart p q c d hpq hc hd).2
    exact this (a := c.i) (by simp [Chain.descs]) (by simp [Chain.descs,hi])

theorem not_queued (h : Inv s) (hc : (s.calls p).chain = some c) (hw : s.calls p ≠ .wait c) :
    c.i ∉ s.queue := by
  intro hi
  obtain ⟨q,d,hq,hdi,-⟩ := (h.queued c.i).mp hi
  have hd : (s.calls q).chain = some d := by rw [hq]; rfl
  by_cases hpq : p = q
  · subst hpq
    rw [hc] at hd
    obtain rfl := Option.some.inj hd
    exact hw hq
  · exact (h.ne_of_ne hpq hc hd).2 hdi.symm

theorem length_lt {i : ℕ} (h : Inv s) (hi : i < NUM) (hq : i ∉ s.queue) :
    s.queue.length < NUM := by
  have hsub : i::s.queue ⊆ List.range NUM := by
    intro x hx
    obtain rfl | hx := List.mem_cons.mp hx
    · exact List.mem_range.mpr hi
    · obtain ⟨_,_,_,rfl,_,hok⟩ := h.waiter hx
      exact List.mem_range.mpr hok.bound.1
  have := (List.subperm_of_subset (List.nodup_cons.mpr ⟨hq,h.nodup⟩) hsub).length_le
  simpa using this

theorem avail_count_lt (h : Inv s) (hc : (s.calls p).chain = some c) (hw : s.calls p ≠ .wait c) :
    s.avail.count < NUM := by
  have hlen := h.length_lt (h.chain p c hc).bound.1 (h.not_queued hc hw)
  rw [← s.avail.length_contents]
  simp only [Sys.queue,List.length_append] at hlen
  omega

theorem keeps {d : Disk β} (h : Inv s) (hk : Keeps s.toDisk d) : Inv {s with toDisk := d} := by
  have hqueue : ({s with toDisk := d} : Sys β).queue = s.queue := by
    simp only [Sys.queue,hk.avail,hk.used]
  exact
    {h with
      chain := fun q c hc => (h.chain q c hc).keeps hk
      ready := fun q c hc => by simpa only [hk.bufs] using h.ready q c hc
      staged := fun q c hc => by simpa only [hk.avail] using h.staged q c hc
      queued := fun i => by simpa only [hqueue,hk.bufs] using h.queued i
      nodup := hqueue ▸ h.nodup
      status := fun i hi => by simpa only [hk.info] using h.status i (by simpa only [hk.used] using hi)}

section Submit

variable {d : Disk β} {write : Bool} {i j k q : ℕ} (h : Inv s)

include h

theorem notMem_of_free (hf : ∀ x ∈ [i,j,k],s.free x = true)
    (hc : (s.calls q).chain = some c) {x : ℕ} (hx : x ∈ c.descs) : x ∉ [i,j,k] := by
  intro hm
  have hbusy := (h.chain q c hc).busy x hx
  rw [hf x hm] at hbusy
  cases hbusy

theorem head_ne_of_free (hf : ∀ x ∈ [i,j,k],s.free x = true)
    (hc : (s.calls q).chain = some c) : c.i ≠ i := by
  rintro rfl
  exact h.notMem_of_free hf hc (show c.i ∈ c.descs by simp [Chain.descs]) (by simp)

theorem chain_format (hk : Keeps s.toDisk d) (hf : ∀ x ∈ [i,j,k],s.free x = true)
    (hc : (s.calls q).chain = some c) : ChainOk (format d b write i j k) c := by
  refine ((h.chain q c hc).keeps hk).congr (fun x hx => ⟨?_,?_⟩) ?_
  · exact (hk.busy x ((h.chain q c hc).busy x hx)).1
  · obtain ⟨hi,hj,hk⟩ : x ≠ i ∧ x ≠ j ∧ x ≠ k := by simpa using h.notMem_of_free hf hc hx
    simp [format,Function.update_of_ne hi,Function.update_of_ne hj,Function.update_of_ne hk]
  · simp [format,Function.update_of_ne (h.head_ne_of_free hf hc)]

theorem queued_format (hp : s.calls p = .alloc b write) (hk : Keeps s.toDisk d) (x : ℕ) :
    x ∈ s.queue ↔ ∃ q e,Function.update s.calls p (.slot c) q = .wait e ∧ e.i = x ∧
      ((format d b write i j k).bufs e.b).disk = true := by
  have hdisk : ∀ q e,s.calls q = .wait e →
      ((format d b write i j k).bufs e.b).disk = (s.bufs e.b).disk := by
    intro q e hw
    have hq := h.held q e.b (by rw [hw]; rfl)
    have hne : e.b ≠ b := by
      intro heq
      rw [heq,h.held p b (by rw [hp]; rfl)] at hq
      rw [← Option.some.inj hq,hp] at hw
      cases hw
    simp [format,Function.update_of_ne hne,hk.bufs]
  rw [h.queued]
  constructor
  · rintro ⟨q,e,hw,hi,hd⟩
    have hq : q ≠ p := by
      rintro rfl
      rw [hp] at hw
      cases hw
    exact ⟨q,e,by simpa [Function.update_of_ne hq] using hw,hi,(hdisk q e hw).trans hd⟩
  · rintro ⟨q,e,hw,hi,hd⟩
    have hq : q ≠ p := by
      rintro rfl
      simp at hw
    have hw : s.calls q = .wait e := by simpa [Function.update_of_ne hq] using hw
    exact ⟨q,e,hw,hi,(hdisk q e hw).symm.trans hd⟩

theorem submit (hp : s.calls p = .alloc b write) (hl : s.lock = none)
    (hk : Keeps s.toDisk d) (hb : i < NUM ∧ j < NUM ∧ k < NUM) (hn : [i,j,k].Nodup)
    (hf : ∀ x ∈ [i,j,k],s.free x = true ∧ d.free x = false) (tr : List Event) :
    Inv {s with
      toDisk := format d b write i j k
      calls := Function.update s.calls p (.slot ⟨s.requests,b,i,j,k⟩)
      lock := some (.proc p)
      number := Function.update s.number i s.requests
      requests := s.requests+1
      trace := tr} := by
  have hfree : ∀ x ∈ [i,j,k],s.free x = true := fun x hx => (hf x hx).1
  have hquiet : ∀ {q c},s.calls q = .slot c ∨ s.calls q = .publish c → False := by
    intro q c hc
    have := (h.ready q c hc).1
    rw [hl] at this
    cases this
  have hqueue : (format d b write i j k).avail = s.avail ∧ (format d b write i j k).used = s.used :=
    ⟨hk.avail,hk.used⟩
  refine
    { panic := h.panic
      held := fun q x hx => ?_
      chain := fun q c hc => ?_
      apart := fun q r c e hqr hc he => ?_
      numbered := fun q c hc => ?_
      ready := fun q c hc => ?_
      staged := fun q c hc => ?_
      queued := fun x => ?_
      nodup := ?_
      status := fun x hx => ?_ }
  · by_cases hq : q = p
    · subst hq
      obtain rfl : b = x := by simpa [Call.buf] using hx
      exact h.held q b (by rw [hp]; rfl)
    · exact h.held q x (by simpa [Function.update_of_ne hq] using hx)
  · by_cases hq : q = p
    · subst hq
      obtain rfl : _ = c := by simpa [Call.chain] using hc
      exact .format write hb hn fun x hx => (hf x hx).2
    · simp only [Function.update_of_ne hq] at hc
      exact h.chain_format hk hfree hc
  · by_cases hq : q = p <;> by_cases hr : r = p
    · exact absurd (hq.trans hr.symm) hqr
    · subst hq
      obtain rfl : _ = c := by simpa [Call.chain] using hc
      simp only [Function.update_of_ne hr] at he
      exact ⟨(h.numbered r e he).2.ne',fun x hx hx' => h.notMem_of_free hfree he hx' hx⟩
    · subst hr
      obtain rfl : _ = e := by simpa [Call.chain] using he
      simp only [Function.update_of_ne hq] at hc
      exact ⟨(h.numbered q c hc).2.ne,fun x hx hx' => h.notMem_of_free hfree hc hx hx'⟩
    · simp only [Function.update_of_ne hq] at hc
      simp only [Function.update_of_ne hr] at he
      exact h.apart q r c e hqr hc he
  · by_cases hq : q = p
    · subst hq
      obtain rfl : _ = c := by simpa [Call.chain] using hc
      simp
    · simp only [Function.update_of_ne hq] at hc
      have := h.numbered q c hc
      exact ⟨(Function.update_of_ne (h.head_ne_of_free hfree hc) _ _).trans this.1,
        by simp only; omega⟩
  · by_cases hq : q = p
    · subst hq
      obtain rfl : _ = c := by simpa using hc
      simp [format]
    · exact (hquiet (by simpa [Function.update_of_ne hq] using hc)).elim
  · by_cases hq : q = p
    · subst hq
      simp at hc
    · exact (hquiet (.inr (by simpa [Function.update_of_ne hq] using hc))).elim
  · simp only [Sys.queue,hqueue.1,hqueue.2]
    exact h.queued_format hp hk x
  · simpa only [Sys.queue,hqueue.1,hqueue.2] using h.nodup
  · simp only [hqueue.2] at hx
    have hmem : x ∈ s.queue := by
      simp only [Sys.queue,List.mem_append]
      rcases hx with hx | hx <;> simp [hx]
    obtain ⟨q,c,hw,rfl,-⟩ := h.waiter hmem
    simp [format,Function.update_of_ne (h.head_ne_of_free (q := q) (c := c) hfree (by rw [hw]; rfl)),
      hk.info,h.status c.i hx]

end Submit

theorem slot (h : Inv s) (hp : s.calls p = .slot c) :
    Inv {s.setCall p (.publish c) with avail := s.avail.stage c.i} := by
  have hc : (s.calls p).chain = some c := by rw [hp]; rfl
  have hcount := h.avail_count_lt hc (by simp [hp])
  have hqueue : ({s.setCall p (.publish c) with avail := s.avail.stage c.i} : Sys β).queue =
      s.queue := by
    simp only [Sys.queue,Ring.Buf.contents_stage (by decide) hcount]
    rfl
  have hcalls : ∀ q,q ≠ p → (s.setCall p (.publish c)).calls q = s.calls q :=
    fun q hq => Function.update_of_ne hq _ _
  have hself : (s.setCall p (.publish c)).calls p = .publish c := Function.update_self _ _ _
  have hchain := chain_setCall (s := s) (p := p) (x := .publish c) hc.symm
  exact
    { panic := h.panic
      held := fun q b hq => by
        refine h.held q b ?_
        by_cases hqp : q = p
        · subst hqp
          rw [hp]
          rwa [hself] at hq
        · rwa [hcalls q hqp] at hq
      chain := fun q d hd => (h.chain q d (hchain q ▸ hd)).congr
        (fun x hx => ⟨(h.chain q d (hchain q ▸ hd)).busy x hx,rfl⟩) rfl
      apart := fun q r d e hqr hd he => h.apart q r d e hqr (hchain q ▸ hd) (hchain r ▸ he)
      numbered := fun q d hd => h.numbered q d (hchain q ▸ hd)
      ready := fun q d hd => by
        by_cases hqp : q = p
        · subst hqp
          simp only [hself] at hd
          obtain rfl : c = d := by simpa using hd
          exact h.ready q c (.inl hp)
        · simp only [hcalls q hqp] at hd
          exact h.ready q d hd
      staged := fun q d hd => by
        by_cases hqp : q = p
        · subst hqp
          simp only [hself] at hd
          obtain rfl : c = d := by simpa using hd
          exact Function.update_self _ _ _
        · -- only the owner of `vdisk_lock` has a request that is not published
          simp only [hcalls q hqp] at hd
          have h₁ := (h.ready q d (.inr hd)).1
          rw [(h.ready p c (.inl hp)).1] at h₁
          exact absurd (by simpa using h₁.symm) hqp
      queued := fun x => by
        rw [hqueue,h.queued]
        refine exists_congr fun q => exists_congr fun d => ?_
        refine and_congr_left fun _ => ?_
        by_cases hqp : q = p
        · subst hqp
          simp [hself,hp]
        · simp [hcalls q hqp]
      nodup := hqueue ▸ h.nodup
      status := h.status }

theorem queue_publish (h : Inv s) (hp : s.calls p = .publish c) :
    s.avail.publish.contents = s.avail.contents++[c.i] := by
  have hc : (s.calls p).chain = some c := by rw [hp]; rfl
  have hcount := h.avail_count_lt hc (by simp [hp])
  rw [Ring.Buf.publish_eq_put (h.staged p c hp),
    Ring.Buf.contents_put (by decide) (by decide) hcount]

/-- The move of `disk.avail->idx` and the release of `vdisk_lock` in the `sleep`. -/
theorem publish (h : Inv s) (hp : s.calls p = .publish c) (tr : List Event) :
    Inv {s.setCall p (.wait c) with avail := s.avail.publish, lock := none, trace := tr} := by
  have hc : (s.calls p).chain = some c := by rw [hp]; rfl
  have hnot := h.not_queued hc (by simp [hp])
  have hperm : ({s.setCall p (.wait c) with
      avail := s.avail.publish, lock := none, trace := tr} : Sys β).queue.Perm (c.i::s.queue) := by
    simp only [Sys.queue,h.queue_publish hp,List.append_assoc]
    exact List.perm_middle
  have hcalls : ∀ q,q ≠ p → (s.setCall p (.wait c)).calls q = s.calls q :=
    fun q hq => Function.update_of_ne hq _ _
  have hself : (s.setCall p (.wait c)).calls p = .wait c := Function.update_self _ _ _
  have hchain := chain_setCall (s := s) (p := p) (x := .wait c) hc.symm
  have hquiet : ∀ {q d},(s.setCall p (.wait c)).calls q = .slot d ∨
      (s.setCall p (.wait c)).calls q = .publish d → False := by
    intro q d hd
    by_cases hqp : q = p
    · subst hqp
      simp [hself] at hd
    · rw [hcalls q hqp] at hd
      have h₁ := (h.ready q d hd).1
      rw [(h.ready p c (.inr hp)).1] at h₁
      exact hqp (by simpa using h₁.symm)
  exact
    { panic := h.panic
      held := fun q b hq => by
        refine h.held q b ?_
        by_cases hqp : q = p
        · subst hqp
          rw [hp]
          rwa [hself] at hq
        · rwa [hcalls q hqp] at hq
      chain := fun q d hd => (h.chain q d (hchain q ▸ hd)).congr
        (fun x hx => ⟨(h.chain q d (hchain q ▸ hd)).busy x hx,rfl⟩) rfl
      apart := fun q r d e hqr hd he => h.apart q r d e hqr (hchain q ▸ hd) (hchain r ▸ he)
      numbered := fun q d hd => h.numbered q d (hchain q ▸ hd)
      ready := fun q d hd => (hquiet hd).elim
      staged := fun q d hd => (hquiet (.inr hd)).elim
      queued := fun x => by
        rw [hperm.mem_iff,List.mem_cons,h.queued]
        constructor
        · rintro (rfl | ⟨q,d,hw,hi,hd⟩)
          · exact ⟨p,c,hself,rfl,(h.ready p c (.inr hp)).2⟩
          · have hqp : q ≠ p := by
              rintro rfl
              simp [hp] at hw
            exact ⟨q,d,(hcalls q hqp).trans hw,hi,hd⟩
        · rintro ⟨q,d,hw,hi,hd⟩
          by_cases hqp : q = p
          · subst hqp
            obtain rfl : c = d := by simpa [hself] using hw
            exact .inl hi.symm
          · exact .inr ⟨q,d,(hcalls q hqp).symm.trans hw,hi,hd⟩
      nodup := hperm.nodup_iff.mpr (List.nodup_cons.mpr ⟨hnot,h.nodup⟩)
      status := h.status }

theorem finish {d : Disk β} (h : Inv s) (hp : s.calls p = .wait c)
    (hdisk : (s.bufs c.b).disk = false)
    (hfree : ∀ x,x ∉ c.descs → d.free x = s.free x ∧ d.desc x = s.desc x)
    (havail : d.avail = s.avail) (hused : d.used = s.used) (hbufs : d.bufs = s.bufs)
    (hinfo : d.info = Function.update s.info c.i {s.info c.i with b := none}) (tr : List Event) :
    Inv {s with toDisk := d, calls := Function.update s.calls p .idle, trace := tr} := by
  have hc : (s.calls p).chain = some c := by rw [hp]; rfl
  have hback : ∀ {q x},Function.update s.calls p .idle q = x → x ≠ .idle → q ≠ p ∧ s.calls q = x := by
    intro q x hx hne
    by_cases hqp : q = p
    · subst hqp
      exact absurd (by simpa using hx.symm) hne
    · exact ⟨hqp,by simpa [Function.update_of_ne hqp] using hx⟩
  have hchain : ∀ {q e},(Function.update s.calls p .idle q).chain = some e →
      q ≠ p ∧ (s.calls q).chain = some e := by
    intro q e he
    obtain ⟨hqp,hq⟩ := hback (q := q) rfl (by intro h₀; rw [h₀] at he; cases he)
    exact ⟨hqp,hq ▸ he⟩
  have hstatus : ∀ x,(d.info x).status = (s.info x).status := by
    intro x
    rw [hinfo]
    by_cases hx : x = c.i
    · subst hx
      simp
    · simp [Function.update_of_ne hx]
  refine
    { panic := h.panic
      held := fun q b hq => ?_
      chain := fun q e he => ?_
      apart := fun q r e f hqr he hf =>
        h.apart q r e f hqr (hchain he).2 (hchain hf).2
      numbered := fun q e he => h.numbered q e (hchain he).2
      ready := fun q e he => ?_
      staged := fun q e he => ?_
      queued := fun x => ?_
      nodup := ?_
      status := fun x hx => ?_ }
  · obtain ⟨-,hq'⟩ := hback (q := q) rfl (by intro h₀; simp only [h₀] at hq; cases hq)
    exact h.held q b (hq' ▸ hq)
  · obtain ⟨hqp,he⟩ := hchain he
    have hne := h.ne_of_ne hqp.symm hc he
    have hdisj := (h.apart p q c e hqp.symm hc he).2
    refine (h.chain q e he).congr (fun x hx => ?_) ?_
    · obtain ⟨h₁,h₂⟩ := hfree x (fun hm => hdisj hm hx)
      exact ⟨h₁.trans ((h.chain q e he).busy x hx),h₂⟩
    · simp only [hinfo]
      rw [Function.update_of_ne hne.2.symm]
  · rw [hbufs]
    refine h.ready q e ?_
    rcases he with he | he
    · exact .inl (hback he (by simp)).2
    · exact .inr (hback he (by simp)).2
  · rw [havail]
    exact h.staged q e (hback he (by simp)).2
  · simp only [Sys.queue,havail,hused,hbufs]
    rw [← Sys.queue,h.queued]
    constructor
    · rintro ⟨q,e,hw,hi,hd⟩
      refine ⟨q,e,?_,hi,hd⟩
      refine (Function.update_of_ne ?_ _ _).trans hw
      rintro rfl
      rw [hp] at hw
      cases hw
      rw [hdisk] at hd
      cases hd
    · rintro ⟨q,e,hw,hi,hd⟩
      exact ⟨q,e,(hback hw (by simp)).2,hi,hd⟩
  · simpa only [Sys.queue,havail,hused] using h.nodup
  · rw [hstatus]
    exact h.status x (by simpa only [hused] using hx)

theorem setLock {l : Option Owner} (h : Inv s) (hl : ∀ p,s.lock ≠ some (.proc p)) :
    Inv {s with lock := l} :=
  {h with ready := fun q d hd => absurd (h.ready q d hd).1 (hl q)}

/-- The oldest entry of the used ring is for a call that still waits. -/
theorem front_used (h : Inv s) (hne : s.used.nread ≠ s.used.nwrite) :
    s.used.contents = s.used.front::s.used.drop.contents ∧
    ∃ p c,s.calls p = .wait c ∧ c.i = s.used.front ∧ (s.bufs c.b).disk = true ∧
      ChainOk s.toDisk c := by
  have hcons := Ring.Buf.contents_drop (b := s.used)
    (fun h₀ => hne ((Ring.Buf.count_eq_zero_iff _).mp h₀))
  exact ⟨hcons,h.waiter (by simp [Sys.queue,hcons])⟩

theorem clear (h : Inv s) (hl : s.lock = some .intr) (hne : s.used.nread ≠ s.used.nwrite)
    (hp : s.calls p = .wait c) (hi : c.i = s.used.front) (tr : List Event) :
    Inv {s with
      bufs := Function.update s.bufs c.b {s.bufs c.b with disk := false}
      used := s.used.drop
      trace := tr} := by
  have hc : (s.calls p).chain = some c := by rw [hp]; rfl
  obtain ⟨hcons,-⟩ := h.front_used hne
  have hperm : s.queue.Perm (c.i::({s with
      bufs := Function.update s.bufs c.b {s.bufs c.b with disk := false}
      used := s.used.drop
      trace := tr} : Sys β).queue) := by
    simp only [Sys.queue,hcons,hi]
    exact List.perm_middle
  have hnodup := hperm.nodup_iff.mp h.nodup
  have hquiet : ∀ {q d},s.calls q = .slot d ∨ s.calls q = .publish d → False := by
    intro q d hd
    have := (h.ready q d hd).1
    rw [hl] at this
    cases this
  have hother : ∀ {q e},s.calls q = .wait e → e.i ≠ c.i →
      Function.update s.bufs c.b {s.bufs c.b with disk := false} e.b = s.bufs e.b := by
    intro q e he hei
    have hqp : q ≠ p := by
      rintro rfl
      rw [hp] at he
      cases he
      exact hei rfl
    exact Function.update_of_ne (h.ne_of_ne hqp (c := e) (by rw [he]; rfl) hc).1 _ _
  exact
    {h with
      chain := fun q e he => (h.chain q e he).congr
        (fun x hx => ⟨(h.chain q e he).busy x hx,rfl⟩) rfl
      ready := fun q e he => (hquiet he).elim
      queued := fun x => by
        constructor
        · intro hx
          obtain ⟨q,e,hw,rfl,hd⟩ := (h.queued x).mp (hperm.mem_iff.mpr (List.mem_cons_of_mem _ hx))
          have hei : e.i ≠ c.i := fun heq => (List.nodup_cons.mp hnodup).1 (heq ▸ hx)
          exact ⟨q,e,hw,rfl,by simpa only [hother hw hei] using hd⟩
        · rintro ⟨q,e,hw,rfl,hd⟩
          have hei : e.i ≠ c.i := by
            intro heq
            have hqp : q = p := by
              by_contra hqp
              exact (h.ne_of_ne hqp (c := e) (by rw [hw]; rfl) hc).2 heq
            subst hqp
            rw [hp] at hw
            cases hw
            simp at hd
          simp only [hother hw hei] at hd
          have := hperm.mem_iff.mp ((h.queued e.i).mpr ⟨q,e,hw,rfl,hd⟩)
          exact (List.mem_cons.mp this).resolve_left hei
      nodup := (List.nodup_cons.mp hnodup).2
      status := fun x hx => h.status x (by
        rw [hcons]
        exact hx.imp_right (List.mem_cons_of_mem _))}

/-- A step of the device moves a head on, and changes no descriptor and no `b->disk`. -/
theorem device {t : Sys β} (h : Inv s) (hpanic : t.panic = none) (hcalls : t.calls = s.calls)
    (hlock : t.lock = s.lock) (hholder : t.holder = s.holder) (hnumber : t.number = s.number)
    (hrequests : t.requests = s.requests) (hfree : t.free = s.free) (hdesc : t.desc = s.desc)
    (hbuf : ∀ x,(t.info x).b = (s.info x).b) (hdisk : ∀ x,(t.bufs x).disk = (s.bufs x).disk)
    (havail : t.avail.data = s.avail.data ∧ t.avail.nwrite = s.avail.nwrite)
    (hqueue : t.queue.Perm s.queue)
    (hstatus : ∀ x,x ∈ t.performed ∨ x ∈ t.used.contents → (t.info x).status = 0) : Inv t where
  panic := hpanic
  held q b hb := by
    rw [hholder]
    exact h.held q b (hcalls ▸ hb)
  chain q e he := by
    rw [hcalls] at he
    refine (h.chain q e he).congr (fun x hx => ?_) (hbuf _)
    rw [hfree,hdesc]
    exact ⟨(h.chain q e he).busy x hx,rfl⟩
  apart q r e f hqr he hf := h.apart q r e f hqr (hcalls ▸ he) (hcalls ▸ hf)
  numbered q e he := by
    rw [hnumber,hrequests]
    exact h.numbered q e (hcalls ▸ he)
  ready q e he := by
    rw [hlock,hdisk]
    exact h.ready q e (hcalls ▸ he)
  staged q e he := by
    rw [havail.1,havail.2]
    exact h.staged q e (hcalls ▸ he)
  queued x := by
    rw [hqueue.mem_iff,h.queued]
    simp only [hcalls,hdisk]
  nodup := hqueue.nodup_iff.mpr h.nodup
  status := hstatus

theorem take (h : Inv s) (hne : s.avail.nread ≠ s.avail.nwrite) (tr : List Event) :
    Inv {s with avail := s.avail.drop, taken := s.taken++[s.avail.front], trace := tr} := by
  have hcons := Ring.Buf.contents_drop (b := s.avail)
    (fun h₀ => hne ((Ring.Buf.count_eq_zero_iff _).mp h₀))
  refine h.device h.panic rfl rfl rfl rfl rfl rfl rfl (fun _ => rfl) (fun _ => rfl) ⟨rfl,rfl⟩ ?_
    h.status
  simp only [Sys.queue,hcons,List.append_assoc,List.cons_append]
  rw [← List.append_assoc]
  refine (List.perm_middle).trans ?_
  simp

theorem post {i : ℕ} (h : Inv s) (hi : i ∈ s.performed) (tr : List Event) :
    s.used.count < NUM ∧
    Inv {s with performed := s.performed.erase i, used := s.used.put i, trace := tr} := by
  have hlen : s.queue.length ≤ NUM := by
    have hsub : s.queue ⊆ List.range NUM := by
      intro x hx
      obtain ⟨_,_,_,rfl,_,hok⟩ := h.waiter hx
      exact List.mem_range.mpr hok.bound.1
    simpa using (List.subperm_of_subset h.nodup hsub).length_le
  have hcount : s.used.count < NUM := by
    have hpos := List.length_pos_of_mem hi
    rw [← s.used.length_contents]
    simp only [Sys.queue,List.length_append] at hlen
    omega
  have hput : (s.used.put i).contents = s.used.contents++[i] :=
    Ring.Buf.contents_put (by decide) (by decide) hcount
  refine ⟨hcount,h.device h.panic rfl rfl rfl rfl rfl rfl rfl (fun _ => rfl) (fun _ => rfl)
    ⟨rfl,rfl⟩ ?_ fun x hx => h.status x ?_⟩
  · simp only [Sys.queue,hput]
    have h₁ : (s.performed.erase i++(s.used.contents++[i])).Perm
        (s.performed++s.used.contents) := by
      rw [← List.append_assoc]
      refine List.perm_append_comm.trans ?_
      exact ((List.perm_cons_erase hi).symm.append_right s.used.contents)
    simpa only [List.append_assoc] using (h₁.append_left s.taken).append_left s.avail.contents
  · rw [hput] at hx
    rcases hx with hx | hx
    · exact .inl (List.mem_of_mem_erase hx)
    · obtain hx | hx := List.mem_append.mp hx
      · exact .inr hx
      · exact .inl (by simpa using List.mem_singleton.mp hx ▸ hi)

/-- The device finds its request in the chain of a head that it has taken. -/
theorem perform {i : ℕ} (h : Inv s) (hi : i ∈ s.taken) :
    ∃ blocks bufs,(∀ x,(bufs x).disk = (s.bufs x).disk) ∧ s.perform i = {s with
        taken := s.taken.erase i
        performed := s.performed++[i]
        info := Function.update s.info i {s.info i with status := 0}
        trace := s.trace++[.perform (s.number i) i]
        sectors := blocks
        bufs := bufs} ∧ Inv (s.perform i) := by
  have hmem : i ∈ s.queue := by simp [Sys.queue,hi]
  obtain ⟨p,c,hw,rfl,-,hok⟩ := h.waiter hmem
  have hdata : ∃ blocks bufs,(∀ x,(bufs x).disk = (s.bufs x).disk) ∧ s.perform c.i = {s with
        taken := s.taken.erase c.i
        performed := s.performed++[c.i]
        info := Function.update s.info c.i {s.info c.i with status := 0}
        trace := s.trace++[.perform (s.number c.i) c.i]
        sectors := blocks
        bufs := bufs} := by
    simp only [Sys.perform,hok.header.1,hok.header.2.2,hok.data.1,hok.data.2.2,hok.status.1]
    split_ifs
    · exact ⟨_,_,fun _ => rfl,rfl⟩
    · refine ⟨_,_,fun x => ?_,rfl⟩
      by_cases hx : x = c.b
      · subst hx
        simp
      · simp [Function.update_of_ne hx]
  obtain ⟨blocks,bufs,hdisk,heq⟩ := hdata
  refine ⟨blocks,bufs,hdisk,heq,?_⟩
  rw [heq]
  refine h.device h.panic rfl rfl rfl rfl rfl rfl rfl (fun x => ?_) hdisk ⟨rfl,rfl⟩ ?_
    fun x hx => ?_
  · by_cases hx : x = c.i
    · subst hx
      simp
    · simp [Function.update_of_ne hx]
  · have h₁ : (s.taken.erase c.i++(s.performed++[c.i])).Perm (s.taken++s.performed) := by
      rw [← List.append_assoc]
      refine List.perm_append_comm.trans ?_
      exact ((List.perm_cons_erase hi).symm.append_right s.performed)
    have h₂ := (h₁.append_left s.avail.contents).append_right s.used.contents
    simpa only [Sys.queue,List.append_assoc] using h₂
  · by_cases hxi : x = c.i
    · subst hxi
      simp
    · have hx' : x ∈ s.performed ∨ x ∈ s.used.contents := by simpa [hxi] using hx
      simpa [Function.update_of_ne hxi] using h.status x hx'

end Inv

end Xv6.Virtio
