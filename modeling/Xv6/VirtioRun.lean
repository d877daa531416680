import Xv6.VirtioInv

/-! What the record of a run of the disk driver shows: the device reads what was published, the
handler what was posted, and a call returns after its own request. -/
namespace Xv6.Virtio

open Sys

variable {β : Type}

def publishes : List Event → List (ℕ × ℕ) :=
  List.filterMap fun | .publish n h => some (n,h) | _ => none

def takes : List Event → List (ℕ × ℕ) :=
  List.filterMap fun | .take n h => some (n,h) | _ => none

def posts : List Event → List (ℕ × ℕ) :=
  List.filterMap fun | .post n h => some (n,h) | _ => none

def clears : List Event → List (ℕ × ℕ) :=
  List.filterMap fun | .clear n h _ => some (n,h) | _ => none

@[simp] theorem publishes_append (l m : List Event) :
    publishes (l++m) = publishes l++publishes m := List.filterMap_append

@[simp] theorem takes_append (l m : List Event) : takes (l++m) = takes l++takes m :=
  List.filterMap_append

@[simp] theorem posts_append (l m : List Event) : posts (l++m) = posts l++posts m :=
  List.filterMap_append

@[simp] theorem clears_append (l m : List Event) : clears (l++m) = clears l++clears m :=
  List.filterMap_append

theorem mem_clears {l : List Event} {n h : ℕ} : (n,h) ∈ clears l ↔ ∃ b,.clear n h b ∈ l := by
  simp only [clears,List.mem_filterMap]
  constructor
  · rintro ⟨e,he,hn⟩
    cases e <;> simp at hn
    obtain ⟨rfl,rfl⟩ := hn
    exact ⟨_,he⟩
  · rintro ⟨b,hb⟩
    exact ⟨_,hb,rfl⟩

def Sys.named (s : Sys β) (l : List ℕ) : List (ℕ × ℕ) := l.map fun h => (s.number h,h)

structure Logged (s : Sys β) : Prop where
  published : publishes s.trace = takes s.trace++s.named s.avail.contents
  posted : posts s.trace = clears s.trace++s.named s.used.contents
  submitted : ∀ p c,(s.calls p).chain = some c → .submit c.n c.i c.b ∈ s.trace
  performed : ∀ h,h ∈ s.performed ∨ h ∈ s.used.contents → .perform (s.number h) h ∈ s.trace
  opened : ∀ p c,(s.calls p).chain = some c → (s.bufs c.b).disk = true →
    ∀ h b,.clear c.n h b ∉ s.trace
  closed : ∀ p c,s.calls p = .wait c → (s.bufs c.b).disk = false → .clear c.n c.i c.b ∈ s.trace
  cleared : ∀ n h b,.clear n h b ∈ s.trace →
    n < s.requests ∧ .submit n h b ∈ s.trace ∧ .perform n h ∈ s.trace
  once : ((clears s.trace).map Prod.fst).Nodup
  returned : ∀ n,.ret n ∈ s.trace → ∃ h b,.clear n h b ∈ s.trace

namespace Logged

variable {s t : Sys β} {p b : ℕ} {c : Chain}

theorem init (blockno : ℕ → ℕ) (data sectors : ℕ → β) : Logged (init blockno data sectors) := by
  have hring : (Virtio.init blockno data sectors).used.contents = [] :=
    Ring.Buf.contents_of_empty rfl
  have hring' : (Virtio.init blockno data sectors).avail.contents = [] :=
    Ring.Buf.contents_of_empty rfl
  exact
    { published := by rw [hring']; rfl
      posted := by rw [hring]; rfl
      submitted := fun _ _ h => by cases h
      performed := fun _ h => by
        rw [hring] at h
        rcases h with h | h <;> cases h
      opened := fun _ _ h => by cases h
      closed := fun _ _ h => by cases h
      cleared := fun _ _ _ h => by cases h
      once := List.nodup_nil
      returned := fun _ h => by cases h }

/-- A step that leaves no record: no request starts, ends or moves. -/
theorem quiet (h : Logged s) (htrace : t.trace = s.trace) (hnumber : t.number = s.number)
    (hrequests : t.requests = s.requests) (havail : t.avail.contents = s.avail.contents)
    (hused : t.used.contents = s.used.contents) (hperformed : t.performed = s.performed)
    (hdisk : ∀ x,(t.bufs x).disk = (s.bufs x).disk)
    (hchain : ∀ p c,(t.calls p).chain = some c → (s.calls p).chain = some c)
    (hwait : ∀ p c,t.calls p = .wait c → s.calls p = .wait c) : Logged t where
  published := by
    rw [htrace,havail,Sys.named,hnumber]
    exact h.published
  posted := by
    rw [htrace,hused,Sys.named,hnumber]
    exact h.posted
  submitted p c hc := htrace ▸ h.submitted p c (hchain p c hc)
  performed x hx := by
    rw [htrace,hnumber]
    exact h.performed x (by rwa [hperformed,hused] at hx)
  opened p c hc hd := htrace ▸ h.opened p c (hchain p c hc) (hdisk _ ▸ hd)
  closed p c hc hd := htrace ▸ h.closed p c (hwait p c hc) (hdisk _ ▸ hd)
  cleared n x b hx := by
    rw [htrace] at hx ⊢
    rw [hrequests]
    exact h.cleared n x b hx
  once := htrace ▸ h.once
  returned n hn := by
    rw [htrace] at hn ⊢
    exact h.returned n hn

/-- A step of the device or of a call that records `e` and keeps requests and buffers. -/
theorem snoc {e : Event} (h : Logged s) (htrace : t.trace = s.trace++[e])
    (he : ∀ n h b,e ≠ .clear n h b) (hnumber : t.number = s.number)
    (hrequests : t.requests = s.requests)
    (hpublished : publishes t.trace = takes t.trace++t.named t.avail.contents)
    (hposted : posts t.trace = clears s.trace++t.named t.used.contents)
    (hperformed : ∀ x,x ∈ t.performed ∨ x ∈ t.used.contents →
      (x ∈ s.performed ∨ x ∈ s.used.contents) ∨ e = .perform (s.number x) x)
    (hdisk : ∀ x,(t.bufs x).disk = (s.bufs x).disk)
    (hchain : ∀ p c,(t.calls p).chain = some c → (s.calls p).chain = some c)
    (hclosed : ∀ p c,t.calls p = .wait c → (s.bufs c.b).disk = false → s.calls p = .wait c)
    (hret : ∀ n,e = .ret n → ∃ h b,.clear n h b ∈ s.trace) : Logged t := by
  have hclears : clears [e] = [] := by
    cases e <;> simp [clears] at he ⊢
  have hmem : ∀ {x},x ∈ s.trace → x ∈ t.trace := fun hx => htrace ▸ List.mem_append_left _ hx
  have hback : ∀ {n x b},.clear n x b ∈ t.trace → .clear n x b ∈ s.trace := by
    intro n x b hx
    rw [htrace] at hx
    obtain hx | hx := List.mem_append.mp hx
    · exact hx
    · exact absurd (List.mem_singleton.mp hx).symm (he n x b)
  exact
    { published := hpublished
      posted := by
        rw [hposted,htrace,clears_append,hclears,List.append_nil]
      submitted := fun p c hc => hmem (h.submitted p c (hchain p c hc))
      performed := fun x hx => by
        rw [hnumber]
        rcases hperformed x hx with hx | rfl
        · exact hmem (h.performed x hx)
        · simp [htrace]
      opened := fun p c hc hd x b hx =>
        h.opened p c (hchain p c hc) (hdisk _ ▸ hd) x b (hback hx)
      closed := fun p c hc hd =>
        hmem (h.closed p c (hclosed p c hc (hdisk _ ▸ hd)) (hdisk _ ▸ hd))
      cleared := fun n x b hx => by
        obtain ⟨h₁,h₂,h₃⟩ := h.cleared n x b (hback hx)
        exact ⟨hrequests ▸ h₁,hmem h₂,hmem h₃⟩
      once := by
        rw [htrace,clears_append,hclears,List.append_nil]
        exact h.once
      returned := fun n hn => by
        rw [htrace] at hn
        obtain hn | hn := List.mem_append.mp hn
        · obtain ⟨x,b,hx⟩ := h.returned n hn
          exact ⟨x,b,hmem hx⟩
        · obtain ⟨x,b,hx⟩ := hret n (List.mem_singleton.mp hn).symm
          exact ⟨x,b,hmem hx⟩ }

theorem publish (hi : Inv s) (h : Logged s) (hp : s.calls p = .publish c) :
    Logged {s.setCall p (.wait c) with
      avail := s.avail.publish, lock := none, trace := s.trace++[.publish c.n c.i]} := by
  have hc : (s.calls p).chain = some c := by rw [hp]; rfl
  refine h.snoc (e := .publish c.n c.i) rfl (by simp) rfl rfl ?_ ?_ (fun x hx => .inl hx)
    (fun _ => rfl) (fun q d hd => Inv.chain_setCall (x := .wait c) hc.symm q ▸ hd)
    (fun q d hw hd => ?_) (by simp)
  · have hnamed : s.named [c.i] = [(c.n,c.i)] := by simp [Sys.named,(hi.numbered p c hc).1]
    have hput : s.named s.avail.publish.contents = s.named s.avail.contents++[(c.n,c.i)] := by
      rw [hi.queue_publish hp,Sys.named,List.map_append,← Sys.named,← Sys.named,hnamed]
    change publishes (s.trace++_) = takes (s.trace++_)++s.named s.avail.publish.contents
    rw [publishes_append,takes_append,h.published,hput]
    simp [publishes,takes]
  · change posts (s.trace++_) = _
    rw [posts_append,h.posted]
    simp [posts,Sys.named,Sys.setCall]
  · by_cases hqp : q = p
    · subst hqp
      obtain rfl : c = d := by simpa [Sys.setCall] using hw
      simp [(hi.ready q c (.inr hp)).2] at hd
    · simpa [Sys.setCall,Function.update_of_ne hqp] using hw

theorem finish {d : Disk β} (h : Logged s) (hp : s.calls p = .wait c)
    (hdisk : (s.bufs c.b).disk = false) (havail : d.avail = s.avail) (hused : d.used = s.used)
    (hbufs : d.bufs = s.bufs) :
    Logged {s with
      toDisk := d, calls := Function.update s.calls p .idle, trace := s.trace++[.ret c.n]} := by
  have hback : ∀ {q},Function.update s.calls p .idle q ≠ .idle →
      Function.update s.calls p .idle q = s.calls q := by
    intro q hq
    refine Function.update_of_ne ?_ _ _
    rintro rfl
    simp at hq
  refine h.snoc (e := .ret c.n) rfl (by simp) rfl rfl ?_ ?_
    (fun x hx => .inl (by simpa only [hused] using hx)) (fun x => by simp only [hbufs])
    (fun q e he => ?_) (fun q e hw _ => ?_) ?_
  · simp only [publishes_append,takes_append,h.published,havail]
    simp [publishes,takes,Sys.named]
  · simp only [posts_append,h.posted,hused]
    simp [posts,Sys.named]
  · have he : (Function.update s.calls p .idle q).chain = some e := he
    rwa [hback (by intro h₀; rw [h₀] at he; cases he)] at he
  · exact (hback (by simp only at hw; rw [hw]; simp)).symm.trans hw
  · intro n hn
    cases hn
    exact ⟨c.i,c.b,h.closed p c hp hdisk⟩

theorem take (h : Logged s) (hne : s.avail.nread ≠ s.avail.nwrite) :
    Logged {s with
      avail := s.avail.drop
      taken := s.taken++[s.avail.front]
      trace := s.trace++[.take (s.number s.avail.front) s.avail.front]} := by
  have hcons := Ring.Buf.contents_drop (b := s.avail)
    (fun h₀ => hne ((Ring.Buf.count_eq_zero_iff _).mp h₀))
  refine h.snoc (e := .take (s.number s.avail.front) s.avail.front) rfl (by simp) rfl rfl ?_ ?_
    (fun x hx => .inl hx) (fun _ => rfl) (fun _ _ hc => hc) (fun _ _ hw _ => hw) (by simp)
  · simp only [publishes_append,takes_append,h.published,hcons]
    simp [publishes,takes,Sys.named]
  · simp only [posts_append,h.posted]
    simp [posts,Sys.named]

theorem perform {i : ℕ} (hi : Inv s) (h : Logged s) (hm : i ∈ s.taken) : Logged (s.perform i) := by
  obtain ⟨blocks,bufs,hdisk,heq,-⟩ := hi.perform hm
  rw [heq]
  refine h.snoc (e := .perform (s.number i) i) rfl (by simp) rfl rfl ?_ ?_ (fun x hx => ?_)
    hdisk (fun _ _ hc => hc) (fun _ _ hw _ => hw) (by simp)
  · simp only [publishes_append,takes_append,h.published]
    simp [publishes,takes,Sys.named]
  · simp only [posts_append,h.posted]
    simp [posts,Sys.named]
  · by_cases hxi : x = i
    · subst hxi
      exact .inr rfl
    · exact .inl (by simpa [hxi] using hx)

theorem post {i : ℕ} (hi : Inv s) (h : Logged s) (hm : i ∈ s.performed) :
    Logged {s with
      performed := s.performed.erase i
      used := s.used.put i
      trace := s.trace++[.post (s.number i) i]} := by
  have hput : (s.used.put i).contents = s.used.contents++[i] :=
    Ring.Buf.contents_put (by decide) (by decide) (hi.post hm []).1
  refine h.snoc (e := .post (s.number i) i) rfl (by simp) rfl rfl ?_ ?_ (fun x hx => .inl ?_)
    (fun _ => rfl) (fun _ _ hc => hc) (fun _ _ hw _ => hw) (by simp)
  · simp only [publishes_append,takes_append,h.published]
    simp [publishes,takes,Sys.named]
  · simp only [posts_append,h.posted,hput]
    simp [posts,Sys.named]
  · simp only [hput] at hx
    rcases hx with hx | hx
    · exact .inl (List.mem_of_mem_erase hx)
    · obtain hx | hx := List.mem_append.mp hx
      · exact .inr hx
      · exact .inl (by simpa using List.mem_singleton.mp hx ▸ hm)

theorem submit {d : Disk β} {write : Bool} {i j k : ℕ} (hi : Inv s) (h : Logged s)
    (hp : s.calls p = .alloc b write) (hk : Keeps s.toDisk d) (hf : s.free i = true) :
    Logged {s with
      toDisk := format d b write i j k
      calls := Function.update s.calls p (.slot ⟨s.requests,b,i,j,k⟩)
      lock := some (.proc p)
      number := Function.update s.number i s.requests
      requests := s.requests+1
      trace := s.trace++[.submit s.requests i b]} := by
  have hnumber : ∀ {x},x ∈ s.queue → Function.update s.number i s.requests x = s.number x := by
    intro x hx
    obtain ⟨_,c,_,rfl,_,hok⟩ := hi.waiter hx
    refine Function.update_of_ne ?_ _ _
    rintro rfl
    have := hok.busy c.i (by simp [Chain.descs])
    rw [hf] at this
    cases this
  have hnamed : ∀ {l : List ℕ},l ⊆ s.queue →
      l.map (fun x => (Function.update s.number i s.requests x,x)) = s.named l := by
    intro l hl
    apply List.map_congr_left
    intro x hx
    rw [hnumber (hl hx)]
  have hused : s.used.contents ⊆ s.queue := List.subset_append_right _ _
  have havail : s.avail.contents ⊆ s.queue := fun x hx => by simp [Sys.queue,hx]
  have hring : (format d b write i j k).avail = s.avail ∧ (format d b write i j k).used = s.used :=
    ⟨hk.avail,hk.used⟩
  have hbuf : ∀ {q c},(s.calls q).chain = some c →
      (format d b write i j k).bufs c.b = s.bufs c.b := by
    intro q c hc
    have hne : c.b ≠ b := by
      intro heq
      have h₁ := hi.held q c.b (Call.buf_of_chain hc)
      rw [heq,hi.held p b (by rw [hp]; rfl)] at h₁
      rw [← Option.some.inj h₁,hp] at hc
      cases hc
    simp [format,Function.update_of_ne hne,hk.bufs]
  have hback : ∀ {n x y},.clear n x y ∈ s.trace++[.submit s.requests i b] →
      .clear n x y ∈ s.trace := by
    intro n x y hx
    simpa using hx
  refine
    { published := ?_
      posted := ?_
      submitted := fun q c hc => ?_
      performed := fun x hx => ?_
      opened := fun q c hc hd x y hx => ?_
      closed := fun q c hw hd => ?_
      cleared := fun n x y hx => ?_
      once := ?_
      returned := fun n hn => ?_ }
  · simp only [publishes_append,takes_append,hring.1,h.published]
    simp [publishes,takes,Sys.named,hnamed havail]
  · simp only [posts_append,clears_append,hring.2,h.posted]
    simp [posts,clears,Sys.named,hnamed hused]
  · by_cases hqp : q = p
    · subst hqp
      obtain rfl : _ = c := by simpa [Call.chain] using hc
      simp
    · simp only [Function.update_of_ne hqp] at hc
      exact List.mem_append_left _ (h.submitted q c hc)
  · simp only [hring.2] at hx
    have hmem : x ∈ s.queue := by
      simp only [Sys.queue,List.mem_append]
      rcases hx with hx | hx <;> simp [hx]
    simp only [hnumber hmem]
    exact List.mem_append_left _ (h.performed x hx)
  · replace hx := hback hx
    by_cases hqp : q = p
    · subst hqp
      obtain rfl : _ = c := by simpa [Call.chain] using hc
      exact absurd (h.cleared _ _ _ hx).1 (lt_irrefl _)
    · simp only [Function.update_of_ne hqp] at hc
      exact h.opened q c hc (by simpa only [hbuf hc] using hd) x y hx
  · by_cases hqp : q = p
    · subst hqp
      simp at hw
    · simp only [Function.update_of_ne hqp] at hw
      have hc : (s.calls q).chain = some c := by rw [hw]; rfl
      exact List.mem_append_left _ (h.closed q c hw (by simpa only [hbuf hc] using hd))
  · obtain ⟨h₁,h₂,h₃⟩ := h.cleared n x y (hback hx)
    exact ⟨Nat.lt_succ_of_lt h₁,List.mem_append_left _ h₂,List.mem_append_left _ h₃⟩
  · simpa [clears] using h.once
  · obtain ⟨x,y,hx⟩ := h.returned n (by simpa using hn)
    exact ⟨x,y,List.mem_append_left _ hx⟩

theorem clear (hi : Inv s) (h : Logged s) (hne : s.used.nread ≠ s.used.nwrite)
    (hp : s.calls p = .wait c) (hci : c.i = s.used.front) (hdisk : (s.bufs c.b).disk = true) :
    Logged {s with
      bufs := Function.update s.bufs c.b {s.bufs c.b with disk := false}
      used := s.used.drop
      trace := s.trace++[.clear (s.number s.used.front) s.used.front c.b]} := by
  have hc : (s.calls p).chain = some c := by rw [hp]; rfl
  obtain ⟨hcons,-⟩ := hi.front_used hne
  have hn : s.number s.used.front = c.n := hci ▸ (hi.numbered p c hc).1
  rw [hn,← hci]
  have hbuf : ∀ {q e},q ≠ p → (s.calls q).chain = some e →
      Function.update s.bufs c.b {s.bufs c.b with disk := false} e.b = s.bufs e.b :=
    fun hqp he => Function.update_of_ne (hi.ne_of_ne hqp he hc).1 _ _
  refine
    { published := ?_
      posted := ?_
      submitted := fun q e he => List.mem_append_left _ (h.submitted q e he)
      performed := fun x hx => List.mem_append_left _ (h.performed x ?_)
      opened := fun q e he hd x y hx => ?_
      closed := fun q e hw hd => ?_
      cleared := fun n x y hx => ?_
      once := ?_
      returned := fun n hn => ?_ }
  · simp only [publishes_append,takes_append,h.published]
    simp [publishes,takes,Sys.named]
  · simp only [posts_append,clears_append,h.posted,hcons]
    simp [posts,clears,Sys.named,hn,hci]
  · rw [hcons]
    exact hx.imp_right (List.mem_cons_of_mem _)
  · have hqp : q ≠ p := by
      rintro rfl
      rw [hc] at he
      cases he
      simp at hd
    obtain hx | hx := List.mem_append.mp hx
    · exact h.opened q e he (by simpa only [hbuf hqp he] using hd) x y hx
    · obtain ⟨hen,-⟩ : e.n = c.n ∧ _ := by simpa using hx
      exact (hi.apart q p e c hqp he hc).1 hen
  · by_cases hqp : q = p
    · subst hqp
      obtain rfl : c = e := by simpa [hp] using hw
      simp
    · have he : (s.calls q).chain = some e := by simp only at hw; rw [hw]; rfl
      exact List.mem_append_left _ (h.closed q e hw (by simpa only [hbuf hqp he] using hd))
  · obtain hx | hx := List.mem_append.mp hx
    · obtain ⟨h₁,h₂,h₃⟩ := h.cleared n x y hx
      exact ⟨h₁,List.mem_append_left _ h₂,List.mem_append_left _ h₃⟩
    · obtain ⟨rfl,rfl,rfl⟩ : n = c.n ∧ x = c.i ∧ y = c.b := by simpa using hx
      refine ⟨(hi.numbered p c hc).2,List.mem_append_left _ (h.submitted p c hc),
        List.mem_append_left _ ?_⟩
      rw [← hn,hci]
      exact h.performed _ (.inr (by simp [hcons]))
  · simp only [clears_append,List.map_append]
    refine List.nodup_append.mpr ⟨h.once,by simp [clears],fun a ha b hb hab => ?_⟩
    obtain rfl : b = c.n := by simpa [clears] using hb
    obtain ⟨⟨n,x⟩,hx,rfl⟩ := List.mem_map.mp ha
    obtain ⟨y,hy⟩ := mem_clears.mp hx
    simp only at hab
    subst hab
    exact h.opened p c hc hdisk x y hy
  · obtain ⟨x,y,hx⟩ := h.returned n (by simpa using hn)
    exact ⟨x,y,List.mem_append_left _ hx⟩

end Logged

section Steps

variable {s t : Sys β} {p : ℕ}

theorem inv_alloc {b : ℕ} {write : Bool} (h : Inv s ∧ Logged s) (hp : s.calls p = .alloc b write)
    (hl : s.lock = none) : Inv (s.alloc p b write) ∧ Logged (s.alloc p b write) := by
  obtain ⟨d,hd,hk⟩ | ⟨i,j,k,d,hd,hk,hb,hn,hf⟩ := alloc3Desc_spec s.toDisk
  · simp only [Sys.alloc,hd]
    refine ⟨h.1.keeps hk,h.2.quiet rfl rfl rfl ?_ ?_ rfl (fun x => ?_) (fun _ _ hc => hc)
      (fun _ _ hw => hw)⟩
    · simp only [hk.avail]
    · simp only [hk.used]
    · simp only [hk.bufs]
  · simp only [Sys.alloc,hd]
    exact ⟨h.1.submit hp hl hk hb hn hf _,.submit h.1 h.2 hp hk (hf i (by simp)).1⟩

theorem inv_resume {c : Chain} (h : Inv s ∧ Logged s) (hp : s.calls p = .wait c) :
    Inv (s.resume p c) ∧ Logged (s.resume p c) := by
  rw [Sys.resume]
  split_ifs with hdisk
  · exact h
  have hdisk : (s.bufs c.b).disk = false := by simpa using hdisk
  have hok := h.1.chain p c (by rw [hp]; rfl)
  obtain ⟨d,hd,hfree,havail,hused,hbufs,hinfo⟩ :=
    hok.freeChain (Function.update s.info c.i {s.info c.i with b := none})
  simp only [hd]
  exact ⟨h.1.finish hp hdisk hfree havail hused hbufs hinfo _,
    h.2.finish hp hdisk havail hused hbufs⟩

theorem inv_intrLoop (h : Inv s ∧ Logged s) (hl : s.lock = some .intr) :
    Inv s.intrLoop ∧ Logged s.intrLoop := by
  rw [Sys.intrLoop]
  split_ifs with hne hstatus
  · exact ⟨h.1.setLock (by simp [hl]),h.2.quiet rfl rfl rfl rfl rfl rfl (fun _ => rfl)
      (fun _ _ hc => hc) (fun _ _ hw => hw)⟩
  · obtain ⟨hcons,-⟩ := h.1.front_used hne
    exact absurd (h.1.status s.used.front (.inr (by simp [hcons]))) hstatus
  · obtain ⟨-,p,c,hp,hi,hdisk,hok⟩ := h.1.front_used hne
    have hbuf : (s.info s.used.front).b = some c.b := hi ▸ hok.buf
    simp only [hbuf]
    exact ⟨h.1.clear hl hne hp hi _,.clear h.1 h.2 hne hp hi hdisk⟩

theorem inv_step {a : Action} (h : Inv s ∧ Logged s) (hstep : step s a = some t) :
    Inv t ∧ Logged t := by
  rw [step.eq_def,if_neg (by simp [h.1.panic])] at hstep
  cases a with
  | acquiresleep p b =>
    simp only [Option.ite_none_right_eq_some,Option.some.injEq] at hstep
    obtain ⟨hb,rfl⟩ := hstep
    exact ⟨h.1.acquiresleep hb,h.2.quiet rfl rfl rfl rfl rfl rfl (fun _ => rfl)
      (fun _ _ hc => hc) (fun _ _ hw => hw)⟩
  | releasesleep p b =>
    simp only [Option.ite_none_right_eq_some,Option.some.injEq] at hstep
    obtain ⟨⟨hb,hp⟩,rfl⟩ := hstep
    exact ⟨h.1.releasesleep hb hp,h.2.quiet rfl rfl rfl rfl rfl rfl (fun _ => rfl)
      (fun _ _ hc => hc) (fun _ _ hw => hw)⟩
  | virtioDiskRw p b write =>
    simp only [Option.ite_none_right_eq_some,Option.some.injEq] at hstep
    obtain ⟨⟨hb,hp⟩,rfl⟩ := hstep
    have hchain : (Call.alloc b write).chain = (s.calls p).chain := by rw [hp]; rfl
    refine ⟨h.1.setCall rfl (by rw [hp]; rfl) ?_,?_⟩
    · rintro x hx
      cases hx
      exact hb
    · refine h.2.quiet rfl rfl rfl rfl rfl rfl (fun _ => rfl)
        (fun q c hc => Inv.chain_setCall hchain q ▸ hc) (fun q c hw => ?_)
      by_cases hqp : q = p
      · subst hqp
        simp [Sys.setCall] at hw
      · simpa [Sys.setCall,Function.update_of_ne hqp] using hw
  | alloc p =>
    simp only at hstep
    split at hstep
    · rename_i b write hp hl
      obtain rfl := Option.some.inj hstep
      exact inv_alloc h hp hl
    · cases hstep
  | slot p =>
    simp only at hstep
    split at hstep
    · rename_i c hp
      obtain rfl := Option.some.inj hstep
      have hc : (s.calls p).chain = some c := by rw [hp]; rfl
      refine ⟨h.1.slot hp,h.2.quiet rfl rfl rfl ?_ rfl rfl (fun _ => rfl)
        (fun q c' hc' => Inv.chain_setCall (x := .publish c) hc.symm q ▸ hc') fun q c' hw => ?_⟩
      · exact Ring.Buf.contents_stage (by decide) (h.1.avail_count_lt hc (by simp [hp]))
      · by_cases hqp : q = p
        · subst hqp
          simp [Sys.setCall] at hw
        · simpa [Sys.setCall,Function.update_of_ne hqp] using hw
    · cases hstep
  | publish p =>
    simp only at hstep
    split at hstep
    · rename_i c hp
      obtain rfl := Option.some.inj hstep
      exact ⟨h.1.publish hp _,.publish h.1 h.2 hp⟩
    · cases hstep
  | resume p =>
    simp only at hstep
    split at hstep
    · rename_i c hp _
      obtain rfl := Option.some.inj hstep
      exact inv_resume h hp
    · cases hstep
  | virtioDiskIntr =>
    simp only [Option.ite_none_right_eq_some,Option.some.injEq] at hstep
    obtain ⟨hl,rfl⟩ := hstep
    exact ⟨h.1.setLock (by simp [hl]),h.2.quiet rfl rfl rfl rfl rfl rfl (fun _ => rfl)
      (fun _ _ hc => hc) (fun _ _ hw => hw)⟩
  | intrLoop =>
    simp only [Option.ite_none_right_eq_some,Option.some.injEq] at hstep
    obtain ⟨hl,rfl⟩ := hstep
    exact inv_intrLoop h hl
  | take =>
    simp only [Option.ite_none_left_eq_some,Option.some.injEq] at hstep
    obtain ⟨hne,rfl⟩ := hstep
    exact ⟨h.1.take hne _,h.2.take hne⟩
  | perform i =>
    simp only [Option.ite_none_right_eq_some,Option.some.injEq] at hstep
    obtain ⟨hi,rfl⟩ := hstep
    obtain ⟨_,_,_,_,hinv⟩ := h.1.perform hi
    exact ⟨hinv,.perform h.1 h.2 hi⟩
  | post i =>
    simp only [Option.ite_none_right_eq_some,Option.some.injEq] at hstep
    obtain ⟨hi,rfl⟩ := hstep
    exact ⟨(h.1.post hi _).2,.post h.1 h.2 hi⟩

/-- The request protocol as a state and its record show it. Every state of a run is the last
one of a shorter run, so that what is recorded was recorded in this order. -/
structure Protocol (s : Sys β) : Prop where
  disjoint : ∀ p q c d,p ≠ q → (s.calls p).chain = some c → (s.calls q).chain = some d →
    c.descs.Disjoint d.descs
  busy : ∀ p c,(s.calls p).chain = some c → ∀ x ∈ c.descs,s.free x = false
  /-- The device read in the avail ring what the driver published, in order. -/
  taken : takes s.trace <+: publishes s.trace
  /-- The handler read in the used ring what the device posted, in order. -/
  seen : clears s.trace <+: posts s.trace
  /-- A call returns after `b->disk` was cleared for its request. -/
  returned : ∀ n,.ret n ∈ s.trace → ∃ h b,.clear n h b ∈ s.trace
  /-- What is cleared is the buffer submitted under the head, and its request is done. -/
  cleared : ∀ n h b,.clear n h b ∈ s.trace → .submit n h b ∈ s.trace ∧ .perform n h ∈ s.trace
  once : ((clears s.trace).map Prod.fst).Nodup
  flag : ∀ p c,s.calls p = .wait c →
    ((s.bufs c.b).disk = false ↔ .clear c.n c.i c.b ∈ s.trace)
  panic : s.panic = none

theorem protocol_of_inv (h : Inv s ∧ Logged s) : Protocol s where
  disjoint p q c d hpq hc hd := (h.1.apart p q c d hpq hc hd).2
  busy p c hc := (h.1.chain p c hc).busy
  taken := ⟨_,h.2.published.symm⟩
  seen := ⟨_,h.2.posted.symm⟩
  returned := h.2.returned
  cleared n x b hx := (h.2.cleared n x b hx).2
  once := h.2.once
  flag p c hw := by
    refine ⟨h.2.closed p c hw,fun hx => ?_⟩
    by_contra hd
    exact h.2.opened p c (by rw [hw]; rfl) (by simpa using hd) c.i c.b hx
  panic := h.1.panic

end Steps

/-- The request protocol holds in every state of every run of calls, interrupts and device. -/
theorem virtio_protocol (blockno : ℕ → ℕ) (data sectors : ℕ → β) (as : List Action) (s : Sys β)
    (hrun : Machine.run step (init blockno data sectors) as = some s) : Protocol s := by
  let inv : Sys β → Prop := fun s => Inv s ∧ Logged s
  have hinv : inv s := Machine.run_invariant (fun _ _ _ h ht => inv_step h ht)
    ⟨.init blockno data sectors,.init blockno data sectors⟩ hrun
  exact protocol_of_inv hinv

/-- Two requests under way, a third call that waits for descriptors, and completions in the other
order that one interrupt handles. -/
def crossedRun : List Action :=
  [.acquiresleep 0 0,.virtioDiskRw 0 0 false,.alloc 0,.slot 0,.publish 0,
    .acquiresleep 1 1,.virtioDiskRw 1 1 true,.alloc 1,.take,.slot 1,.publish 1,.take,
    .acquiresleep 2 2,.virtioDiskRw 2 2 false,.alloc 2,
    .perform 3,.post 3,.perform 0,.post 0,.virtioDiskIntr,.intrLoop,.intrLoop,.intrLoop,
    .resume 0,.resume 1,.alloc 2]

theorem virtio_protocol_crossed : ∃ s : Sys ℕ,
    Machine.run step (init id id id) crossedRun = some s ∧
      takes s.trace = [(0,0),(1,3)] ∧ clears s.trace = [(1,3),(0,0)] ∧ Protocol s := by
  have hrun : (Machine.run step (init id id (id : ℕ → ℕ)) crossedRun).isSome = true := by
    decide +kernel
  obtain ⟨s,hs⟩ := Option.isSome_iff_exists.mp hrun
  have htrace : (Machine.run step (init id id (id : ℕ → ℕ)) crossedRun).map
      (fun s => (takes s.trace,clears s.trace)) = some ([(0,0),(1,3)],[(1,3),(0,0)]) := by
    decide +kernel
  rw [hs] at htrace
  obtain ⟨h₁,h₂⟩ : takes s.trace = _ ∧ clears s.trace = _ := by simpa using htrace
  exact ⟨s,hs,h₁,h₂,virtio_protocol id id id crossedRun s hs⟩

end Xv6.Virtio
