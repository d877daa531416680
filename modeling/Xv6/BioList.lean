import Xv6.Bio

/-! The list of buffers of `kernel/bio.c`: what its loops find, and the order that `brelse` keeps
it in, told by the record of releases alone. -/
namespace Xv6.Bio

open Links

variable {β : Type}

/-- The list holds the buffers `ns`, most recently used first, and each once. -/
structure Holds (l : List2) (ns : List ℕ) : Prop where
  both : Both l.next l.prev head ns
  perm : ns.Perm (List.range NBUF)

theorem Holds.both_push {l : List2} {ns : List ℕ} {b : ℕ} (h : Both l.next l.prev head ns)
    (hnodup : (head::ns).Nodup) (hb : b ∉ head::ns) :
    Both (l.push b).next (l.push b).prev head (b::ns) := by
  have hne : head ≠ b := fun heq => hb (heq ▸ List.mem_cons_self)
  have := h.push hnodup hb
  simpa only [List2.push,Function.update_of_ne hne] using this

theorem Holds.binit : Holds List2.binit (List.range NBUF).reverse := by
  have hfold : ∀ n ≤ NBUF,Both ((List.range n).foldl List2.push ⟨fun _ => head,fun _ => head⟩).next
      ((List.range n).foldl List2.push ⟨fun _ => head,fun _ => head⟩).prev head
      (List.range n).reverse := by
    intro n hn
    induction n with
    | zero => exact ⟨rfl,rfl⟩
    | succ n ih =>
      rw [List.range_succ,List.foldl_append,List.reverse_append]
      have hn : n < head := hn
      refine Holds.both_push (ih hn.le) ?_ ?_
      · refine List.nodup_cons.mpr ⟨fun hm => ?_,List.nodup_reverse.mpr List.nodup_range⟩
        exact absurd (List.mem_range.mp (List.mem_reverse.mp hm)) hn.not_gt
      · simp [hn.ne]
  exact ⟨hfold NBUF le_rfl,List.reverse_perm _⟩

namespace Holds

variable {l : List2} {ns : List ℕ} {b : ℕ}

theorem mem_iff (h : Holds l ns) : b ∈ ns ↔ b < NBUF := by
  rw [h.perm.mem_iff,List.mem_range]

theorem nodup (h : Holds l ns) : ns.Nodup := h.perm.nodup_iff.mpr List.nodup_range

theorem head_notMem (h : Holds l ns) : head ∉ ns := fun hm => lt_irrefl _ (h.mem_iff.mp hm)

theorem length (h : Holds l ns) : ns.length = NBUF := by
  rw [h.perm.length_eq,List.length_range]

theorem moveToFront (h : Holds l ns) (hb : b < NBUF) :
    Holds (l.moveToFront b) (b::ns.erase b) := by
  have hmem := h.mem_iff.mpr hb
  refine ⟨?_,(List.perm_cons_erase hmem).symm.trans h.perm⟩
  obtain ⟨u,v,-,hns,herase⟩ := List.exists_erase_eq hmem
  have hnodup : (head::(u++b::v)).Nodup :=
    List.nodup_cons.mpr ⟨hns ▸ h.head_notMem,hns ▸ h.nodup⟩
  have hboth : Both l.next l.prev head (u++b::v) := hns ▸ h.both
  rw [herase]
  have hself : l.next b ≠ b := by
    rw [hboth.next_eq]
    intro heq
    have hm := heq ▸ List.getLast_mem (List.cons_ne_nil head v.reverse)
    have hsub : b ∈ head::v := by simpa using hm
    rcases List.mem_cons.mp hsub with rfl | hv
    · exact lt_irrefl _ hb
    · exact (List.nodup_middle.mp (List.nodup_cons.mp hnodup).2 |> List.nodup_cons.mp).1
        (List.mem_append_right u hv)
  have hfresh : b ∉ head::(u++v) := by
    have := (List.nodup_middle.mp (List.nodup_cons.mp hnodup).2 |> List.nodup_cons.mp).1
    refine List.not_mem_cons_of_ne_of_not_mem (fun heq => ?_) this
    exact absurd (heq ▸ hb) (lt_irrefl _)
  have hrest : (head::(u++v)).Nodup := by
    refine hnodup.sublist (List.Sublist.cons_cons _ ?_)
    exact (List.Sublist.refl u).append (List.sublist_cons_self b v)
  have := Holds.both_push (l := ⟨Function.update l.next (l.prev b) (l.next b),
    Function.update l.prev (l.next b) (l.prev b)⟩) (hboth.unlink hnodup) hrest hfresh
  simpa only [List2.moveToFront,Function.update_of_ne hself.symm] using this

end Holds

theorem scan_eq {link : ℕ → ℕ} {test : ℕ → Bool} {a : ℕ} {l : List ℕ} (h : Path link a l head)
    (hl : head ∉ l) {k : ℕ} (hk : l.length < k) : scan link test k (link a) = l.find? test := by
  induction l generalizing a k with
  | nil =>
    obtain ⟨k,rfl⟩ : ∃ m,k = m+1 := ⟨k-1,by simp at hk; omega⟩
    rw [path_nil.mp h,scan,if_pos rfl,List.find?_nil]
  | cons x l ih =>
    obtain ⟨k,rfl⟩ : ∃ m,k = m+1 := ⟨k-1,by simp at hk; omega⟩
    obtain ⟨hx,hl⟩ : head ≠ x ∧ head ∉ l := by simpa using hl
    rw [h.1,scan,if_neg hx.symm,List.find?_cons]
    cases hp : test x with
    | true => simp
    | false =>
      simp only [Bool.false_eq_true,if_false]
      exact ih h.2 hl (by simpa using hk)

/-- When a `brelse` last took `refcnt` of a buffer to 0. -/
def lastRelease : List (Event β) → ℕ → Option ℕ
  | [], _ => none
  | .release c::l, b => if b = c then some l.length else lastRelease l b
  | _::l, b => lastRelease l b

/-- `b` was released before `c`; what was never released is oldest, in the order of `binit`. -/
def Older (l : List (Event β)) (b c : ℕ) : Prop :=
  match lastRelease l b,lastRelease l c with
  | none,none => b < c
  | none,some _ => True
  | some _,none => False
  | some t,some u => t < u

theorem lastRelease_lt {l : List (Event β)} {b t : ℕ} (h : lastRelease l b = some t) :
    t < l.length := by
  induction l with
  | nil => cases h
  | cons e l ih =>
    have hlater : lastRelease l b = some t → t < (e::l).length :=
      fun h => (ih h).trans (Nat.lt_succ_self _)
    cases e with
    | release c =>
      rw [lastRelease] at h
      split_ifs at h with hbc
      · cases h
        exact Nat.lt_succ_self _
      · exact hlater h
    | bread n x => exact hlater h
    | store n x => exact hlater h
    | bwrite n x => exact hlater h
    | evict n => exact hlater h

def Ordered (l : List (Event β)) (ns : List ℕ) : Prop := ns.Pairwise fun c b => Older l b c

theorem ordered_reverse_range (n : ℕ) : Ordered ([] : List (Event β)) (List.range n).reverse := by
  rw [Ordered,List.pairwise_reverse]
  exact List.pairwise_lt_range

theorem Ordered.cons {l : List (Event β)} {ns : List ℕ} {e : Event β} (h : Ordered l ns)
    (he : ∀ b,e ≠ .release b) : Ordered (e::l) ns := by
  have heq : ∀ b,lastRelease (e::l) b = lastRelease l b := by
    intro b
    cases e with
    | release c => exact absurd rfl (he c)
    | _ => rfl
  simpa only [Ordered,Older,heq] using h

theorem Ordered.release {l : List (Event β)} {ns : List ℕ} {b : ℕ} (h : Ordered l ns)
    (hnodup : ns.Nodup) : Ordered (.release b::l) (b::ns.erase b) := by
  have hother : ∀ {c},c ≠ b → lastRelease (.release b::l) c = lastRelease l c :=
    fun hc => if_neg hc
  have hne : ∀ {c},c ∈ ns.erase b → c ≠ b := fun hc => (hnodup.mem_erase_iff.mp hc).1
  refine List.pairwise_cons.mpr ⟨fun c hc => ?_,?_⟩
  · rw [Older,hother (hne hc),show lastRelease (.release b::l) b = some l.length from if_pos rfl]
    cases hlast : lastRelease l c with
    | none => trivial
    | some t => exact lastRelease_lt hlast
  · refine (h.sublist List.erase_sublist).imp_of_mem fun hc hd hcd => ?_
    rwa [Older,hother (hne hc),hother (hne hd)]

/-- The loop of `bget` over `prev` finds the buffer that was released longest ago. -/
theorem oldest_of_find {l : List (Event β)} {ns : List ℕ} {test : ℕ → Bool} {b c : ℕ}
    (h : Ordered l ns) (hb : ns.reverse.find? test = some b) (hc : c ∈ ns) (hcb : c ≠ b)
    (ht : test c = true) : Older l b c := by
  obtain ⟨-,u,v,huv,hu⟩ := List.find?_eq_some_iff_append.mp hb
  have hrev : ns.reverse.Pairwise fun b c => Older l b c := List.pairwise_reverse.mpr h
  rw [huv] at hrev
  have hmem : c ∈ u++b::v := huv ▸ List.mem_reverse.mpr hc
  rcases List.mem_append.mp hmem with hcu | hcv
  · exact absurd ht (by simpa using hu c hcu)
  · have hcv := (List.mem_cons.mp hcv).resolve_left hcb
    exact (List.pairwise_cons.mp (List.pairwise_append.mp hrev).2.1).1 c hcv

end Xv6.Bio
