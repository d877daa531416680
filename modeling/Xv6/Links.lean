import Mathlib.Tactic

/-! Linked lists in a pointer map. `Path next a l b` says that following `next` from `a` meets the
nodes of `l` in order and then `b`; a circular list is a path from a node to itself. -/
namespace Links

variable {α : Type}

def Path (next : α → α) : α → List α → α → Prop
  | a, [], b => next a = b
  | a, x::l, b => next a = x ∧ Path next x l b

variable {next next' : α → α} {a b x : α} {l r : List α}

@[simp] theorem path_nil : Path next a [] b ↔ next a = b := Iff.rfl

@[simp] theorem path_cons : Path next a (x::l) b ↔ next a = x ∧ Path next x l b := Iff.rfl

theorem path_append : Path next a (l++x::r) b ↔ Path next a l x ∧ Path next x r b := by
  induction l generalizing a with
  | nil => rfl
  | cons y l ih => simp only [List.cons_append,path_cons,ih,and_assoc]

theorem Path.rotate (h : Path next a (l++x::r) a) : Path next x (r++a::l) x := by
  obtain ⟨hl,hr⟩ := path_append.mp h
  exact path_append.mpr ⟨hr,hl⟩

theorem Path.enter (h : Path next a l a) (hx : x ∈ a::l) :
    ∃ l', Path next x l' x ∧ (x::l').Perm (a::l) := by
  rcases List.mem_cons.mp hx with rfl | hx
  · exact ⟨l,h,.refl _⟩
  · obtain ⟨u,v,rfl⟩ := List.append_of_mem hx
    refine ⟨v++a::u,h.rotate,?_⟩
    have hperm : ((x::v)++(a::u)).Perm ((a::u)++(x::v)) := List.perm_append_comm
    simpa using hperm

theorem Path.from_last (h : Path next a (l++r) b) :
    Path next ((a::l).getLast (List.cons_ne_nil a l)) r b := by
  induction l generalizing a with
  | nil => exact h
  | cons x l ih =>
    rw [List.getLast_cons_cons]
    exact ih h.2

theorem Path.congr (h : Path next a l b) (heq : ∀ y ∈ a::l, next' y = next y) :
    Path next' a l b := by
  induction l generalizing a with
  | nil => exact (heq a List.mem_cons_self).trans h
  | cons x l ih =>
    exact ⟨(heq a List.mem_cons_self).trans h.1,
      ih h.2 fun y hy => heq y (List.mem_cons_of_mem a hy)⟩

theorem Path.start (h : Path next b l x) (ha : next' a = next b) (heq : ∀ y ∈ l, next' y = next y) :
    Path next' a l x := by
  cases l with
  | nil => exact ha.trans h
  | cons y l => exact ⟨ha.trans h.1,h.2.congr heq⟩

theorem Path.next_eq (h : Path next a l b) : next a = (l++[b]).head (by simp) := by
  cases l with
  | nil => exact h
  | cons x l => exact h.1

theorem Path.next_mem (h : Path next a l b) {y : α} (hy : y ∈ a::l) :
    next y ∈ l ∨ next y = b := by
  induction l generalizing a with
  | nil =>
    rw [List.mem_singleton] at hy
    subst hy
    exact .inr h
  | cons x l ih =>
    rcases List.mem_cons.mp hy with rfl | hy
    · exact .inl (h.1 ▸ List.mem_cons_self)
    · rcases ih h.2 hy with hmem | hend
      · exact .inl (List.mem_cons_of_mem x hmem)
      · exact .inr hend

theorem Path.next_inj (h : Path next a l b) (hnodup : (l++[b]).Nodup) {y z : α} (hy : y ∈ a::l)
    (hz : z ∈ a::l) (heq : next y = next z) : y = z := by
  induction l generalizing a with
  | nil => rw [List.mem_singleton.mp hy,List.mem_singleton.mp hz]
  | cons x l ih =>
    obtain ⟨hx,hnodup⟩ := List.nodup_cons.mp hnodup
    have hlater : ∀ w ∈ x::l, next w ≠ x := by
      rintro w hw hwx
      rcases h.2.next_mem hw with hmem | hend
      · exact hx (List.mem_append_left _ (hwx ▸ hmem))
      · exact hx (by simp [← hwx,hend])
    rcases List.mem_cons.mp hy with hya | hyl <;> rcases List.mem_cons.mp hz with hza | hzl
    · rw [hya,hza]
    · exact absurd (heq.symm.trans (hya ▸ h.1)) (hlater z hzl)
    · exact absurd (heq.trans (hza ▸ h.1)) (hlater y hyl)
    · exact ih h.2 hnodup hyl hzl

/-- A circular list through `a` that is linked in both directions. -/
structure Both (next prev : α → α) (a : α) (l : List α) : Prop where
  forward : Path next a l a
  backward : Path prev a l.reverse a

namespace Both

variable {prev : α → α}

theorem symm (h : Both next prev a l) : Both prev next a l.reverse :=
  ⟨h.backward,by rw [List.reverse_reverse]; exact h.forward⟩

theorem prev_eq (h : Both next prev a (l++x::r)) :
    prev x = (a::l).getLast (List.cons_ne_nil a l) := by
  have hb := h.backward
  rw [List.reverse_append,List.reverse_cons,List.append_assoc,List.singleton_append] at hb
  rw [(path_append.mp hb).2.next_eq]
  simp only [← List.reverse_cons,List.head_reverse]

theorem next_eq (h : Both next prev a (l++x::r)) :
    next x = (a::r.reverse).getLast (List.cons_ne_nil a r.reverse) := by
  have hs : Both prev next a (r.reverse++x::l.reverse) := by simpa using h.symm
  exact hs.prev_eq

theorem next_start (h : Both next prev a l) :
    next a = (a::l.reverse).getLast (List.cons_ne_nil a l.reverse) := by
  cases l with
  | nil => exact h.forward
  | cons y l =>
    rw [h.forward.1]
    simp

end Both

section Sorted

variable [LinearOrder α]

theorem Path.lt_next (h : Path next a l b) (hs : (a::l).Pairwise (· < ·)) {y : α}
    (hy : y ∈ a::l) : y < next y ∨ next y = b := by
  induction l generalizing a with
  | nil =>
    rw [List.mem_singleton] at hy
    subst hy
    exact .inr h
  | cons x l ih =>
    rcases List.mem_cons.mp hy with rfl | hy
    · rw [h.1]
      exact .inl ((List.pairwise_cons.mp hs).1 x List.mem_cons_self)
    · exact ih h.2 (List.pairwise_cons.mp hs).2 hy

end Sorted

variable [DecidableEq α]

theorem Path.update (h : Path next a l b) (hx : x ∉ a::l) (v : α) :
    Path (Function.update next x v) a l b := by
  refine h.congr fun y hy => Function.update_of_ne ?_ _ _
  rintro rfl
  exact hx hy

theorem Path.set_last (h : Path next a (l++r) b) (hnodup : (a::l).Nodup) (x : α) :
    Path (Function.update next ((a::l).getLast (List.cons_ne_nil a l)) x) a l x := by
  induction l generalizing a with
  | nil => exact Function.update_self ..
  | cons y l ih =>
    obtain ⟨ha,hnodup⟩ := List.nodup_cons.mp hnodup
    rw [List.getLast_cons_cons]
    refine ⟨?_,ih h.2 hnodup⟩
    rw [Function.update_of_ne]
    · exact h.1
    · rintro rfl
      exact ha (List.getLast_mem _)

/-- A node is taken out by letting the one before it point behind it. -/
theorem Path.bypass (h : Path next a (l++x::r) b) (hnodup : (a::(l++x::r)).Nodup) :
    Path (Function.update next ((a::l).getLast (List.cons_ne_nil a l)) (next x)) a (l++r) b := by
  induction l generalizing a with
  | nil =>
    have hr : a ∉ x::r := (List.nodup_cons.mp hnodup).1
    refine h.2.start (Function.update_self ..) fun y hy => Function.update_of_ne ?_ _ _
    rintro rfl
    exact hr (List.mem_cons_of_mem x hy)
  | cons y l ih =>
    obtain ⟨ha,hnodup⟩ := List.nodup_cons.mp hnodup
    rw [List.getLast_cons_cons]
    refine ⟨?_,ih h.2 hnodup⟩
    rw [Function.update_of_ne]
    · exact h.1
    · rintro rfl
      exact ha (List.mem_append_left _ (List.getLast_mem _))

namespace Both

variable {prev : α → α}

theorem unlink (h : Both next prev a (l++x::r)) (hnodup : (a::(l++x::r)).Nodup) :
    Both (Function.update next (prev x) (next x)) (Function.update prev (next x) (prev x))
      a (l++r) := by
  constructor
  · rw [h.prev_eq]
    exact h.forward.bypass hnodup
  · have hb := h.backward
    rw [List.reverse_append,List.reverse_cons,List.append_assoc,List.singleton_append] at hb
    rw [h.next_eq,List.reverse_append]
    refine hb.bypass ?_
    have hperm : (r.reverse++x::l.reverse).Perm (l++x::r) := by
      simpa using List.reverse_perm (l++x::r)
    exact (hperm.cons a).nodup_iff.mpr hnodup

theorem push (h : Both next prev a l) (hnodup : (a::l).Nodup) (hx : x ∉ a::l) :
    Both (Function.update (Function.update next x (next a)) a x)
      (Function.update (Function.update prev x a) (next a) x) a (x::l) := by
  have hxa : x ≠ a := fun heq => hx (heq ▸ List.mem_cons_self)
  have hxl : x ∉ l := fun hm => hx (List.mem_cons_of_mem a hm)
  constructor
  · refine ⟨Function.update_self ..,h.forward.start ?_ fun y hy => ?_⟩
    · rw [Function.update_of_ne hxa,Function.update_self]
    · rw [Function.update_of_ne,Function.update_of_ne]
      · rintro rfl
        exact hxl hy
      · rintro rfl
        exact (List.nodup_cons.mp hnodup).1 hy
  · have hne : x ≠ next a := by
      intro heq
      rcases h.forward.next_mem (y := a) List.mem_cons_self with hm | he
      · exact hxl (heq ▸ hm)
      · exact hxa (heq.trans he)
    have hperm : (a::l.reverse).Perm (a::l) := (List.reverse_perm l).cons a
    rw [List.reverse_cons]
    refine path_append.mpr ⟨?_,?_⟩
    · rw [h.next_start]
      refine Path.set_last (r := []) (b := a) ?_ (hperm.nodup_iff.mpr hnodup) x
      rw [List.append_nil]
      exact h.backward.update (fun hm => hx (hperm.mem_iff.mp hm)) a
    · rw [path_nil,Function.update_of_ne hne,Function.update_self]

end Both

end Links
