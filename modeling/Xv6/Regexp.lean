import Mathlib.Tactic
import Mathlib.Computability.Language

/-! Patterns that are sequences of symbols and repeated symbols, and the prefixes of a text that
belong to their language. `fits s a` says that the symbol `s` stands for the letter `a`. -/
namespace Regexp

variable {σ α : Type}

inductive Item (σ : Type)
  | one (s : σ)
  | star (s : σ)

variable (fits : σ → α → Prop)

def symbol (s : σ) : Language α := {w | ∃ a, fits s a ∧ w = [a]}

def Item.lang : Item σ → Language α
  | .one s => symbol fits s
  | .star s => KStar.kstar (symbol fits s)

def lang : List (Item σ) → Language α
  | [] => 1
  | i::is => i.lang fits*lang is

/-- A prefix of the text belongs to the language; the whole text if `whole`. -/
def Accepts (is : List (Item σ)) (whole : Prop) (text : List α) : Prop :=
  ∃ mid post, text = mid++post ∧ mid ∈ lang fits is ∧ (whole → post = [])

variable {fits} {is : List (Item σ)} {s : σ} {whole : Prop} {text : List α}

theorem accepts_nil : Accepts fits [] whole text ↔ (whole → text = []) := by
  constructor
  · rintro ⟨mid,post,rfl,hmid,hpost⟩ hw
    rw [lang,Language.mem_one] at hmid
    rw [hmid,hpost hw]
    rfl
  · exact fun h => ⟨[],text,rfl,rfl,h⟩

/-- The next letter is taken by a symbol, and the rest of the text is judged by `P`. -/
def Next (fits : σ → α → Prop) (s : σ) (P : List α → Prop) (text : List α) : Prop :=
  ∃ a t, text = a::t ∧ fits s a ∧ P t

@[simp] theorem not_next_nil {P : List α → Prop} : ¬ Next fits s P [] := by
  rintro ⟨a,t,h,_⟩
  cases h

@[simp] theorem next_cons {P : List α → Prop} {a : α} {t : List α} :
    Next fits s P (a::t) ↔ fits s a ∧ P t := by
  constructor
  · rintro ⟨b,u,h,hb⟩
    cases h
    exact hb
  · exact fun h => ⟨a,t,rfl,h⟩

theorem prefix_symbol_mul {l : Language α} :
    (∃ mid post, text = mid++post ∧ mid ∈ symbol fits s*l ∧ (whole → post = [])) ↔
      Next fits s (fun t => ∃ mid post, t = mid++post ∧ mid ∈ l ∧ (whole → post = [])) text := by
  constructor
  · rintro ⟨mid,post,rfl,hmid,hpost⟩
    obtain ⟨w,⟨a,ha,rfl⟩,v,hv,rfl⟩ := Language.mem_mul.1 hmid
    exact ⟨a,v++post,by simp,ha,v,post,rfl,hv,hpost⟩
  · rintro ⟨a,t,rfl,ha,mid,post,rfl,hmid,hpost⟩
    exact ⟨a::mid,post,rfl,Language.mem_mul.2 ⟨[a],⟨a,ha,rfl⟩,mid,hmid,rfl⟩,hpost⟩

theorem accepts_one : Accepts fits (.one s::is) whole text ↔
    Next fits s (Accepts fits is whole) text :=
  prefix_symbol_mul

/-- A repeated symbol takes no letter, or one letter and is then repeated again. -/
theorem accepts_star : Accepts fits (.star s::is) whole text ↔
    Accepts fits is whole text ∨ Next fits s (Accepts fits (.star s::is) whole) text := by
  have hunfold : lang fits (.star s::is) =
      lang fits is+symbol fits s*lang fits (.star s::is) := by
    change KStar.kstar (symbol fits s)*lang fits is = _
    conv_lhs => rw [← Language.one_add_self_mul_kstar_eq_kstar,add_mul,one_mul,mul_assoc]
    rfl
  constructor
  · rintro ⟨mid,post,rfl,hmid,hpost⟩
    rw [hunfold,Language.mem_add] at hmid
    rcases hmid with hmid | hmid
    · exact .inl ⟨mid,post,rfl,hmid,hpost⟩
    · exact .inr (prefix_symbol_mul.1 ⟨mid,post,rfl,hmid,hpost⟩)
  · rintro (⟨mid,post,rfl,hmid,hpost⟩ | hnext)
    · refine ⟨mid,post,rfl,?_,hpost⟩
      rw [hunfold,Language.mem_add]
      exact .inl hmid
    · obtain ⟨mid,post,rfl,hmid,hpost⟩ := prefix_symbol_mul.2 hnext
      refine ⟨mid,post,rfl,?_,hpost⟩
      rw [hunfold,Language.mem_add]
      exact .inr hmid

end Regexp
