import Xv6.Regexp
import Xv6.Ulib

/-! The matcher of `user/grep.c`. The functions read the pattern and the text in memory as the code
does; a call that gets less fuel than it has steps has no result. -/
namespace Xv6
namespace Grep

open Bytes Ulib

def caret : UInt8 := 94

def dollar : UInt8 := 36

def dot : UInt8 := 46

def asterisk : UInt8 := 42

mutual

def matchhere (mem : Mem) : ℕ → ℕ → ℕ → Option Bool
  | 0, _, _ => none
  | fuel+1, re, text =>
    if mem re = 0 then some true
    else if mem (re+1) = asterisk then matchstar mem fuel (mem re) (re+2) text
    else if mem re = dollar ∧ mem (re+1) = 0 then some (mem text = 0)
    else if mem text ≠ 0 ∧ (mem re = dot ∨ mem re = mem text) then matchhere mem fuel (re+1) (text+1)
    else some false

def matchstar (mem : Mem) : ℕ → UInt8 → ℕ → ℕ → Option Bool
  | 0, _, _, _ => none
  | fuel+1, c, re, text =>
    match matchhere mem fuel re text with
    | none => none
    | some true => some true
    | some false =>
      if mem text ≠ 0 ∧ (mem text = c ∨ c = dot) then matchstar mem fuel c re (text+1)
      else some false

end

def matchLoop (mem : Mem) : ℕ → ℕ → ℕ → Option Bool
  | 0, _, _ => none
  | fuel+1, re, text =>
    match matchhere mem fuel re text with
    | none => none
    | some true => some true
    | some false => if mem text ≠ 0 then matchLoop mem fuel re (text+1) else some false

def match_ (mem : Mem) (fuel re text : ℕ) : Option Bool :=
  if mem re = caret then matchhere mem fuel (re+1) text else matchLoop mem fuel re text

open Regexp

def Fits (c b : UInt8) : Prop := c = dot ∨ b = c

/-- The items of a pattern, and whether it ends in a final `$`. -/
def items : List UInt8 → List (Item UInt8) × Bool
  | [] => ([],false)
  | [c] => if c = dollar then ([],true) else ([.one c],false)
  | c::d::re =>
    if d = asterisk then (.star c::(items re).1,(items re).2)
    else (.one c::(items (d::re)).1,(items (d::re)).2)

def Here (re text : List UInt8) : Prop := Accepts Fits (items re).1 ((items re).2 = true) text

/-- A substring of the text belongs to the language of the pattern: one at the beginning after `^`,
one at the end before a final `$`. -/
def Matches (re text : List UInt8) : Prop :=
  ∃ pre mid post, text = pre++mid++post ∧
    if re.head? = some caret then
      pre = [] ∧ mid ∈ lang Fits (items re.tail).1 ∧ ((items re.tail).2 = true → post = [])
    else mid ∈ lang Fits (items re).1 ∧ ((items re).2 = true → post = [])

theorem matches_iff (re text : List UInt8) : Matches re text ↔
    if re.head? = some caret then Here re.tail text
    else ∃ pre rest, text = pre++rest ∧ Here re rest := by
  unfold Matches
  split
  · constructor
    · rintro ⟨_,mid,post,rfl,rfl,hmid,hpost⟩
      exact ⟨mid,post,rfl,hmid,hpost⟩
    · rintro ⟨mid,post,rfl,hmid,hpost⟩
      exact ⟨[],mid,post,rfl,rfl,hmid,hpost⟩
  · constructor
    · rintro ⟨pre,mid,post,rfl,hmid,hpost⟩
      exact ⟨pre,mid++post,by simp,mid,post,rfl,hmid,hpost⟩
    · rintro ⟨pre,_,rfl,mid,post,rfl,hmid,hpost⟩
      exact ⟨pre,mid,post,by simp,hmid,hpost⟩

variable {re text : List UInt8} {c d : UInt8}

theorem here_nil : Here [] text := by
  rw [Here,items,accepts_nil]
  simp

theorem here_star : Here (c::asterisk::re) text ↔
    Here re text ∨ Next Fits c (Here (c::asterisk::re)) text := by
  simp only [Here,items,if_pos]
  exact accepts_star

theorem here_dollar : Here [dollar] text ↔ text = [] := by
  rw [Here,items,if_pos rfl,accepts_nil]
  simp

theorem here_one (hstar : re.head? ≠ some asterisk) (hdollar : ¬ (c = dollar ∧ re = [])) :
    Here (c::re) text ↔ Next Fits c (Here re) text := by
  cases re with
  | nil =>
    have hc : c ≠ dollar := fun h => hdollar ⟨h,rfl⟩
    simp only [Here,items,if_neg hc]
    exact accepts_one
  | cons d re =>
    have hd : d ≠ asterisk := fun h => hstar (by rw [h]; rfl)
    simp only [Here,items,if_neg hd]
    exact accepts_one

theorem exists_here_cons {a : UInt8} :
    (∃ pre rest, a::text = pre++rest ∧ Here re rest) ↔
      Here re (a::text) ∨ ∃ pre rest, text = pre++rest ∧ Here re rest := by
  constructor
  · rintro ⟨pre,rest,h,hr⟩
    cases pre with
    | nil =>
      rw [List.nil_append] at h
      exact .inl (h ▸ hr)
    | cons b pre =>
      rw [List.cons_append,List.cons.injEq] at h
      exact .inr ⟨pre,rest,h.2,hr⟩
  · rintro (h | ⟨pre,rest,rfl,hr⟩)
    · exact ⟨[],_,rfl,h⟩
    · exact ⟨a::pre,rest,rfl,hr⟩

def Decides (r : Option Bool) (P : Prop) : Prop := ∃ b, r = some b ∧ (b = true ↔ P)

theorem decides_true {P : Prop} (h : P) : Decides (some true) P := ⟨true,rfl,by simpa using h⟩

theorem decides_false {P : Prop} (h : ¬ P) : Decides (some false) P := ⟨false,rfl,by simpa using h⟩

theorem Decides.iff {r : Option Bool} {P Q : Prop} (h : Decides r P) (hiff : P ↔ Q) : Decides r Q := by
  obtain ⟨b,hr,hb⟩ := h
  exact ⟨b,hr,hb.trans hiff⟩

variable {mem : Mem} {p q : ℕ}

theorem str_eq_zero (h : Str mem p re) : mem p = 0 ↔ re = [] := by
  cases re with
  | nil => simpa [Str] using h
  | cons c re => simp [h.1,h.2.1]

theorem str_eq_asterisk (h : Str mem p re) : mem p = asterisk ↔ re.head? = some asterisk := by
  cases re with
  | nil =>
    have hp : mem p = 0 := h
    simp [hp,asterisk]
  | cons c re => simp [h.1]

/-- The loop of `matchstar`, from what `matchhere` does with the rest of the pattern: induction on
the text, which both the loop and the meaning of `c*` go through letter by letter. -/
theorem matchstar_decides (hhere : ∀ q text fuel, Str mem q text → re.length+text.length < fuel →
      Decides (matchhere mem fuel p q) (Here re text))
    (text : List UInt8) (q fuel : ℕ) (ht : Str mem q text) (hf : re.length+text.length+1 < fuel) :
    Decides (matchstar mem fuel c p q) (Here (c::asterisk::re) text) := by
  induction text generalizing q fuel with
  | nil =>
    obtain ⟨fuel,rfl⟩ : ∃ k, fuel = k+1 := ⟨fuel-1,by omega⟩
    obtain ⟨b,hb,hiff⟩ := hhere q [] fuel ht (by omega)
    have hq : mem q = 0 := ht
    rw [matchstar,hb]
    cases b with
    | true => exact decides_true (here_star.2 (.inl (hiff.1 rfl)))
    | false =>
      simp only [hq,ne_eq,not_true_eq_false,false_and,if_false]
      refine decides_false fun h => ?_
      rcases here_star.1 h with h | h
      · exact Bool.false_ne_true (hiff.2 h)
      · exact not_next_nil h
  | cons a text ih =>
    obtain ⟨fuel,rfl⟩ : ∃ k, fuel = k+1 := ⟨fuel-1,by omega⟩
    obtain ⟨b,hb,hiff⟩ := hhere q (a::text) fuel ht (by omega)
    obtain ⟨hq,ha,hs⟩ := ht
    rw [matchstar,hb]
    cases b with
    | true => exact decides_true (here_star.2 (.inl (hiff.1 rfl)))
    | false =>
      have hnot : ¬ Here re (a::text) := fun h => Bool.false_ne_true (hiff.2 h)
      by_cases hfit : a = c ∨ c = dot
      · simp only [hq,ne_eq,ha,not_false_eq_true,true_and,hfit,if_true]
        refine (ih (q+1) fuel hs (by simp only [List.length_cons] at hf; omega)).iff ?_
        rw [@here_star re (a::text) c,next_cons]
        exact ⟨fun h => .inr ⟨hfit.symm,h⟩,fun h => (h.resolve_left hnot).2⟩
      · simp only [hq,ne_eq,ha,not_false_eq_true,true_and,hfit,if_false]
        refine decides_false fun h => ?_
        rcases here_star.1 h with h | h
        · exact hnot h
        · exact hfit ((next_cons.1 h).1.symm)

/-- Induction on the pattern, which every call of `matchhere` shortens. -/
theorem matchhere_decides (re text : List UInt8) (p q fuel : ℕ) (hre : Str mem p re)
    (ht : Str mem q text) (hf : re.length+text.length < fuel) :
    Decides (matchhere mem fuel p q) (Here re text) := by
  induction h : re.length using Nat.strong_induction_on generalizing re text p q fuel with
  | _ n ih =>
    obtain ⟨fuel,rfl⟩ : ∃ k, fuel = k+1 := ⟨fuel-1,by omega⟩
    cases re with
    | nil =>
      have hp : mem p = 0 := hre
      rw [matchhere,if_pos hp]
      exact decides_true here_nil
    | cons c re =>
      obtain ⟨hp,hc,hs⟩ := hre
      rw [matchhere,hp,if_neg hc]
      by_cases hstar : mem (p+1) = asterisk
      · rw [if_pos hstar]
        obtain ⟨re',rfl⟩ : ∃ re', re = asterisk::re' := by
          have hh := (str_eq_asterisk hs).1 hstar
          cases re with
          | nil => cases hh
          | cons d re' => exact ⟨re',by rw [List.head?_cons,Option.some.injEq] at hh; rw [hh]⟩
        simp only [List.length_cons] at h hf
        refine matchstar_decides (fun q' text' fuel' ht' hf' => ?_) text q fuel ht (by omega)
        exact ih re'.length (by omega) re' text' (p+2) q' fuel' hs.2.2 ht' hf' rfl
      · rw [if_neg hstar]
        have hstar' : re.head? ≠ some asterisk := fun hh => hstar ((str_eq_asterisk hs).2 hh)
        by_cases hd : c = dollar ∧ mem (p+1) = 0
        · rw [if_pos hd]
          obtain ⟨rfl,hz⟩ := hd
          obtain rfl := (str_eq_zero hs).1 hz
          exact ⟨_,rfl,by rw [here_dollar,decide_eq_true_eq,str_eq_zero ht]⟩
        · rw [if_neg hd]
          have hone : Here (c::re) text ↔ Next Fits c (Here re) text :=
            here_one hstar' fun hh => hd ⟨hh.1,(str_eq_zero hs).2 hh.2⟩
          cases text with
          | nil =>
            have hq : mem q = 0 := ht
            simp only [hq,ne_eq,not_true_eq_false,false_and,if_false]
            exact decides_false fun hh => not_next_nil (hone.1 hh)
          | cons a text =>
            obtain ⟨hq,ha,hts⟩ := ht
            simp only [hq,ne_eq,ha,not_false_eq_true,true_and]
            simp only [List.length_cons] at h hf
            by_cases hfit : c = dot ∨ c = a
            · rw [if_pos hfit]
              refine (ih re.length (by omega) re text (p+1) (q+1) fuel hs hts (by omega) rfl).iff ?_
              rw [hone,next_cons]
              exact ⟨fun hh => ⟨hfit.imp_right Eq.symm,hh⟩,And.right⟩
            · rw [if_neg hfit]
              refine decides_false fun hh => hfit ?_
              exact ((next_cons.1 (hone.1 hh)).1).imp_right Eq.symm

theorem matchLoop_decides (hre : Str mem p re) (text : List UInt8) (q fuel : ℕ) (ht : Str mem q text)
    (hf : re.length+text.length+1 < fuel) :
    Decides (matchLoop mem fuel p q) (∃ pre rest, text = pre++rest ∧ Here re rest) := by
  induction text generalizing q fuel with
  | nil =>
    obtain ⟨fuel,rfl⟩ : ∃ k, fuel = k+1 := ⟨fuel-1,by omega⟩
    obtain ⟨b,hb,hiff⟩ := matchhere_decides re [] p q fuel hre ht (by omega)
    have hq : mem q = 0 := ht
    rw [matchLoop,hb]
    have hempty : (∃ pre rest, ([] : List UInt8) = pre++rest ∧ Here re rest) ↔ Here re [] := by
      constructor
      · rintro ⟨pre,rest,h,hr⟩
        rw [(List.append_eq_nil_iff.1 h.symm).2] at hr
        exact hr
      · exact fun h => ⟨[],[],rfl,h⟩
    cases b with
    | true => exact decides_true (hempty.2 (hiff.1 rfl))
    | false =>
      simp only [hq,ne_eq,not_true_eq_false,if_false]
      exact decides_false fun h => Bool.false_ne_true (hiff.2 (hempty.1 h))
  | cons a text ih =>
    obtain ⟨fuel,rfl⟩ : ∃ k, fuel = k+1 := ⟨fuel-1,by omega⟩
    obtain ⟨b,hb,hiff⟩ := matchhere_decides re (a::text) p q fuel hre ht (by omega)
    obtain ⟨hq,ha,hs⟩ := ht
    rw [matchLoop,hb]
    cases b with
    | true => exact decides_true (exists_here_cons.2 (.inl (hiff.1 rfl)))
    | false =>
      simp only [hq,ne_eq,ha,not_false_eq_true,if_true]
      refine (ih (q+1) fuel hs (by simp only [List.length_cons] at hf; omega)).iff ?_
      rw [exists_here_cons]
      exact ⟨.inr,fun h => h.resolve_left fun hh => Bool.false_ne_true (hiff.2 hh)⟩

theorem match_decides (hre : Str mem p re) (ht : Str mem q text) (fuel : ℕ)
    (hf : re.length+text.length+1 < fuel) : Decides (match_ mem fuel p q) (Matches re text) := by
  rw [match_]
  have hcaret : mem p = caret ↔ re.head? = some caret := by
    cases re with
    | nil =>
      have hp : mem p = 0 := hre
      simp [hp,caret]
    | cons c re => simp [hre.1]
  by_cases h : mem p = caret
  · rw [if_pos h]
    have hh := hcaret.1 h
    cases re with
    | nil => cases hh
    | cons c re =>
      refine (matchhere_decides re text (p+1) q fuel hre.2.2 ht
        (by simp only [List.length_cons] at hf; omega)).iff ?_
      rw [matches_iff,if_pos hh]
      rfl
  · rw [if_neg h]
    refine (matchLoop_decides hre text q fuel ht hf).iff ?_
    rw [matches_iff,if_neg (mt hcaret.2 h)]

/-- For every pattern and text in memory the three functions return, and `match` returns 1 iff a
substring of the text, a prefix of it if the pattern starts with `^`, belongs to the language of
the pattern's items. -/
theorem match_iff_matches (hre : Str mem p re) (ht : Str mem q text) (fuel : ℕ)
    (hf : re.length+text.length+1 < fuel) :
    (∃ b, match_ mem fuel p q = some b ∧ (b = true ↔ Matches re text)) ∧
    (matchhere mem fuel p q).isSome ∧ ∀ c, (matchstar mem fuel c p q).isSome := by
  refine ⟨match_decides hre ht fuel hf,?_,fun c => ?_⟩
  · obtain ⟨b,hb,_⟩ := matchhere_decides re text p q fuel hre ht (by omega)
    rw [hb]
    rfl
  · obtain ⟨b,hb,_⟩ := matchstar_decides (c := c)
      (fun q text fuel => matchhere_decides re text p q fuel hre) text q fuel ht hf
    rw [hb]
    rfl

def sample : Mem := fun i => ([97,42,98,0,120,97,97,98,0] : List UInt8).getD i 0

theorem match_iff_matches_sample : Str sample 0 [97,42,98] ∧ Str sample 4 [120,97,97,98] ∧
    match_ sample 9 0 4 = some true ∧ Matches [97,42,98] [120,97,97,98] := by
  have hre : Str sample 0 [97,42,98] := ⟨rfl,by decide,rfl,by decide,rfl,by decide,rfl⟩
  have ht : Str sample 4 [120,97,97,98] := ⟨rfl,by decide,rfl,by decide,rfl,by decide,rfl,by decide,rfl⟩
  have hrun : match_ sample 9 0 4 = some true := by decide
  obtain ⟨⟨b,hb,hiff⟩,_⟩ := match_iff_matches hre ht 9 (by decide)
  rw [hrun,Option.some.injEq] at hb
  exact ⟨hre,ht,hrun,hiff.1 hb.symm⟩

end Grep
end Xv6
