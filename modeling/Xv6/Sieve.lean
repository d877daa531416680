import Mathlib.Tactic
import Mathlib.Data.Nat.Prime.Basic

/-! The sieve on lists: the head of the list is kept and its multiples are taken out of the rest. -/
namespace Sieve

def sift (p : ℕ) (l : List ℕ) : List ℕ := l.filter fun num => num%p ≠ 0

theorem length_sift_le (p : ℕ) (l : List ℕ) : (sift p l).length ≤ l.length :=
  List.length_filter_le _ _

def sieve : List ℕ → List ℕ
  | [] => []
  | p::l => p::sieve (sift p l)
termination_by l => l.length
decreasing_by
  have := length_sift_le p l
  simp only [List.length_cons]
  omega

theorem sift_cons (p num : ℕ) (l : List ℕ) :
    sift p (num::l) = if num%p ≠ 0 then num::sift p l else sift p l := by
  by_cases h : num%p = 0 <;> simp [sift,h]

def Survives (m x : ℕ) : Prop := ∀ p < m, p.Prime → ¬ p ∣ x

instance (m x : ℕ) : Decidable (Survives m x) :=
  inferInstanceAs (Decidable (∀ p < m, p.Prime → ¬ p ∣ x))

theorem survives_self_iff {m : ℕ} (hm : 2 ≤ m) : Survives m m ↔ m.Prime := by
  constructor
  · intro h
    by_contra hp
    exact h m.minFac ((Nat.not_prime_iff_minFac_lt hm).1 hp) (Nat.minFac_prime (by omega)) m.minFac_dvd
  · intro h p hp hpp hd
    rcases h.eq_one_or_self_of_dvd p hd with h1 | h1
    · exact hpp.one_lt.ne' h1
    · omega

theorem survives_succ_iff {m x : ℕ} : Survives (m+1) x ↔ Survives m x ∧ (m.Prime → ¬ m ∣ x) := by
  constructor
  · exact fun h => ⟨fun p hp => h p (by omega),h m (by omega)⟩
  · rintro ⟨h,hm⟩ p hp
    rcases Nat.lt_succ_iff_lt_or_eq.1 hp with hlt | rfl
    · exact h p hlt
    · exact hm

theorem sieve_survivors (k m : ℕ) (hm : 2 ≤ m) :
    sieve ((List.range' m k).filter fun x => Survives m x) = (List.range' m k).filter Nat.Prime := by
  induction k generalizing m with
  | zero => simp [sieve]
  | succ k ih =>
    rw [List.range'_succ]
    by_cases hp : m.Prime
    · rw [List.filter_cons_of_pos (by simpa using (survives_self_iff hm).2 hp),sieve,
        List.filter_cons_of_pos (by simpa using hp),← ih (m+1) (by omega),sift,List.filter_filter]
      congr 2
      refine List.filter_congr fun x _ => ?_
      simp [survives_succ_iff,hp,Nat.dvd_iff_mod_eq_zero,and_comm]
    · rw [List.filter_cons_of_neg (by simpa using mt (survives_self_iff hm).1 hp),
        List.filter_cons_of_neg (by simpa using hp),← ih (m+1) (by omega)]
      congr 1
      refine List.filter_congr fun x _ => ?_
      simp [survives_succ_iff,hp]

theorem sieve_range (k : ℕ) : sieve (List.range' 2 k) = (List.range' 2 k).filter Nat.Prime := by
  have hall : (List.range' 2 k).filter (fun x => Survives 2 x) = List.range' 2 k := by
    refine List.filter_eq_self.2 fun x _ => ?_
    rw [decide_eq_true_eq]
    intro p hp hpp
    exact absurd hpp.two_le (by omega)
  rw [← sieve_survivors k 2 le_rfl,hall]

end Sieve
