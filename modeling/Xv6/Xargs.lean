import Xv6.Param
import Xv6.Ulib

/-! `user/xargs.c`. Pointers are numbers, 0 is the null pointer. Each child gets an array `execArgv`
whose previous contents are what the stack held; a store outside `buf` has no defined meaning, and
the run then has no result. -/
namespace Xv6
namespace Xargs

open Bytes Ulib

def BUFSIZE : ℕ := 512

/-- A call `exec(path, vector)`, with the bytes of `buf` at that time. -/
structure Call where
  path : ℕ
  vector : ℕ → ℕ
  buf : Mem

section Code

-- `addr` is the address of `buf`, `argv` the argument vector of `xargs`.
variable (argc : ℕ) (argv : ℕ → ℕ) (addr : ℕ)

/-- `for(i = 0; i < argc - 2; ++i) execArgv[i + 1] = argv[i + 2]` for the first `n` turns. -/
def copyArgs (execArgv : ℕ → ℕ) : ℕ → ℕ → ℕ
  | 0 => execArgv
  | n+1 => Function.update (copyArgs execArgv n) (n+1) (argv (n+2))

def child (execArgv : ℕ → ℕ) (buf : Mem) (p : ℕ) : Call where
  path := argv 1
  vector := Function.update (copyArgs argv (Function.update execArgv 0 (argv 1)) (argc-2)) (argc-1) addr
  buf := Function.update buf p 0

/-- The loop of `main` on the rest of the input; `stack k` is what the stack of the `k`-th child
from here on holds in the place of `execArgv`. -/
def mainLoop : List UInt8 → (ℕ → ℕ → ℕ) → Mem → ℕ → Option (List Call)
  | [], _, _, _ => some []
  | ch::input, stack, buf, p =>
    if BUFSIZE ≤ p then none
    else if ch = newline then
      (mainLoop input (fun k => stack (k+1)) (Function.update buf 0 0) 0).map
        (child argc argv addr (stack 0) buf p::·)
    else mainLoop input stack (Function.update buf p ch) (p+1)

def main (stack : ℕ → ℕ → ℕ) (buf : Mem) (input : List UInt8) : Option (List Call) :=
  mainLoop argc argv addr input stack buf 0

end Code

def allLines (input : List UInt8) : List (List UInt8) :=
  let pieces := input.splitOn newline
  if pieces.getLast? = some [] then pieces.dropLast else pieces

/-- The call for a line: the command, the initial arguments, the line, and a null pointer. -/
structure Right (argc : ℕ) (argv : ℕ → ℕ) (addr : ℕ) (line : List UInt8) (c : Call) : Prop where
  path : c.path = argv 1
  command : c.vector 0 = argv 1
  args : ∀ i < argc-2, c.vector (i+1) = argv (i+2)
  last : c.vector (argc-1) = addr
  line : Str c.buf 0 line
  null : c.vector argc = 0

/-- The lines that end with a newline fit into `buf` with their NUL. -/
def Fit (input : List UInt8) : Prop := ∀ l ∈ (input.splitOn newline).dropLast, l.length < BUFSIZE

variable {argc : ℕ} {argv : ℕ → ℕ} {addr : ℕ}

theorem copyArgs_of_le {execArgv : ℕ → ℕ} {n i : ℕ} (h : i ≤ n) (hi : 0 < i) :
    copyArgs argv execArgv n i = argv (i+1) := by
  induction n with
  | zero => omega
  | succ n ih =>
    rw [copyArgs]
    rcases Nat.lt_or_eq_of_le h with hlt | rfl
    · rw [Function.update_of_ne (by omega),ih (by omega)]
    · rw [Function.update_self]

theorem copyArgs_other {execArgv : ℕ → ℕ} {n i : ℕ} (h : i = 0 ∨ n < i) :
    copyArgs argv execArgv n i = execArgv i := by
  induction n with
  | zero => rfl
  | succ n ih => rw [copyArgs,Function.update_of_ne (by omega),ih (by omega)]

theorem child_vector (execArgv : ℕ → ℕ) (buf : Mem) (p : ℕ) :
    (child argc argv addr execArgv buf p).vector =
      Function.update (copyArgs argv (Function.update execArgv 0 (argv 1)) (argc-2)) (argc-1) addr := rfl

/-- The child stores everything but the null pointer: that slot keeps what the stack held. -/
theorem right_child_iff (hargc : 2 ≤ argc) {execArgv : ℕ → ℕ} {buf : Mem} {line : List UInt8}
    (hline : At buf 0 line) (h0 : 0 ∉ line) :
    Right argc argv addr line (child argc argv addr execArgv buf line.length) ↔ execArgv argc = 0 := by
  have hnull : (child argc argv addr execArgv buf line.length).vector argc = execArgv argc := by
    rw [child_vector,Function.update_of_ne (by omega),copyArgs_other (by omega),Function.update_of_ne (by omega)]
  constructor
  · exact fun h => hnull ▸ h.null
  · refine fun h => ⟨rfl,?_,fun i hi => ?_,Function.update_self _ _ _,?_,hnull.trans h⟩
    · rw [child_vector,Function.update_of_ne (by omega),copyArgs_other (.inl rfl),Function.update_self]
    · rw [child_vector,Function.update_of_ne (by omega),copyArgs_of_le (by omega) (by omega)]
    · refine str_iff.2 ⟨hline.congr fun x _ hx => Function.update_of_ne (by omega) _ _,h0,?_⟩
      rw [Nat.zero_add]
      exact Function.update_self _ _ _

def Made (argc : ℕ) (argv : ℕ → ℕ) (addr : ℕ) : (ℕ → ℕ → ℕ) → List (List UInt8) → List Call → Prop
  | _, [], cs => cs = []
  | stack, l::ls, cs => ∃ buf cs', cs = child argc argv addr (stack 0) buf l.length::cs' ∧ At buf 0 l ∧
      Made argc argv addr (fun k => stack (k+1)) ls cs'

theorem forall₂_right_iff (hargc : 2 ≤ argc) {stack : ℕ → ℕ → ℕ} {ls : List (List UInt8)} {cs : List Call}
    (h : Made argc argv addr stack ls cs) (h0 : ∀ l ∈ ls, 0 ∉ l) :
    List.Forall₂ (Right argc argv addr) ls cs ↔ ∀ k < ls.length, stack k argc = 0 := by
  induction ls generalizing stack cs with
  | nil =>
    obtain rfl : cs = [] := h
    simp
  | cons l ls ih =>
    obtain ⟨buf,cs',rfl,hbuf,hmade⟩ := h
    rw [List.forall₂_cons,right_child_iff hargc hbuf (h0 l (by simp)),
      ih hmade fun l' hl' => h0 l' (by simp [hl'])]
    constructor
    · rintro ⟨hz,hs⟩ k hk
      cases k with
      | zero => exact hz
      | succ k => exact hs k (by simpa using hk)
    · exact fun hs => ⟨hs 0 (by simp),fun k hk => hs (k+1) (by simpa using hk)⟩

theorem Made.length_eq {stack : ℕ → ℕ → ℕ} {ls : List (List UInt8)} {cs : List Call}
    (h : Made argc argv addr stack ls cs) : cs.length = ls.length := by
  induction ls generalizing stack cs with
  | nil =>
    obtain rfl : cs = [] := h
    rfl
  | cons l ls ih =>
    obtain ⟨buf,cs',rfl,_,hmade⟩ := h
    simp [ih hmade]

/-- The loop with the bytes `cur` of an unfinished line in `buf`: one child for each complete line,
and no result if a byte comes when `buf` is full. -/
theorem mainLoop_made (input cur : List UInt8) (stack : ℕ → ℕ → ℕ) (buf : Mem)
    (hbuf : At buf 0 cur) (hcur : newline ∉ cur) :
    (∀ cs, mainLoop argc argv addr input stack buf cur.length = some cs →
      Made argc argv addr stack ((cur++input).splitOn newline).dropLast cs ∧
        ∀ l ∈ ((cur++input).splitOn newline).dropLast, l.length < BUFSIZE) ∧
    ((∀ l ∈ (cur++input).splitOn newline, l.length < BUFSIZE) →
      (mainLoop argc argv addr input stack buf cur.length).isSome) := by
  induction input generalizing cur stack buf with
  | nil =>
    rw [List.append_nil,List.splitOn_eq_singleton hcur,mainLoop]
    refine ⟨fun cs h => ?_,fun _ => rfl⟩
    cases h
    exact ⟨rfl,by simp⟩
  | cons ch input ih =>
    rw [mainLoop]
    by_cases hp : BUFSIZE ≤ cur.length
    · rw [if_pos hp]
      refine ⟨fun cs h => (by cases h),fun h => ?_⟩
      obtain ⟨l,hl,hle⟩ : ∃ l ∈ (cur++ch::input).splitOn newline, cur.length ≤ l.length := by
        by_cases hn : newline ∈ ch::input
        · obtain ⟨as,bs,hab,has⟩ := List.eq_append_cons_of_mem hn
          refine ⟨cur++as,?_,by simp⟩
          rw [hab,← List.append_assoc,List.splitOn_append_cons_self_of_not_mem (by simp [hcur,has])]
          exact List.mem_cons_self
        · refine ⟨cur++ch::input,?_,by simp⟩
          rw [List.splitOn_eq_singleton (by simp only [List.mem_append]; tauto)]
          exact List.mem_cons_self
      exact absurd (h l hl) (by omega)
    · rw [if_neg hp]
      by_cases hch : ch = newline
      · subst hch
        rw [if_pos rfl,List.splitOn_append_cons_self_of_not_mem hcur,
          List.dropLast_cons_of_ne_nil (List.splitOn_ne_nil newline input)]
        obtain ⟨hmade,hsome⟩ := ih [] (fun k => stack (k+1)) (Function.update buf 0 0) trivial (by simp)
        rw [List.nil_append] at hmade hsome
        refine ⟨fun cs h => ?_,fun h => ?_⟩
        · obtain ⟨cs',hcs',rfl⟩ := Option.map_eq_some_iff.1 h
          obtain ⟨hm,hlt⟩ := hmade cs' hcs'
          exact ⟨⟨buf,cs',rfl,hbuf,hm⟩,List.forall_mem_cons.2 ⟨by omega,hlt⟩⟩
        · rw [Option.isSome_map]
          exact hsome fun l hl => h l (List.mem_cons_of_mem _ hl)
      · rw [if_neg hch]
        have hat : At (Function.update buf cur.length ch) 0 (cur++[ch]) := by
          rw [at_append,Nat.zero_add]
          exact ⟨hbuf.congr fun x _ hx => Function.update_of_ne (by omega) _ _,Function.update_self _ _ _,
            trivial⟩
        have h := ih (cur++[ch]) stack _ hat (by simp [hcur,Ne.symm hch])
        rw [List.length_append,List.append_assoc] at h
        exact h

theorem mem_of_mem_splitOn {input l : List UInt8} {x : UInt8} (hl : l ∈ input.splitOn newline) (hx : x ∈ l) :
    x ∈ input := by
  induction h : input.length using Nat.strong_induction_on generalizing input with
  | _ n ih =>
    by_cases hn : newline ∈ input
    · obtain ⟨as,bs,rfl,has⟩ := List.eq_append_cons_of_mem hn
      rw [List.splitOn_append_cons_self_of_not_mem has,List.mem_cons] at hl
      rcases hl with rfl | hl
      · simp [hx]
      · have := ih bs.length (by simp at h; omega) hl rfl
        simp [this]
    · rw [List.splitOn_eq_singleton hn,List.mem_singleton] at hl
      exact hl ▸ hx

/-- The calls are right iff every line ends with a newline and fits into `buf`, and the stack of
every child happens to hold a null pointer behind the arguments. -/
theorem xargs_right_iff (hargc : 2 ≤ argc ∧ argc < MAXARG) (stack : ℕ → ℕ → ℕ) (buf : Mem)
    (input : List UInt8) (h0 : 0 ∉ input) :
    (∃ cs, main argc argv addr stack buf input = some cs ∧
      List.Forall₂ (Right argc argv addr) (allLines input) cs) ↔
    (input.splitOn newline).getLast? = some [] ∧ Fit input ∧
      ∀ k < (allLines input).length, stack k argc = 0 := by
  obtain ⟨hmade,hsome⟩ := @mainLoop_made argc argv addr input [] stack buf trivial (by simp)
  rw [List.nil_append,List.length_nil] at hmade hsome
  have hline : ∀ l ∈ (input.splitOn newline).dropLast, 0 ∉ l := fun l hl hx =>
    h0 (mem_of_mem_splitOn (List.mem_of_mem_dropLast hl) hx)
  constructor
  · rintro ⟨cs,hcs,hright⟩
    obtain ⟨hm,hfit⟩ := hmade cs hcs
    have hlast : (input.splitOn newline).getLast? = some [] := by
      by_contra hne
      have hlen := hright.length_eq
      rw [allLines,if_neg hne,hm.length_eq,List.length_dropLast] at hlen
      have := List.length_pos_iff.2 (List.splitOn_ne_nil newline input)
      omega
    have hall : allLines input = (input.splitOn newline).dropLast := by rw [allLines,if_pos hlast]
    rw [hall] at hright ⊢
    exact ⟨hlast,hfit,(forall₂_right_iff hargc.1 hm hline).1 hright⟩
  · rintro ⟨hlast,hfit,hnull⟩
    have hall : allLines input = (input.splitOn newline).dropLast := by rw [allLines,if_pos hlast]
    rw [hall] at hnull ⊢
    obtain ⟨cs,hcs⟩ := Option.isSome_iff_exists.1 (hsome fun l hl => by
      rw [← List.dropLast_append_getLast? _ hlast,List.mem_append,List.mem_singleton] at hl
      rcases hl with hl | rfl
      · exact hfit l hl
      · decide)
    exact ⟨cs,hcs,(forall₂_right_iff hargc.1 (hmade cs hcs).1 hline).2 hnull⟩

/-- `xargs echo` on one line `a`, when the stack holds zeros. -/
theorem xargs_right_iff_echo : (2 ≤ 2 ∧ 2 < MAXARG) ∧ (0 : UInt8) ∉ [(97 : UInt8),10] ∧
    ∃ cs, main 2 (fun i => 16+i) 4096 (fun _ _ => 0) (fun _ => 0) [97,10] = some cs ∧
      List.Forall₂ (Right 2 (fun i => 16+i) 4096) (allLines [97,10]) cs := by
  refine ⟨by decide,by decide,(xargs_right_iff (by decide) _ _ _ (by decide)).2 ⟨by decide,?_,fun _ _ => rfl⟩⟩
  intro l hl
  have hlines : (List.splitOn newline [(97 : UInt8),10]).dropLast = [[97]] := by decide
  rw [hlines,List.mem_singleton] at hl
  rw [hl]
  decide

/-- `xargs echo` on one line `a`, when the stack holds a 1 in the place of `execArgv[2]`: the vector
that `exec` gets is not ended. And on `a` without a newline no command is run, whatever the stack
holds. -/
theorem xargs_vector_not_ended :
    (∃ c, main 2 (fun i => 16+i) 4096 (fun _ _ => 1) (fun _ => 0) [97,10] = some [c] ∧
      c.vector 0 = 17 ∧ c.vector 1 = 4096 ∧ c.vector 2 = 1) ∧
    ∀ stack buf, main 2 (fun i => 16+i) 4096 stack buf [97] = some [] ∧ allLines [97] = [[97]] :=
  ⟨⟨_,rfl,by decide,by decide,by decide⟩,fun _ _ => ⟨rfl,by decide⟩⟩

end Xargs
end Xv6
