import Xv6.Match

/-! `grep` of `user/grep.c`: lines are searched in a buffer that is filled by `read` in pieces of any
size, and a partial line is carried over to the next piece. -/
namespace Xv6
namespace Grep

open Bytes Ulib

def BUFSIZE : ℕ := 1024

/-- What `read` returns when `request` bytes are asked for and `input` is still to come: a piece of
about `size` bytes, nonempty if possible. -/
def readSize (size request : ℕ) (input : List UInt8) : ℕ :=
  min (max 1 size) (min request input.length)

def bytes (mem : Mem) (p q : ℕ) : List UInt8 := (List.range (q-p)).map fun i => mem (p+i)

/-- The inner loop: the memory, `p` and what is written at its end. -/
def lineLoop (pattern : ℕ) : ℕ → Mem → ℕ → List UInt8 → Option (Mem × ℕ × List UInt8)
  | 0, _, _, _ => none
  | fuel+1, mem, p, out =>
    match strchr mem fuel p newline with
    | none => none
    | some none => some (mem,p,out)
    | some (some q) =>
      let mem := Function.update mem q 0
      match match_ mem fuel pattern p with
      | none => none
      | some true =>
        let mem := Function.update mem q newline
        lineLoop pattern fuel mem (q+1) (out++bytes mem p (q+1))
      | some false => lineLoop pattern fuel mem (q+1) out

/-- The outer loop; `sizes k` is about the size of the piece that the `k`-th `read` returns. -/
def grepLoop (pattern buf : ℕ) (sizes : ℕ → ℕ) :
    ℕ → ℕ → Mem → ℕ → List UInt8 → List UInt8 → Option (List UInt8)
  | 0, _, _, _, _, _ => none
  | fuel+1, k, mem, m, input, out =>
    let n := readSize (sizes k) (BUFSIZE-m-1) input
    if n = 0 then some out
    else
      let mem := blit mem (buf+m) n fun i => input.getD i 0
      let m := m+n
      let mem := Function.update mem (buf+m) 0
      match lineLoop pattern fuel mem buf out with
      | none => none
      | some (mem,p,out) =>
        if 0 < m then
          let m := m-(p-buf)
          grepLoop pattern buf sizes fuel (k+1) (memmove mem buf p m) m (input.drop n) out
        else grepLoop pattern buf sizes fuel (k+1) mem m (input.drop n) out

def grep (mem : Mem) (pattern buf : ℕ) (sizes : ℕ → ℕ) (content : List UInt8) (fuel : ℕ) :
    Option (List UInt8) :=
  grepLoop pattern buf sizes fuel 0 mem 0 content []

def lines (content : List UInt8) : List (List UInt8) := (content.splitOn newline).dropLast

def Fair (line : List UInt8) : Prop := 0 ∉ line ∧ line.length+1 < BUFSIZE

open Classical in
/-- The matching lines before the first that is not fair, with their newlines. -/
noncomputable def selected (re content : List UInt8) : List UInt8 :=
  (((lines content).takeWhile fun l => Fair l).filter fun l => Matches re l).flatMap fun l => l++[newline]

variable {re content l s : List UInt8}

theorem lines_line (h : newline ∉ l) : lines (l++newline::s) = l::lines s := by
  rw [lines,List.splitOn_append_cons_self_of_not_mem h,
    List.dropLast_cons_of_ne_nil (List.splitOn_ne_nil newline s)]
  rfl

theorem lines_eq_nil (h : newline ∉ s) : lines s = [] := by
  rw [lines,List.splitOn_eq_singleton h]
  rfl

open Classical in
theorem selected_line (h : newline ∉ l) (hf : Fair l) :
    selected re (l++newline::s) = (if Matches re l then l++[newline] else [])++selected re s := by
  rw [selected,lines_line h,List.takeWhile_cons_of_pos (by simpa using hf),List.filter_cons]
  by_cases hm : Matches re l
  · simp [hm,selected]
  · simp [hm,selected]

theorem mem_of_hidden {r : List UInt8} (h : newline ∉ (l++newline::r).takeWhile (· ≠ 0)) : 0 ∈ l := by
  by_contra h0
  refine h ?_
  rw [List.takeWhile_append_of_pos fun x hx => by simpa using fun hx0 : x = 0 => h0 (hx0 ▸ hx),
    List.takeWhile_cons_of_pos (by decide)]
  simp

/-- No line can be written any more: `c` has no newline before its first NUL, and its line cannot be
completed in the buffer. -/
theorem selected_stuck {c : List UInt8} (hc : newline ∉ c.takeWhile (· ≠ 0))
    (hstuck : s = [] ∨ BUFSIZE ≤ c.length+1) : selected re (c++s) = [] := by
  by_cases hn : newline ∈ c++s
  · obtain ⟨l,r,hlr,hl⟩ := List.eq_append_cons_of_mem hn
    have hfair : ¬ Fair l := by
      rintro ⟨h0,hlen⟩
      rcases List.append_eq_append_iff.1 hlr with ⟨as,rfl,hs⟩ | ⟨bs,rfl,hs⟩
      · rcases hstuck with rfl | hlong
        · simp at hs
        · rw [List.length_append] at hlen
          omega
      · cases bs with
        | nil =>
          rcases hstuck with rfl | hlong
          · simp at hs
          · rw [List.append_nil] at hlong
            omega
        | cons b bs =>
          rw [List.cons_append,List.cons.injEq] at hs
          rw [← hs.1] at hc
          exact h0 (mem_of_hidden hc)
    rw [hlr,selected,lines_line hl,List.takeWhile_cons_of_neg (by simpa using hfair)]
    rfl
  · rw [selected,lines_eq_nil hn]
    rfl

theorem bytes_eq {mem : Mem} {p : ℕ} (h : At mem p s) : bytes mem p (p+s.length) = s := by
  rw [at_iff] at h
  refine List.ext_getElem (by simp [bytes]) fun i hi hi' => ?_
  simp only [bytes,List.getElem_map,List.getElem_range]
  exact h i hi'

/-- The pattern lies outside the `n` bytes from `p` on. -/
def Apart (pattern : ℕ) (re : List UInt8) (p n : ℕ) : Prop :=
  ∀ x, pattern ≤ x → x ≤ pattern+re.length → x < p ∨ p+n ≤ x

/-- The inner loop writes the selected lines of the buffer and stops at the rest `b'`, in which
`strchr` finds no newline. -/
theorem lineLoop_spec (pattern fuel : ℕ) (mem : Mem) (p : ℕ) (b out : List UInt8)
    (hb : At mem p b) (hz : mem (p+b.length) = 0) (hlen : b.length < BUFSIZE)
    (hre : Str mem pattern re) (hapart : Apart pattern re p (b.length+1))
    (hf : re.length+2*b.length+2 < fuel) :
    ∃ mem' d b' o, lineLoop pattern fuel mem p out = some (mem',p+d,out++o) ∧
      d+b'.length = b.length ∧ At mem' (p+d) b' ∧ newline ∉ b'.takeWhile (· ≠ 0) ∧
      (∀ s, selected re (b++s) = o++selected re (b'++s)) ∧
      ∀ x, x < p ∨ p+d ≤ x → mem' x = mem x := by
  induction fuel generalizing mem p b out with
  | zero => omega
  | succ fuel ih =>
    rw [lineLoop]
    rcases strchr_cases (c := newline) b p fuel hb hz (by omega) with ⟨l,r,rfl,hl,h0,hq⟩ | ⟨hn,hq⟩
    · simp only [hq,List.length_append,List.length_cons] at hz hlen hapart hf ⊢
      obtain ⟨hbl,hbn,hbr⟩ : At mem p l ∧ mem (p+l.length) = newline ∧ At mem (p+l.length+1) r := by
        rw [at_append] at hb
        exact hb
      have hstr : Str (Function.update mem (p+l.length) 0) p l := by
        refine str_iff.2 ⟨hbl.congr fun x _ hx => Function.update_of_ne (by omega) _ _,h0,?_⟩
        exact Function.update_self _ _ _
      have hpat : ∀ v, Str (Function.update mem (p+l.length) v) pattern re := fun v =>
        hre.congr fun x hx hx' => Function.update_of_ne (by have := hapart x hx hx'; omega) _ _
      have hfair : Fair l := ⟨h0,by omega⟩
      obtain ⟨found,hfound,hiff⟩ := match_decides (hpat 0) hstr fuel (by omega)
      have hrest : ∀ v out, ∃ mem' d b' o, lineLoop pattern fuel (Function.update mem (p+l.length) v)
          (p+l.length+1) out = some (mem',p+d,out++o) ∧ d+b'.length = l.length+(r.length+1) ∧
          At mem' (p+d) b' ∧ newline ∉ b'.takeWhile (· ≠ 0) ∧
          (∀ s, selected re (r++s) = o++selected re (b'++s)) ∧
          ∀ x, x < p ∨ p+d ≤ x → mem' x = mem x := by
        intro v out
        obtain ⟨mem',d,b',o,hrun,hd,hat,hstop,hsel,hframe⟩ :=
          ih (Function.update mem (p+l.length) v) (p+l.length+1) r out
            (hbr.congr fun x hx _ => Function.update_of_ne (by omega) _ _)
            (by rw [Function.update_of_ne (by omega),← hz]; congr 1; omega) (by omega) (hpat v)
            (fun x hx hx' => by have := hapart x hx hx'; omega) (by omega)
        refine ⟨mem',l.length+1+d,b',o,?_,by omega,?_,hstop,hsel,fun x hx => ?_⟩
        · rw [hrun]
          congr 3
          omega
        · rw [show p+(l.length+1+d) = p+l.length+1+d by omega]
          exact hat
        · rw [hframe x (by omega),Function.update_of_ne (by omega)]
      have hline : ∀ s, selected re (l++newline::r++s) =
          (if found = true then l++[newline] else [])++selected re (r++s) := fun s => by
        rw [List.append_assoc,List.cons_append,selected_line hl hfair]
        by_cases hm : Matches re l
        · rw [if_pos hm,if_pos (hiff.2 hm)]
        · rw [if_neg hm,if_neg (mt hiff.1 hm)]
      rw [hfound]
      cases found with
      | true =>
        simp only [Function.update_idem]
        have hbytes : bytes (Function.update mem (p+l.length) newline) p (p+l.length+1) =
            l++[newline] := by
          have hat : At (Function.update mem (p+l.length) newline) p (l++[newline]) := by
            rw [at_append]
            exact ⟨hbl.congr fun x _ hx => Function.update_of_ne (by omega) _ _,
              Function.update_self _ _ _,trivial⟩
          have := bytes_eq hat
          rwa [List.length_append,← Nat.add_assoc] at this
        rw [hbytes]
        obtain ⟨mem',d,b',o,hrun,hd,hat,hstop,hsel,hframe⟩ := hrest newline (out++(l++[newline]))
        refine ⟨mem',d,b',l++[newline]++o,?_,hd,hat,hstop,fun s => ?_,hframe⟩
        · rw [hrun]
          simp only [List.append_assoc]
        · rw [hline,hsel,if_pos rfl]
          simp only [List.append_assoc]
      | false =>
        obtain ⟨mem',d,b',o,hrun,hd,hat,hstop,hsel,hframe⟩ := hrest 0 out
        refine ⟨mem',d,b',o,hrun,hd,hat,hstop,fun s => ?_,hframe⟩
        rw [hline,hsel,if_neg Bool.false_ne_true,List.nil_append]
    · rw [hq]
      exact ⟨mem,0,b,[],by simp,by simp,hb,hn,fun s => rfl,fun x _ => rfl⟩

theorem at_blit {mem : Mem} {p n : ℕ} {c input : List UInt8} (h : At mem p c) (hn : n ≤ input.length) :
    At (blit mem (p+c.length) n fun i => input.getD i 0) p (c++input.take n) := by
  rw [at_append]
  constructor
  · exact h.congr fun x _ hx => blit_outside (by omega)
  · rw [at_iff]
    intro i hi
    rw [List.length_take] at hi
    rw [blit_add (by omega),List.getElem_take,List.getD_eq_getElem?_getD,
      List.getElem?_eq_getElem (by omega)]
    rfl

/-- The outer loop, from a buffer that holds the bytes `c` carried over. -/
theorem grepLoop_eq {pattern buf : ℕ} {sizes : ℕ → ℕ} (fuel k : ℕ) (mem : Mem) (c input out : List UInt8)
    (hc : At mem buf c) (hlen : c.length < BUFSIZE) (hstop : newline ∉ c.takeWhile (· ≠ 0))
    (hre : Str mem pattern re) (hapart : Apart pattern re buf BUFSIZE)
    (hf : re.length+2*BUFSIZE+2+input.length < fuel) :
    grepLoop pattern buf sizes fuel k mem c.length input out = some (out++selected re (c++input)) := by
  induction fuel generalizing k mem c input out with
  | zero => omega
  | succ fuel ih =>
    rw [grepLoop]
    by_cases hn : readSize (sizes k) (BUFSIZE-c.length-1) input = 0
    · have hstuck : input = [] ∨ BUFSIZE ≤ c.length+1 := by
        unfold readSize at hn
        rw [← List.length_eq_zero_iff]
        omega
      simp only [hn,if_true]
      rw [selected_stuck hstop hstuck,List.append_nil]
    · have hle : readSize (sizes k) (BUFSIZE-c.length-1) input ≤ BUFSIZE-c.length-1 ∧
          readSize (sizes k) (BUFSIZE-c.length-1) input ≤ input.length := by
        unfold readSize
        omega
      generalize readSize (sizes k) (BUFSIZE-c.length-1) input = n at hn hle
      simp only [hn,if_false]
      have hblen : (c++input.take n).length = c.length+n := by
        rw [List.length_append,List.length_take]
        omega
      have hat := at_blit hc hle.2
      obtain ⟨mem',d,b',o,hrun,hd,hat',hstop',hsel,hframe⟩ := lineLoop_spec pattern fuel
        (Function.update (blit mem (buf+c.length) n fun i => input.getD i 0) (buf+(c.length+n)) 0) buf
        (c++input.take n) out (hat.congr fun x _ hx => Function.update_of_ne (by omega) _ _)
        (by rw [hblen]; exact Function.update_self _ _ _) (by omega)
        (hre.congr fun x hx hx' => by
          have := hapart x hx hx'
          rw [Function.update_of_ne (by omega),blit_outside (by omega)])
        (fun x hx hx' => by have := hapart x hx hx'; omega) (by omega)
      rw [hblen] at hd
      simp only [hrun]
      rw [if_pos (by omega),show c.length+n-(buf+d-buf) = b'.length by omega]
      have hmove : At (memmove mem' buf (buf+d) b'.length) buf b' := by
        rw [memmove_eq,at_iff]
        intro i hi
        rw [blit_add hi]
        exact at_iff.1 hat' i hi
      rw [ih (k+1) _ b' (input.drop n) (out++o) hmove (by omega) hstop' ?_ (by rw [List.length_drop]; omega)]
      · rw [List.append_assoc,← hsel,List.append_assoc,List.take_append_drop]
      · refine hre.congr fun x hx hx' => ?_
        have := hapart x hx hx'
        rw [memmove_eq,blit_outside (by omega),hframe x (by omega),Function.update_of_ne (by omega),
          blit_outside (by omega)]

/-- Whatever the sizes of the pieces that `read` returns, `grep` writes the newline-terminated lines
that match, in order, up to the first line that holds a NUL or does not fit into the buffer. -/
theorem grep_output {mem : Mem} {pattern buf : ℕ} (hre : Str mem pattern re)
    (hapart : Apart pattern re buf BUFSIZE) (content : List UInt8) (fuel : ℕ)
    (hf : re.length+2*BUFSIZE+2+content.length < fuel) :
    (∀ sizes, grep mem pattern buf sizes content fuel = some (selected re content)) ∧
    ∀ sizes sizes', grep mem pattern buf sizes content fuel = grep mem pattern buf sizes' content fuel := by
  have h : ∀ sizes, grep mem pattern buf sizes content fuel = some (selected re content) := fun sizes =>
    grepLoop_eq fuel 0 mem [] content [] trivial (by decide) (by simp) hre hapart hf
  exact ⟨h,fun sizes sizes' => (h sizes).trans (h sizes').symm⟩

def letterA : Mem := fun i => if i = 1024 then 97 else 0

theorem grep_output_letterA : Str letterA 1024 [97] ∧ Apart 1024 [97] 0 BUFSIZE ∧
    ∀ sizes, grep letterA 1024 0 sizes [97,10,98,10] 2060 = some (selected [97] [97,10,98,10]) := by
  have hre : Str letterA 1024 [97] := ⟨rfl,by decide,rfl⟩
  have hapart : Apart 1024 [97] 0 BUFSIZE := fun x hx _ => .inr (by simpa [BUFSIZE] using hx)
  exact ⟨hre,hapart,(grep_output hre hapart [97,10,98,10] 2060 (by decide)).1⟩

end Grep
end Xv6
