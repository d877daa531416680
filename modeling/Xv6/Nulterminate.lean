import Xv6.Bytes
import Xv6.ShellPrint

/-! What `nulterminate` does to the line buffer. A word of a line ends where no word goes on, so the
terminators of all words of a tree fall outside all of them. -/
namespace Xv6.Sh

open Bytes (cstr)

/-- The tree with the strings that its pointers `argv[i]` and `file` lead to. -/
def Cmd.strings (buf : List UInt8) (c : Cmd Span) : Cmd (List UInt8) := c.map fun w => cstr (buf.drop w.q)

/-- The words of a tree in the order in which `nulterminate` comes to them. -/
def Cmd.spans {ω : Type} : Cmd ω → List ω
  | .exec argv => argv
  | .redir cmd file _ _ => cmd.spans++[file]
  | .pipe left right => left.spans++right.spans
  | .list left right => left.spans++right.spans
  | .back cmd => cmd.spans

section Spans

variable {ω ω' : Type} {c : Cmd ω} {w : ω}

theorem Cmd.map_congr {f g : ω → ω'} (h : ∀ w ∈ c.spans, f w = g w) : c.map f = c.map g := by
  induction c with
  | exec argv => exact congrArg Cmd.exec (List.map_congr_left h)
  | redir cmd file mode fd ih =>
    simp only [spans,List.mem_append,List.mem_singleton] at h
    rw [map,map,ih fun w hw => h w (.inl hw),h file (.inr rfl)]
  | pipe left right ihl ihr | list left right ihl ihr =>
    simp only [spans,List.mem_append] at h
    rw [map,map,ihl fun w hw => h w (.inl hw),ihr fun w hw => h w (.inr hw)]
  | back cmd ih => rw [map,map,ih h]

theorem mem_spans_redircmd {tok : Tok} {file : ω} (h : w ∈ (redircmd c tok file).spans) :
    w ∈ c.spans ∨ w = file := by
  unfold redircmd at h
  split at h
  case h_4 => exact .inl h
  all_goals simpa [Cmd.spans] using h

theorem Cmd.mem_spans_wrap {rs : List (Tok × ω)} (h : w ∈ (c.wrap rs).spans) :
    w ∈ c.spans ∨ ∃ r ∈ rs, r.2 = w := by
  induction rs generalizing c with
  | nil => exact .inl h
  | cons r rs ih =>
    rcases ih h with hc | ⟨x,hx,rfl⟩
    · rcases mem_spans_redircmd hc with hc | rfl
      · exact .inl hc
      · exact .inr ⟨r,List.mem_cons_self,rfl⟩
    · exact .inr ⟨x,List.mem_cons_of_mem r hx,rfl⟩

theorem Cmd.spans_backs (c : Cmd ω) (n : ℕ) : (c.backs n).spans = c.spans := by
  induction n generalizing c with
  | zero => rfl
  | succ n ih => rw [backs,ih,spans]

def WordOf (ts : List (Token ω)) (w : ω) : Prop := Token.mk .word w ∈ ts

theorem Redirs.wordOf {t : List (Token ω)} {rs : List (Tok × ω)} (h : Redirs t rs) :
    ∀ r ∈ rs, WordOf t r.2 := by
  induction h with
  | nil => simp
  | @cons op w ts rs _ hw _ ih =>
    intro r hr
    rcases List.mem_cons.mp hr with rfl | hr
    · have hmem : w = ⟨.word,w.val⟩ := by rw [← hw]
      exact List.mem_cons_of_mem _ (hmem ▸ List.mem_cons_self)
    · exact List.mem_cons_of_mem _ (List.mem_cons_of_mem _ (ih r hr))

theorem Words.wordOf {t : List (Token ω)} {ws : List ω} {rs : List (Tok × ω)} (h : Words t ws rs) :
    (∀ w ∈ ws, WordOf t w) ∧ ∀ r ∈ rs, WordOf t r.2 := by
  induction h with
  | nil => simp
  | @cons v t ts r rs ws hw hr _ ih =>
    constructor
    · intro w hmem
      rcases List.mem_cons.mp hmem with rfl | hmem
      · have hv : v = ⟨.word,v.val⟩ := by rw [← hw]
        exact hv ▸ List.mem_cons_self
      · exact List.mem_cons_of_mem _ (List.mem_append_right _ (ih.1 w hmem))
    · intro x hx
      rcases List.mem_append.mp hx with hx | hx
      · exact List.mem_cons_of_mem _ (List.mem_append_left _ (hr.wordOf x hx))
      · exact List.mem_cons_of_mem _ (List.mem_append_right _ (ih.2 x hx))

theorem Derives.wordOf {nt : Nonterminal} {t : List (Token ω)} (h : Derives nt t c) :
    ∀ w ∈ c.spans, WordOf t w := by
  induction h with
  | @block lp rp t t' c rs _ _ _ hrs ih =>
    intro w hw
    rcases Cmd.mem_spans_wrap hw with hw | ⟨r,hr,rfl⟩
    · exact List.mem_cons_of_mem _ (List.mem_append_left _ (ih w hw))
    · exact List.mem_cons_of_mem _ (List.mem_append_right _ (List.mem_cons_of_mem _ (hrs.wordOf r hr)))
  | @simple t t' rs rs' ws hrs hws _ =>
    intro w hw
    rcases Cmd.mem_spans_wrap hw with hw | ⟨r,hr,rfl⟩
    · exact List.mem_append_right _ (hws.wordOf.1 w hw)
    · rcases List.mem_append.mp hr with hr | hr
      · exact List.mem_append_left _ (hrs.wordOf r hr)
      · exact List.mem_append_right _ (hws.wordOf.2 r hr)
  | single _ ih => exact ih
  | pipe _ _ _ ih ih' =>
    intro w hw
    rcases List.mem_append.mp hw with hw | hw
    · exact List.mem_append_left _ (ih w hw)
    · exact List.mem_append_right _ (List.mem_cons_of_mem _ (ih' w hw))
  | @last t amps c _ _ ih =>
    intro w hw
    rw [Cmd.spans_backs] at hw
    exact List.mem_append_left _ (ih w hw)
  | @list semi t amps t' c c' _ _ _ _ ih ih' =>
    intro w hw
    rw [Cmd.spans,Cmd.spans_backs] at hw
    rcases List.mem_append.mp hw with hw | hw
    · exact List.mem_append_left _ (ih w hw)
    · exact List.mem_append_right _ (List.mem_append_right _ (List.mem_cons_of_mem _ (ih' w hw)))

end Spans

section Buffer

variable {line buf : List UInt8} {w : Span}

/-- Behind the buffer nothing needs to be written: its NUL stands there already. -/
theorem byte_set (line : List UInt8) (i j : ℕ) :
    byte (line.set i 0) j = if i = j then 0 else byte line j := by
  simp only [byte,List.getD_eq_getElem?_getD,List.getElem?_set]
  split
  · split <;> simp
  · rfl

theorem nulterminate_eq (c : Cmd Span) (line : List UInt8) :
    nulterminate c line = c.spans.foldl (fun line w => line.set w.eq 0) line := by
  induction c generalizing line with
  | exec argv => rfl
  | redir cmd file mode fd ih => rw [nulterminate,ih,Cmd.spans,List.foldl_append]; rfl
  | pipe left right ihl ihr | list left right ihl ihr =>
    rw [nulterminate,ihl,ihr,Cmd.spans,List.foldl_append]
  | back cmd ih => rw [nulterminate,ih,Cmd.spans]

theorem byte_foldl_set (ws : List Span) (line : List UInt8) (j : ℕ) :
    byte (ws.foldl (fun line w => line.set w.eq 0) line) j =
      if j ∈ ws.map Span.eq then 0 else byte line j := by
  induction ws generalizing line with
  | nil => simp
  | cons w ws ih =>
    rw [List.foldl_cons,ih,byte_set,List.map_cons]
    by_cases hw : w.eq = j
    · simp [hw]
    · simp [hw,Ne.symm hw]

theorem byte_nulterminate (c : Cmd Span) (line : List UInt8) (j : ℕ) :
    byte (nulterminate c line) j = if j ∈ c.spans.map Span.eq then 0 else byte line j := by
  rw [nulterminate_eq,byte_foldl_set]

/-- The span of a whole word: it goes on up to a byte that belongs to no word. -/
structure Whole (line : List UInt8) (w : Span) : Prop where
  le : w.q ≤ w.eq
  le_length : w.eq ≤ line.length
  inside : ∀ i, w.q ≤ i → i < w.eq → byte line i ≠ 0 ∧ inWord (byte line i) = true
  behind : byte line w.eq = 0 ∨ inWord (byte line w.eq) = false

theorem Whole.apart {v : Span} (hw : Whole line w) (hv : Whole line v) :
    v.eq < w.q ∨ w.eq ≤ v.eq := by
  by_contra hin
  obtain ⟨hne,hmem⟩ := hw.inside v.eq (by omega) (by omega)
  rcases hv.behind with h0 | hno
  · exact hne h0
  · rw [hmem] at hno
    cases hno

theorem scan_whole (hz : 0 ∉ line) {s : ℕ} (hword : (scan line s).1 = .word) : Whole line ⟨s,(scan line s).2⟩ := by
  rcases scan_cases line s with ⟨-,he⟩ | ⟨-,tok,-,hl,he⟩ | ⟨-,-,he⟩ | ⟨h0,-,he⟩
  · simp [he] at hword
  · have htok : tok = .word := by rwa [he] at hword
    rw [htok] at hl
    cases hl
  · simp [he] at hword
  · have hs := (lt_length_of_byte h0).le
    obtain ⟨hle,hlen⟩ := scan_le hs
    refine ⟨hle,hlen,fun i hi hie => ?_,?_⟩
    · refine ⟨byte_ne_zero hz (hie.trans_le hlen),?_⟩
      rw [he] at hie
      exact skip_all hi hie
    · rw [he] at hlen ⊢
      rcases hlen.eq_or_lt with hend | hlt
      · exact .inl (byte_of_length_le hend.ge)
      · have hlt' : skip line inWord (line.length-s) s < s+(line.length-s) := by
          change skip line inWord (line.length-s) s < line.length at hlt
          omega
        exact .inr (skip_stop hlt')

theorem tokens_whole (hz : 0 ∉ line) {s : ℕ} (h : s ≤ line.length) (hw : WordOf (tokens line s) w) :
    Whole line w := by
  unfold tokens at hw
  generalize line.length-s = n at hw
  induction n generalizing s with
  | zero => simp [WordOf,tokensFrom] at hw
  | succ n ih =>
    simp only [WordOf,tokensFrom] at hw
    split at hw
    · simp at hw
    · rcases List.mem_cons.mp hw with heq | hw
      · obtain ⟨hkind,rfl⟩ := Token.mk.inj heq
        exact scan_whole hz hkind.symm
      · exact ih (next_bounds h).2.1 hw

theorem parsecmd_buf {fuel : ℕ} {c : Cmd Span} (hok : parsecmd fuel line = .ok (c,buf)) :
    buf = nulterminate c line := by
  unfold parsecmd at hok
  split at hok
  · cases hok
  · split at hok
    · cases hok
    · cases hok
      rfl

theorem cstr_eq_nil {p : ℕ} (h : byte buf p = 0) : cstr (buf.drop p) = [] := by
  rcases lt_or_ge p buf.length with hp | hp
  · rw [cstr,List.drop_eq_getElem_cons hp]
    have hget : buf[p] = 0 := by
      simpa [byte,List.getD_eq_getElem?_getD,hp] using h
    simp [hget]
  · simp [cstr,List.drop_eq_nil_of_le hp]

theorem cstr_cons {p : ℕ} (h : byte buf p ≠ 0) : cstr (buf.drop p) = byte buf p::cstr (buf.drop (p+1)) := by
  have hp := lt_length_of_byte h
  have hget : byte buf p = buf[p] := by simp [byte,List.getD_eq_getElem?_getD,hp]
  rw [hget] at h
  rw [cstr,List.drop_eq_getElem_cons hp,List.takeWhile_cons_of_pos (by simpa using h),hget,cstr]

/-- The string at a word that was cut, and not changed, is its text. -/
theorem cstr_eq_text {q e : ℕ} (hle : q ≤ e) (hlen : e ≤ line.length)
    (hin : ∀ i, q ≤ i → i < e → byte buf i = byte line i ∧ byte line i ≠ 0)
    (hend : byte buf e = 0) : cstr (buf.drop q) = text line ⟨q,e⟩ := by
  -- from the end of the word backwards
  induction hle using Nat.decreasingInduction with
  | self => rw [cstr_eq_nil hend,text_self]
  | of_succ q hq ih =>
    obtain ⟨hsame,hne⟩ := hin q le_rfl hq
    rw [text_cons (by omega) hq,cstr_cons (by rwa [hsame]),hsame,ih fun i hi => hin i (by omega)]

end Buffer

/-- Every call of `parsecmd` ends, and in the buffer that it leaves, the strings of all nodes of the
tree at once are the texts of the words of the line, which are its word tokens in the order of the
derivation. -/
theorem nulterminate_cuts {line : List UInt8} (hz : 0 ∉ line) {fuel : ℕ}
    (hfuel : 4*line.length+4 ≤ fuel) :
    parsecmd fuel line ≠ .error .fuel ∧ ∀ c buf, parsecmd fuel line = .ok (c,buf) →
      Derives .line (tokens line 0) c ∧ c.strings buf = c.words line := by
  refine ⟨parsecmd_ne_fuel hfuel,fun c buf hok => ?_⟩
  have hc := (parsecmd_ok_iff hz hfuel).mp ⟨buf,hok⟩
  have hwhole : ∀ w ∈ c.spans, Whole line w :=
    fun w hw => tokens_whole hz (Nat.zero_le _) (hc.wordOf w hw)
  obtain rfl := parsecmd_buf hok
  refine ⟨hc,Cmd.map_congr fun w hw => ?_⟩
  have h := hwhole w hw
  refine cstr_eq_text h.le h.le_length (fun i hi hie => ⟨?_,(h.inside i hi hie).1⟩) ?_
  · rw [byte_nulterminate,if_neg]
    intro hmem
    obtain ⟨v,hv,rfl⟩ := List.mem_map.mp hmem
    have hapart := h.apart (hwhole v hv)
    omega
  · rw [byte_nulterminate,if_pos (List.mem_map_of_mem hw)]

/-- `(a>f;b)|c &` again: `)` and `;` are overwritten, and every word is read back. -/
theorem nulterminate_cuts_subshell :
    parsecmd 48 subshell = .ok (.back (.pipe (.list
      (.redir (.exec [⟨1,2⟩]) ⟨3,4⟩ 0x601 1) (.exec [⟨5,6⟩])) (.exec [⟨8,9⟩])),
      [40,97,0,102,0,98,0,124,99,0,38]) ∧
    parsecmd 48 subshell ≠ .error .fuel ∧ ∀ c buf, parsecmd 48 subshell = .ok (c,buf) →
      Derives .line (tokens subshell 0) c ∧ c.strings buf = c.words subshell :=
  ⟨by decide +kernel,nulterminate_cuts (by decide) (by decide)⟩

end Xv6.Sh
