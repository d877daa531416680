import Xv6.Shell

/-! The token sequence of a line, and what `peek` and `gettoken` do to it. After this module the
parser is reasoned about on lists of tokens only. -/
namespace Xv6.Sh

open Command

structure Token (ω : Type) where
  kind : Tok
  val : ω
deriving DecidableEq, Repr

section Tokens

variable (line : List UInt8)

/-- The results of `gettoken` until it returns 0; `n` bounds their number. -/
def tokensFrom : (n s : ℕ) → List (Token Span)
  | 0, _ => []
  | n+1, s =>
    let (tok,span,s') := next line s
    if tok = .nul then [] else ⟨tok,span⟩::tokensFrom n s'

/-- The tokens from offset `s` on. Each one takes a byte of the line. -/
def tokens (s : ℕ) : List (Token Span) := tokensFrom line (line.length-s) s

end Tokens

/-- The kind of the first token, `nul` at the end of the line. -/
def headKind {ω : Type} : List (Token ω) → Tok
  | [] => .nul
  | t::_ => t.kind

def Tok.lead : Tok → Option UInt8
  | .lt => some 60
  | .bar => some 124
  | .gt => some 62
  | .append => some 62
  | .amp => some 38
  | .semi => some 59
  | .lparen => some 40
  | .rparen => some 41
  | _ => none

def Tok.startsWith (toks : List UInt8) (tok : Tok) : Bool := tok.lead.any toks.contains

section Scan

variable {line : List UInt8} {p : UInt8 → Bool} {n s : ℕ}

theorem le_skip : s ≤ skip line p n s := by
  induction n generalizing s with
  | zero => exact le_rfl
  | succ n ih =>
    rw [skip]
    split
    · have h := @ih (s+1)
      omega
    · exact le_rfl

theorem skip_le : skip line p n s ≤ s+n := by
  induction n generalizing s with
  | zero => exact le_rfl
  | succ n ih =>
    rw [skip]
    split
    · have h := @ih (s+1)
      omega
    · omega

theorem skip_stop (h : skip line p n s < s+n) : p (byte line (skip line p n s)) = false := by
  induction n generalizing s with
  | zero => simp [skip] at h
  | succ n ih =>
    rw [skip] at h ⊢
    split
    case isTrue hp =>
      rw [if_pos hp] at h
      exact ih (by omega)
    case isFalse hp => simpa using hp

theorem skip_eq_self (h : p (byte line s) = false) : skip line p n s = s := by
  cases n with
  | zero => rfl
  | succ n => simp [skip,h]

theorem lt_skip (h : p (byte line s) = true) (hn : 0 < n) : s < skip line p n s := by
  obtain ⟨n,rfl⟩ : ∃ m, n = m+1 := ⟨n-1,by omega⟩
  rw [skip,if_pos h]
  exact le_skip

theorem le_blanks : s ≤ blanks line s := le_skip

theorem blanks_le (h : s ≤ line.length) : blanks line s ≤ line.length := by
  have h' : blanks line s ≤ s+(line.length-s) := skip_le
  omega

theorem blanks_blanks (h : s ≤ line.length) : blanks line (blanks line s) = blanks line s := by
  rcases (blanks_le h).eq_or_lt with hend | hlt
  · rw [hend]
    simp [blanks,skip]
  · have hlt' : skip line isBlank (line.length-s) s < s+(line.length-s) := by
      unfold blanks at hlt
      omega
    exact skip_eq_self (skip_stop hlt')

theorem byte_of_length_le (h : line.length ≤ s) : byte line s = 0 := by
  simp [byte,List.getD_eq_getElem?_getD,h]

theorem byte_ne_zero (hz : 0 ∉ line) (h : s < line.length) : byte line s ≠ 0 := by
  simp only [byte,List.getD_eq_getElem?_getD,List.getElem?_eq_getElem h,Option.getD_some]
  intro heq
  exact hz (heq ▸ List.getElem_mem h)

theorem byte_eq_zero_iff (hz : 0 ∉ line) : byte line s = 0 ↔ line.length ≤ s := by
  constructor
  · intro h
    by_contra hlt
    exact byte_ne_zero hz (by omega) h
  · exact byte_of_length_le

theorem scan_lead : (scan line s).1.lead =
    if byte line s ∈ symbols then some (byte line s) else none := by
  unfold scan Tok.ofByte
  split_ifs <;> simp_all [Tok.lead,symbols]

theorem Tok.ne_nul_of_lead {tok : Tok} {c : UInt8} (h : tok.lead = some c) : tok ≠ .nul := by
  rintro rfl
  cases h

theorem scan_cases (line : List UInt8) (s : ℕ) :
    byte line s = 0 ∧ scan line s = (.nul,s) ∨
    byte line s ≠ 0 ∧ (∃ tok, tok ≠ .append ∧ tok.lead = some (byte line s) ∧
      scan line s = (tok,s+1)) ∨
    byte line s = 62 ∧ byte line (s+1) = 62 ∧ scan line s = (.append,s+2) ∨
    byte line s ≠ 0 ∧ byte line s ∉ symbols ∧
      scan line s = (.word,skip line inWord (line.length-s) s) := by
  unfold scan Tok.ofByte
  split_ifs <;> simp_all [symbols,Tok.lead]

theorem lt_length_of_byte (h : byte line s ≠ 0) : s < line.length := by
  by_contra hge
  exact h (byte_of_length_le (by omega))

theorem scan_le (h : s ≤ line.length) : s ≤ (scan line s).2 ∧ (scan line s).2 ≤ line.length := by
  rcases scan_cases line s with ⟨-,he⟩ | ⟨hb,tok,-,-,he⟩ | ⟨-,hb,he⟩ | ⟨hb,-,he⟩
  · simp [he,h]
  · have hlt := lt_length_of_byte hb
    simp only [he]
    omega
  · have hlt : s+1 < line.length := lt_length_of_byte (by rw [hb]; decide)
    simp only [he]
    omega
  · have hle : s ≤ skip line inWord (line.length-s) s := le_skip
    have hge : skip line inWord (line.length-s) s ≤ s+(line.length-s) := skip_le
    simp only [he]
    omega

theorem scan_eq_nul_iff (hz : 0 ∉ line) : (scan line s).1 = .nul ↔ line.length ≤ s := by
  rw [← byte_eq_zero_iff hz]
  rcases scan_cases line s with ⟨hb,he⟩ | ⟨hb,tok,-,hl,he⟩ | ⟨hb,-,he⟩ | ⟨hb,-,he⟩
  · simp [hb,he]
  · simp [hb,he,Tok.ne_nul_of_lead hl]
  · simp [hb,he]
  · simp [hb,he]

theorem lt_scan (hb : isBlank (byte line s) = false) (hn : (scan line s).1 ≠ .nul) :
    s < (scan line s).2 := by
  rcases scan_cases line s with ⟨-,he⟩ | ⟨-,tok,-,-,he⟩ | ⟨-,-,he⟩ | ⟨h0,hs,he⟩
  · simp [he] at hn
  · simp [he]
  · simp [he]
  · have hw : inWord (byte line s) = true := by
      have hb' : byte line s ∉ whitespace := by simpa [isBlank] using hb
      simp [inWord,hb',hs]
    have hlt := lt_length_of_byte h0
    have h : s < skip line inWord (line.length-s) s := lt_skip hw (by omega)
    simpa [he] using h

theorem isBlank_blanks (h : s ≤ line.length) : isBlank (byte line (blanks line s)) = false := by
  rcases (blanks_le h).eq_or_lt with hend | hlt
  · rw [hend,byte_of_length_le le_rfl]
    rfl
  · have hlt' : skip line isBlank (line.length-s) s < s+(line.length-s) := by
      unfold blanks at hlt
      omega
    exact skip_stop hlt'

theorem next_blanks (h : s ≤ line.length) : next line (blanks line s) = next line s := by
  simp only [next,blanks_blanks h]

theorem next_bounds (h : s ≤ line.length) : s ≤ (next line s).2.2 ∧
    (next line s).2.2 ≤ line.length ∧ ((next line s).1 ≠ .nul → s < (next line s).2.2) := by
  have hq : s ≤ blanks line s := le_blanks
  have hql := blanks_le h
  obtain ⟨he,hel⟩ := scan_le hql
  have hs : (scan line (blanks line s)).2 ≤ blanks line (scan line (blanks line s)).2 := le_blanks
  refine ⟨(hq.trans he).trans hs,blanks_le hel,fun hn => ?_⟩
  have hlt := lt_scan (isBlank_blanks h) hn
  exact (hq.trans_lt hlt).trans_le hs

end Scan

section TokenList

variable {line : List UInt8} {s : ℕ}

theorem next_length (line : List UInt8) : (next line line.length).1 = .nul := by
  have hend : blanks line line.length = line.length := le_antisymm (blanks_le le_rfl) le_blanks
  have hbyte : byte line line.length = 0 := byte_of_length_le le_rfl
  simp [next,hend,scan,hbyte,Tok.ofByte]

theorem tokensFrom_length (n : ℕ) : tokensFrom line n line.length = [] := by
  cases n with
  | zero => rfl
  | succ n => simp only [tokensFrom,next_length line,if_pos]

theorem tokensFrom_eq {n m : ℕ} (h : s ≤ line.length) (hn : line.length-s ≤ n)
    (hm : line.length-s ≤ m) : tokensFrom line n s = tokensFrom line m s := by
  induction n generalizing s m with
  | zero =>
    obtain rfl : s = line.length := by omega
    rw [tokensFrom_length,tokensFrom_length]
  | succ n ih =>
    cases m with
    | zero =>
      obtain rfl : s = line.length := by omega
      rw [tokensFrom_length,tokensFrom_length]
    | succ m =>
      obtain ⟨-,hle,hlt⟩ := next_bounds h
      simp only [tokensFrom]
      split
      · rfl
      · rename_i htok
        have hs := hlt htok
        have hrest : tokensFrom line n (next line s).2.2 = tokensFrom line m (next line s).2.2 :=
          ih hle (by omega) (by omega)
        rw [hrest]

theorem tokens_eq (h : s ≤ line.length) : tokens line s =
    if (next line s).1 = .nul then []
    else ⟨(next line s).1,(next line s).2.1⟩::tokens line (next line s).2.2 := by
  have hbounds := next_bounds h
  rw [tokens,tokensFrom_eq h le_rfl (Nat.le_succ _),tokensFrom]
  dsimp only
  split
  · rfl
  · rename_i htok
    have hs := hbounds.2.2 htok
    rw [tokens,tokensFrom_eq hbounds.2.1 (by omega) le_rfl]

theorem headKind_tokens (h : s ≤ line.length) : headKind (tokens line s) = (next line s).1 := by
  rw [tokens_eq h]
  split
  · rename_i htok
    rw [htok]
    rfl
  · rfl

theorem tokens_blanks (h : s ≤ line.length) : tokens line (blanks line s) = tokens line s := by
  rw [tokens_eq (blanks_le h),tokens_eq h,next_blanks h]

/-- What is left of the line at `s` are the tokens `ts`. -/
def At (line : List UInt8) (s : ℕ) (ts : List (Token Span)) : Prop :=
  s ≤ line.length ∧ tokens line s = ts

variable {ts : List (Token Span)} {t : Token Span} {E : Stop → Prop}

theorem At.eq_nil (h : At line s ts) (hhead : headKind ts = .nul) : ts = [] := by
  obtain ⟨hle,rfl⟩ := h
  rw [tokens_eq hle,if_pos ((headKind_tokens hle).symm.trans hhead)]

/-- `peek` tells how the first token starts and keeps all of them. -/
theorem wp_peek {toks : List UInt8} {Q : Bool → ℕ → Prop} (h : At line s ts)
    (htoks : toks ⊆ symbols) (hQ : ∀ s', At line s' ts → Q ((headKind ts).startsWith toks) s') :
    wp (peek line toks) Q E s := by
  obtain ⟨hle,rfl⟩ := h
  have hval : (byte line (blanks line s) ≠ 0 && toks.contains (byte line (blanks line s))) =
      (headKind (tokens line s)).startsWith toks := by
    rw [headKind_tokens hle]
    change _ = (scan line (blanks line s)).1.startsWith toks
    rw [Tok.startsWith,scan_lead]
    by_cases hmem : byte line (blanks line s) ∈ toks
    · have hsym := htoks hmem
      have hne : byte line (blanks line s) ≠ 0 := by
        intro h0
        rw [h0] at hsym
        exact absurd hsym (by decide)
      simp [hmem,hsym,hne]
    · by_cases hsym : byte line (blanks line s) ∈ symbols
      · simp [hmem,hsym]
      · simp [hmem,hsym]
  have hq := hQ _ ⟨blanks_le hle,tokens_blanks hle⟩
  rw [← hval] at hq
  exact hq

theorem wp_gettoken_cons {Q : Tok × Span → ℕ → Prop} (h : At line s (t::ts))
    (hQ : ∀ s', At line s' ts → t.kind ≠ .nul → Q (t.kind,t.val) s') :
    wp (gettoken line) Q E s := by
  obtain ⟨hle,htokens⟩ := h
  rw [tokens_eq hle] at htokens
  split at htokens
  case isTrue => cases htokens
  case isFalse hn =>
    cases htokens
    exact hQ _ ⟨(next_bounds hle).2.1,rfl⟩ hn

theorem wp_gettoken_nil {Q : Tok × Span → ℕ → Prop} (h : At line s [])
    (hQ : ∀ span s', At line s' [] → Q (.nul,span) s') : wp (gettoken line) Q E s := by
  obtain ⟨hle,htokens⟩ := h
  have hnul : (scan line (blanks line s)).1 = .nul := by
    have hhead := headKind_tokens hle
    rw [htokens] at hhead
    exact hhead.symm
  have hscan : scan line (blanks line s) = (.nul,blanks line s) := by
    rcases scan_cases line (blanks line s) with ⟨-,he⟩ | ⟨-,tok,-,hl,he⟩ | ⟨-,-,he⟩ | ⟨-,-,he⟩
    · exact he
    · rw [he] at hnul
      exact absurd hnul (Tok.ne_nul_of_lead hl)
    · simp [he] at hnul
    · simp [he] at hnul
  have hnext : next line s = (.nul,⟨blanks line s,blanks line s⟩,blanks line s) := by
    simp only [next,hscan,blanks_blanks hle]
  have hq := hQ ⟨blanks line s,blanks line s⟩ (blanks line s)
    ⟨blanks_le hle,by rw [tokens_blanks hle,htokens]⟩
  change Q ((next line s).1,(next line s).2.1) (next line s).2.2
  rwa [hnext]

end TokenList

end Xv6.Sh
