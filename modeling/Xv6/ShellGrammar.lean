import Xv6.ShellTokens

/-! The grammar of the shell, with the tree that each derivation stands for, and the proof that
the parser accepts what it derives and nothing else. -/
namespace Xv6.Sh

open Command

section Grammar

variable {ω : Type}

def Tok.isRedir : Tok → Bool
  | .lt | .gt | .append => true
  | _ => false

def Cmd.wrap (cmd : Cmd ω) (rs : List (Tok × ω)) : Cmd ω :=
  rs.foldl (fun cmd r => redircmd cmd r.1 r.2) cmd

def Cmd.backs : ℕ → Cmd ω → Cmd ω
  | 0, cmd => cmd
  | n+1, cmd => backs n (.back cmd)

inductive Redirs : List (Token ω) → List (Tok × ω) → Prop
  | nil : Redirs [] []
  | cons {op w : Token ω} {ts : List (Token ω)} {rs : List (Tok × ω)} :
      op.kind.isRedir = true → w.kind = .word → Redirs ts rs →
      Redirs (op::w::ts) ((op.kind,w.val)::rs)

/-- `(word redirs)*` with the words and the redirections apart. -/
inductive Words : List (Token ω) → List ω → List (Tok × ω) → Prop
  | nil : Words [] [] []
  | cons {w : Token ω} {t ts : List (Token ω)} {r rs : List (Tok × ω)} {ws : List ω} :
      w.kind = .word → Redirs t r → Words ts ws rs → Words (w::(t++ts)) (w.val::ws) (r++rs)

inductive Nonterminal
  | line | pipe | exec
deriving DecidableEq

/-- The tokens are derivable from the nonterminal with this tree:
`line ::= pipe '&'* [';' line]`, `pipe ::= exec ['|' pipe]`,
`exec ::= '(' line ')' redirs | redirs (word redirs)*` with fewer than `MAXARGS` words. -/
inductive Derives : Nonterminal → List (Token ω) → Cmd ω → Prop
  | block {lp rp : Token ω} {t t' : List (Token ω)} {c : Cmd ω} {rs : List (Tok × ω)} :
      lp.kind = .lparen → Derives .line t c → rp.kind = .rparen → Redirs t' rs →
      Derives .exec (lp::(t++rp::t')) (c.wrap rs)
  | simple {t t' : List (Token ω)} {rs rs' : List (Tok × ω)} {ws : List ω} :
      Redirs t rs → Words t' ws rs' → ws.length < MAXARGS →
      Derives .exec (t++t') ((Cmd.exec ws).wrap (rs++rs'))
  | single {t : List (Token ω)} {c : Cmd ω} : Derives .exec t c → Derives .pipe t c
  | pipe {bar : Token ω} {t t' : List (Token ω)} {c c' : Cmd ω} :
      Derives .exec t c → bar.kind = .bar → Derives .pipe t' c' →
      Derives .pipe (t++bar::t') (.pipe c c')
  | last {t amps : List (Token ω)} {c : Cmd ω} :
      Derives .pipe t c → (∀ a ∈ amps, a.kind = .amp) →
      Derives .line (t++amps) (c.backs amps.length)
  | list {semi : Token ω} {t amps t' : List (Token ω)} {c c' : Cmd ω} :
      Derives .pipe t c → (∀ a ∈ amps, a.kind = .amp) → semi.kind = .semi →
      Derives .line t' c' →
      Derives .line (t++(amps++semi::t')) (.list (c.backs amps.length) c')

@[simp] theorem Cmd.wrap_nil (c : Cmd ω) : c.wrap [] = c := rfl

@[simp] theorem Cmd.wrap_cons (c : Cmd ω) (r : Tok × ω) (rs : List (Tok × ω)) :
    c.wrap (r::rs) = (redircmd c r.1 r.2).wrap rs := rfl

theorem Cmd.wrap_append (c : Cmd ω) (rs rs' : List (Tok × ω)) :
    c.wrap (rs++rs') = (c.wrap rs).wrap rs' := List.foldl_append ..

theorem redircmd_addArg (c : Cmd ω) (tok : Tok) (file w : ω) :
    (redircmd c tok file).addArg w = redircmd (c.addArg w) tok file := by
  cases tok <;> rfl

theorem Cmd.wrap_addArg (c : Cmd ω) (rs : List (Tok × ω)) (w : ω) :
    (c.wrap rs).addArg w = (c.addArg w).wrap rs := by
  induction rs generalizing c with
  | nil => rfl
  | cons r rs ih => rw [wrap_cons,ih,redircmd_addArg,wrap_cons]

end Grammar

section Lookahead

variable (tok : Tok)

theorem startsWith_redir : tok.startsWith [60,62] = tok.isRedir := by cases tok <;> rfl

theorem startsWith_amp : tok.startsWith [38] = decide (tok = .amp) := by cases tok <;> rfl

theorem startsWith_semi : tok.startsWith [59] = decide (tok = .semi) := by cases tok <;> rfl

theorem startsWith_bar : tok.startsWith [124] = decide (tok = .bar) := by cases tok <;> rfl

theorem startsWith_lparen : tok.startsWith [40] = decide (tok = .lparen) := by cases tok <;> rfl

theorem startsWith_rparen : tok.startsWith [41] = decide (tok = .rparen) := by cases tok <;> rfl

def Tok.ends : Nonterminal → Tok → Bool
  | .line, .nul | .line, .rparen => true
  | .pipe, .nul | .pipe, .rparen | .pipe, .amp | .pipe, .semi => true
  | .exec, .nul | .exec, .rparen | .exec, .amp | .exec, .semi | .exec, .bar => true
  | _, _ => false

theorem startsWith_ends : tok.startsWith [124,41,38,59] = (tok.ends .exec && tok ≠ .nul) := by
  cases tok <;> rfl

end Lookahead

theorem headKind_eq_cons {ω : Type} {ts : List (Token ω)} (h : headKind ts ≠ .nul) :
    ∃ t ts', ts = t::ts' ∧ t.kind = headKind ts := by
  cases ts with
  | nil => exact absurd rfl h
  | cons t ts' => exact ⟨t,ts',rfl,rfl⟩

section Sound

variable {line : List UInt8} {s : ℕ} {ts : List (Token Span)}

/-- The command took tokens that `P` accepts with its result. -/
def Took (line : List UInt8) (ts : List (Token Span)) (P : List (Token Span) → Cmd Span → Prop)
    (c : Cmd Span) (s' : ℕ) : Prop :=
  ∃ t ts', ts = t++ts' ∧ At line s' ts' ∧ P t c

theorem wp_gettoken_kind {Q : Tok × Span → ℕ → Prop} {E : Stop → Prop} (h : At line s ts)
    (hne : headKind ts ≠ .nul)
    (hQ : ∀ t ts' s', ts = t::ts' → t.kind = headKind ts → At line s' ts' → Q (t.kind,t.val) s') :
    wp (gettoken line) Q E s := by
  obtain ⟨t,ts',rfl,hkind⟩ := headKind_eq_cons hne
  exact wp_gettoken_cons h fun s' h' _ => hQ t ts' s' rfl hkind h'

theorem parseredirs_sound {fuel : ℕ} {c : Cmd Span} (h : At line s ts) (hfuel : ts.length < fuel) :
    wp (parseredirs line fuel c)
      (Took line ts fun t c' => ∃ rs, Redirs t rs ∧ c' = c.wrap rs) (· ≠ .fuel) s := by
  induction fuel generalizing s ts c with
  | zero => omega
  | succ fuel ih =>
    rw [parseredirs,wp_bind]
    refine wp_peek h (by decide) fun s h => ?_
    rw [startsWith_redir,wp_ite]
    refine ⟨fun hredir => ?_,fun _ => ⟨[],ts,rfl,h,[],.nil,rfl⟩⟩
    have hne : headKind ts ≠ .nul := by
      intro heq
      simp [heq,Tok.isRedir] at hredir
    rw [wp_bind]
    refine wp_gettoken_kind h hne fun op ts₁ s₁ hop hkind h₁ => ?_
    rw [← hkind] at hredir
    subst hop
    rw [wp_bind]
    cases ts₁ with
    | nil =>
      refine wp_gettoken_nil h₁ fun span s₂ h₂ => ?_
      simp
    | cons w ts₂ =>
      refine wp_gettoken_cons h₁ fun s₂ h₂ _ => ?_
      rw [wp_ite]
      refine ⟨fun _ => by simp,fun hw => ?_⟩
      simp only [List.length_cons] at hfuel
      refine wp_conseq (ih h₂ (by omega)) ?_
      rintro c' s' ⟨t,ts',rfl,h',rs,hrs,rfl⟩
      exact ⟨op::w::t,ts',rfl,h',_,.cons hredir (not_not.mp hw) hrs,rfl⟩

theorem parseargs_sound {fuel argc : ℕ} {ws : List Span} {rs : List (Tok × Span)}
    (h : At line s ts) (hfuel : ts.length < fuel) (hargc : argc = ws.length)
    (hmax : argc < MAXARGS) :
    wp (parseargs line fuel argc ((Cmd.exec ws).wrap rs))
      (Took line ts fun t c' => ∃ ws' rs', Words t ws' rs' ∧ (ws++ws').length < MAXARGS ∧
        c' = (Cmd.exec (ws++ws')).wrap (rs++rs')) (· ≠ .fuel) s := by
  induction fuel generalizing s ts argc ws rs with
  | zero => omega
  | succ fuel ih =>
    have hdone : ∀ s, At line s ts → Took line ts (fun t c' => ∃ ws' rs', Words t ws' rs' ∧
        (ws++ws').length < MAXARGS ∧ c' = (Cmd.exec (ws++ws')).wrap (rs++rs'))
        ((Cmd.exec ws).wrap rs) s :=
      fun s h => ⟨[],ts,rfl,h,[],[],.nil,by simpa [← hargc] using hmax,by simp⟩
    rw [parseargs,wp_bind]
    refine wp_peek h (by decide) fun s h => ?_
    rw [wp_ite]
    refine ⟨fun _ => hdone s h,fun _ => ?_⟩
    rw [wp_bind]
    cases ts with
    | nil =>
      refine wp_gettoken_nil h fun span s h => ?_
      simpa using hdone s h
    | cons w ts₁ =>
      refine wp_gettoken_cons h fun s h hne => ?_
      simp only [if_neg hne]
      rw [wp_ite]
      refine ⟨fun _ => by simp,fun hw => ?_⟩
      rw [wp_ite]
      refine ⟨fun _ => by simp,fun hlt => ?_⟩
      simp only [List.length_cons] at hfuel
      rw [Cmd.wrap_addArg,wp_bind]
      refine wp_conseq (parseredirs_sound h (by omega)) ?_
      rintro c' s' ⟨t,ts',rfl,h',rs₁,hrs,rfl⟩
      rw [← Cmd.wrap_append]
      simp only [List.length_append] at hfuel
      have hlen : argc+1 = (ws++[w.val]).length := by simp [hargc]
      refine wp_conseq (ih h' (by omega) hlen (by omega)) ?_
      rintro c'' s'' ⟨t',ts'',rfl,h'',ws',rs',hwords,hmax',rfl⟩
      refine ⟨w::(t++t'),ts'',by simp,h'',w.val::ws',rs₁++rs',.cons (not_not.mp hw) hrs hwords,?_,?_⟩
      · simpa using hmax'
      · simp [List.append_assoc]

theorem parsebacks_sound {fuel : ℕ} {c : Cmd Span} (h : At line s ts) (hfuel : ts.length < fuel) :
    wp (parsebacks line fuel c)
      (Took line ts fun t c' => (∀ a ∈ t, a.kind = .amp) ∧ c' = c.backs t.length) (· ≠ .fuel) s := by
  induction fuel generalizing s ts c with
  | zero => omega
  | succ fuel ih =>
    rw [parsebacks,wp_bind]
    refine wp_peek h (by decide) fun s h => ?_
    rw [startsWith_amp,wp_ite]
    refine ⟨fun hamp => ?_,fun _ => ⟨[],ts,rfl,h,by simp,rfl⟩⟩
    have hamp : headKind ts = .amp := by simpa using hamp
    rw [wp_bind]
    refine wp_gettoken_kind h (by simp [hamp]) fun a ts₁ s₁ ha hkind h₁ => ?_
    subst ha
    simp only [List.length_cons] at hfuel
    refine wp_conseq (ih h₁ (by omega)) ?_
    rintro c' s' ⟨t,ts',rfl,h',hall,rfl⟩
    refine ⟨a::t,ts',rfl,h',?_,rfl⟩
    intro b hb
    rcases List.mem_cons.mp hb with rfl | hb
    · rw [hkind,hamp]
    · exact hall b hb

def parse (line : List UInt8) : Nonterminal → ℕ → M (Cmd Span)
  | .line => parseline line
  | .pipe => parsepipe line
  | .exec => parseexec line

def rank : Nonterminal → ℕ
  | .line => 4
  | .pipe => 3
  | .exec => 2

/-- What the parse functions take with this fuel is derivable, and the fuel is enough. -/
def SoundAt (line : List UInt8) (fuel : ℕ) : Prop :=
  ∀ nt s ts, At line s ts → 4*ts.length+rank nt ≤ fuel →
    wp (parse line nt fuel) (Took line ts (Derives nt)) (· ≠ .fuel) s

theorem parseblock_sound {fuel : ℕ} (ih : SoundAt line fuel) {lp : Token Span}
    (h : At line s (lp::ts)) (hlp : lp.kind = .lparen) (hfuel : 4*ts.length+4 ≤ fuel) :
    wp (parseblock line (fuel+1)) (Took line (lp::ts) (Derives .exec)) (· ≠ .fuel) s := by
  rw [parseblock,wp_bind]
  refine wp_peek h (by decide) fun s h => ?_
  rw [startsWith_lparen,headKind,hlp,wp_ite]
  refine ⟨fun _ => ?_,fun hno => by simp at hno⟩
  rw [wp_bind]
  refine wp_gettoken_cons h fun s₁ h₁ _ => ?_
  rw [wp_bind]
  refine wp_conseq (ih .line s₁ ts h₁ hfuel) ?_
  rintro c s₂ ⟨t,ts₂,rfl,h₂,hc⟩
  rw [wp_bind]
  refine wp_peek h₂ (by decide) fun s₃ h₃ => ?_
  rw [startsWith_rparen,wp_ite]
  refine ⟨fun hrp => ?_,fun _ => by simp⟩
  have hrp : headKind ts₂ = .rparen := by simpa using hrp
  rw [wp_bind]
  refine wp_gettoken_kind h₃ (by simp [hrp]) fun rp ts₄ s₄ hts hkind h₄ => ?_
  subst hts
  simp only [List.length_append,List.length_cons] at hfuel
  refine wp_conseq (parseredirs_sound h₄ (by omega)) ?_
  rintro c' s₅ ⟨t',ts₅,rfl,h₅,rs,hrs,rfl⟩
  exact ⟨lp::(t++rp::t'),ts₅,by simp,h₅,.block hlp hc (hkind.trans hrp) hrs⟩

theorem parseexec_sound {fuel : ℕ} (ih : ∀ f < fuel, SoundAt line f) (h : At line s ts)
    (hfuel : 4*ts.length+1 ≤ fuel) :
    wp (parseexec line (fuel+1)) (Took line ts (Derives .exec)) (· ≠ .fuel) s := by
  rw [parseexec,wp_bind]
  refine wp_peek h (by decide) fun s h => ?_
  rw [startsWith_lparen,wp_ite]
  constructor
  · intro hlp
    have hlp : headKind ts = .lparen := by simpa using hlp
    obtain ⟨lp,ts',rfl,hkind⟩ : ∃ t ts', ts = t::ts' ∧ t.kind = headKind ts :=
      headKind_eq_cons (by simp [hlp])
    obtain ⟨fuel,rfl⟩ : ∃ f, fuel = f+1 := ⟨fuel-1,by omega⟩
    simp only [List.length_cons] at hfuel
    exact parseblock_sound (ih fuel (by omega)) h (hkind.trans hlp) (by omega)
  · intro _
    rw [wp_bind]
    refine wp_conseq (parseredirs_sound h (by omega)) ?_
    rintro c s₁ ⟨t,ts₁,rfl,h₁,rs,hrs,rfl⟩
    simp only [List.length_append] at hfuel
    have hmax : 0 < MAXARGS := by decide
    refine wp_conseq (parseargs_sound h₁ (by omega) rfl hmax) ?_
    rintro c s₂ ⟨t',ts₂,rfl,h₂,ws,rs',hws,hlt,rfl⟩
    exact ⟨t++t',ts₂,by simp,h₂,.simple hrs hws hlt⟩

theorem parsepipe_sound {fuel : ℕ} (ih : SoundAt line fuel) (h : At line s ts)
    (hfuel : 4*ts.length+2 ≤ fuel) :
    wp (parsepipe line (fuel+1)) (Took line ts (Derives .pipe)) (· ≠ .fuel) s := by
  rw [parsepipe,wp_bind]
  refine wp_conseq (ih .exec s ts h hfuel) ?_
  rintro c s₁ ⟨t,ts₁,rfl,h₁,hc⟩
  rw [wp_bind]
  refine wp_peek h₁ (by decide) fun s₂ h₂ => ?_
  rw [startsWith_bar,wp_ite]
  refine ⟨fun hbar => ?_,fun _ => ⟨t,ts₁,rfl,h₂,.single hc⟩⟩
  have hbar : headKind ts₁ = .bar := by simpa using hbar
  rw [wp_bind]
  refine wp_gettoken_kind h₂ (by simp [hbar]) fun bar ts₃ s₃ hts hkind h₃ => ?_
  subst hts
  simp only [List.length_append,List.length_cons] at hfuel
  rw [wp_bind]
  refine wp_conseq (ih .pipe s₃ ts₃ h₃ (by simp only [rank]; omega)) ?_
  rintro c' s₄ ⟨t',ts₄,rfl,h₄,hc'⟩
  exact ⟨t++bar::t',ts₄,by simp,h₄,.pipe hc (hkind.trans hbar) hc'⟩

theorem parseline_sound {fuel : ℕ} (ih : SoundAt line fuel) (h : At line s ts)
    (hfuel : 4*ts.length+3 ≤ fuel) :
    wp (parseline line (fuel+1)) (Took line ts (Derives .line)) (· ≠ .fuel) s := by
  rw [parseline,wp_bind]
  refine wp_conseq (ih .pipe s ts h hfuel) ?_
  rintro c s₁ ⟨t,ts₁,rfl,h₁,hc⟩
  simp only [List.length_append] at hfuel
  rw [wp_bind]
  refine wp_conseq (parsebacks_sound h₁ (by omega)) ?_
  rintro c' s₂ ⟨amps,ts₂,rfl,h₂,hamps,rfl⟩
  rw [wp_bind]
  refine wp_peek h₂ (by decide) fun s₃ h₃ => ?_
  rw [startsWith_semi,wp_ite]
  refine ⟨fun hsemi => ?_,fun _ => ⟨t++amps,ts₂,by simp,h₃,.last hc hamps⟩⟩
  have hsemi : headKind ts₂ = .semi := by simpa using hsemi
  rw [wp_bind]
  refine wp_gettoken_kind h₃ (by simp [hsemi]) fun semi ts₄ s₄ hts hkind h₄ => ?_
  subst hts
  simp only [List.length_append,List.length_cons] at hfuel
  rw [wp_bind]
  refine wp_conseq (ih .line s₄ ts₄ h₄ (by simp only [rank]; omega)) ?_
  rintro c' s₅ ⟨t',ts₅,rfl,h₅,hc'⟩
  exact ⟨t++(amps++semi::t'),ts₅,by simp,h₅,.list hc hamps (hkind.trans hsemi) hc'⟩

theorem soundAt (fuel : ℕ) : SoundAt line fuel := by
  induction fuel using Nat.strong_induction_on with
  | _ fuel ih =>
    intro nt s ts h hfuel
    have hpos : 0 < rank nt := by cases nt <;> decide
    obtain ⟨fuel,rfl⟩ : ∃ f, fuel = f+1 := ⟨fuel-1,by omega⟩
    cases nt with
    | line => exact parseline_sound (ih fuel (by omega)) h (by simp only [rank] at hfuel; omega)
    | pipe => exact parsepipe_sound (ih fuel (by omega)) h (by simp only [rank] at hfuel; omega)
    | exec =>
      exact parseexec_sound (fun f hf => ih f (by omega)) h (by simp only [rank] at hfuel; omega)

end Sound

section Complete

variable {line : List UInt8} {s fuel : ℕ} {t rest : List (Token Span)}

/-- The command took the tokens before `rest` and returned `c`. -/
def Yields (line : List UInt8) (rest : List (Token Span)) (c c' : Cmd Span) (s' : ℕ) : Prop :=
  c' = c ∧ At line s' rest

theorem parseredirs_complete {c : Cmd Span} {rs : List (Tok × Span)} (hrs : Redirs t rs)
    (h : At line s (t++rest)) (hrest : (headKind rest).isRedir = false) :
    wp (parseredirs line fuel c) (Yields line rest (c.wrap rs)) (· = .fuel) s := by
  induction hrs generalizing fuel s c with
  | nil =>
    cases fuel with
    | zero => rfl
    | succ fuel =>
      rw [parseredirs,wp_bind]
      refine wp_peek h (by decide) fun s h => ?_
      rw [startsWith_redir,List.nil_append,hrest]
      exact ⟨rfl,h⟩
  | @cons op w ts rs hop hw _ ih =>
    cases fuel with
    | zero => rfl
    | succ fuel =>
      rw [parseredirs,wp_bind]
      refine wp_peek h (by decide) fun s h => ?_
      rw [startsWith_redir,List.cons_append,headKind,hop,if_pos rfl,wp_bind]
      refine wp_gettoken_cons h fun s₁ h₁ _ => ?_
      rw [wp_bind]
      refine wp_gettoken_cons h₁ fun s₂ h₂ _ => ?_
      simp only [hw,ne_eq,not_true_eq_false,if_false]
      exact ih h₂

theorem headKind_words {ws : List Span} {rs : List (Tok × Span)} (h : Words t ws rs) :
    t = [] ∨ headKind (t++rest) = .word := by
  cases h with
  | nil => exact .inl rfl
  | cons hw _ _ => exact .inr hw

theorem isRedir_of_ends {tok : Tok} (h : tok.ends .exec = true) : tok.isRedir = false := by
  cases tok <;> first | rfl | exact absurd h (by decide)

theorem isRedir_words {ws : List Span} {rs : List (Tok × Span)} (h : Words t ws rs)
    (hrest : (headKind rest).ends .exec = true) : (headKind (t++rest)).isRedir = false := by
  rcases headKind_words h with rfl | hw
  · exact isRedir_of_ends hrest
  · rw [hw]
    rfl

theorem parseargs_complete {ws₀ ws : List Span} {rs₀ rs : List (Tok × Span)} {argc : ℕ}
    (hws : Words t ws rs) (h : At line s (t++rest)) (hrest : (headKind rest).ends .exec = true)
    (hargc : argc+ws.length < MAXARGS) :
    wp (parseargs line fuel argc ((Cmd.exec ws₀).wrap rs₀))
      (Yields line rest ((Cmd.exec (ws₀++ws)).wrap (rs₀++rs))) (· = .fuel) s := by
  induction hws generalizing fuel s argc ws₀ rs₀ with
  | nil =>
    cases fuel with
    | zero => rfl
    | succ fuel =>
      rw [parseargs,wp_bind]
      refine wp_peek h (by decide) fun s h => ?_
      rw [startsWith_ends,List.nil_append,hrest,wp_ite,List.append_nil,List.append_nil]
      refine ⟨fun _ => ⟨rfl,h⟩,fun hnul => ?_⟩
      have hnil : rest = [] := h.eq_nil (by simpa using hnul)
      subst hnil
      rw [wp_bind]
      exact wp_gettoken_nil h fun span s₁ h₁ => ⟨rfl,h₁⟩
  | @cons w t ts r rs ws hw hr hws ih =>
    cases fuel with
    | zero => rfl
    | succ fuel =>
      rw [parseargs,wp_bind]
      refine wp_peek h (by decide) fun s h => ?_
      rw [startsWith_ends,List.cons_append,headKind,hw,if_neg (by decide),wp_bind]
      refine wp_gettoken_cons h fun s₁ h₁ _ => ?_
      simp only [List.length_cons] at hargc
      have hlt : ¬ argc+1 ≥ MAXARGS := by omega
      simp only [hw,reduceCtorEq,if_false,ne_eq,not_true_eq_false,hlt,Cmd.wrap_addArg,wp_bind]
      have h₁ : At line s₁ (t++(ts++rest)) := by rwa [← List.append_assoc]
      refine wp_conseq (parseredirs_complete hr h₁ (isRedir_words hws hrest)) ?_
      rintro c s₂ ⟨rfl,h₂⟩
      rw [← Cmd.wrap_append,Cmd.addArg]
      have hgo := @ih s₂ fuel (ws₀++[w.val]) (rs₀++r) (argc+1) h₂ (by omega)
      simpa [List.append_assoc] using hgo

theorem parsebacks_complete {c : Cmd Span} (ht : ∀ a ∈ t, a.kind = .amp)
    (h : At line s (t++rest)) (hrest : headKind rest ≠ .amp) :
    wp (parsebacks line fuel c) (Yields line rest (c.backs t.length)) (· = .fuel) s := by
  induction t generalizing fuel s c with
  | nil =>
    cases fuel with
    | zero => rfl
    | succ fuel =>
      rw [parsebacks,wp_bind]
      refine wp_peek h (by decide) fun s h => ?_
      rw [startsWith_amp,List.nil_append,decide_eq_false hrest]
      exact ⟨rfl,h⟩
  | cons a t ih =>
    cases fuel with
    | zero => rfl
    | succ fuel =>
      rw [parsebacks,wp_bind]
      refine wp_peek h (by decide) fun s h => ?_
      rw [startsWith_amp,List.cons_append,headKind,decide_eq_true (ht a List.mem_cons_self),
        if_pos rfl,wp_bind]
      refine wp_gettoken_cons h fun s₁ h₁ _ => ?_
      exact ih (fun b hb => ht b (List.mem_cons_of_mem a hb)) h₁

theorem headKind_simple {t' : List (Token Span)} {ws : List Span} {rs rs' : List (Tok × Span)}
    (hrs : Redirs t rs) (hws : Words t' ws rs') (hrest : (headKind rest).ends .exec = true) :
    headKind (t++(t'++rest)) ≠ .lparen := by
  cases hrs with
  | nil =>
    rcases headKind_words hws with rfl | hw
    · intro hlp
      rw [List.nil_append,List.nil_append] at hlp
      rw [hlp] at hrest
      exact absurd hrest (by decide)
    · rw [List.nil_append,hw]
      decide
  | cons hop _ _ =>
    intro hlp
    rw [List.cons_append,headKind] at hlp
    rw [hlp] at hop
    exact absurd hop (by decide)

theorem ends_exec_of_pipe {tok : Tok} (h : tok.ends .pipe = true) :
    tok.ends .exec = true ∧ tok ≠ .bar := by
  cases tok <;> simp_all [Tok.ends]

theorem ends_pipe_of_line {tok : Tok} (h : tok.ends .line = true) :
    tok.ends .pipe = true ∧ tok ≠ .amp ∧ tok ≠ .semi := by
  cases tok <;> simp_all [Tok.ends]

theorem ends_amps (ht : ∀ a ∈ t, a.kind = .amp) (hrest : (headKind rest).ends .pipe = true) :
    (headKind (t++rest)).ends .pipe = true := by
  cases t with
  | nil => exact hrest
  | cons a t =>
    rw [List.cons_append,headKind,ht a List.mem_cons_self]
    rfl

/-- The parse function of the nonterminal takes `t` and returns `c`, whatever admissible tokens
follow, unless it lacks fuel. -/
def Finds (line : List UInt8) (nt : Nonterminal) (t : List (Token Span)) (c : Cmd Span) : Prop :=
  ∀ fuel s rest, At line s (t++rest) → (headKind rest).ends nt = true →
    wp (parse line nt fuel) (Yields line rest c) (· = .fuel) s

theorem finds_block {lp rp : Token Span} {t' : List (Token Span)} {c : Cmd Span}
    {rs : List (Tok × Span)} (hlp : lp.kind = .lparen) (hc : Finds line .line t c)
    (hrp : rp.kind = .rparen) (hrs : Redirs t' rs) :
    Finds line .exec (lp::(t++rp::t')) (c.wrap rs) := by
  intro fuel s rest h hrest
  rw [List.cons_append] at h
  cases fuel with
  | zero => rfl
  | succ fuel =>
    rw [parse,parseexec,wp_bind]
    refine wp_peek h (by decide) fun s h => ?_
    rw [startsWith_lparen,headKind,decide_eq_true hlp,if_pos rfl]
    cases fuel with
    | zero => rfl
    | succ fuel =>
      rw [parseblock,wp_bind]
      refine wp_peek h (by decide) fun s h => ?_
      rw [startsWith_lparen,headKind,decide_eq_true hlp,if_pos rfl,wp_bind]
      refine wp_gettoken_cons h fun s₁ h₁ _ => ?_
      rw [List.append_assoc,List.cons_append] at h₁
      rw [wp_bind]
      refine wp_conseq (hc fuel s₁ _ h₁ (by rw [headKind,hrp]; rfl)) ?_
      rintro c' s₂ ⟨rfl,h₂⟩
      rw [wp_bind]
      refine wp_peek h₂ (by decide) fun s₃ h₃ => ?_
      rw [startsWith_rparen,headKind,decide_eq_true hrp,if_pos rfl,wp_bind]
      refine wp_gettoken_cons h₃ fun s₄ h₄ _ => ?_
      exact parseredirs_complete hrs h₄ (isRedir_of_ends hrest)

theorem finds_simple {t' : List (Token Span)} {rs rs' : List (Tok × Span)} {ws : List Span}
    (hrs : Redirs t rs) (hws : Words t' ws rs') (hlt : ws.length < MAXARGS) :
    Finds line .exec (t++t') ((Cmd.exec ws).wrap (rs++rs')) := by
  intro fuel s rest h hrest
  cases fuel with
  | zero => rfl
  | succ fuel =>
    rw [List.append_assoc] at h
    rw [parse,parseexec,wp_bind]
    refine wp_peek h (by decide) fun s h => ?_
    rw [startsWith_lparen,decide_eq_false (headKind_simple hrs hws hrest),if_neg (by decide),
      wp_bind]
    refine wp_conseq (parseredirs_complete hrs h (isRedir_words hws hrest)) ?_
    rintro c s₁ ⟨rfl,h₁⟩
    exact parseargs_complete hws h₁ hrest (by omega)

theorem finds_single {c : Cmd Span} (hc : Finds line .exec t c) : Finds line .pipe t c := by
  intro fuel s rest h hrest
  obtain ⟨hexec,hbar⟩ := ends_exec_of_pipe hrest
  cases fuel with
  | zero => rfl
  | succ fuel =>
    rw [parse,parsepipe,wp_bind]
    refine wp_conseq (hc fuel s rest h hexec) ?_
    rintro c' s₁ ⟨rfl,h₁⟩
    rw [wp_bind]
    refine wp_peek h₁ (by decide) fun s₂ h₂ => ?_
    rw [startsWith_bar,decide_eq_false hbar]
    exact ⟨rfl,h₂⟩

theorem finds_pipe {bar : Token Span} {t' : List (Token Span)} {c c' : Cmd Span}
    (hc : Finds line .exec t c) (hbar : bar.kind = .bar) (hc' : Finds line .pipe t' c') :
    Finds line .pipe (t++bar::t') (.pipe c c') := by
  intro fuel s rest h hrest
  cases fuel with
  | zero => rfl
  | succ fuel =>
    rw [List.append_assoc,List.cons_append] at h
    rw [parse,parsepipe,wp_bind]
    refine wp_conseq (hc fuel s _ h (by rw [headKind,hbar]; rfl)) ?_
    rintro c₁ s₁ ⟨rfl,h₁⟩
    rw [wp_bind]
    refine wp_peek h₁ (by decide) fun s₂ h₂ => ?_
    rw [startsWith_bar,headKind,decide_eq_true hbar,if_pos rfl,wp_bind]
    refine wp_gettoken_cons h₂ fun s₃ h₃ _ => ?_
    rw [wp_bind]
    refine wp_conseq (hc' fuel s₃ rest h₃ hrest) ?_
    rintro c₄ s₄ ⟨rfl,h₄⟩
    exact ⟨rfl,h₄⟩

theorem finds_last {amps : List (Token Span)} {c : Cmd Span} (hc : Finds line .pipe t c)
    (hamps : ∀ a ∈ amps, a.kind = .amp) :
    Finds line .line (t++amps) (c.backs amps.length) := by
  intro fuel s rest h hrest
  obtain ⟨hpipe,hamp,hsemi⟩ := ends_pipe_of_line hrest
  cases fuel with
  | zero => rfl
  | succ fuel =>
    rw [List.append_assoc] at h
    rw [parse,parseline,wp_bind]
    refine wp_conseq (hc fuel s _ h (ends_amps hamps hpipe)) ?_
    rintro c₁ s₁ ⟨rfl,h₁⟩
    rw [wp_bind]
    refine wp_conseq (parsebacks_complete hamps h₁ hamp) ?_
    rintro c₂ s₂ ⟨rfl,h₂⟩
    rw [wp_bind]
    refine wp_peek h₂ (by decide) fun s₃ h₃ => ?_
    rw [startsWith_semi,decide_eq_false hsemi]
    exact ⟨rfl,h₃⟩

theorem finds_list {semi : Token Span} {amps t' : List (Token Span)} {c c' : Cmd Span}
    (hc : Finds line .pipe t c) (hamps : ∀ a ∈ amps, a.kind = .amp) (hsemi : semi.kind = .semi)
    (hc' : Finds line .line t' c') :
    Finds line .line (t++(amps++semi::t')) (.list (c.backs amps.length) c') := by
  intro fuel s rest h hrest
  have hends : (headKind (semi::(t'++rest))).ends .pipe = true := by
    rw [headKind,hsemi]
    rfl
  cases fuel with
  | zero => rfl
  | succ fuel =>
    rw [List.append_assoc,List.append_assoc,List.cons_append] at h
    rw [parse,parseline,wp_bind]
    refine wp_conseq (hc fuel s _ h (ends_amps hamps hends)) ?_
    rintro c₁ s₁ ⟨rfl,h₁⟩
    rw [wp_bind]
    refine wp_conseq (parsebacks_complete hamps h₁ (by rw [headKind,hsemi]; decide)) ?_
    rintro c₂ s₂ ⟨rfl,h₂⟩
    rw [wp_bind]
    refine wp_peek h₂ (by decide) fun s₃ h₃ => ?_
    rw [startsWith_semi,headKind,decide_eq_true hsemi,if_pos rfl,wp_bind]
    refine wp_gettoken_cons h₃ fun s₄ h₄ _ => ?_
    rw [wp_bind]
    refine wp_conseq (hc' fuel s₄ rest h₄ hrest) ?_
    rintro c₅ s₅ ⟨rfl,h₅⟩
    exact ⟨rfl,h₅⟩

theorem parse_complete {nt : Nonterminal} {c : Cmd Span} (hc : Derives nt t c) :
    Finds line nt t c := by
  induction hc with
  | block hlp _ hrp hrs ih => exact finds_block hlp ih hrp hrs
  | simple hrs hws hlt => exact finds_simple hrs hws hlt
  | single _ ih => exact finds_single ih
  | pipe _ hbar _ ih ih' => exact finds_pipe ih hbar ih'
  | last _ hamps ih => exact finds_last ih hamps
  | list _ hamps hsemi _ ih ih' => exact finds_list ih hamps hsemi ih'

end Complete

theorem at_zero (line : List UInt8) : At line 0 (tokens line 0) := ⟨Nat.zero_le _,rfl⟩

theorem tokens_eq_nil_iff {line : List UInt8} {s : ℕ} (hz : 0 ∉ line) (h : s ≤ line.length) :
    tokens line s = [] ↔ blanks line s = line.length := by
  have hle := blanks_le h
  rw [tokens_eq h]
  have hnul : (next line s).1 = .nul ↔ line.length ≤ blanks line s := scan_eq_nul_iff hz
  split
  · rename_i htok
    have hge := hnul.mp htok
    simp only [true_iff]
    omega
  · rename_i htok
    have hlt : ¬ line.length ≤ blanks line s := fun hge => htok (hnul.mpr hge)
    simp only [reduceCtorEq,false_iff]
    omega

theorem tokens_length_le {line : List UInt8} {s : ℕ} : (tokens line s).length ≤ line.length-s := by
  unfold tokens
  generalize line.length-s = n
  induction n generalizing s with
  | zero => rfl
  | succ n ih =>
    simp only [tokensFrom]
    split
    · simp
    · exact Nat.succ_le_succ ih

section Parsecmd

variable {line : List UInt8} {fuel : ℕ}

theorem parseline_sound_zero (hfuel : 4*line.length+4 ≤ fuel) :
    wp (parseline line fuel) (Took line (tokens line 0) (Derives .line)) (· ≠ .fuel) 0 := by
  have hlen : (tokens line 0).length ≤ line.length-0 := tokens_length_le
  exact soundAt fuel .line 0 (tokens line 0) (at_zero line) (by simp only [rank]; omega)

theorem parsecmd_ne_fuel (hfuel : 4*line.length+4 ≤ fuel) :
    parsecmd fuel line ≠ .error .fuel := by
  have hwp := parseline_sound_zero hfuel
  unfold parsecmd
  split
  · rename_i e hrun
    intro heq
    exact wp_error hwp hrun (by simpa using heq)
  · split <;> simp

/-- `parsecmd` returns the trees of the derivations of the whole line. -/
theorem parsecmd_ok_iff {c : Cmd Span} (hz : 0 ∉ line) (hfuel : 4*line.length+4 ≤ fuel) :
    (∃ buf, parsecmd fuel line = .ok (c,buf)) ↔ Derives .line (tokens line 0) c := by
  have hsound := parseline_sound_zero hfuel
  constructor
  · rintro ⟨buf,hok⟩
    unfold parsecmd at hok
    split at hok
    · cases hok
    · rename_i c' s hrun
      obtain ⟨t,ts,htokens,⟨hle,hts⟩,hc⟩ := wp_ok hsound hrun
      split at hok
      · cases hok
      · rename_i hend
        have hnil : ts = [] := by
          rw [← hts]
          exact (tokens_eq_nil_iff hz hle).mpr (not_not.mp hend)
        cases hok
        rw [htokens,hnil,List.append_nil]
        exact hc
  · intro hc
    have hfind : wp (parseline line fuel) (Yields line [] c) (· = .fuel) 0 :=
      parse_complete hc fuel 0 [] (by rw [List.append_nil]; exact at_zero line) rfl
    have hboth := wp_and hsound hfind
    unfold parsecmd
    rcases hrun : (parseline line fuel).run 0 with e | ⟨c',s⟩
    · obtain ⟨hne,heq⟩ := wp_error hboth hrun
      exact absurd heq hne
    · obtain ⟨-,rfl,hle,hnil⟩ := wp_ok hboth hrun
      have hend := (tokens_eq_nil_iff hz hle).mp hnil
      simp [hend]

end Parsecmd

end Xv6.Sh
