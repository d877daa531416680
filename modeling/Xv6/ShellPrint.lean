import Xv6.ShellGrammar

/-! Printing the trees of the shell. A tree is printed as a token list that the grammar derives
it from, with parentheses where the tree does not fit its place, and the tokens are written
with blanks between them; the parser reads the same tree back. -/
namespace Xv6.Sh

section Map

variable {ω ω' : Type}

def Token.map (f : ω → ω') (t : Token ω) : Token ω' := ⟨t.kind,f t.val⟩

def Cmd.map (f : ω → ω') : Cmd ω → Cmd ω'
  | .exec argv => .exec (argv.map f)
  | .redir cmd file mode fd => .redir (cmd.map f) (f file) mode fd
  | .pipe left right => .pipe (left.map f) (right.map f)
  | .list left right => .list (left.map f) (right.map f)
  | .back cmd => .back (cmd.map f)

variable {f : ω → ω'}

theorem Cmd.map_wrap (c : Cmd ω) (rs : List (Tok × ω)) :
    (c.wrap rs).map f = (c.map f).wrap (rs.map fun r => (r.1,f r.2)) := by
  induction rs generalizing c with
  | nil => rfl
  | cons r rs ih =>
    rw [wrap_cons,ih,List.map_cons,wrap_cons]
    congr 1
    cases r.1 <;> rfl

theorem Cmd.map_backs (c : Cmd ω) (n : ℕ) : (c.backs n).map f = (c.map f).backs n := by
  induction n generalizing c with
  | zero => rfl
  | succ n ih => exact ih (.back c)

theorem Redirs.map {t : List (Token ω)} {rs : List (Tok × ω)} (h : Redirs t rs) :
    Redirs (t.map (Token.map f)) (rs.map fun r => (r.1,f r.2)) := by
  induction h with
  | nil => exact .nil
  | @cons op w ts rs hop hw _ ih =>
    exact @Redirs.cons ω' (op.map f) (w.map f) _ _ hop hw ih

theorem Words.map {t : List (Token ω)} {ws : List ω} {rs : List (Tok × ω)} (h : Words t ws rs) :
    Words (t.map (Token.map f)) (ws.map f) (rs.map fun r => (r.1,f r.2)) := by
  induction h with
  | nil => exact .nil
  | @cons w t ts r rs ws hw hr _ ih =>
    rw [List.map_cons,List.map_append,List.map_append,List.map_cons]
    exact @Words.cons ω' (w.map f) _ _ _ _ _ hw hr.map ih

theorem amps_map (f : ω → ω') {amps : List (Token ω)} :
    (∀ a ∈ amps.map (Token.map f), a.kind = .amp) ↔ ∀ a ∈ amps, a.kind = .amp := by
  simp [Token.map]

theorem Derives.map {nt : Nonterminal} {t : List (Token ω)} {c : Cmd ω} (h : Derives nt t c) :
    Derives nt (t.map (Token.map f)) (c.map f) := by
  induction h with
  | @block lp rp t t' c rs hlp _ hrp hrs ih =>
    rw [List.map_cons,List.map_append,List.map_cons,Cmd.map_wrap]
    exact @Derives.block ω' (lp.map f) (rp.map f) _ _ _ _ hlp ih hrp hrs.map
  | simple hrs hws hlt =>
    rw [List.map_append,Cmd.map_wrap,List.map_append]
    exact .simple hrs.map hws.map (by simpa using hlt)
  | single _ ih => exact .single ih
  | @pipe bar t t' c c' _ hbar _ ih ih' =>
    rw [List.map_append,List.map_cons]
    exact @Derives.pipe ω' (bar.map f) _ _ _ _ ih hbar ih'
  | @last t amps c _ hamps ih =>
    have h := Derives.last ih ((amps_map f).mpr hamps)
    rwa [List.length_map,← Cmd.map_backs,← List.map_append] at h
  | @list semi t amps t' c c' _ hamps hsemi _ ih ih' =>
    have h := @Derives.list ω' (semi.map f) _ _ _ _ _ ih ((amps_map f).mpr hamps) hsemi ih'
    rw [List.map_append,List.map_append,List.map_cons,Cmd.map,Cmd.map_backs]
    rwa [List.length_map] at h

theorem Redirs.comap {t : List (Token ω)} {rs : List (Tok × ω')}
    (h : Redirs (t.map (Token.map f)) rs) :
    ∃ rs', Redirs t rs' ∧ rs'.map (fun r => (r.1,f r.2)) = rs := by
  generalize ht : t.map (Token.map f) = u at h
  induction h generalizing t with
  | nil =>
    rw [List.map_eq_nil_iff] at ht
    exact ⟨[],ht ▸ .nil,rfl⟩
  | @cons op w ts rs hop hw _ ih =>
    obtain ⟨op',t₁,rfl,rfl,ht₁⟩ := List.map_eq_cons_iff.mp ht
    obtain ⟨w',t₂,rfl,rfl,ht₂⟩ := List.map_eq_cons_iff.mp ht₁
    obtain ⟨rs',hrs,rfl⟩ := ih ht₂
    exact ⟨_,.cons hop hw hrs,rfl⟩

theorem Words.comap {t : List (Token ω)} {ws : List ω'} {rs : List (Tok × ω')}
    (h : Words (t.map (Token.map f)) ws rs) :
    ∃ ws' rs', Words t ws' rs' ∧ ws'.map f = ws ∧ rs'.map (fun r => (r.1,f r.2)) = rs := by
  generalize ht : t.map (Token.map f) = u at h
  induction h generalizing t with
  | nil =>
    rw [List.map_eq_nil_iff] at ht
    exact ⟨[],[],ht ▸ .nil,rfl,rfl⟩
  | @cons w r₀ ts r rs ws hw hr _ ih =>
    obtain ⟨w',t₁,rfl,rfl,ht₁⟩ := List.map_eq_cons_iff.mp ht
    obtain ⟨t₂,t₃,rfl,rfl,ht₃⟩ := List.map_eq_append_iff.mp ht₁
    obtain ⟨r',hr',rfl⟩ := hr.comap
    obtain ⟨ws',rs',hws,rfl,rfl⟩ := ih ht₃
    exact ⟨_,_,.cons hw hr' hws,rfl,by rw [List.map_append]⟩

theorem Derives.comap {nt : Nonterminal} {t : List (Token ω)} {c : Cmd ω'}
    (h : Derives nt (t.map (Token.map f)) c) : ∃ c', Derives nt t c' ∧ c'.map f = c := by
  generalize ht : t.map (Token.map f) = u at h
  induction h generalizing t with
  | @block lp rp t₀ t₀' c rs hlp _ hrp hrs ih =>
    obtain ⟨lp',t₁,rfl,rfl,ht₁⟩ := List.map_eq_cons_iff.mp ht
    obtain ⟨t₂,t₃,rfl,ht₂,ht₃⟩ := List.map_eq_append_iff.mp ht₁
    obtain ⟨rp',t₄,rfl,rfl,rfl⟩ := List.map_eq_cons_iff.mp ht₃
    obtain ⟨c',hc,rfl⟩ := ih ht₂
    obtain ⟨rs',hrs',rfl⟩ := hrs.comap
    exact ⟨_,.block hlp hc hrp hrs',Cmd.map_wrap ..⟩
  | @simple t₀ t₀' rs rs' ws hrs hws hlt =>
    obtain ⟨t₁,t₂,rfl,rfl,rfl⟩ := List.map_eq_append_iff.mp ht
    obtain ⟨rs₁,hrs₁,rfl⟩ := hrs.comap
    obtain ⟨ws₁,rs₂,hws₁,rfl,rfl⟩ := hws.comap
    refine ⟨_,.simple hrs₁ hws₁ (by simpa using hlt),?_⟩
    rw [Cmd.map_wrap,List.map_append,Cmd.map]
  | single _ ih =>
    obtain ⟨c',hc,rfl⟩ := ih ht
    exact ⟨c',.single hc,rfl⟩
  | @pipe bar t₀ t₀' c c' _ hbar _ ih ih' =>
    obtain ⟨t₁,t₂,rfl,ht₁,ht₂⟩ := List.map_eq_append_iff.mp ht
    obtain ⟨bar',t₃,rfl,rfl,ht₃⟩ := List.map_eq_cons_iff.mp ht₂
    obtain ⟨c₁,hc₁,rfl⟩ := ih ht₁
    obtain ⟨c₂,hc₂,rfl⟩ := ih' ht₃
    exact ⟨_,.pipe hc₁ hbar hc₂,rfl⟩
  | @last t₀ amps c _ hamps ih =>
    obtain ⟨t₁,amps',rfl,ht₁,rfl⟩ := List.map_eq_append_iff.mp ht
    obtain ⟨c₁,hc₁,rfl⟩ := ih ht₁
    refine ⟨_,.last hc₁ ((amps_map f).mp hamps),?_⟩
    rw [Cmd.map_backs,List.length_map]
  | @list semi t₀ amps t₀' c c' _ hamps hsemi _ ih ih' =>
    obtain ⟨t₁,t₂,rfl,ht₁,ht₂⟩ := List.map_eq_append_iff.mp ht
    obtain ⟨amps',t₃,rfl,rfl,ht₃⟩ := List.map_eq_append_iff.mp ht₂
    obtain ⟨semi',t₄,rfl,rfl,ht₄⟩ := List.map_eq_cons_iff.mp ht₃
    obtain ⟨c₁,hc₁,rfl⟩ := ih ht₁
    obtain ⟨c₂,hc₂,rfl⟩ := ih' ht₄
    refine ⟨_,.list hc₁ ((amps_map f).mp hamps) hsemi hc₂,?_⟩
    rw [Cmd.map,Cmd.map_backs,List.length_map]

end Map

section Unparse

def Tok.text : Tok → List UInt8
  | .lt => [60]
  | .bar => [124]
  | .gt => [62]
  | .append => [62,62]
  | .amp => [38]
  | .semi => [59]
  | .lparen => [40]
  | .rparen => [41]
  | _ => []

def IsWord (w : List UInt8) : Prop := w ≠ [] ∧ ∀ c ∈ w, c ≠ 0 ∧ inWord c = true

def Token.Proper (t : Token (List UInt8)) : Prop :=
  match t.kind with
  | .nul => False
  | .word => IsWord t.val
  | tok => t.val = tok.text

def sym (tok : Tok) : Token (List UInt8) := ⟨tok,tok.text⟩

def opOf (mode : ℕ) : Tok :=
  if mode = O_RDONLY then .lt
  else if mode = O_WRONLY ||| O_CREATE then .append
  else .gt

inductive Place
  | line | back | pipe | exec
deriving DecidableEq

def paren (p : Prop) [Decidable p] (body : List (Token (List UInt8))) :
    List (Token (List UInt8)) :=
  if p then sym .lparen::(body++[sym .rparen]) else body

def Cmd.unparse : Place → Cmd (List UInt8) → List (Token (List UInt8))
  | _, .exec argv => argv.map (Token.mk .word)
  | _, .redir cmd file mode _ => cmd.unparse .exec++[sym (opOf mode),⟨.word,file⟩]
  | pl, .pipe left right =>
    paren (pl = .exec) (left.unparse .exec++sym .bar::right.unparse .pipe)
  | pl, .list left right =>
    paren (pl ≠ .line) (left.unparse .back++sym .semi::right.unparse .line)
  | pl, .back cmd => paren (pl ≠ .line ∧ pl ≠ .back) (cmd.unparse .back++[sym .amp])

def render : List (Token (List UInt8)) → List UInt8
  | [] => []
  | [t] => t.val
  | t::ts => t.val++32::render ts

def Cmd.print (c : Cmd (List UInt8)) : List UInt8 := render (c.unparse .line)

def Cmd.WellFormed : Cmd (List UInt8) → Prop
  | .exec argv => argv.length < MAXARGS ∧ ∀ w ∈ argv, IsWord w
  | .redir cmd file mode fd => cmd.WellFormed ∧ IsWord file ∧
      ∃ op, op.isRedir = true ∧ redircmd cmd op file = .redir cmd file mode fd
  | .pipe left right => left.WellFormed ∧ right.WellFormed
  | .list left right => left.WellFormed ∧ right.WellFormed
  | .back cmd => cmd.WellFormed

theorem opOf_redircmd {c : Cmd (List UInt8)} {op : Tok} {file : List UInt8} {mode fd : ℕ}
    (hop : op.isRedir = true) (h : redircmd c op file = .redir c file mode fd) :
    opOf mode = op := by
  cases op <;> first | exact absurd hop (by decide) | (cases h; rfl)

theorem Cmd.backs_succ {ω : Type} (c : Cmd ω) (n : ℕ) : c.backs (n+1) = .back (c.backs n) := by
  induction n generalizing c with
  | zero => rfl
  | succ n ih => exact ih (.back c)

section Places

variable {ω : Type} {t : List (Token ω)} {c : Cmd ω}

def Fits : Place → List (Token ω) → Cmd ω → Prop
  | .line, ts, c => Derives .line ts c
  | .back, ts, c => ∃ t amps c₀, ts = t++amps ∧ c = c₀.backs amps.length ∧ Derives .pipe t c₀ ∧
      ∀ a ∈ amps, a.kind = .amp
  | .pipe, ts, c => Derives .pipe ts c
  | .exec, ts, c => Derives .exec ts c

theorem fits_back_of_pipe (h : Derives .pipe t c) : Fits .back t c :=
  ⟨t,[],c,by simp,rfl,h,by simp⟩

theorem fits_line_of_back (h : Fits .back t c) : Fits .line t c := by
  obtain ⟨t₀,amps,c₀,rfl,rfl,hc,hamps⟩ := h
  exact .last hc hamps

theorem fits_of_pipe {pl : Place} (hpl : pl ≠ .exec) (h : Derives .pipe t c) : Fits pl t c := by
  cases pl with
  | line => exact fits_line_of_back (fits_back_of_pipe h)
  | back => exact fits_back_of_pipe h
  | pipe => exact h
  | exec => exact absurd rfl hpl

theorem fits_of_exec {pl : Place} (h : Derives .exec t c) : Fits pl t c := by
  by_cases hpl : pl = .exec
  · subst hpl
    exact h
  · exact fits_of_pipe hpl (.single h)

theorem fits_amp {a : Token ω} (ha : a.kind = .amp) (h : Fits .back t c) :
    Fits .back (t++[a]) (.back c) := by
  obtain ⟨t₀,amps,c₀,rfl,rfl,hc,hamps⟩ := h
  refine ⟨t₀,amps++[a],c₀,by simp,?_,hc,?_⟩
  · rw [List.length_append,List.length_singleton,Cmd.backs_succ]
  · intro b hb
    rcases List.mem_append.mp hb with hb | hb
    · exact hamps b hb
    · rw [List.mem_singleton.mp hb,ha]

theorem Redirs.snoc {op w : Token ω} {rs : List (Tok × ω)} (h : Redirs t rs)
    (hop : op.kind.isRedir = true) (hw : w.kind = .word) :
    Redirs (t++[op,w]) (rs++[(op.kind,w.val)]) := by
  induction h with
  | nil => exact .cons hop hw .nil
  | cons hop' hw' _ ih => exact .cons hop' hw' ih

/-- A redirection at the end belongs to the last word, or to the start if there is no word. -/
theorem Words.snoc {op w : Token ω} {ws : List ω} {rs : List (Tok × ω)} (h : Words t ws rs)
    (hne : t ≠ []) (hop : op.kind.isRedir = true) (hw : w.kind = .word) :
    Words (t++[op,w]) ws (rs++[(op.kind,w.val)]) := by
  induction h with
  | nil => exact absurd rfl hne
  | @cons w' t ts r rs ws hw' hr hws ih =>
    rcases eq_or_ne ts [] with rfl | hts
    · cases hws
      have h := Words.cons hw' (hr.snoc hop hw) .nil
      simpa using h
    · have h := Words.cons hw' hr (ih hts)
      simpa [List.append_assoc] using h

theorem Derives.snoc_redir {op w : Token ω} (h : Derives .exec t c)
    (hop : op.kind.isRedir = true) (hw : w.kind = .word) :
    Derives .exec (t++[op,w]) (redircmd c op.kind w.val) := by
  cases h with
  | @block lp rp t t' c rs hlp hc hrp hrs =>
    have h := Derives.block hlp hc hrp (hrs.snoc hop hw)
    rw [Cmd.wrap_append] at h
    simpa [List.append_assoc] using h
  | @simple t t' rs rs' ws hrs hws hlt =>
    rcases eq_or_ne t' [] with rfl | hne
    · cases hws
      have h := Derives.simple (hrs.snoc hop hw) .nil hlt
      rw [List.append_nil,List.append_nil,Cmd.wrap_append] at h
      simpa using h
    · have h := Derives.simple hrs (hws.snoc hne hop hw) hlt
      rw [← List.append_assoc,← List.append_assoc,Cmd.wrap_append] at h
      exact h

theorem derives_paren {lp rp : Token ω} (hlp : lp.kind = .lparen) (hrp : rp.kind = .rparen)
    (h : Derives .line t c) : Derives .exec (lp::(t++[rp])) c :=
  .block hlp h hrp .nil

end Places

theorem fits_paren {pl : Place} {p : Prop} [Decidable p] {t : List (Token (List UInt8))}
    {c : Cmd (List UInt8)} (hline : Derives .line t c) (hpl : ¬ p → Fits pl t c) :
    Fits pl (paren p t) c := by
  unfold paren
  split
  · exact fits_of_exec (derives_paren rfl rfl hline)
  · rename_i hp
    exact hpl hp

theorem words_map (ws : List (List UInt8)) : Words (ws.map (Token.mk .word)) ws [] := by
  induction ws with
  | nil => exact .nil
  | cons w ws ih => exact @Words.cons _ ⟨.word,w⟩ [] _ [] _ _ rfl .nil ih

theorem Cmd.unparse_fits {c : Cmd (List UInt8)} (hc : c.WellFormed) (pl : Place) :
    Fits pl (c.unparse pl) c := by
  induction c generalizing pl with
  | exec argv =>
    exact fits_of_exec (Derives.simple .nil (words_map argv) hc.1)
  | redir cmd file mode fd ih =>
    obtain ⟨hcmd,-,op,hop,hredir⟩ := hc
    have hmode := opOf_redircmd hop hredir
    have h : Derives .exec (cmd.unparse .exec) cmd := ih hcmd .exec
    have hsnoc := @Derives.snoc_redir _ _ _ (sym op) ⟨.word,file⟩ h hop rfl
    rw [unparse,hmode,← hredir]
    exact fits_of_exec hsnoc
  | pipe left right ihl ihr =>
    have h : Derives .pipe (left.unparse .exec++sym .bar::right.unparse .pipe) (.pipe left right) :=
      .pipe (ihl hc.1 .exec) rfl (ihr hc.2 .pipe)
    exact fits_paren (fits_line_of_back (fits_back_of_pipe h)) fun hpl => fits_of_pipe hpl h
  | list left right ihl ihr =>
    obtain ⟨t,amps,c₀,heq,rfl,hc₀,hamps⟩ := ihl hc.1 .back
    have h := @Derives.list _ (sym .semi) _ _ _ _ _ hc₀ hamps rfl (ihr hc.2 .line)
    rw [← List.append_assoc,← heq] at h
    refine fits_paren h fun hpl => ?_
    rw [not_not.mp hpl]
    exact h
  | back cmd ih =>
    have h : Fits .back (cmd.unparse .back++[sym .amp]) (.back cmd) := fits_amp rfl (ih hc .back)
    refine fits_paren (fits_line_of_back h) fun hpl => ?_
    cases pl with
    | line => exact fits_line_of_back h
    | back => exact h
    | pipe => simp at hpl
    | exec => simp at hpl

theorem sym_proper {tok : Tok} (h : tok ≠ .nul) (hw : tok ≠ .word) : (sym tok).Proper := by
  cases tok <;> first | rfl | contradiction

theorem paren_proper {p : Prop} [Decidable p] {ts : List (Token (List UInt8))}
    (h : ∀ t ∈ ts, t.Proper) : ∀ t ∈ paren p ts, t.Proper := by
  unfold paren
  split
  · intro t ht
    simp only [List.mem_cons,List.mem_append,List.not_mem_nil,or_false] at ht
    rcases ht with rfl | ht | rfl
    · exact sym_proper (by decide) (by decide)
    · exact h t ht
    · exact sym_proper (by decide) (by decide)
  · exact h

theorem Cmd.unparse_proper {c : Cmd (List UInt8)} (hc : c.WellFormed) (pl : Place) :
    ∀ t ∈ c.unparse pl, t.Proper := by
  induction c generalizing pl with
  | exec argv =>
    intro t ht
    obtain ⟨w,hw,rfl⟩ := List.mem_map.mp ht
    exact hc.2 w hw
  | redir cmd file mode fd ih =>
    obtain ⟨hcmd,hfile,op,hop,hredir⟩ := hc
    intro t ht
    rw [unparse,opOf_redircmd hop hredir] at ht
    simp only [List.mem_append,List.mem_cons,List.not_mem_nil,or_false] at ht
    rcases ht with ht | rfl | rfl
    · exact ih hcmd .exec t ht
    · cases op <;> first | rfl | exact absurd hop (by decide)
    · exact hfile
  | pipe left right ihl ihr =>
    refine paren_proper fun t ht => ?_
    simp only [List.mem_append,List.mem_cons] at ht
    rcases ht with ht | rfl | ht
    · exact ihl hc.1 .exec t ht
    · rfl
    · exact ihr hc.2 .pipe t ht
  | list left right ihl ihr =>
    refine paren_proper fun t ht => ?_
    simp only [List.mem_append,List.mem_cons] at ht
    rcases ht with ht | rfl | ht
    · exact ihl hc.1 .back t ht
    · rfl
    · exact ihr hc.2 .line t ht
  | back cmd ih =>
    refine paren_proper fun t ht => ?_
    simp only [List.mem_append,List.mem_cons,List.not_mem_nil,or_false] at ht
    rcases ht with ht | rfl
    · exact ih hc .back t ht
    · rfl

end Unparse

section WellFormed

variable {t : List (Token (List UInt8))} {c : Cmd (List UInt8)}

theorem isWord_of_proper {w : Token (List UInt8)} (h : w.Proper) (hw : w.kind = .word) :
    IsWord w.val := by
  simpa [Token.Proper,hw] using h

theorem Redirs.isWord {rs : List (Tok × List UInt8)} (h : Redirs t rs) (ht : ∀ x ∈ t, x.Proper) :
    ∀ r ∈ rs, r.1.isRedir = true ∧ IsWord r.2 := by
  induction h with
  | nil => simp
  | cons hop hw _ ih =>
    simp only [List.mem_cons,forall_eq_or_imp] at ht ⊢
    exact ⟨⟨hop,isWord_of_proper ht.2.1 hw⟩,ih ht.2.2⟩

theorem Words.isWord {ws : List (List UInt8)} {rs : List (Tok × List UInt8)} (h : Words t ws rs)
    (ht : ∀ x ∈ t, x.Proper) :
    (∀ w ∈ ws, IsWord w) ∧ ∀ r ∈ rs, r.1.isRedir = true ∧ IsWord r.2 := by
  induction h with
  | nil => simp
  | cons hw hr _ ih =>
    simp only [List.mem_cons,List.mem_append,or_imp,forall_and,forall_eq] at ht ⊢
    obtain ⟨hw',hr',hts⟩ := ht
    obtain ⟨hws,hrs⟩ := ih hts
    have hr₁ := hr.isWord hr'
    exact ⟨⟨isWord_of_proper hw' hw,hws⟩,⟨fun r h => (hr₁ r h).1,fun r h => (hrs r h).1⟩,
      ⟨fun r h => (hr₁ r h).2,fun r h => (hrs r h).2⟩⟩

theorem redircmd_wellFormed {op : Tok} {file : List UInt8} (hc : c.WellFormed)
    (hop : op.isRedir = true) (hfile : IsWord file) : (redircmd c op file).WellFormed := by
  cases op with
  | lt => exact ⟨hc,hfile,.lt,rfl,rfl⟩
  | gt => exact ⟨hc,hfile,.gt,rfl,rfl⟩
  | append => exact ⟨hc,hfile,.append,rfl,rfl⟩
  | _ => exact hc

theorem Cmd.WellFormed.wrap {rs : List (Tok × List UInt8)} (hc : c.WellFormed)
    (hrs : ∀ r ∈ rs, r.1.isRedir = true ∧ IsWord r.2) : (c.wrap rs).WellFormed := by
  induction rs generalizing c with
  | nil => exact hc
  | cons r rs ih =>
    have hr := hrs r List.mem_cons_self
    exact ih (redircmd_wellFormed hc hr.1 hr.2) fun x hx => hrs x (List.mem_cons_of_mem r hx)

theorem Cmd.WellFormed.backs (hc : c.WellFormed) (n : ℕ) : (c.backs n).WellFormed := by
  induction n generalizing c with
  | zero => exact hc
  | succ n ih => exact @ih (.back c) hc

theorem Derives.wellFormed {nt : Nonterminal} (h : Derives nt t c) (ht : ∀ x ∈ t, x.Proper) :
    c.WellFormed := by
  induction h with
  | block _ _ _ hrs ih =>
    simp only [List.mem_cons,List.mem_append,or_imp,forall_and,forall_eq] at ht
    exact (ih ht.2.1).wrap (hrs.isWord ht.2.2.2)
  | simple hrs hws hlt =>
    simp only [List.mem_append,or_imp,forall_and] at ht
    obtain ⟨hwords,hrs'⟩ := hws.isWord ht.2
    refine Cmd.WellFormed.wrap ⟨hlt,hwords⟩ ?_
    intro r hr
    rcases List.mem_append.mp hr with hr | hr
    · exact hrs.isWord ht.1 r hr
    · exact hrs' r hr
  | single _ ih => exact ih ht
  | pipe _ _ _ ih ih' =>
    simp only [List.mem_cons,List.mem_append,or_imp,forall_and,forall_eq] at ht
    exact ⟨ih ht.1,ih' ht.2.2⟩
  | last _ _ ih =>
    simp only [List.mem_append,or_imp,forall_and] at ht
    exact (ih ht.1).backs _
  | list _ _ _ _ ih ih' =>
    simp only [List.mem_cons,List.mem_append,or_imp,forall_and,forall_eq] at ht
    exact ⟨(ih ht.1).backs _,ih' ht.2.2.2⟩

end WellFormed

def text (line : List UInt8) (w : Span) : List UInt8 := (line.drop w.q).take (w.eq-w.q)

section Lexing

variable {line : List UInt8}

theorem skip_run {p : UInt8 → Bool} {pre a b : List UInt8} (ha : ∀ c ∈ a, p c = true)
    (hb : ∀ c ∈ b.head?, p c = false) :
    skip (pre++(a++b)) p (a.length+b.length) pre.length = pre.length+a.length := by
  induction a generalizing pre with
  | nil =>
    cases b with
    | nil => simp [skip]
    | cons c b =>
      have hbyte : byte (pre++([]++c::b)) pre.length = c := by simp [byte]
      have hstop : p (byte (pre++([]++c::b)) pre.length) = false := by
        rw [hbyte]
        exact hb c rfl
      exact skip_eq_self hstop
  | cons x a ih =>
    have hbyte : byte (pre++(x::a++b)) pre.length = x := by simp [byte]
    have hrest := @ih (pre++[x]) fun c hc => ha c (List.mem_cons_of_mem x hc)
    rw [List.length_cons,Nat.add_right_comm,skip,hbyte,if_pos (ha x List.mem_cons_self)]
    simp only [List.append_assoc,List.singleton_append,List.length_append,List.length_singleton]
      at hrest
    rw [List.cons_append,hrest]
    omega

theorem text_cons {q e : ℕ} (h : q < line.length) (he : q < e) :
    text line ⟨q,e⟩ = byte line q::text line ⟨q+1,e⟩ := by
  obtain ⟨n,hn⟩ : ∃ n, e-q = n+1 := ⟨e-q-1,by omega⟩
  have hn' : e-(q+1) = n := by omega
  simp only [text,List.drop_eq_getElem_cons h,hn,hn',List.take_succ_cons,byte,
    List.getD_eq_getElem?_getD,List.getElem?_eq_getElem h,Option.getD_some]

theorem text_self (q : ℕ) : text line ⟨q,q⟩ = [] := by simp [text]

theorem Tok.text_of_lead {tok : Tok} {c : UInt8} (h : tok.lead = some c) (hne : tok ≠ .append) :
    tok.text = [c] := by
  cases tok <;> first | (cases h; rfl) | contradiction

theorem proper_of_lead {tok : Tok} {c : UInt8} {v : List UInt8} (h : tok.lead = some c)
    (hv : v = tok.text) : Token.Proper ⟨tok,v⟩ := by
  cases tok <;> first | exact hv | cases h

theorem mem_text {q e : ℕ} {c : UInt8} (he : e ≤ line.length) (h : c ∈ text line ⟨q,e⟩) :
    ∃ i, q ≤ i ∧ i < e ∧ byte line i = c := by
  obtain ⟨i,hi,rfl⟩ := List.mem_iff_getElem.mp h
  simp only [text,List.length_take,List.length_drop] at hi
  refine ⟨q+i,by omega,by omega,?_⟩
  have hlt : q+i < line.length := by omega
  simp [byte,text,hlt]

theorem skip_all {p : UInt8 → Bool} {n s i : ℕ} (hs : s ≤ i) (hi : i < skip line p n s) :
    p (byte line i) = true := by
  induction n generalizing s with
  | zero =>
    rw [skip] at hi
    omega
  | succ n ih =>
    rw [skip] at hi
    split at hi
    · rename_i hp
      rcases hs.eq_or_lt with rfl | hlt
      · exact hp
      · exact ih hlt hi
    · omega

theorem scan_proper (hz : 0 ∉ line) {s : ℕ} (hb : isBlank (byte line s) = false)
    (hn : (scan line s).1 ≠ .nul) :
    Token.Proper ⟨(scan line s).1,text line ⟨s,(scan line s).2⟩⟩ := by
  have hlt := lt_scan hb hn
  rcases scan_cases line s with ⟨-,he⟩ | ⟨h0,tok,hne,hl,he⟩ | ⟨h0,h1,he⟩ | ⟨h0,hs,he⟩
  · simp [he] at hn
  · rw [he]
    refine proper_of_lead hl ?_
    rw [text_cons (lt_length_of_byte h0) (Nat.lt_succ_self s),text_self,Tok.text_of_lead hl hne]
  · rw [he]
    have hlen : s+1 < line.length := lt_length_of_byte (by rw [h1]; decide)
    change text line ⟨s,s+2⟩ = [62,62]
    rw [text_cons (by omega) (by omega),text_cons hlen (by omega),text_self,h0,h1]
  · have hle : (scan line s).2 ≤ line.length := (scan_le (lt_length_of_byte h0).le).2
    rw [he] at hlt hle ⊢
    refine ⟨?_,fun c hc => ?_⟩
    · rw [text_cons (lt_length_of_byte h0) hlt]
      simp
    · obtain ⟨i,hi,hie,rfl⟩ := mem_text hle hc
      exact ⟨byte_ne_zero hz (hie.trans_le hle),skip_all hi hie⟩

theorem tokens_proper (hz : 0 ∉ line) {s : ℕ} (h : s ≤ line.length) :
    ∀ t ∈ tokens line s, (t.map (text line)).Proper := by
  unfold tokens
  generalize line.length-s = n
  induction n generalizing s with
  | zero => simp [tokensFrom]
  | succ n ih =>
    simp only [tokensFrom]
    split
    · simp
    · rename_i htok
      simp only [List.mem_cons,forall_eq_or_imp]
      exact ⟨scan_proper hz (isBlank_blanks h) htok,ih (next_bounds h).2.1⟩

theorem ofByte_of_inWord {c : UInt8} (h0 : c ≠ 0) (h : inWord c = true) : Tok.ofByte c = .word := by
  have hsym : c ∉ symbols := by
    intro hmem
    simp [inWord,hmem] at h
  simp only [symbols,List.mem_cons,List.not_mem_nil,or_false,not_or] at hsym
  simp [Tok.ofByte,h0,hsym]

theorem isBlank_of_inWord {c : UInt8} (h : inWord c = true) : isBlank c = false := by
  have hws : c ∉ whitespace := by
    intro hmem
    simp [inWord,hmem] at h
  simpa [isBlank] using hws

/-- A proper token at the start of the rest of the line, with a blank or nothing behind it. -/
theorem scan_token {pre b : List UInt8} {t : Token (List UInt8)} (ht : t.Proper)
    (hb : ∀ c ∈ b.head?, c = 32) :
    isBlank (byte (pre++(t.val++b)) pre.length) = false ∧
      scan (pre++(t.val++b)) pre.length = (t.kind,pre.length+t.val.length) := by
  obtain ⟨kind,val⟩ := t
  have hnext : byte (pre++(62::b)) (pre.length+1) ≠ 62 := by
    cases b with
    | nil => simp [byte]
    | cons c b =>
      have hc : c = 32 := hb c rfl
      simp [byte,hc]
  cases kind with
  | nul => exact ht.elim
  | word =>
    obtain ⟨hne,hall⟩ := ht
    obtain ⟨c,v,rfl⟩ := List.exists_cons_of_ne_nil hne
    have hbyte : byte (pre++(c::v++b)) pre.length = c := by simp [byte]
    obtain ⟨h0,hw⟩ := hall c List.mem_cons_self
    have hrun : skip (pre++(c::v++b)) inWord ((c::v).length+b.length) pre.length =
        pre.length+(c::v).length :=
      skip_run (fun x hx => (hall x hx).2) fun x hx => by rw [hb x hx]; rfl
    have hlen : (pre++(c::v++b)).length-pre.length = (c::v).length+b.length := by
      simp only [List.length_append]
      omega
    refine ⟨by rw [hbyte]; exact isBlank_of_inWord hw,?_⟩
    simp only [scan,hbyte,ofByte_of_inWord h0 hw,hlen,hrun]
  | gt =>
    obtain rfl : val = [62] := ht
    have hbyte : byte (pre++(62::b)) pre.length = 62 := by simp [byte]
    simp [scan,hbyte,hnext,Tok.ofByte,isBlank,whitespace]
  | append =>
    obtain rfl : val = [62,62] := ht
    have hbyte : byte (pre++(62::62::b)) pre.length = 62 := by simp [byte]
    have hbyte' : byte (pre++(62::62::b)) (pre.length+1) = 62 := by simp [byte]
    simp [scan,hbyte,hbyte',Tok.ofByte,isBlank,whitespace]
  | lt | bar | amp | semi | lparen | rparen =>
    simp only [Token.Proper,Tok.text] at ht
    subst ht
    simp [scan,byte,Tok.ofByte,isBlank,whitespace]

theorem render_cons {t u : Token (List UInt8)} {us : List (Token (List UInt8))} :
    render (t::u::us) = t.val++32::render (u::us) := rfl

theorem next_token {pre b : List UInt8} {t : Token (List UInt8)} (ht : t.Proper)
    (hb : ∀ c ∈ b.head?, c = 32) :
    next (pre++(t.val++b)) pre.length = (t.kind,⟨pre.length,pre.length+t.val.length⟩,
      blanks (pre++(t.val++b)) (pre.length+t.val.length)) := by
  obtain ⟨hblank,hscan⟩ := @scan_token pre b t ht hb
  have hq : blanks (pre++(t.val++b)) pre.length = pre.length := skip_eq_self hblank
  simp only [next,hq,hscan]

theorem text_token (pre v b : List UInt8) :
    text (pre++(v++b)) ⟨pre.length,pre.length+v.length⟩ = v := by
  simp [text]

theorem Token.Proper.ne_nul {t : Token (List UInt8)} (h : t.Proper) : t.kind ≠ .nul := by
  intro hk
  simp [Token.Proper,hk] at h

theorem render_isBlank {t : Token (List UInt8)} {ts : List (Token (List UInt8))} (ht : t.Proper)
    (pre : List UInt8) : isBlank (byte (pre++render (t::ts)) pre.length) = false := by
  cases ts with
  | nil =>
    have h := (@scan_token pre [] t ht (by simp)).1
    rwa [List.append_nil] at h
  | cons u us => exact (@scan_token pre _ t ht (by simp)).1

theorem blanks_render {u : Token (List UInt8)} {us : List (Token (List UInt8))} (hu : u.Proper)
    (pre : List UInt8) :
    blanks (pre++32::render (u::us)) pre.length = pre.length+1 := by
  have hblank : isBlank (byte (pre++32::render (u::us)) pre.length) = true := by
    simp [byte,isBlank,whitespace]
  have hstop := @render_isBlank u us hu (pre++[32])
  rw [List.append_assoc,List.singleton_append,List.length_append,List.length_singleton] at hstop
  obtain ⟨n,hn⟩ : ∃ n, (pre++32::render (u::us)).length-pre.length = n+1 :=
    ⟨(render (u::us)).length,by simp only [List.length_append,List.length_cons]; omega⟩
  rw [blanks,hn,skip,if_pos hblank]
  exact skip_eq_self hstop

theorem tokens_render {ts : List (Token (List UInt8))} (hts : ∀ t ∈ ts, t.Proper)
    (pre : List UInt8) :
    (tokens (pre++render ts) pre.length).map (Token.map (text (pre++render ts))) = ts := by
  induction ts generalizing pre with
  | nil => simp [render,tokens,tokensFrom]
  | cons t ts ih =>
    have ht := hts t List.mem_cons_self
    have hle : pre.length ≤ (pre++render (t::ts)).length := by simp
    rw [tokens_eq hle]
    cases ts with
    | nil =>
      have hnext := @next_token pre [] t ht (by simp)
      have hrender : render [t] = t.val++[] := by simp [render]
      have hend : blanks (pre++(t.val++[])) (pre.length+t.val.length) =
          (pre++(t.val++[])).length := by
        have hlen : (pre++(t.val++[])).length = pre.length+t.val.length := by simp
        rw [← hlen]
        exact le_antisymm (blanks_le le_rfl) le_blanks
      rw [hrender,hnext,if_neg ht.ne_nul,hend,List.map_cons,Token.map,text_token]
      simp [tokens,tokensFrom]
    | cons u us =>
      have hnext := @next_token pre (32::render (u::us)) t ht (by simp)
      have hpre : pre++(t.val++32::render (u::us)) = (pre++t.val++[32])++render (u::us) := by simp
      have hskip : blanks (pre++(t.val++32::render (u::us))) (pre.length+t.val.length) =
          (pre++t.val++[32]).length := by
        have hu := hts u (List.mem_cons_of_mem t List.mem_cons_self)
        have h := @blanks_render u us hu (pre++t.val)
        simpa [Nat.add_assoc] using h
      have hrest := ih (fun x hx => hts x (List.mem_cons_of_mem t hx)) (pre++t.val++[32])
      rw [render_cons,hnext,if_neg ht.ne_nul,hskip,List.map_cons,Token.map,text_token]
      rw [← hpre] at hrest
      rw [hrest]

end Lexing

theorem Token.Proper.no_nul {t : Token (List UInt8)} (h : t.Proper) : 0 ∉ t.val := by
  obtain ⟨kind,val⟩ := t
  cases kind with
  | nul => exact h.elim
  | word => exact fun h0 => (h.2 0 h0).1 rfl
  | _ =>
    simp only [Token.Proper,Tok.text] at h
    simp [h]

theorem render_no_nul {ts : List (Token (List UInt8))} (hts : ∀ t ∈ ts, t.Proper) :
    0 ∉ render ts := by
  induction ts with
  | nil => simp [render]
  | cons t ts ih =>
    have ht := (hts t List.mem_cons_self).no_nul
    have hrest := ih fun x hx => hts x (List.mem_cons_of_mem t hx)
    cases ts with
    | nil => exact ht
    | cons u us => simp [render_cons,ht,hrest]

def Cmd.words (line : List UInt8) (c : Cmd Span) : Cmd (List UInt8) := c.map (text line)

/-- A line is accepted exactly when the grammar derives its tokens, with the tree of the
derivation; every call ends; and the print of an accepted tree is read as the same tree. -/
theorem parsecmd_grammar {line : List UInt8} (hz : 0 ∉ line) {fuel : ℕ}
    (hfuel : 4*line.length+4 ≤ fuel) :
    parsecmd fuel line ≠ .error .fuel ∧
      (∀ c, (∃ buf, parsecmd fuel line = .ok (c,buf)) ↔ Derives .line (tokens line 0) c) ∧
      ∀ c buf, parsecmd fuel line = .ok (c,buf) →
        0 ∉ (c.words line).print ∧ ∀ fuel', 4*(c.words line).print.length+4 ≤ fuel' →
          ∃ c' buf', parsecmd fuel' (c.words line).print = .ok (c',buf') ∧
            c'.words (c.words line).print = c.words line := by
  refine ⟨parsecmd_ne_fuel hfuel,fun c => parsecmd_ok_iff hz hfuel,fun c buf hok => ?_⟩
  have hc := (parsecmd_ok_iff hz hfuel).mp ⟨buf,hok⟩
  have hproper : ∀ t ∈ (tokens line 0).map (Token.map (text line)), t.Proper := by
    intro t ht
    obtain ⟨u,hu,rfl⟩ := List.mem_map.mp ht
    exact tokens_proper hz (Nat.zero_le _) u hu
  have hwf : (c.words line).WellFormed := hc.map.wellFormed hproper
  have hun := (c.words line).unparse_proper hwf .line
  have hz' : 0 ∉ (c.words line).print := render_no_nul hun
  refine ⟨hz',fun fuel' hfuel' => ?_⟩
  have hderiv : Derives .line ((c.words line).unparse .line) (c.words line) :=
    (c.words line).unparse_fits hwf .line
  have htokens := tokens_render hun []
  rw [List.nil_append] at htokens
  rw [← htokens] at hderiv
  obtain ⟨c',hc',heq⟩ := hderiv.comap
  obtain ⟨buf',hok'⟩ := (parsecmd_ok_iff hz' hfuel').mpr hc'
  exact ⟨c',buf',hok',heq⟩

def subshell : List UInt8 := [40,97,62,102,59,98,41,124,99,32,38]

theorem parsecmd_grammar_subshell :
    (∃ buf, parsecmd 48 subshell = .ok (.back (.pipe (.list
      (.redir (.exec [⟨1,2⟩]) ⟨3,4⟩ 0x601 1) (.exec [⟨5,6⟩])) (.exec [⟨8,9⟩])),buf)) ∧
    parsecmd 48 subshell ≠ .error .fuel ∧
      (∀ c, (∃ buf, parsecmd 48 subshell = .ok (c,buf)) ↔ Derives .line (tokens subshell 0) c) ∧
      ∀ c buf, parsecmd 48 subshell = .ok (c,buf) →
        0 ∉ (c.words subshell).print ∧ ∀ fuel', 4*(c.words subshell).print.length+4 ≤ fuel' →
          ∃ c' buf', parsecmd fuel' (c.words subshell).print = .ok (c',buf') ∧
            c'.words (c.words subshell).print = c.words subshell :=
  ⟨⟨[40,97,0,102,0,98,0,124,99,0,38],by decide +kernel⟩,parsecmd_grammar (by decide) (by decide)⟩

end Xv6.Sh
