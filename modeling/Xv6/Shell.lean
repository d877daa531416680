import Xv6.Command

/-! The parser of `user/sh.c`. A line is the list of bytes before its NUL, a `char *` into it is
an offset, and the functions that move `*ps` are commands on this offset. The recursion of the
source has no bound, so the functions carry fuel; running out of it is a stop of its own. -/
namespace Xv6.Sh

open Command

def MAXARGS : ℕ := 10

def O_RDONLY : ℕ := 0
def O_WRONLY : ℕ := 1
def O_CREATE : ℕ := 0x200
def O_TRUNC : ℕ := 0x400

/-- The values of `gettoken`: 0, one of the symbols, `+` for `>>` and `a` for a word. -/
inductive Tok
  | nul | lt | bar | gt | append | amp | semi | lparen | rparen | word
deriving DecidableEq, Repr

structure Span where
  q : ℕ
  eq : ℕ
deriving DecidableEq, Repr

/-- `struct cmd` with its five kinds; `ω` stands for the pair of pointers kept for a word. -/
inductive Cmd (ω : Type)
  | exec (argv : List ω)
  | redir (cmd : Cmd ω) (file : ω) (mode fd : ℕ)
  | pipe (left right : Cmd ω)
  | list (left right : Cmd ω)
  | back (cmd : Cmd ω)
deriving DecidableEq, Repr

inductive Stop
  | panic (msg : String)
  | fuel
deriving DecidableEq, Repr

abbrev M := Command.Cmd Stop ℕ

def whitespace : List UInt8 := [32,9,13,10,11]

def symbols : List UInt8 := [60,124,62,38,59,40,41]

def Tok.ofByte (c : UInt8) : Tok :=
  if c = 0 then .nul
  else if c = 124 then .bar
  else if c = 40 then .lparen
  else if c = 41 then .rparen
  else if c = 59 then .semi
  else if c = 38 then .amp
  else if c = 60 then .lt
  else if c = 62 then .gt
  else .word

def isBlank (c : UInt8) : Bool := whitespace.contains c

def inWord (c : UInt8) : Bool := !whitespace.contains c && !symbols.contains c

section Parser

variable (line : List UInt8)

def byte (s : ℕ) : UInt8 := line.getD s 0

/-- `while(s < es && p(*s)) s++` with `n = es - s`. -/
def skip (p : UInt8 → Bool) : (n s : ℕ) → ℕ
  | 0, s => s
  | n+1, s => if p (byte line s) then skip p n (s+1) else s

def blanks (s : ℕ) : ℕ := skip line isBlank (line.length-s) s

/-- The token at `s`, which is not a blank, and the pointer behind it. -/
def scan (s : ℕ) : Tok × ℕ :=
  match Tok.ofByte (byte line s) with
  | .nul => (.nul,s)
  | .gt => if byte line (s+1) = 62 then (.append,s+2) else (.gt,s+1)
  | .word => (.word,skip line inWord (line.length-s) s)
  | tok => (tok,s+1)

/-- `gettoken` on the pointer: the token, its span, and where `*ps` points afterwards. -/
def next (s : ℕ) : Tok × Span × ℕ :=
  let q := blanks line s
  let (tok,eq) := scan line q
  (tok,⟨q,eq⟩,blanks line eq)

def gettoken : M (Tok × Span) := do
  let s ← get
  let (tok,span,s') := next line s
  set s'
  return (tok,span)

def peek (toks : List UInt8) : M Bool := do
  let s ← get
  let s' := blanks line s
  set s'
  return byte line s' ≠ 0 && toks.contains (byte line s')

def redircmd {ω : Type} (cmd : Cmd ω) (tok : Tok) (file : ω) : Cmd ω :=
  match tok with
  | .lt => .redir cmd file O_RDONLY 0
  | .gt => .redir cmd file (O_WRONLY ||| O_CREATE ||| O_TRUNC) 1
  | .append => .redir cmd file (O_WRONLY ||| O_CREATE) 1
  | _ => cmd

def parseredirs : ℕ → Cmd Span → M (Cmd Span)
  | 0, _ => throw .fuel
  | fuel+1, cmd => do
    if ← peek line [60,62] then
      let (tok,_) ← gettoken line
      let (w,file) ← gettoken line
      if w ≠ .word then throw (.panic "missing file for redirection")
      else parseredirs fuel (redircmd cmd tok file)
    else return cmd

/-- `cmd->argv[argc] = q`: the `struct execcmd` is at the bottom of the redirections already built
around it. -/
def Cmd.addArg {ω : Type} : Cmd ω → ω → Cmd ω
  | .exec argv, w => .exec (argv++[w])
  | .redir cmd file mode fd, w => .redir (cmd.addArg w) file mode fd
  | cmd, _ => cmd

def parseargs : ℕ → ℕ → Cmd Span → M (Cmd Span)
  | 0, _, _ => throw .fuel
  | fuel+1, argc, ret => do
    if ← peek line [124,41,38,59] then return ret
    else
      let (tok,w) ← gettoken line
      if tok = .nul then return ret
      else if tok ≠ .word then throw (.panic "syntax")
      else if argc+1 ≥ MAXARGS then throw (.panic "too many args")
      else
        let ret ← parseredirs line fuel (ret.addArg w)
        parseargs fuel (argc+1) ret

def parsebacks : ℕ → Cmd Span → M (Cmd Span)
  | 0, _ => throw .fuel
  | fuel+1, cmd => do
    if ← peek line [38] then
      let _ ← gettoken line
      parsebacks fuel (.back cmd)
    else return cmd

mutual

def parseline : ℕ → M (Cmd Span)
  | 0 => throw .fuel
  | fuel+1 => do
    let cmd ← parsepipe fuel
    let cmd ← parsebacks line fuel cmd
    if ← peek line [59] then
      let _ ← gettoken line
      let right ← parseline fuel
      return .list cmd right
    else return cmd

def parsepipe : ℕ → M (Cmd Span)
  | 0 => throw .fuel
  | fuel+1 => do
    let cmd ← parseexec fuel
    if ← peek line [124] then
      let _ ← gettoken line
      let right ← parsepipe fuel
      return .pipe cmd right
    else return cmd

def parseblock : ℕ → M (Cmd Span)
  | 0 => throw .fuel
  | fuel+1 => do
    if ← peek line [40] then
      let _ ← gettoken line
      let cmd ← parseline fuel
      if ← peek line [41] then
        let _ ← gettoken line
        parseredirs line fuel cmd
      else throw (.panic "syntax - missing )")
    else throw (.panic "parseblock")

def parseexec : ℕ → M (Cmd Span)
  | 0 => throw .fuel
  | fuel+1 => do
    if ← peek line [40] then parseblock fuel
    else
      let ret ← parseredirs line fuel (.exec [])
      parseargs line fuel 0 ret

end

end Parser

def nulterminate : Cmd Span → List UInt8 → List UInt8
  | .exec argv, line => argv.foldl (fun line w => line.set w.eq 0) line
  | .redir cmd file _ _, line => (nulterminate cmd line).set file.eq 0
  | .pipe left right, line => nulterminate right (nulterminate left line)
  | .list left right, line => nulterminate right (nulterminate left line)
  | .back cmd, line => nulterminate cmd line

def parsecmd (fuel : ℕ) (line : List UInt8) : Except Stop (Cmd Span × List UInt8) :=
  match (parseline line fuel).run 0 with
  | .error e => .error e
  | .ok (cmd,s) =>
    if blanks line s ≠ line.length then .error (.panic "syntax")
    else .ok (cmd,nulterminate cmd line)

end Xv6.Sh
