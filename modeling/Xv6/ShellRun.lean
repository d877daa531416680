import Xv6.Param
import Xv6.ShellPrint

/-! `runcmd` of `user/sh.c`. The shell arranges descriptors with `close`, `open`, `dup` and `pipe`,
which always take the lowest free number; what it arranges is that every program runs with the
streams that the redirections and pipes around it say, and with nothing else. -/
namespace Xv6.Sh

/-- What a descriptor refers to: what the shell itself was given, a file that it has opened, or
one end of the pipe made by the `k`th call. -/
inductive Obj
  | given (i : ℕ)
  | file (name : List UInt8) (mode : ℕ)
  | pipe (k : ℕ) (write : Bool)

abbrev Table := ℕ → Option Obj

/-- What the processes do that does not concern descriptors alone, with the descriptors they have
at that moment. -/
inductive Event (τ : Type)
  | exec (argv : List (List UInt8)) (fds : τ)
  | wait (fds : τ)
  | exit (status : ℤ)

def close (t : Table) (fd : ℕ) : Table := Function.update t fd none

def install (t : Table) (o : Obj) : Option (ℕ × Table) :=
  ((List.range NOFILE).find? fun fd => (t fd).isNone).map fun fd => (fd,Function.update t fd (some o))

def dup (t : Table) (fd : ℕ) : Table :=
  match t fd with
  | none => t
  | some o =>
    match install t o with
    | none => t
    | some (_,t) => t

def pipe (t : Table) (k : ℕ) : Option (ℕ × ℕ × Table) := do
  let (p0,t) ← install t (.pipe k false)
  let (p1,t) ← install t (.pipe k true)
  return (p0,p1,t)

/-- Which of the calls of `fork`, `pipe` and `open` succeed, in their order. -/
abbrev Env := ℕ → Bool

/-- What happens from the `n`th of these calls on, and how many have been made then. -/
abbrev Run (τ : Type) := ℕ → List (Event τ) × ℕ

section Run

variable {τ : Type}

def emit (es : List (Event τ)) : Run τ := fun n => (es,n)

def seq (a b : Run τ) : Run τ := fun n => ((a n).1++(b (a n).2).1,(b (a n).2).2)

def attempt (env : Env) (a : Run τ) : Run τ := fun n => if env n then a (n+1) else ([.exit 1],n+1)

end Run

def runcmd (env : Env) : Cmd (List UInt8) → Table → Run Table
  | .exec [], _ => emit [.exit 1]
  | .exec (w::ws), t => emit [.exec (w::ws) t,.exit 0]
  | .redir cmd file mode fd, t => attempt env <|
    match install (close t fd) (.file file mode) with
    | none => emit [.exit 1]
    | some (_,t) => runcmd env cmd t
  | .list left right, t => attempt env <| seq (runcmd env left t) <| seq (emit [.wait t]) (runcmd env right t)
  | .pipe left right, t => fun n => attempt env (match pipe t n with
    | none => emit [.exit 1]
    | some (p0,p1,t) =>
      attempt env <| seq (runcmd env left (close (close (dup (close t 1) p1) p0) p1)) <|
      attempt env <| seq (runcmd env right (close (close (dup (close t 0) p0) p0) p1)) <|
      emit [.wait (close (close t p0) p1),.wait (close (close t p0) p1),.exit 0]) n
  | .back cmd, t => attempt env <| seq (runcmd env cmd t) (emit [.exit 0])

structure Io where
  stdin : Obj
  stdout : Obj
  stderr : Obj

/-- What a command means: redirections and pipes replace one of the streams. -/
def meaning (env : Env) : Cmd (List UInt8) → Io → Run Io
  | .exec [], _ => emit [.exit 1]
  | .exec (w::ws), io => emit [.exec (w::ws) io,.exit 0]
  | .redir cmd file mode fd, io => attempt env <| meaning env cmd <|
    if fd = 0 then {io with stdin := .file file mode} else {io with stdout := .file file mode}
  | .list left right, io =>
    attempt env <| seq (meaning env left io) <| seq (emit [.wait io]) (meaning env right io)
  | .pipe left right, io => fun n => attempt env (attempt env <|
      seq (meaning env left {io with stdout := .pipe n true}) <| attempt env <|
      seq (meaning env right {io with stdin := .pipe n false}) <| emit [.wait io,.wait io,.exit 0]) n
  | .back cmd, io => attempt env <| seq (meaning env cmd io) (emit [.exit 0])

def Io.table (io : Io) : Table
  | 0 => some io.stdin
  | 1 => some io.stdout
  | 2 => some io.stderr
  | _ => none

def Event.onTable : Event Io → Event Table
  | .exec argv io => .exec argv io.table
  | .wait io => .wait io.table
  | .exit status => .exit status

def Agree (a : Run Table) (b : Run Io) : Prop := ∀ n, a n = ((b n).1.map Event.onTable,(b n).2)

section Agree

variable {a a' : Run Table} {b b' : Run Io}

theorem agree_emit (es : List (Event Io)) : Agree (emit (es.map Event.onTable)) (emit es) := fun _ => rfl

theorem Agree.seq (h : Agree a b) (h' : Agree a' b') : Agree (seq a a') (seq b b') := by
  intro n
  simp [Sh.seq,h n,h' (b n).2]

theorem Agree.attempt {env : Env} (h : Agree a b) : Agree (attempt env a) (attempt env b) := by
  intro n
  rw [Sh.attempt,Sh.attempt]
  split
  · exact h (n+1)
  · rfl

end Agree

variable (io : Io) (o : Obj) (n : ℕ)

theorem install_stdin : install (close io.table 0) o = some (0,Io.table {io with stdin := o}) := by
  refine congrArg some (congrArg (Prod.mk 0) ?_)
  funext fd
  rcases fd with _ | _ | _ | fd <;> rfl

theorem install_stdout : install (close io.table 1) o = some (1,Io.table {io with stdout := o}) := by
  refine congrArg some (congrArg (Prod.mk 1) ?_)
  funext fd
  rcases fd with _ | _ | _ | fd <;> rfl

def piped : Table :=
  Function.update (Function.update io.table 3 (some (.pipe n false))) 4 (some (.pipe n true))

theorem pipe_table : pipe io.table n = some (3,4,piped io n) := rfl

theorem piped_left : close (close (dup (close (piped io n) 1) 4) 3) 4 =
    Io.table {io with stdout := .pipe n true} := by
  funext fd
  rcases fd with _ | _ | _ | _ | _ | fd <;> rfl

theorem piped_right : close (close (dup (close (piped io n) 0) 3) 3) 4 =
    Io.table {io with stdin := .pipe n false} := by
  funext fd
  rcases fd with _ | _ | _ | _ | _ | fd <;> rfl

theorem piped_parent : close (close (piped io n) 3) 4 = io.table := by
  funext fd
  rcases fd with _ | _ | _ | _ | _ | fd <;> rfl

/-- On tables with the three standard descriptors, `runcmd` does what the command means. -/
theorem runcmd_table (env : Env) {c : Cmd (List UInt8)} (hc : c.WellFormed) :
    Agree (runcmd env c io.table) (meaning env c io) := by
  induction c generalizing io with
  | exec argv => cases argv <;> exact fun _ => rfl
  | redir cmd file mode fd ih =>
    refine Agree.attempt ?_
    obtain ⟨hcmd,-,op,hop,hredir⟩ := hc
    cases op with
    | lt =>
      cases hredir
      rw [install_stdin]
      exact ih _ hcmd
    | gt | append =>
      cases hredir
      rw [install_stdout]
      exact ih _ hcmd
    | _ => cases hop
  | list left right ihl ihr => exact ((ihl io hc.1).seq ((agree_emit [.wait io]).seq (ihr io hc.2))).attempt
  | pipe left right ihl ihr =>
    intro n
    refine Agree.attempt ?_ n
    rw [pipe_table]
    simp only [piped_left,piped_right,piped_parent]
    have hright := (ihr {io with stdin := .pipe n false} hc.2).seq (agree_emit [.wait io,.wait io,.exit 0])
    exact ((ihl {io with stdout := .pipe n true} hc.1).seq hright.attempt).attempt
  | back cmd ih => exact ((ih io hc).seq (agree_emit [.exit 0])).attempt

/-- Every line that the shell accepts is run as it means: each program has the streams that the
redirections and pipes around it give it, and each shell that waits has those it started with. -/
theorem runcmd_meaning {line buf : List UInt8} {fuel : ℕ} {c : Cmd Span} (hz : 0 ∉ line)
    (hfuel : 4*line.length+4 ≤ fuel) (hc : parsecmd fuel line = .ok (c,buf)) (env : Env) :
    Agree (runcmd env (c.words line) io.table) (meaning env (c.words line) io) := by
  have hderiv := ((parsecmd_ok_iff hz hfuel).mp ⟨buf,hc⟩).map (f := text line)
  refine runcmd_table io env (hderiv.wellFormed fun t ht => ?_)
  obtain ⟨u,hu,rfl⟩ := List.mem_map.mp ht
  exact tokens_proper hz (Nat.zero_le _) u hu

/-- The line `a|b`. -/
theorem runcmd_meaning_pipe : ∃ c buf, parsecmd 16 [97,124,98] = .ok (c,buf) ∧ ∀ io env,
    Agree (runcmd env (c.words [97,124,98]) io.table) (meaning env (c.words [97,124,98]) io) :=
  ⟨_,_,rfl,fun io => @runcmd_meaning io [97,124,98] _ 16 _ (by decide) (by decide) rfl⟩

end Xv6.Sh
