import Mathlib.Data.List.TakeWhile
import Xv6.Dir

/-! `find` of `user/find.c` with `stat` of `user/ulib.c`, on the descriptors of one process. -/
namespace Xv6
namespace Find

open Bytes (cstr)

inductive Inode
  | dir (entries : List Dirent)
  | file
  | device (major : Int16)
  deriving DecidableEq

def Inode.openable : Inode → Bool
  | .device major => decide (¬ major < 0 ∧ major.toInt < NDEV)
  | _ => true

/-- The file system as `find` sees it: `namei` is the kernel's path lookup. -/
structure Files where
  inode : ℕ → Inode
  namei : List UInt8 → Option ℕ

structure OpenFile where
  inum : ℕ
  off : ℕ
  deriving DecidableEq

inductive Line
  | path (p : List UInt8)
  | cannotOpen (p : List UInt8)
  | cannotFstat (p : List UInt8)
  | notDirectory (p : List UInt8)
  | cannotStat (p : List UInt8)
  deriving DecidableEq

structure Process where
  ofile : ℕ → Option OpenFile
  out : List Line

namespace Process

def put (s : Process) (fd : ℕ) (f : Option OpenFile) : Process :=
  {s with ofile := Function.update s.ofile fd f}

def print (s : Process) (l : Line) : Process := {s with out := s.out++[l]}

def fdalloc (s : Process) : Option ℕ := (List.range NOFILE).find? fun fd => (s.ofile fd).isNone

def close (s : Process) (fd : ℕ) : Process := s.put fd none

end Process

section Code

variable (fs : Files)

/-- `open(path, O_RDONLY)`: `sys_open` takes no path that does not fit `path[MAXPATH]` and no device
with a bad major number. -/
def openFile (path : List UInt8) (s : Process) : Option (ℕ × Process) :=
  if MAXPATH ≤ path.length then none
  else match fs.namei path with
    | none => none
    | some i =>
      if (fs.inode i).openable = false then none
      else match s.fdalloc with
        | none => none
        | some fd => some (fd,s.put fd (some ⟨i,0⟩))

def fstat (fd : ℕ) (s : Process) : Option Inode := (s.ofile fd).map fun f => fs.inode f.inum

def stat (path : List UInt8) (s : Process) : Option Inode × Process :=
  match openFile fs path s with
  | none => (none,s)
  | some (fd,t) => (fstat fs fd t,t.close fd)

def readDirent (fd : ℕ) (s : Process) : Option (Dirent × Process) :=
  match s.ofile fd with
  | none => none
  | some f =>
    match fs.inode f.inum with
    | .dir entries => (entries[f.off]?).map fun de => (de,s.put fd (some ⟨f.inum,f.off+1⟩))
    | _ => none

def strcmp : List UInt8 → List UInt8 → ℤ
  | [], [] => 0
  | [], b::_ => -b.toNat
  | a::_, [] => a.toNat
  | a::p, b::q => if a ≠ 0 ∧ a = b then strcmp p q else a.toNat-b.toNat

/-- What stands on the stack behind the 14 bytes copied into `buf`, and behind `de`; and for how many
calls of `find` below the first one its page has room. -/
structure Stack where
  afterBuf : List UInt8 → Dirent → List UInt8
  afterDe : List UInt8 → Dirent → List UInt8
  depth : ℕ

variable (st : Stack) (target : List UInt8)

mutual

/-- With room for `d` calls below. `none`: the fuel is used up, or the process is killed for a store
below its stack. -/
def find : ℕ → ℕ → List UInt8 → Process → Option Process
  | 0, _, _, _ => none
  | n+1, d, path, s =>
    match openFile fs path s with
    | none => some (s.print (.cannotOpen path))
    | some (fd,t) =>
      match fstat fs fd t with
      | none => some ((t.print (.cannotFstat path)).close fd)
      | some (.dir _) => findLoop n d path fd t
      | some _ => some (t.print (.notDirectory path))

def findLoop : ℕ → ℕ → List UInt8 → ℕ → Process → Option Process
  | 0, _, _, _, _ => none
  | n+1, d, path, fd, s =>
    match readDirent fs fd s with
    | none => some s
    | some (de,t) =>
      if de.inum = 0 then findLoop n d path fd t
      else
        let buf := cstr (path++slash::(de.name++st.afterBuf path de))
        let name := de.name++st.afterDe path de
        match stat fs buf t with
        | (none,u) => findLoop n d path fd (u.print (.cannotStat buf))
        | (some (.dir _),u) =>
          if strcmp name dot ≠ 0 ∧ strcmp name dotdot ≠ 0 then
            if d = 0 then none else (find n (d-1) buf u).bind fun v => findLoop n d path fd v
          else findLoop n d path fd u
        | (some _,u) =>
          if strcmp name target = 0 then findLoop n d path fd (u.print (.path buf))
          else findLoop n d path fd u

end

end Code

theorem strcmp_eq_zero {p q : List UInt8} : strcmp p q = 0 ↔ cstr p = cstr q := by
  fun_induction strcmp p q with
  | case1 => simp [cstr]
  | case2 b q =>
    by_cases hb : b = 0
    · simp [cstr,hb]
    · have hne : b.toNat ≠ 0 := fun h => hb (UInt8.toNat_inj.mp h)
      simp [cstr,hb,hne]
  | case3 a p =>
    by_cases ha : a = 0
    · simp [cstr,ha]
    · have hne : a.toNat ≠ 0 := fun h => ha (UInt8.toNat_inj.mp h)
      simp [cstr,ha,hne]
  | case4 a p b q h ih =>
    obtain ⟨h0,rfl⟩ := h
    rw [ih]
    simp [cstr,h0]
  | case5 a p b q h =>
    have hinj : ((a.toNat : ℤ)-b.toNat = 0) ↔ a = b := by
      rw [← UInt8.toNat_inj]
      omega
    rw [hinj]
    by_cases ha : a = 0
    · subst ha
      by_cases hb : b = 0
      · simp [cstr,hb]
      · simp [cstr,hb,Ne.symm hb]
    · have hab : a ≠ b := fun hab => h ⟨ha,hab⟩
      by_cases hb : b = 0
      · simp [cstr,ha,hb]
      · simp [cstr,ha,hb,hab]

theorem cstr_append {name rest : List UInt8} (h : 0 ∈ name) : cstr (name++rest) = cstr name := by
  induction name with
  | nil => cases h
  | cons a name ih =>
    by_cases ha : a = 0
    · simp [cstr,ha]
    · have hmem : 0 ∈ name := (List.mem_cons.mp h).resolve_left (Ne.symm ha)
      have hrec := ih hmem
      unfold cstr at hrec ⊢
      simpa [ha] using hrec

theorem cstr_path {path name : List UInt8} (h : ∀ b ∈ path, b ≠ 0) :
    cstr (path++slash::name) = path++slash::cstr name := by
  have hslash : slash ≠ 0 := by decide
  unfold cstr
  rw [List.takeWhile_append_of_pos (by simpa using h)]
  simp [hslash]

section Descriptors

variable {fs : Files} {s t : Process} {path : List UInt8} {fd i : ℕ} {es : List Dirent}

def freeSlots (s : Process) : Finset ℕ := (Finset.range NOFILE).filter fun fd => s.ofile fd = none

theorem fdalloc_some (h : s.fdalloc = some fd) : fd ∈ freeSlots s := by
  have hfd := List.find?_some h
  have hmem := List.mem_of_find?_eq_some h
  rw [freeSlots,Finset.mem_filter,Finset.mem_range]
  exact ⟨List.mem_range.mp hmem,Option.isNone_iff_eq_none.mp hfd⟩

theorem fdalloc_isSome (h : 0 < (freeSlots s).card) : ∃ fd, s.fdalloc = some fd := by
  obtain ⟨fd,hfd⟩ := Finset.card_pos.mp h
  rw [freeSlots,Finset.mem_filter,Finset.mem_range] at hfd
  rw [← Option.isSome_iff_exists,Process.fdalloc,List.find?_isSome]
  exact ⟨fd,List.mem_range.mpr hfd.1,by rw [hfd.2]; rfl⟩

theorem freeSlots_put {f : OpenFile} : freeSlots (s.put fd (some f)) = (freeSlots s).erase fd := by
  ext j
  rw [freeSlots,freeSlots,Finset.mem_filter,Finset.mem_erase,Finset.mem_filter]
  by_cases hj : j = fd
  · simp [Process.put,hj]
  · simp [Process.put,hj]

/-- `open` finds something at the path that it can open. -/
def Opens (fs : Files) (path : List UInt8) : Prop :=
  path.length < MAXPATH ∧ ∃ i, fs.namei path = some i ∧ (fs.inode i).openable = true

theorem openFile_some (h : openFile fs path s = some (fd,t)) :
    fd ∈ freeSlots s ∧ Opens fs path ∧ ∃ i, t = s.put fd (some ⟨i,0⟩) := by
  unfold openFile at h
  split at h
  · cases h
  case isFalse hlen =>
    split at h
    · cases h
    case h_2 i hi =>
      split at h
      · cases h
      case isFalse ho =>
        split at h
        · cases h
        case h_2 d hd =>
          cases h
          exact ⟨fdalloc_some hd,⟨by omega,i,hi,by simpa using ho⟩,i,rfl⟩

theorem openFile_isSome (hlen : path.length < MAXPATH) (hi : fs.namei path = some i)
    (ho : (fs.inode i).openable = true) (h : 0 < (freeSlots s).card) :
    ∃ fd ∈ freeSlots s, openFile fs path s = some (fd,s.put fd (some ⟨i,0⟩)) := by
  obtain ⟨fd,hfd⟩ := fdalloc_isSome h
  refine ⟨fd,fdalloc_some hfd,?_⟩
  rw [openFile,if_neg (by omega),hi]
  simp only [ho,hfd]
  rfl

theorem openFile_eq_none (h : ¬ Opens fs path) : openFile fs path s = none := by
  by_contra hne
  obtain ⟨⟨fd,t⟩,hopen⟩ := Option.ne_none_iff_exists'.mp hne
  exact h (openFile_some hopen).2.1

theorem fstat_put {f : OpenFile} : fstat fs fd (s.put fd (some f)) = some (fs.inode f.inum) := by
  simp [fstat,Process.put]

theorem put_close {f : OpenFile} (h : fd ∈ freeSlots s) : (s.put fd (some f)).close fd = s := by
  have hnone : s.ofile fd = none := (Finset.mem_filter.mp h).2
  simp [Process.close,Process.put,← hnone]

theorem stat_snd : (stat fs path s).2 = s := by
  unfold stat
  split
  · rfl
  case h_2 fd t h =>
    obtain ⟨hfd,-,i,rfl⟩ := openFile_some h
    exact put_close hfd

theorem stat_of_namei (hlen : path.length < MAXPATH) (hi : fs.namei path = some i)
    (ho : (fs.inode i).openable = true) (h : 0 < (freeSlots s).card) :
    stat fs path s = (some (fs.inode i),s) := by
  obtain ⟨fd,hfd,hopen⟩ := openFile_isSome hlen hi ho h
  simp only [stat,hopen,fstat_put,put_close hfd]

end Descriptors

section Keeps

variable {fs : Files} {st : Stack} {target path : List UInt8} {s t u : Process} {fd n : ℕ}

def Keeps (s t : Process) : Prop := ∀ fd, (s.ofile fd).isSome → (t.ofile fd).isSome

theorem Keeps.trans (h : Keeps s t) (h' : Keeps t u) : Keeps s u := fun fd hfd => h' fd (h fd hfd)

theorem Keeps.put (f : OpenFile) : Keeps s (s.put fd (some f)) := by
  intro j hj
  by_cases hjd : j = fd
  · simp [Process.put,hjd]
  · simpa [Process.put,hjd] using hj

theorem Keeps.readDirent {de : Dirent} (h : readDirent fs fd s = some (de,t)) : Keeps s t := by
  unfold Find.readDirent at h
  split at h
  · cases h
  · split at h
    · obtain ⟨de',-,heq⟩ := Option.map_eq_some_iff.mp h
      cases heq
      exact .put _
    · cases h

theorem Keeps.find_findLoop :
    (∀ d path s t, find fs st target n d path s = some t → Keeps s t) ∧
      ∀ d path fd s t, findLoop fs st target n d path fd s = some t → Keeps s t := by
  induction n with
  | zero =>
    constructor
    · intro d path s t h
      cases h
    · intro d path fd s t h
      cases h
  | succ n ih =>
    obtain ⟨ihfind,ihloop⟩ := ih
    constructor
    · intro d path s t h
      rw [find] at h
      split at h
      · cases h
        exact fun _ hfd => hfd
      case h_2 fd u hopen =>
        obtain ⟨-,-,i,rfl⟩ := openFile_some hopen
        rw [fstat_put] at h
        split at h
        case h_1 heq => cases heq
        · exact Keeps.trans (.put _) (ihloop _ _ _ _ _ h)
        · cases h
          exact .put _
    · intro d path fd s t h
      rw [findLoop] at h
      split at h
      · cases h
        exact fun _ hfd => hfd
      case h_2 de u hread =>
        refine (Keeps.readDirent hread).trans ?_
        split at h
        · exact ihloop _ _ _ _ _ h
        · have hsnd := @stat_snd fs u (cstr (path++slash::(de.name++st.afterBuf path de)))
          simp only at h
          split at h
          case h_1 v heq =>
            rw [heq] at hsnd
            subst hsnd
            exact fun fd hfd => ihloop _ _ _ _ _ h fd hfd
          case h_2 es v heq =>
            rw [heq] at hsnd
            subst hsnd
            split at h
            · split at h
              · cases h
              · obtain ⟨w,hw,hrest⟩ := Option.bind_eq_some_iff.mp h
                exact (ihfind _ _ _ _ hw).trans (ihloop _ _ _ _ _ hrest)
            · exact ihloop _ _ _ _ _ h
          case h_3 ino v _ heq =>
            rw [heq] at hsnd
            subst hsnd
            split at h
            · exact fun fd hfd => ihloop _ _ _ _ _ h fd hfd
            · exact ihloop _ _ _ _ _ h

theorem find_leaks {d : ℕ} (ho : Opens fs path) (hfree : 0 < (freeSlots s).card)
    (h : find fs st target n d path s = some t) : ∃ fd, s.ofile fd = none ∧ (t.ofile fd).isSome := by
  obtain ⟨hlen,i,hi,ho⟩ := ho
  obtain ⟨fd,hfd,hopen⟩ := openFile_isSome hlen hi ho hfree
  refine ⟨fd,(Finset.mem_filter.mp hfd).2,?_⟩
  cases n with
  | zero => cases h
  | succ n =>
    have hput : ((s.put fd (some ⟨i,0⟩)).ofile fd).isSome := by simp [Process.put]
    rw [find,hopen] at h
    simp only [fstat_put] at h
    split at h
    case h_1 heq => cases heq
    · exact Keeps.find_findLoop.2 _ _ _ _ _ h fd hput
    · cases h
      exact hput

end Keeps

def child (path : List UInt8) (de : Dirent) : List UInt8 := path++slash::cstr de.name

def Inode.isDir : Inode → Bool
  | .dir _ => true
  | _ => false

theorem Inode.openable_of_isDir {ino : Inode} (h : ino.isDir = true) : ino.openable = true := by
  cases ino with
  | dir es => rfl
  | file | device => cases h

def Dots (de : Dirent) : Prop := cstr de.name = dot ∨ cstr de.name = dotdot

instance (de : Dirent) : Decidable (Dots de) := inferInstanceAs (Decidable (_ ∨ _))

inductive Dir
  | nil
  | free (de : Dirent) (rest : Dir)
  | plain (de : Dirent) (rest : Dir)
  | dots (de : Dirent) (rest : Dir)
  | sub (de : Dirent) (d rest : Dir)

namespace Dir

def entries : Dir → List Dirent
  | .nil => []
  | .free de rest | .plain de rest | .dots de rest | .sub de _ rest => de::rest.entries

def subdirs : Dir → ℕ
  | .nil => 0
  | .free _ rest | .plain _ rest | .dots _ rest => rest.subdirs
  | .sub _ d rest => d.subdirs+1+rest.subdirs

def depth : Dir → ℕ
  | .nil => 0
  | .free _ rest | .plain _ rest | .dots _ rest => rest.depth
  | .sub _ d rest => max (d.depth+1) rest.depth

/-- The paths of the entries called `target` that are no directories, in directory order. -/
def found (target : List UInt8) (path : List UInt8) : Dir → List (List UInt8)
  | .nil => []
  | .free _ rest | .dots _ rest => rest.found target path
  | .plain de rest =>
    (if cstr de.name = target then [child path de] else [])++rest.found target path
  | .sub de d rest => d.found target (child path de)++rest.found target path

/-- The tree is the one the file system has at `path`. -/
def Holds (fs : Files) (path : List UInt8) : Dir → Prop
  | .nil => True
  | .free de rest => de.inum = 0 ∧ rest.Holds fs path
  | .plain de rest => de.inum ≠ 0 ∧ fs.namei (child path de) = some de.inum.toNat ∧
      (fs.inode de.inum.toNat).isDir = false ∧ rest.Holds fs path
  | .dots de rest => de.inum ≠ 0 ∧ Dots de ∧ fs.namei (child path de) = some de.inum.toNat ∧
      (fs.inode de.inum.toNat).isDir = true ∧ rest.Holds fs path
  | .sub de d rest => de.inum ≠ 0 ∧ ¬ Dots de ∧ fs.namei (child path de) = some de.inum.toNat ∧
      fs.inode de.inum.toNat = .dir d.entries ∧ d.Holds fs (child path de) ∧ rest.Holds fs path

instance decidableHolds (fs : Files) : (path : List UInt8) → (D : Dir) → Decidable (D.Holds fs path)
  | _, .nil => inferInstanceAs (Decidable True)
  | path, .free _ rest =>
    have := decidableHolds fs path rest
    inferInstanceAs (Decidable (_ ∧ _))
  | path, .plain _ rest =>
    have := decidableHolds fs path rest
    inferInstanceAs (Decidable (_ ∧ _ ∧ _ ∧ _))
  | path, .dots _ rest =>
    have := decidableHolds fs path rest
    inferInstanceAs (Decidable (_ ∧ _ ∧ _ ∧ _ ∧ _))
  | path, .sub de d rest =>
    have := decidableHolds fs path rest
    have := decidableHolds fs (child path de) d
    inferInstanceAs (Decidable (_ ∧ _ ∧ _ ∧ _ ∧ _ ∧ _))

/-- Every path below `path` is short enough, and every device can be opened. -/
def Reach (fs : Files) (path : List UInt8) : Dir → Prop
  | .nil => True
  | .free _ rest => rest.Reach fs path
  | .plain de rest => (child path de).length < MAXPATH ∧
      (fs.inode de.inum.toNat).openable = true ∧ rest.Reach fs path
  | .dots de rest => (child path de).length < MAXPATH ∧ rest.Reach fs path
  | .sub de d rest => (child path de).length < MAXPATH ∧ d.Reach fs (child path de) ∧ rest.Reach fs path

instance decidableReach (fs : Files) : (path : List UInt8) → (D : Dir) → Decidable (D.Reach fs path)
  | _, .nil => inferInstanceAs (Decidable True)
  | path, .free _ rest => decidableReach fs path rest
  | path, .plain _ rest =>
    have := decidableReach fs path rest
    inferInstanceAs (Decidable (_ ∧ _ ∧ _))
  | path, .dots _ rest =>
    have := decidableReach fs path rest
    inferInstanceAs (Decidable (_ ∧ _))
  | path, .sub de d rest =>
    have := decidableReach fs path rest
    have := decidableReach fs (child path de) d
    inferInstanceAs (Decidable (_ ∧ _ ∧ _))

/-- Every name has its NUL: it is shorter than `DIRSIZ`. -/
def Terminated : Dir → Prop
  | .nil => True
  | .free de rest | .plain de rest | .dots de rest => 0 ∈ de.name ∧ rest.Terminated
  | .sub de d rest => 0 ∈ de.name ∧ d.Terminated ∧ rest.Terminated

instance decidableTerminated : (D : Dir) → Decidable D.Terminated
  | .nil => inferInstanceAs (Decidable True)
  | .free _ rest | .plain _ rest | .dots _ rest =>
    have := decidableTerminated rest
    inferInstanceAs (Decidable (_ ∧ _))
  | .sub _ d rest =>
    have := decidableTerminated rest
    have := decidableTerminated d
    inferInstanceAs (Decidable (_ ∧ _ ∧ _))

def fuel : Dir → ℕ
  | .nil => 1
  | .free _ rest | .plain _ rest | .dots _ rest => rest.fuel+1
  | .sub _ d rest => d.fuel+1+rest.fuel+1

end Dir

section Listed

variable {fs : Files} {st : Stack} {target path : List UInt8} {s t u : Process} {fd i off n : ℕ}
  {entries rest : List Dirent} {de : Dirent}

/-- `lines` have been printed and `k` descriptors are gone; what was open, `fd` apart, is as it
was. -/
structure Listed (fd : ℕ) (lines : List (List UInt8)) (k : ℕ) (s t : Process) : Prop where
  out : t.out = s.out++lines.map .path
  same : ∀ j, j ≠ fd → s.ofile j ≠ none → t.ofile j = s.ofile j
  free : (freeSlots t).card+k = (freeSlots s).card

theorem Listed.trans {l l' : List (List UInt8)} {k k' : ℕ} (h : Listed fd l k s t)
    (h' : Listed fd l' k' t u) : Listed fd (l++l') (k+k') s u where
  out := by rw [h'.out,h.out,List.map_append,List.append_assoc]
  same j hj hs := by
    have heq := h.same j hj hs
    rw [h'.same j hj (by rwa [heq]),heq]
  free := by
    have h1 := h.free
    have h2 := h'.free
    omega

theorem Listed.reading (hs : s.ofile fd = some ⟨i,off⟩) :
    Listed fd [] 0 s (s.put fd (some ⟨i,off+1⟩)) ∧
      (s.put fd (some ⟨i,off+1⟩)).ofile fd = some ⟨i,off+1⟩ := by
  refine ⟨⟨by simp [Process.put],fun j hj _ => by simp [Process.put,hj],?_⟩,by simp [Process.put]⟩
  rw [freeSlots_put,Finset.erase_eq_of_notMem]
  · rfl
  · exact fun hmem => Option.some_ne_none _ (hs.symm.trans (Finset.mem_filter.mp hmem).2)

theorem Listed.read {l : List (List UInt8)} {k : ℕ} (hs : s.ofile fd = some ⟨i,off⟩)
    (h : Listed fd l k (s.put fd (some ⟨i,off+1⟩)) t) : Listed fd l k s t := by
  have hall := (Listed.reading hs).1.trans h
  rwa [List.nil_append,Nat.zero_add] at hall

theorem Listed.print {l : List (List UInt8)} {k : ℕ} {p : List UInt8}
    (h : Listed fd l k (s.print (.path p)) t) : Listed fd (p::l) k s t where
  out := by rw [h.out,Process.print,List.append_assoc]; rfl
  same := h.same
  free := h.free

theorem readDirent_nil (hs : s.ofile fd = some ⟨i,off⟩) (hi : fs.inode i = .dir entries)
    (hdrop : entries.drop off = []) : readDirent fs fd s = none := by
  have hnone : entries[off]? = none := by
    rw [List.getElem?_eq_none_iff]
    exact List.drop_eq_nil_iff.mp hdrop
  simp only [readDirent,hs,hi,hnone,Option.map_none]

theorem readDirent_cons (hs : s.ofile fd = some ⟨i,off⟩) (hi : fs.inode i = .dir entries)
    (hdrop : entries.drop off = de::rest) :
    readDirent fs fd s = some (de,s.put fd (some ⟨i,off+1⟩)) ∧ entries.drop (off+1) = rest := by
  have hsome : entries[off]? = some de := by
    have hzero := congrArg (·[0]?) hdrop
    simpa using hzero
  constructor
  · simp only [readDirent,hs,hi,hsome,Option.map_some]
  · rw [← List.drop_drop,hdrop]
    rfl

theorem cstr_buf (hpath : 0 ∉ path) (hname : 0 ∈ de.name) (junk : List UInt8) :
    cstr (path++slash::(de.name++junk)) = child path de := by
  rw [cstr_path fun b hb h0 => hpath (h0 ▸ hb),cstr_append hname]
  rfl

theorem child_ne_zero (hpath : 0 ∉ path) : 0 ∉ child path de := by
  have hslash : (0 : UInt8) ≠ slash := by decide
  rw [child,List.mem_append,List.mem_cons]
  rintro (h | h | h)
  · exact hpath h
  · exact hslash h
  · have := List.mem_takeWhile_imp h
    simp at this

theorem strcmp_name {x : List UInt8} (hname : 0 ∈ de.name) (hx : 0 ∉ x) (junk : List UInt8) :
    strcmp (de.name++junk) x = 0 ↔ cstr de.name = x := by
  have hself : cstr x = x := by
    unfold cstr
    rw [List.takeWhile_eq_self_iff]
    intro b hb
    simpa using fun h0 : b = 0 => hx (h0 ▸ hb)
  rw [strcmp_eq_zero,cstr_append hname,hself]

theorem dot_ne_zero : 0 ∉ dot := by decide

theorem dotdot_ne_zero : 0 ∉ dotdot := by decide

section Round

variable {m : ℕ} {ino : Inode} (hread : readDirent fs fd s = some (de,u)) (hinum : de.inum ≠ 0)
  (hpath : 0 ∉ path) (hname : 0 ∈ de.name)

include hread hinum hpath hname

theorem findLoop_file (htarget : 0 ∉ target) (hstat : stat fs (child path de) u = (some ino,u))
    (hkind : ino.isDir = false) : findLoop fs st target (n+1) m path fd s =
      findLoop fs st target n m path fd
        (if cstr de.name = target then u.print (.path (child path de)) else u) := by
  rw [findLoop,hread]
  simp only [if_neg hinum,cstr_buf hpath hname,hstat,strcmp_name hname htarget]
  cases ino with
  | dir es => cases hkind
  | file | device => exact (apply_ite (findLoop fs st target n m path fd) _ _ _).symm

theorem findLoop_dir (hstat : stat fs (child path de) u = (some ino,u)) (hkind : ino.isDir = true) :
    findLoop fs st target (n+1) m path fd s =
      if cstr de.name ≠ dot ∧ cstr de.name ≠ dotdot then
        if m = 0 then none
        else (find fs st target n (m-1) (child path de) u).bind fun v =>
          findLoop fs st target n m path fd v
      else findLoop fs st target n m path fd u := by
  rw [findLoop,hread]
  simp only [if_neg hinum,cstr_buf hpath hname,hstat,strcmp_name hname dot_ne_zero,
    strcmp_name hname dotdot_ne_zero,ne_eq]
  cases ino with
  | dir es => rfl
  | file | device => cases hkind

end Round

theorem find_lists_dir {d : Dir} {m : ℕ} (hlen : path.length < MAXPATH) (hi : fs.namei path = some i)
    (hino : fs.inode i = .dir d.entries)
    (hfree : d.subdirs+1 < (freeSlots s).card)
    (hloop : ∀ s fd, s.ofile fd = some ⟨i,0⟩ → d.subdirs < (freeSlots s).card →
      ∃ t, findLoop fs st target n m path fd s = some t ∧
        Listed fd (d.found target path) d.subdirs s t) :
    ∃ t, find fs st target (n+1) m path s = some t ∧
      ∀ fd, Listed fd (d.found target path) (d.subdirs+1) s t := by
  have hpos : 0 < (freeSlots s).card := by omega
  obtain ⟨fd,hfd,hopen⟩ := openFile_isSome hlen hi (Inode.openable_of_isDir (by rw [hino]; rfl)) hpos
  have hnone : s.ofile fd = none := (Finset.mem_filter.mp hfd).2
  have hcard : (freeSlots (s.put fd (some ⟨i,0⟩))).card+1 = (freeSlots s).card := by
    rw [freeSlots_put]
    exact Finset.card_erase_add_one hfd
  obtain ⟨t,ht,hlist⟩ := hloop (s.put fd (some ⟨i,0⟩)) fd (by simp [Process.put]) (by omega)
  refine ⟨t,?_,fun fd' => ⟨hlist.out,fun j _ hj => ?_,?_⟩⟩
  · rw [find,hopen]
    simp only [fstat_put,hino]
    exact ht
  · have hne : j ≠ fd := fun h => hj (h ▸ hnone)
    have hput : (s.put fd (some ⟨i,0⟩)).ofile j = s.ofile j := by simp [Process.put,hne]
    rw [hlist.same j hne (by rwa [hput]),hput]
  · have hl := hlist.free
    omega

theorem findLoop_lists (D : Dir) {m : ℕ} (htarget : 0 ∉ target) (hpath : 0 ∉ path)
    (hholds : D.Holds fs path) (hterm : D.Terminated) (hreach : D.Reach fs path)
    (hdepth : D.depth ≤ m) (hs : s.ofile fd = some ⟨i,off⟩)
    (hi : fs.inode i = .dir entries) (hdrop : entries.drop off = D.entries)
    (hfree : D.subdirs < (freeSlots s).card) (hn : D.fuel ≤ n) :
    ∃ t, findLoop fs st target n m path fd s = some t ∧
      Listed fd (D.found target path) D.subdirs s t := by
  induction D generalizing path s fd i off entries n m with
  | nil =>
    obtain ⟨k,rfl⟩ : ∃ k, n = k+1 := ⟨n-1,by simp only [Dir.fuel] at hn; omega⟩
    refine ⟨s,?_,⟨by simp [Dir.found],fun _ _ _ => rfl,rfl⟩⟩
    rw [findLoop,readDirent_nil hs hi hdrop]
  | free de rest ih =>
    obtain ⟨k,rfl⟩ : ∃ k, n = k+1 := ⟨n-1,by simp only [Dir.fuel] at hn; omega⟩
    obtain ⟨hread,hdrop'⟩ := readDirent_cons hs hi hdrop
    obtain ⟨hadv,hu⟩ := Listed.reading hs
    obtain ⟨t,ht,hlist⟩ := ih (n := k) hpath hholds.2 hterm.2 hreach hdepth hu hi hdrop'
      (hfree.trans_eq hadv.free.symm) (Nat.le_of_succ_le_succ hn)
    refine ⟨t,?_,hlist.read hs⟩
    rw [findLoop,hread]
    simp only [hholds.1,if_true]
    exact ht
  | plain de rest ih =>
    obtain ⟨k,rfl⟩ : ∃ k, n = k+1 := ⟨n-1,by simp only [Dir.fuel] at hn; omega⟩
    obtain ⟨hread,hdrop'⟩ := readDirent_cons hs hi hdrop
    obtain ⟨hadv,hu⟩ := Listed.reading hs
    obtain ⟨hinum,hnamei,hkind,hrest⟩ := hholds
    obtain ⟨hlen,hopen,hrestR⟩ := hreach
    have hfree' : rest.subdirs < (freeSlots (s.put fd (some ⟨i,off+1⟩))).card :=
      hfree.trans_eq hadv.free.symm
    have hstat := stat_of_namei hlen hnamei hopen (Nat.zero_lt_of_lt hfree')
    have hm : rest.fuel ≤ k := Nat.le_of_succ_le_succ hn
    rw [findLoop_file hread hinum hpath hterm.1 htarget hstat hkind,Dir.found]
    split
    · obtain ⟨t,ht,hlist⟩ := ih (n := k)
        (s := (s.put fd (some ⟨i,off+1⟩)).print (.path (child path de))) hpath hrest hterm.2 hrestR
        hdepth hu hi hdrop' hfree' hm
      exact ⟨t,ht,hlist.print.read hs⟩
    · obtain ⟨t,ht,hlist⟩ := ih (n := k) hpath hrest hterm.2 hrestR hdepth hu hi hdrop' hfree' hm
      exact ⟨t,ht,hlist.read hs⟩
  | dots de rest ih =>
    obtain ⟨k,rfl⟩ : ∃ k, n = k+1 := ⟨n-1,by simp only [Dir.fuel] at hn; omega⟩
    obtain ⟨hread,hdrop'⟩ := readDirent_cons hs hi hdrop
    obtain ⟨hadv,hu⟩ := Listed.reading hs
    obtain ⟨hinum,hdots,hnamei,hkind,hrest⟩ := hholds
    obtain ⟨hlen,hrestR⟩ := hreach
    have hfree' : rest.subdirs < (freeSlots (s.put fd (some ⟨i,off+1⟩))).card :=
      hfree.trans_eq hadv.free.symm
    have hstat := stat_of_namei hlen hnamei (Inode.openable_of_isDir hkind)
      (Nat.zero_lt_of_lt hfree')
    obtain ⟨t,ht,hlist⟩ := ih (n := k) hpath hrest hterm.2 hrestR hdepth hu hi hdrop' hfree'
      (Nat.le_of_succ_le_succ hn)
    refine ⟨t,?_,hlist.read hs⟩
    rw [findLoop_dir hread hinum hpath hterm.1 hstat hkind,
      if_neg (by rw [← not_or]; exact not_not_intro hdots)]
    exact ht
  | sub de d rest ihd ih =>
    obtain ⟨k,rfl⟩ : ∃ k, n = k+1+1 := ⟨n-2,by
      simp only [Dir.fuel] at hn
      omega⟩
    obtain ⟨hread,hdrop'⟩ := readDirent_cons hs hi hdrop
    obtain ⟨hadv,hu⟩ := Listed.reading hs
    obtain ⟨hinum,hdots,hnamei,hino,hsub,hrest⟩ := hholds
    obtain ⟨hlen,hsubR,hrestR⟩ := hreach
    rw [Dir.depth,max_le_iff] at hdepth
    obtain ⟨hdeep,hdepth⟩ := hdepth
    simp only [Dir.subdirs,Dir.fuel] at hfree hn
    have hcard := hadv.free
    have hkind : (fs.inode de.inum.toNat).isDir = true := by rw [hino]; rfl
    have hstat := stat_of_namei (s := s.put fd (some ⟨i,off+1⟩)) hlen hnamei
      (Inode.openable_of_isDir hkind) (by omega)
    obtain ⟨v,hv,hlist⟩ : ∃ v, find fs st target (k+1) (m-1) (child path de)
        (s.put fd (some ⟨i,off+1⟩)) = some v ∧ ∀ fd', Listed fd' (d.found target (child path de))
          (d.subdirs+1) (s.put fd (some ⟨i,off+1⟩)) v :=
      find_lists_dir hlen hnamei hino (by omega) fun s' fd' hs' hfree' =>
        ihd (child_ne_zero hpath) hsub hterm.2.1 hsubR (by omega) hs' hino rfl hfree' (by omega)
    have hvfd : v.ofile fd = some ⟨i,off+1⟩ := by
      rw [(hlist (fd+1)).same fd (by omega) (by rw [hu]; exact Option.some_ne_none _),hu]
    have hvcard := (hlist fd).free
    obtain ⟨t,ht,hlist'⟩ := ih (n := k+1) hpath hrest hterm.2.2 hrestR hdepth hvfd hi hdrop' (by omega)
      (by omega)
    refine ⟨t,?_,((hlist fd).trans hlist').read hs⟩
    rw [findLoop_dir hread hinum hpath hterm.1 hstat hkind,
      if_pos (by rw [← not_or]; exact hdots),if_neg (by omega),hv]
    exact ht

end Listed

section Call

variable {fs : Files} {st : Stack} {target path : List UInt8} {s : Process} {D : Dir}

/-- `D` is the tree below `path`; it is empty if there is no directory. -/
def Rooted (fs : Files) (path : List UInt8) (D : Dir) : Prop :=
  match fs.namei path with
  | none => D = .nil
  | some i => match fs.inode i with
    | .dir entries => entries = D.entries ∧ D.Holds fs path
    | _ => D = .nil

def Start (s : Process) : Prop := ∀ fd, (s.ofile fd).isSome ↔ fd < 3

def paths (out : List Line) : List (List UInt8) := out.filterMap fun
  | .path p => some p
  | _ => none

/-- `find` returns, has printed the paths found and no other, and has the same descriptors open. -/
def Complete (fs : Files) (st : Stack) (target path : List UInt8) (D : Dir) (s : Process) : Prop :=
  ∃ n t, find fs st target n st.depth path s = some t ∧ paths t.out = paths s.out++D.found target path ∧
    ∀ fd, (t.ofile fd).isSome ↔ (s.ofile fd).isSome

theorem Start.freeSlots (h : Start s) : (freeSlots s).card = NOFILE-3 := by
  have heq : Find.freeSlots s = (Finset.range NOFILE).filter fun fd => 3 ≤ fd := by
    apply Finset.filter_congr
    intro fd _
    rw [← Option.not_isSome_iff_eq_none,h fd]
    omega
  rw [heq]
  decide

theorem paths_append (a b : List Line) : paths (a++b) = paths a++paths b := List.filterMap_append

theorem paths_map (l : List (List UInt8)) : paths (l.map .path) = l := by
  rw [paths,List.filterMap_map]
  exact List.filterMap_some

/-- `find` does what it is for only if it cannot open its path and there is nothing to be found: it
leaves the descriptor of every directory open. While two slots are left for the last directory and
`stat`, paths are short, the stack is deep enough and every name has its NUL, what it prints is
right. -/
theorem find_complete_iff (hD : Rooted fs path D) (hs : Start s) (hpath : 0 ∉ path)
    (htarget : 0 ∉ target) :
    (Complete fs st target path D s ↔ ¬ Opens fs path ∧ D.found target path = []) ∧
    ∀ i, fs.namei path = some i → (fs.inode i).isDir → path.length < MAXPATH → D.Terminated →
      D.Reach fs path → D.depth ≤ st.depth → D.subdirs+5 ≤ NOFILE →
      ∃ n t, find fs st target n st.depth path s = some t ∧
        paths t.out = paths s.out++D.found target path ∧
        (freeSlots t).card+(D.subdirs+1) = (freeSlots s).card := by
  have hcard := hs.freeSlots
  have hNO : NOFILE = 16 := rfl
  refine ⟨⟨fun h => ?_,fun h => ?_⟩,fun i hi hdir hlen hterm hreach hdepth hsub => ?_⟩
  · obtain ⟨n,t,hfind,hout,hsame⟩ := h
    have hno : ¬ Opens fs path := by
      intro ho
      obtain ⟨fd,hnone,hsome⟩ := find_leaks ho (by omega) hfind
      rw [hsame,hnone] at hsome
      cases hsome
    refine ⟨hno,?_⟩
    cases n with
    | zero => cases hfind
    | succ n =>
      rw [find,openFile_eq_none hno] at hfind
      cases hfind
      rw [Process.print,paths_append] at hout
      exact (List.append_cancel_left hout).symm
  · refine ⟨1,s.print (.cannotOpen path),?_,?_,fun fd => Iff.rfl⟩
    · rw [find,openFile_eq_none h.1]
    · rw [h.2,Process.print,paths_append]
      rfl
  · rw [Rooted,hi] at hD
    cases hino : fs.inode i with
    | dir entries =>
      simp only [hino] at hD
      obtain ⟨rfl,hholds⟩ := hD
      obtain ⟨t,ht,hlist⟩ : ∃ t, find fs st target (D.fuel+1) st.depth path s = some t ∧
          ∀ fd, Listed fd (D.found target path) (D.subdirs+1) s t :=
        find_lists_dir hlen hi hino (by omega) fun s' fd' hs' hfree' =>
          findLoop_lists D htarget hpath hholds hterm hreach hdepth hs' hino rfl hfree' le_rfl
      refine ⟨_,t,ht,?_,(hlist 0).free⟩
      rw [(hlist 0).out,paths_append,paths_map]
    | file | device major =>
      rw [hino] at hdir
      cases hdir

end Call

def entry (inum : UInt16) (name : List UInt8) : Dirent := ⟨inum,strncpy name DIRSIZ⟩

def leaf (k : ℕ) : Dir :=
  .dots (entry (UInt16.ofNat (k+2)) dot) (.dots (entry 1 dotdot) (.plain (entry 20 [120]) .nil))

def leaves : List ℕ → Dir
  | [] => .nil
  | k::ks => .sub (entry (UInt16.ofNat (k+2)) [UInt8.ofNat (97+k)]) (leaf k) (leaves ks)

def leafTree (k : ℕ) : Dir := .dots (entry 1 dot) (.dots (entry 1 dotdot) (leaves (List.range k)))

def leafFiles (k : ℕ) : Files where
  inode i := if i = 1 then .dir (leafTree k).entries
    else if i < 14 then .dir (leaf (i-2)).entries else .file
  namei p := match p with
    | [46] | [46,47,46] | [46,47,46,46] | [46,47,_,47,46,46] => some 1
    | [46,47,c] | [46,47,c,47,46] => some (c.toNat-95)
    | [46,47,_,47,120] => some 20
    | _ => none

def startProcess : Process := ⟨fun fd => if fd < 3 then some ⟨30,0⟩ else none,[]⟩

def zeroStack : Stack := ⟨fun _ _ => [],fun _ _ => [],5⟩

theorem startProcess_start : Start startProcess := by
  intro fd
  by_cases h : fd < 3
  · simp [startProcess,h]
  · simp [startProcess,h]

/-- With eleven directories all files are listed, but twelve descriptors stay open. -/
theorem find_complete_iff_eleven :
    ¬ Complete (leafFiles 11) zeroStack [120] dot (leafTree 11) startProcess ∧
    ∃ n t, find (leafFiles 11) zeroStack [120] n 5 dot startProcess = some t ∧
      paths t.out = (leafTree 11).found [120] dot ∧ (freeSlots t).card+12 = (freeSlots startProcess).card := by
  have hroot : Rooted (leafFiles 11) dot (leafTree 11) := show _ ∧ _ from ⟨rfl,by decide +kernel⟩
  have h : (Complete _ zeroStack [120] _ _ _ ↔ _) ∧ _ :=
    find_complete_iff hroot startProcess_start (by decide) (by decide)
  refine ⟨fun hc => (h.1.mp hc).1 ⟨by decide,1,rfl,rfl⟩,?_⟩
  exact h.2 1 rfl rfl (by decide) (by decide +kernel) (by decide +kernel) (by decide) (by decide)

/-- The twelfth directory takes the last descriptor, so the file in it is missed; and no slot is
free at the end. -/
theorem find_misses_twelfth :
    (leafTree 12).Holds (leafFiles 12) dot ∧ [46,47,108,47,120] ∈ (leafTree 12).found [120] dot ∧
      ∃ t, find (leafFiles 12) zeroStack [120] 100 5 dot startProcess = some t ∧
        [46,47,108,47,120] ∉ paths t.out ∧ ∀ fd < NOFILE, (t.ofile fd).isSome := by
  have hrun : (find (leafFiles 12) zeroStack [120] 100 5 dot startProcess).any (fun t =>
      decide ([46,47,108,47,120] ∉ paths t.out ∧ ∀ fd < NOFILE, (t.ofile fd).isSome)) = true := by
    decide +kernel
  refine ⟨by decide +kernel,by decide +kernel,?_⟩
  cases ht : find (leafFiles 12) zeroStack [120] 100 5 dot startProcess with
  | none =>
    rw [ht] at hrun
    cases hrun
  | some t =>
    rw [ht] at hrun
    exact ⟨t,rfl,of_decide_eq_true hrun⟩

end Find
end Xv6
