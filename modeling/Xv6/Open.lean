import Xv6.CreateOps
import Xv6.RootTree

/-! `sys_open` with the tables behind it: `filealloc` and `fileclose` of `kernel/file.c` and
`fdalloc` of `kernel/sysfile.c`. A failed call leaves everything as it was unless it has created the
file before it finds one of the tables full. -/
namespace Xv6
namespace Open

open Bytes Command Fs FileTree

inductive FileType
  | FD_NONE | FD_PIPE | FD_INODE | FD_DEVICE
  deriving DecidableEq

structure File where
  type : FileType
  ref : ℤ
  readable : Bool
  writable : Bool
  pipe : ℕ
  ip : ℕ
  off : UInt32
  major : Int16

/-- The file system, `ftable.file`, `p->ofile` of the caller, and the calls of `pipeclose`. -/
structure Kernel where
  fs : Fs
  file : ℕ → File
  ofile : ℕ → Option ℕ
  piped : List (ℕ × Bool)

inductive Stop
  | fs (e : FsPanic) | fileclose

abbrev OpenM := Cmd Stop Kernel

def onFs {α : Type} (c : FsM α) : OpenM α := zoom Kernel.fs (fun k fs => {k with fs := fs}) .fs c

def filealloc : OpenM (Option ℕ) := do
  let k ← get
  match (List.range NFILE).find? fun f => (k.file f).ref = 0 with
  | none => return none
  | some f => do
    set {k with file := Function.update k.file f {k.file f with ref := 1}}
    return some f

def fdalloc (f : ℕ) : OpenM (Option ℕ) := do
  let k ← get
  match (List.range NOFILE).find? fun fd => k.ofile fd = none with
  | none => return none
  | some fd => do
    set {k with ofile := Function.update k.ofile fd (some f)}
    return some fd

def fileclose (sb : Geometry) (f : ℕ) : OpenM Unit := do
  let k ← get
  let ff := k.file f
  if ff.ref < 1 then throw .fileclose
  else if 0 < ff.ref-1 then
    set {k with file := Function.update k.file f {ff with ref := ff.ref-1}}
  else do
    set {k with file := Function.update k.file f {ff with ref := 0, type := .FD_NONE}}
    match ff.type with
    | .FD_NONE => pure ()
    | .FD_PIPE => modify fun k => {k with piped := k.piped++[(ff.pipe,ff.writable)]}
    | _ => do
      onFs beginOp
      onFs (iput sb ff.ip)
      onFs endOp

def opened (f : File) (ip : ℕ) (d : Dinode) (omode : ℕ) : File :=
  {f with
    type := if d.type = T_DEVICE then .FD_DEVICE else .FD_INODE
    major := if d.type = T_DEVICE then d.major else f.major
    off := if d.type = T_DEVICE then f.off else 0
    ip := ip
    readable := decide (omode &&& O_WRONLY = 0)
    writable := decide (omode &&& O_WRONLY ≠ 0 ∨ omode &&& O_RDWR ≠ 0)}

def attach (sb : Geometry) (ip omode : ℕ) : OpenM ℤ := do
  match ← filealloc with
  | none => do
    onFs (iunlockput sb ip)
    return -1
  | some f => do
    match ← fdalloc f with
    | none => do
      fileclose sb f
      onFs (iunlockput sb ip)
      return -1
    | some fd => do
      let d := ((← get).fs.itable ip).d
      modify fun k => {k with file := Function.update k.file f (opened (k.file f) ip d omode)}
      onFs (when (omode &&& O_TRUNC ≠ 0 ∧ d.type = T_FILE) (itrunc sb ip))
      onFs (iunlock ip)
      return fd

def openBody (sb : Geometry) (cwd : ℕ) (path : List UInt8) (omode : ℕ) : OpenM ℤ := do
  match ← onFs (openInode sb cwd path omode) with
  | none => return -1
  | some ip => attach sb ip omode

def sysOpen (sb : Geometry) (cwd : ℕ) (path : List UInt8) (omode : ℕ) : OpenM ℤ :=
  -- `argstr` takes no path that does not fit `path[MAXPATH]`
  if MAXPATH ≤ path.length then return -1
  else do
    onFs beginOp
    let r ← openBody sb cwd path omode
    onFs endOp
    return r

def Room (file : ℕ → File) (ofile : ℕ → Option ℕ) : Prop :=
  (∃ f < NFILE, (file f).ref = 0) ∧ ∃ fd < NOFILE, ofile fd = none

/-- Free files are of no type, as `fileclose` leaves them. -/
def Blank (file : ℕ → File) : Prop := ∀ f, (file f).ref = 0 → (file f).type = .FD_NONE

variable {sb : Geometry} {E : Stop → Prop} {k : Kernel}

theorem wp_onFs {α : Type} {c : FsM α} {Q : α → Kernel → Prop} :
    wp (onFs c) Q E k ↔ wp c (fun a fs => Q a {k with fs := fs}) (fun e => E (.fs e)) k.fs := wp_zoom

theorem wp_filealloc : wp filealloc (fun r t =>
    (r = none ∧ t = k ∧ ∀ f < NFILE, (k.file f).ref ≠ 0) ∨
    ∃ f < NFILE, r = some f ∧ (k.file f).ref = 0 ∧
      t = {k with file := Function.update k.file f {k.file f with ref := 1}}) E k := by
  rw [filealloc,wp_bind,wp_get]
  split
  · rename_i hnone
    refine .inl ⟨rfl,rfl,fun f hf h0 => ?_⟩
    exact List.find?_eq_none.mp hnone f (List.mem_range.mpr hf) (decide_eq_true h0)
  · rename_i f hsome
    have h0 := List.find?_some hsome
    exact .inr ⟨f,List.mem_range.mp (List.mem_of_find?_eq_some hsome),rfl,of_decide_eq_true h0,rfl⟩

theorem wp_fdalloc {f : ℕ} : wp (fdalloc f) (fun r t =>
    (r = none ∧ t = k ∧ ∀ fd < NOFILE, k.ofile fd ≠ none) ∨
    ∃ fd < NOFILE, r = some fd ∧ k.ofile fd = none ∧
      t = {k with ofile := Function.update k.ofile fd (some f)}) E k := by
  rw [fdalloc,wp_bind,wp_get]
  split
  · rename_i hnone
    refine .inl ⟨rfl,rfl,fun fd hf h0 => ?_⟩
    exact List.find?_eq_none.mp hnone fd (List.mem_range.mpr hf) (decide_eq_true h0)
  · rename_i fd hsome
    have h0 := List.find?_some hsome
    exact .inr ⟨fd,List.mem_range.mp (List.mem_of_find?_eq_some hsome),rfl,of_decide_eq_true h0,rfl⟩

/-- A file that has just been allocated and never filled in is only given back. -/
theorem wp_fileclose_new {f : ℕ} (href : (k.file f).ref = 1) (htype : (k.file f).type = .FD_NONE) :
    wp (fileclose sb f) (fun _ t =>
      t = {k with file := Function.update k.file f {k.file f with ref := 0}}) E k := by
  rw [fileclose,wp_bind,wp_get]
  simp only [href,htype]
  rw [if_neg (by decide),if_neg (by decide),wp_bind,wp_set,wp_pure]

structure Restored (k t : Kernel) : Prop where
  full : ¬ Room k.file k.ofile
  file : t.file = k.file
  ofile : t.ofile = k.ofile

/-- `attach` fails exactly on a full table, and then only drops the inode. -/
theorem wp_attach {ip omode : ℕ} {P : Fs → Prop} (hblank : Blank k.file)
    (hput : wp (iunlockput sb ip) (fun _ fs => P fs) (fun e => E (.fs e)) k.fs)
    (hE : Room k.file k.ofile → ∀ e, E e) :
    wp (attach sb ip omode) (fun r t => r = -1 ∧ Restored k t ∧ P t.fs ∨
      r ≠ -1 ∧ Room k.file k.ofile) E k := by
  rw [attach,wp_bind]
  refine wp_conseq wp_filealloc ?_
  rintro r t (⟨rfl,rfl,hfull⟩ | ⟨f,hf,rfl,h0,rfl⟩)
  · simp only
    rw [wp_bind,wp_onFs]
    refine wp_conseq hput fun _ fs hP => .inl ⟨rfl,⟨?_,rfl,rfl⟩,hP⟩
    rintro ⟨⟨f,hf,h0⟩,-⟩
    exact hfull f hf h0
  simp only
  rw [wp_bind]
  refine wp_conseq wp_fdalloc ?_
  rintro r t (⟨rfl,rfl,hfull⟩ | ⟨fd,hfd,rfl,hnone,rfl⟩)
  · simp only
    rw [wp_bind]
    refine wp_conseq (wp_fileclose_new (by simp) (by simp [hblank f h0])) ?_
    rintro - t rfl
    rw [wp_bind,wp_onFs]
    refine wp_conseq hput fun _ fs hP => .inl ⟨rfl,⟨?_,?_,rfl⟩,hP⟩
    · rintro ⟨-,fd,hfd,hnone⟩
      exact hfull fd hfd hnone
    · simp [← h0]
  · have hroom : Room k.file k.ofile := ⟨⟨f,hf,h0⟩,fd,hfd,hnone⟩
    have hstop : ∀ e, True → E e := fun e _ => hE hroom e
    simp only
    rw [wp_bind,wp_get,wp_bind,wp_modify,wp_bind]
    refine wp_mono (wp_true _ _) (fun _ t _ => ?_) hstop
    rw [wp_bind]
    refine wp_mono (wp_true _ _) (fun _ t _ => ?_) hstop
    exact .inr ⟨by omega,hroom⟩

structure Unchanged (sb : Geometry) (k t : Kernel) : Prop where
  tree : tree sb t.fs.blk = tree sb k.fs.blk
  refs : ∀ i, (t.fs.itable i).ref = (k.fs.itable i).ref
  inums : ∀ i, 0 < (k.fs.itable i).ref → (t.fs.itable i).inum = (k.fs.itable i).inum
  files : ∀ f, (t.file f).ref = (k.file f).ref
  ofile : t.ofile = k.ofile

/-- Between calls the references are those of `F`, so only the tree can have changed. -/
theorem unchanged_iff_of_wf {F : Multiset ℕ} {t : Kernel} (h : Wf sb k.fs F ∅) (h' : Wf sb t.fs F ∅)
    (hkept : Kept F k.fs t.fs) (hfile : t.file = k.file) (hofile : t.ofile = k.ofile) :
    Unchanged sb k t ↔ Fs.tree sb t.fs.blk = Fs.tree sb k.fs.blk where
  mp hu := hu.tree
  mpr htree :=
    { tree := htree
      refs := fun i => by rw [h'.refs,h.refs]
      inums := fun i hi => hkept.inum i (h.mem_of_ref_pos hi)
      files := fun f => by rw [hfile]
      ofile := hofile }

theorem Unchanged.same {t : Kernel} {fs : Fs} (h : Unchanged sb k t) (hb : fs.blk = t.fs.blk)
    (ht : fs.itable = t.fs.itable) : Unchanged sb k {t with fs := fs} where
  tree := by
    change Fs.tree sb fs.blk = _
    rw [hb]
    exact h.tree
  refs i := by
    change (fs.itable i).ref = _
    rw [ht]
    exact h.refs i
  inums i hi := by
    change (fs.itable i).inum = _
    rw [ht]
    exact h.inums i hi
  files := h.files
  ofile := h.ofile

theorem unchanged_same_iff {t : Kernel} {fs : Fs} (hb : fs.blk = t.fs.blk)
    (ht : fs.itable = t.fs.itable) : Unchanged sb k {t with fs := fs} ↔ Unchanged sb k t :=
  ⟨fun h => show Unchanged sb k {({t with fs := fs} : Kernel) with fs := t.fs} from
    h.same hb.symm ht.symm,fun h => h.same hb ht⟩

/-- A failed call changes nothing here: the path is too long, no file is to be made, both tables
have room, or `create` finds the name, no directory for it, or no inode or block. -/
def Harmless (sb : Geometry) (k : Kernel) (cwd : ℕ) (path : List UInt8) (omode : ℕ) : Prop :=
  MAXPATH ≤ path.length ∨ omode &&& O_CREATE = 0 ∨ Room k.file k.ofile ∨
    ¬ Creatable sb k.fs.blk (k.fs.itable cwd).inum path

theorem wp_sysOpen {F : Multiset ℕ} {cwd omode : ℕ} {path : List UInt8}
    (h : Wf sb k.fs F ∅) (hcwd : cwd ∈ F) (ho : Orderly sb F k.fs) (hblank : Blank k.file) :
    wp (sysOpen sb cwd path omode)
      (fun r t => r = -1 → (Unchanged sb k t ↔ Harmless sb k cwd path omode)) (fun _ => True) k := by
  have hend : ∀ r (t : Kernel), (r = -1 → (Unchanged sb k t ↔ Harmless sb k cwd path omode)) →
      wp (do onFs endOp; return r)
        (fun r t => r = -1 → (Unchanged sb k t ↔ Harmless sb k cwd path omode)) (fun _ => True) t := by
    intro r t ht
    rw [wp_bind,wp_onFs]
    refine wp_conseq wp_endOp_same ?_
    rintro - fs ⟨hb,htab⟩ hr
    rw [unchanged_same_iff hb htab]
    exact ht hr
  by_cases hlen : MAXPATH ≤ path.length
  · rw [sysOpen,if_pos hlen]
    exact fun _ => iff_of_true ⟨rfl,fun _ => rfl,fun _ _ => rfl,fun _ => rfl,rfl⟩ (.inl hlen)
  rw [sysOpen,if_neg hlen,wp_bind,wp_onFs]
  refine wp_conseq (wp_beginOp_same trivial) ?_
  rintro - s ⟨hb,htab⟩
  have hs : Steady sb F k.fs s := steady_of_same hb htab
  have hwf : Wf sb s F ∅ := h.congr hb htab
  have hos := hs.orderly ho
  rw [wp_bind,openBody,wp_bind,wp_onFs]
  refine wp_conseq (wp_openInode stops_true hwf hcwd sb.root_lt (.inl trivial)) ?_
  rw [hb,htab]
  rintro (- | ip) t ⟨hout,hexact⟩
  · obtain ⟨hwft,hkt,htree⟩ := hout
    have hsame := htree hos
    rw [hb] at hsame
    refine hend _ _ fun _ => ?_
    rw [unchanged_iff_of_wf (t := {k with fs := t}) h hwft (hs.kept.trans hkt) rfl rfl]
    refine iff_of_true hsame ?_
    by_cases hc : omode &&& O_CREATE = 0
    · exact .inr (.inl hc)
    · exact .inr (.inr (.inr ((hexact hc hos).mp hsame)))
  · obtain ⟨hwft,hkt,-,htree⟩ := hout
    have hL := Finset.mem_insert_self ip (∅ : Finset ℕ)
    have hput := wp_iunlockput (E := fun _ => True) (fun _ _ => trivial) hwft hL
    rw [Finset.erase_insert (Finset.notMem_empty ip)] at hput
    refine wp_conseq (wp_attach hblank hput fun _ _ => trivial) ?_
    rintro r u (⟨rfl,hres,hwfu,hku,hreap,-⟩ | ⟨hr,-⟩)
    · refine hend _ _ fun _ => ?_
      -- an old inode is held or has links, and a new one has a link: dropping it changes nothing
      have hu : Fs.tree sb u.fs.blk = Fs.tree sb t.blk := by
        rcases htree hos with hsame | ⟨-,hnew⟩
        · exact (hos.anchored.kept hkt hsame).reaped hwft hreap
        · exact hnew.reaped hreap
      rw [unchanged_iff_of_wf h hwfu (hs.kept.trans (hkt.trans hku)) hres.file hres.ofile,hu,Harmless,
        or_iff_right hlen,or_iff_right hres.full]
      by_cases hc : omode &&& O_CREATE = 0
      · have hsame := (htree hos).resolve_right fun hh => hh.1 hc
        rw [hb] at hsame
        exact iff_of_true hsame (.inl hc)
      · rw [or_iff_right hc]
        exact hexact hc hos
    · exact hend _ _ fun h1 => absurd h1 hr

def dropOpened (sb : Geometry) : Option ℕ → FsM Unit
  | none => pure ()
  | some ip => iunlockput sb ip

def openFull (sb : Geometry) (cwd : ℕ) (path : List UInt8) (omode : ℕ) : FsM Unit := do
  beginOp
  let r ← openInode sb cwd path omode
  dropOpened sb r
  endOp

theorem wp_sysOpen_full {cwd omode : ℕ} {path : List UInt8} {P : Fs → Prop} (hblank : Blank k.file)
    (hlen : path.length < MAXPATH) (hfull : ¬ Room k.file k.ofile)
    (h : wp (openFull sb cwd path omode) (fun _ fs => P fs) (fun e => E (.fs e)) k.fs) :
    wp (sysOpen sb cwd path omode) (fun r t => r = -1 ∧ P t.fs) E k := by
  rw [openFull,wp_bind] at h
  rw [sysOpen,if_neg hlen.not_ge,wp_bind,wp_onFs]
  refine wp_conseq h fun _ s hs => ?_
  rw [wp_bind] at hs
  rw [wp_bind,openBody,wp_bind,wp_onFs]
  refine wp_conseq hs ?_
  rintro (- | ip) t ht
  · rw [wp_bind] at ht
    rw [wp_pure,wp_bind,wp_onFs]
    exact wp_conseq ht fun _ _ hP => ⟨rfl,hP⟩
  · rw [wp_bind] at ht
    refine wp_conseq (wp_attach hblank ht fun hroom => absurd hroom hfull) ?_
    rintro r u (⟨rfl,-,hu⟩ | ⟨-,hroom⟩)
    · rw [wp_bind,wp_onFs]
      exact wp_conseq hu fun _ _ hP => ⟨rfl,hP⟩
    · exact absurd hroom hfull

/-- `open("x", O_CREATE | ...)` in the root directory of a fresh image makes inode 2. -/
theorem openFull_creates {omode : ℕ} (h : omode &&& O_CREATE ≠ 0) :
    wp (openFull Mkfs.geometry 0 [120] omode)
      (fun _ fs => (dinodeOf Mkfs.geometry fs.blk 2).type ≠ 0) (fun _ => False) Mkfs.rootState := by
  rw [openFull,openInode,if_pos h]
  decide +kernel

theorem openFull_nodir {omode : ℕ} (h : omode &&& O_CREATE ≠ 0) :
    wp (openFull Mkfs.geometry 0 [100,slash,120] omode) (fun _ _ => True) (fun _ => False)
      Mkfs.rootState := by
  rw [openFull,openInode,if_pos h]
  decide +kernel

/-- A failed call changes nothing exactly if it is harmless: not if it makes the file before it finds
a table full. -/
theorem open_failure_unchanged_iff {F : Multiset ℕ} {t : Kernel} {cwd omode : ℕ} {path : List UInt8}
    (h : Wf sb k.fs F ∅) (hcwd : cwd ∈ F) (ho : Orderly sb F k.fs) (hblank : Blank k.file)
    (hrun : (sysOpen sb cwd path omode).run k = .ok (-1,t)) :
    Unchanged sb k t ↔ MAXPATH ≤ path.length ∨ omode &&& O_CREATE = 0 ∨ Room k.file k.ofile ∨
      ¬ Creatable sb k.fs.blk (k.fs.itable cwd).inum path :=
  wp_ok (wp_sysOpen h hcwd ho hblank) hrun rfl

def unusedFile : ℕ → File := fun _ => ⟨.FD_NONE,0,false,false,0,0,0,0⟩

/-- A fresh image, and a process whose descriptors are all in use. -/
def fullProcess : Kernel := ⟨Mkfs.rootState,unusedFile,fun _ => some 0,[]⟩

theorem fullProcess_full : ¬ Room fullProcess.file fullProcess.ofile := by
  rintro ⟨-,fd,-,hfd⟩
  cases hfd

/-- A path that leads to no directory does not harm. -/
theorem open_failure_unchanged_nodir : ∃ t,
    (sysOpen Mkfs.geometry 0 [100,slash,120] (O_CREATE ||| O_RDWR)).run fullProcess = .ok (-1,t) ∧
    ¬ Room fullProcess.file fullProcess.ofile ∧ Unchanged Mkfs.geometry fullProcess t := by
  have hmode : (O_CREATE ||| O_RDWR) &&& O_CREATE ≠ 0 := by decide
  generalize O_CREATE ||| O_RDWR = omode at hmode ⊢
  have hwp := wp_sysOpen_full (E := fun _ => False) (k := fullProcess) (fun _ _ => rfl)
    (by decide) fullProcess_full (openFull_nodir hmode)
  obtain ⟨r,t,hrun,rfl,-⟩ := exists_run hwp
  refine ⟨t,hrun,fullProcess_full,?_⟩
  have hnone : lookup (tree Mkfs.geometry Mkfs.rootImage) true 1 [100,slash,120] = none := by
    decide +kernel
  refine (open_failure_unchanged_iff (F := {0}) Mkfs.rootState_wf (Multiset.mem_singleton_self 0)
    Mkfs.rootState_solid.toOrderly (fun _ _ => rfl) hrun).mpr (.inr (.inr (.inr ?_)))
  rintro ⟨d,name,m,hpath,-⟩
  exact Option.some_ne_none _ (hpath.symm.trans hnone)

/-- `open("x", O_CREATE | O_RDWR)` with every descriptor in use returns -1 and leaves the new file
behind. -/
theorem open_failure_creates : ∃ t,
    (sysOpen Mkfs.geometry 0 [120] (O_CREATE ||| O_RDWR)).run fullProcess = .ok (-1,t) ∧
    (dinodeOf Mkfs.geometry Mkfs.rootState.blk 2).type = 0 ∧
    (dinodeOf Mkfs.geometry t.fs.blk 2).type ≠ 0 := by
  have hmode : (O_CREATE ||| O_RDWR) &&& O_CREATE ≠ 0 := by decide
  generalize O_CREATE ||| O_RDWR = omode at hmode ⊢
  have hwp := wp_sysOpen_full (E := fun _ => False) (k := fullProcess) (fun _ _ => rfl)
    (by decide) fullProcess_full (openFull_creates hmode)
  obtain ⟨r,t,hrun,rfl,hnew⟩ := exists_run hwp
  exact ⟨t,hrun,by decide +kernel,hnew⟩

end Open
end Xv6
