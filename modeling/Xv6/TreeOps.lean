import Xv6.Entries

/-! What the file-system calls do to the tree: path lookup, adding and removing an entry, and the
release of a node that has neither links nor holders. `H` says which inodes are held in memory. -/
namespace Xv6

abbrev FileTree := ℕ → Option Node

namespace Node

/-- The node with a new entry under `name` for inode `i`, in the first free place. -/
def enter (n : Node) (name : List UInt8) (i : ℕ) : Node :=
  n.setEnt n.emptyAt ⟨UInt16.ofNat i,strncpy name DIRSIZ⟩

/-- The node without its entry `k`, and with one link less if a directory was entered there. -/
def cut (n : Node) (k : ℕ) (type : Int16) : Node :=
  if type = T_DIR then {n.setEnt k .zero with nlink := n.nlink-1} else n.setEnt k .zero

def fresh (type major minor : Int16) (i d : ℕ) : Node :=
  if type = T_DIR then ((⟨type,major,minor,1,[]⟩ : Node).enter dot i).enter dotdot d
  else ⟨type,major,minor,1,[]⟩

/-- The directory in which `create` has entered inode `i`: a subdirectory links back to it. -/
def adopt (n : Node) (type : Int16) (name : List UInt8) (i : ℕ) : Node :=
  if type = T_DIR then {n.enter name i with nlink := n.nlink+1} else n.enter name i

end Node

namespace FileTree

def walk (T : FileTree) (par : Bool) : ℕ → ℕ → List UInt8 → Option (ℕ × List UInt8)
  | 0, _, _ => none
  | fuel+1, i, path =>
    match skipelem path with
    | none => if par then none else some (i,[])
    | some (name,rest) =>
      match T i with
      | none => none
      | some n =>
        if n.type ≠ T_DIR then none
        else if par = true ∧ rest = [] then some (i,name)
        else match n.find name with
          | none => none
          | some k => walk T par fuel (n.ent k).inum.toNat rest

def startOf (cwd : ℕ) (path : List UInt8) : ℕ := if path.headD 0 = slash then ROOTINO else cwd

/-- `namex` for a process whose working directory is inode `cwd`. -/
def lookup (T : FileTree) (par : Bool) (cwd : ℕ) (path : List UInt8) : Option (ℕ × List UInt8) :=
  walk T par (path.length+1) (startOf cwd path) path

def Alike (T U : FileTree) : Prop :=
  ∀ i, (U i).map (fun n => (n.type,n.bytes)) = (T i).map fun n => (n.type,n.bytes)

theorem Alike.none_iff {T U : FileTree} (h : Alike T U) {i : ℕ} : U i = none ↔ T i = none := by
  rw [← Option.map_eq_none_iff (f := fun n : Node => (n.type,n.bytes)),h i,Option.map_eq_none_iff]

theorem Alike.node {T U : FileTree} (h : Alike T U) {i : ℕ} {n : Node} (hn : U i = some n) :
    ∃ m, T i = some m ∧ m.type = n.type ∧ m.bytes = n.bytes := by
  have hi := h i
  rw [hn,Option.map_some,eq_comm,Option.map_eq_some_iff] at hi
  obtain ⟨m,hm,heq⟩ := hi
  exact ⟨m,hm,Prod.mk.inj heq⟩

theorem Alike.update {T : FileTree} {i : ℕ} {n n' : Node} (hi : T i = some n) (ht : n'.type = n.type)
    (hb : n'.bytes = n.bytes) : Alike T (Function.update T i (some n')) := by
  intro j
  by_cases hj : j = i
  · rw [hj,Function.update_self,hi,Option.map_some,Option.map_some,ht,hb]
  · rw [Function.update_of_ne hj]

theorem walk_congr {T U : FileTree} (h : Alike T U) (par : Bool) (fuel i : ℕ) (path : List UInt8) :
    walk U par fuel i path = walk T par fuel i path := by
  induction fuel generalizing i path with
  | zero => rfl
  | succ fuel ih =>
    rw [walk,walk]
    cases hU : U i with
    | none => rw [h.none_iff.mp hU]
    | some n =>
      obtain ⟨m,hm,htype,hbytes⟩ := h.node hU
      have hent := Node.ent_congr hbytes
      have hfind : ∀ name, m.find name = n.find name := fun _ => Node.find_congr hbytes
      rw [hm]
      simp only [htype,hfind,hent,ih]

theorem Alike.lookup {T U : FileTree} (h : Alike T U) : lookup U = lookup T := by
  funext par cwd path
  exact walk_congr h _ _ _ _

/-- A reference to inode `i` has been dropped: the node goes if it has no links and nothing else
holds it. -/
def Reaped (T U : FileTree) (i : ℕ) (held : Prop) : Prop :=
  U = T ∧ (held ∨ ∀ n, T i = some n → n.nlink ≠ 0) ∨
  U = Function.update T i none ∧ ¬ held ∧ ∃ n, T i = some n ∧ n.nlink = 0

/-- An entry other than "." and ".." leads to inode `i`. -/
def Named (T : FileTree) (i : ℕ) : Prop :=
  ∃ d m k name, T d = some m ∧ m.type = T_DIR ∧ k < m.count ∧ m.Matches name k ∧
    namecmp name dot ≠ 0 ∧ namecmp name dotdot ≠ 0 ∧ (m.ent k).inum.toNat = i

inductive Linked (H : ℕ → Prop) (T : FileTree) (cwd : ℕ) (old new : List UInt8) : FileTree → Prop
  | intro {i d : ℕ} {n m : Node} {x name : List UInt8} {U : FileTree}
    (hold : lookup T false cwd old = some (i,x)) (hi : T i = some n) (htype : n.type ≠ T_DIR)
    (hnew : lookup T true cwd new = some (d,name)) (hd : T d = some m) (hdir : m.type = T_DIR)
    (hfind : m.find name = none)
    (hreap : Reaped (Function.update (Function.update T i (some {n with nlink := n.nlink+1})) d
      (some (m.enter name i))) U i (H i)) : Linked H T cwd old new U

inductive Unlinked (H : ℕ → Prop) (T : FileTree) (cwd : ℕ) (path : List UInt8) : FileTree → Prop
  | intro {i d k : ℕ} {n m : Node} {name : List UInt8} {U V : FileTree}
    (hpath : lookup T true cwd path = some (d,name)) (hd : T d = some m) (hdir : m.type = T_DIR)
    (hdot : namecmp name dot ≠ 0) (hdotdot : namecmp name dotdot ≠ 0)
    (hfind : m.find name = some k) (hent : (m.ent k).inum.toNat = i) (hi : T i = some n)
    (hne : i ≠ d) (hnlink : ¬ n.nlink < 1)
    (hempty : n.type = T_DIR → ∀ j, 2 ≤ j → j < n.count → (n.ent j).inum = 0)
    (hreap : Reaped (Function.update T d (some (m.cut k n.type))) U d (H d))
    (hreap' : Reaped (Function.update U i (some {n with nlink := n.nlink-1})) V i (H i)) :
    Unlinked H T cwd path V

/-- A successful `create` of a new node, for inode `i`. -/
inductive Created (H : ℕ → Prop) (T : FileTree) (cwd : ℕ) (path : List UInt8)
    (type major minor : Int16) (i : ℕ) : FileTree → Prop
  | intro {d : ℕ} {m : Node} {name : List UInt8} {U : FileTree}
    (hpath : lookup T true cwd path = some (d,name)) (hd : T d = some m) (hdir : m.type = T_DIR)
    (hfind : m.find name = none) (h0 : 0 < i) (hi : T i = none)
    (hreap : Reaped (Function.update (Function.update T i (some (.fresh type major minor i d))) d
      (some (m.adopt type name i))) U d (H d)) : Created H T cwd path type major minor i U

theorem nlink_fresh (type major minor : Int16) (i d : ℕ) :
    (Node.fresh type major minor i d).nlink = 1 := by
  unfold Node.fresh
  split <;> rfl

theorem Created.fresh {H : ℕ → Prop} {T U : FileTree} {cwd i : ℕ} {path : List UInt8}
    {type major minor : Int16} (h : Created H T cwd path type major minor i U) :
    T i = none ∧ ∃ d, U i = some (.fresh type major minor i d) := by
  obtain @⟨d,m,name,_,-,hd,-,-,-,hi,hreap⟩ := h
  have hne : i ≠ d := by
    rintro rfl
    rw [hi] at hd
    cases hd
  refine ⟨hi,d,?_⟩
  rcases hreap with ⟨rfl,-⟩ | ⟨rfl,-⟩ <;> simp [hne]

theorem Created.ne {H : ℕ → Prop} {T U : FileTree} {cwd i : ℕ} {path : List UInt8}
    {type major minor : Int16} (h : Created H T cwd path type major minor i U) : U ≠ T := by
  obtain ⟨hi,d,hU⟩ := h.fresh
  rintro rfl
  rw [hi] at hU
  cases hU

/-- A new inode has a link, so that dropping it leaves it in the tree. -/
theorem Created.reaped {H : ℕ → Prop} {T U V : FileTree} {cwd i : ℕ} {path : List UInt8}
    {type major minor : Int16} {q : Prop} (h : Created H T cwd path type major minor i U)
    (hr : Reaped U V i q) : V = U := by
  obtain ⟨-,d,hU⟩ := h.fresh
  rcases hr with ⟨hV,-⟩ | ⟨-,-,n,hn,h0⟩
  · exact hV
  · rw [hU] at hn
    obtain rfl := Option.some.inj hn
    rw [nlink_fresh] at h0
    exact absurd h0 (by decide)

end FileTree
end Xv6
