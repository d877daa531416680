import Xv6.CreateOps
import Xv6.LinkImage

/-! Link counts against names. The names of an inode are the directory entries that lead to it; a
successful `link` adds one of them and adds 1 to a 16-bit count. -/
namespace Xv6

namespace Node

def entriesTo (n : Node) (i : ℕ) : Finset ℕ :=
  (Finset.range n.count).filter fun k => (n.ent k).inum.toNat = i

variable {n : Node} {i k : ℕ} {name : List UInt8}

theorem mem_entriesTo : k ∈ n.entriesTo i ↔ k < n.count ∧ (n.ent k).inum.toNat = i := by
  rw [entriesTo,Finset.mem_filter,Finset.mem_range]

theorem emptyAt_notMem (hi : 0 < i) : n.emptyAt ∉ n.entriesTo i := by
  rw [mem_entriesTo]
  rintro ⟨hlt,hinum⟩
  rw [ent_emptyAt hlt] at hinum
  exact absurd hinum (by simpa using hi.ne)

theorem lt_count_enter : k < (n.enter name i).count ↔ k < n.count ∨ k = n.emptyAt := by
  have hle := n.emptyAt_le
  rcases hle.lt_or_eq with hlt | heq
  · rw [enter,count_setEnt_of_lt hlt]
    omega
  · have hmul := n.mul_count_le le_rfl
    have hlen : (n.setEnt n.count ⟨UInt16.ofNat i,strncpy name DIRSIZ⟩).bytes.length = _ :=
      length_setEnt hmul
    rw [enter,heq]
    unfold count at hmul hlen ⊢
    rw [hlen]
    simp only [Dirent.bytes_eq] at *
    omega

theorem ent_enter (hlt : i < 65536) :
    ((n.enter name i).ent n.emptyAt).inum.toNat = i := by
  rw [enter,ent_setEnt_self (n.mul_count_le n.emptyAt_le) (length_strncpy _ _)]
  exact UInt16.toNat_ofNat_of_lt' hlt

theorem ent_enter_ne (hk : k ≠ n.emptyAt) : (n.enter name i).ent k = n.ent k :=
  ent_setEnt_ne (n.mul_count_le n.emptyAt_le) hk

/-- A new entry counts for the inode it leads to, and for no other. -/
theorem card_entriesTo_enter {j : ℕ} (hj : 0 < j) (hlt : i < 65536) :
    ((n.enter name i).entriesTo j).card = (n.entriesTo j).card+if j = i then 1 else 0 := by
  have hmem : ∀ k, k ∈ (n.enter name i).entriesTo j ↔
      k ∈ n.entriesTo j ∨ k = n.emptyAt ∧ j = i := by
    intro k
    have hempty := emptyAt_notMem (n := n) hj
    rw [mem_entriesTo,lt_count_enter]
    by_cases hk : k = n.emptyAt
    · rw [hk,ent_enter hlt]
      simp [hempty,eq_comm]
    · rw [ent_enter_ne hk]
      simp [hk,mem_entriesTo]
  by_cases hji : j = i
  · have hins : (n.enter name i).entriesTo j = insert n.emptyAt (n.entriesTo j) := by
      ext k
      rw [Finset.mem_insert,hmem]
      tauto
    rw [hins,if_pos hji,Finset.card_insert_of_notMem (emptyAt_notMem hj)]
  · have hsame : (n.enter name i).entriesTo j = n.entriesTo j := by
      ext k
      rw [hmem]
      tauto
    rw [hsame,if_neg hji,Nat.add_zero]

theorem card_entriesTo_cut {type : Int16} (hi : 0 < i) (hk : k ∈ n.entriesTo i) :
    ((n.cut k type).entriesTo i).card+1 = (n.entriesTo i).card := by
  obtain ⟨hlt,-⟩ := mem_entriesTo.mp hk
  have hbytes : (n.cut k type).bytes = (n.setEnt k .zero).bytes := by
    unfold cut
    split <;> rfl
  have herase : (n.cut k type).entriesTo i = (n.entriesTo i).erase k := by
    ext j
    rw [Finset.mem_erase,mem_entriesTo,mem_entriesTo,ent_congr hbytes,count_congr hbytes,
      count_setEnt_of_lt hlt]
    by_cases hj : j = k
    · rw [hj,ent_setEnt_self (n.mul_count_le hlt.le) rfl]
      simp [Dirent.zero,hi.ne]
    · rw [ent_setEnt_ne (n.mul_count_le hlt.le) hj]
      simp [hj]
  rw [herase,Finset.card_erase_add_one hk]

end Node

theorem toInt_succ {x : Int16} (h : x ≠ 32767) : (x+1).toInt = x.toInt+1 := by
  have hlt : x.toInt ≠ 32767 := fun heq => h (Int16.toInt_inj.mp heq)
  have hle := x.toInt_lt
  have hge := x.le_toInt
  rw [Int16.toInt_add]
  have h1 : (1 : Int16).toInt = 1 := rfl
  rw [h1,Int.bmod_eq_of_le (by omega) (by omega)]

namespace FileTree

def namesToIn (i : ℕ) : Option Node → ℕ
  | none => 0
  | some n => if n.type = T_DIR then (n.entriesTo i).card else 0

/-- The number of names of `i` in the directories below `N`. -/
def namesTo (N : ℕ) (T : FileTree) (i : ℕ) : ℕ := ∑ d ∈ Finset.range N, namesToIn i (T d)

/-- The tree `T` with the name `name` for the file `i` in directory `d`. -/
def addLink (T : FileTree) (i d : ℕ) (n m : Node) (name : List UInt8) : FileTree :=
  Function.update (Function.update T i (some {n with nlink := n.nlink+1})) d (some (m.enter name i))

section AddLink

variable {T : FileTree} {N i d j : ℕ} {n m l : Node} {name : List UInt8}

theorem addLink_dir : addLink T i d n m name d = some (m.enter name i) := Function.update_self _ _ _

theorem addLink_file (hne : i ≠ d) : addLink T i d n m name i = some {n with nlink := n.nlink+1} := by
  rw [addLink,Function.update_of_ne hne,Function.update_self]

theorem addLink_ne (hi : j ≠ i) (hd : j ≠ d) : addLink T i d n m name j = T j := by
  rw [addLink,Function.update_of_ne hd,Function.update_of_ne hi]

theorem addLink_some (hd : T d = some m) (hji : j ≠ i) (hj : addLink T i d n m name j = some l) :
    ∃ l', T j = some l' ∧ l'.type = l.type ∧ l'.nlink = l.nlink := by
  by_cases hjd : j = d
  · rw [hjd,addLink_dir] at hj
    obtain rfl := Option.some.inj hj
    exact ⟨m,by rw [hjd,hd],rfl,rfl⟩
  · rw [addLink_ne hji hjd] at hj
    exact ⟨l,hj,rfl,rfl⟩

theorem addLink_ne_none (hne : i ≠ d) (hj : T j ≠ none) : addLink T i d n m name j ≠ none := by
  by_cases hjd : j = d
  · rw [hjd,addLink_dir]
    exact Option.some_ne_none _
  · by_cases hji : j = i
    · rw [hji,addLink_file hne]
      exact Option.some_ne_none _
    · rwa [addLink_ne hji hjd]

theorem names_link (hi : T i = some n) (htype : n.type ≠ T_DIR) (hd : T d = some m)
    (hdir : m.type = T_DIR) (hne : i ≠ d) (hdN : d < N) (hlt : i < 65536) (hj : 0 < j) :
    namesTo N (addLink T i d n m name) j = namesTo N T j+if j = i then 1 else 0 := by
  have hpoint : ∀ e, namesToIn j (addLink T i d n m name e) =
      namesToIn j (T e)+if e = d then (if j = i then 1 else 0) else 0 := by
    intro e
    by_cases hed : e = d
    · have hdir' : (m.enter name i).type = T_DIR := hdir
      rw [hed,addLink_dir,hd,if_pos rfl,namesToIn,namesToIn,if_pos hdir',if_pos hdir,
        Node.card_entriesTo_enter hj hlt]
    · rw [if_neg hed,Nat.add_zero]
      by_cases hei : e = i
      · rw [hei,addLink_file hne,hi,namesToIn,namesToIn,if_neg htype,if_neg htype]
      · rw [addLink_ne hei hed]
  unfold namesTo
  rw [Finset.sum_congr rfl fun e _ => hpoint e,Finset.sum_add_distrib,Finset.sum_ite_eq',
    if_pos (Finset.mem_range.mpr hdN)]

/-- The new entry gives no other inode a name. -/
theorem Named.of_addLink (htype : n.type ≠ T_DIR) (hd : T d = some m) (hdir : m.type = T_DIR)
    (hne : i ≠ d) (hlt : i < 65536) (hji : j ≠ i) (h : Named (addLink T i d n m name) j) :
    Named T j := by
  obtain ⟨e,m',k,name',he,hm',hk,hmatch,hdot,hdotdot,hinum⟩ := h
  by_cases hed : e = d
  · rw [hed,addLink_dir] at he
    obtain rfl := Option.some.inj he
    have hke : k ≠ m.emptyAt := by
      rintro rfl
      rw [Node.ent_enter hlt] at hinum
      exact hji hinum.symm
    rw [Node.lt_count_enter,or_iff_left hke] at hk
    rw [Node.Matches,Node.ent_enter_ne hke] at hmatch
    rw [Node.ent_enter_ne hke] at hinum
    exact ⟨d,m,k,name',hd,hdir,hk,hmatch,hdot,hdotdot,hinum⟩
  · have hei : e ≠ i := by
      rintro rfl
      rw [addLink_file hne] at he
      obtain rfl := Option.some.inj he
      exact htype hm'
    rw [addLink_ne hei hed] at he
    exact ⟨e,m',k,name',he,hm',hk,hmatch,hdot,hdotdot,hinum⟩

end AddLink

/-- An unlinked file has lost a name. The directory may be gone too, with all its entries. -/
theorem names_unlink {T V : FileTree} {N i d k : ℕ} {m : Node} {type : Int16} (hd : T d = some m)
    (hdir : m.type = T_DIR) (hdN : d < N) (hi0 : 0 < i) (hk : k ∈ m.entriesTo i) (hVi : V i = none)
    (hVd : V d = none ∨ V d = some (m.cut k type)) (hV : ∀ e, e ≠ d → e ≠ i → V e = T e) :
    namesTo N V i+1 ≤ namesTo N T i := by
  have hpoint : ∀ e ∈ Finset.range N,
      namesToIn i (V e)+(if e = d then 1 else 0) ≤ namesToIn i (T e) := by
    intro e _
    by_cases hed : e = d
    · have hcut : (m.cut k type).type = T_DIR := by
        unfold Node.cut
        split <;> exact hdir
      have hcard : ((m.cut k type).entriesTo i).card+1 = _ := Node.card_entriesTo_cut hi0 hk
      rw [hed,if_pos rfl,hd,namesToIn,if_pos hdir]
      rcases hVd with hnone | hsome
      · rw [hnone,namesToIn]
        omega
      · rw [hsome,namesToIn,if_pos hcut]
        omega
    · rw [if_neg hed,Nat.add_zero]
      by_cases hei : e = i
      · rw [hei,hVi]
        exact Nat.zero_le _
      · rw [hV e hed hei]
  have hsum := Finset.sum_le_sum hpoint
  rw [Finset.sum_add_distrib,Finset.sum_ite_eq',if_pos (Finset.mem_range.mpr hdN)] at hsum
  exact hsum

/-- The counts are right: those of files are the numbers of their names, and those of directories
with a name are positive. -/
structure Counted (N : ℕ) (T : FileTree) : Prop where
  files : ∀ j m, T j = some m → m.type ≠ T_DIR → m.nlink.toInt = namesTo N T j
  dirs : ∀ j m, Named T j → T j = some m → m.type = T_DIR → 0 < m.nlink.toInt

theorem Counted.pos {N j : ℕ} {T : FileTree} {n : Node} (h : Counted N T)
    (hN : ∀ d m, T d = some m → d < N) (hj : Named T j) (hn : T j = some n) : 0 < n.nlink.toInt := by
  by_cases hdir : n.type = T_DIR
  · exact h.dirs j n hj hn hdir
  · obtain ⟨d,m,k,name,hd,hm,hk,-,-,-,hinum⟩ := hj
    have hin : namesToIn j (T d) ≤ namesTo N T j :=
      Finset.single_le_sum (f := fun e => namesToIn j (T e)) (fun _ _ => Nat.zero_le _)
        (Finset.mem_range.mpr (hN d m hd))
    have hmem : 0 < (m.entriesTo j).card :=
      Finset.card_pos.mpr ⟨k,Node.mem_entriesTo.mpr ⟨hk,hinum⟩⟩
    rw [hd,namesToIn,if_pos hm] at hin
    rw [h.files j n hn hdir]
    omega

theorem Counted.addLink {T : FileTree} {N i d : ℕ} {n m : Node} {name : List UInt8}
    (h : Counted N T) (h0 : T 0 = none) (hi : T i = some n) (htype : n.type ≠ T_DIR)
    (hmax : n.nlink ≠ 32767) (hd : T d = some m) (hdir : m.type = T_DIR) (hne : i ≠ d) (hdN : d < N)
    (hlt : i < 65536) : Counted N (addLink T i d n m name) := by
  constructor
  · intro j l hl hfile
    have hj0 : 0 < j := by
      refine Nat.pos_of_ne_zero ?_
      rintro rfl
      have h0i : 0 ≠ i := by
        rintro rfl
        rw [h0] at hi
        cases hi
      obtain ⟨l',hl',-⟩ := addLink_some hd h0i hl
      rw [h0] at hl'
      cases hl'
    rw [names_link hi htype hd hdir hne hdN hlt hj0]
    by_cases hji : j = i
    · rw [hji,addLink_file hne] at hl
      obtain rfl := Option.some.inj hl
      change (n.nlink+1).toInt = _
      rw [toInt_succ hmax,h.files i n hi htype,hji,if_pos rfl]
      push_cast
      rfl
    · obtain ⟨l',hl',ht,hn⟩ := addLink_some hd hji hl
      rw [← hn,h.files j l' hl' (by rwa [ht]),if_neg hji,Nat.add_zero]
  · intro j l hj hl hldir
    have hji : j ≠ i := by
      rintro rfl
      rw [addLink_file hne] at hl
      obtain rfl := Option.some.inj hl
      exact htype hldir
    obtain ⟨l',hl',ht,hn⟩ := addLink_some hd hji hl
    rw [← hn]
    exact h.dirs j l' (hj.of_addLink htype hd hdir hne hlt hji) hl' (by rw [ht,hldir])

end FileTree

namespace Fs

open Command FileTree

variable {sb : Geometry} {s t : Fs} {F : Multiset ℕ} {cwd i : ℕ} {old new : List UInt8} {n : Node}
  {r : ℤ}

/-- A `link` that does not fail only adds the link. -/
theorem linked_tree {T U : FileTree} {N : ℕ} {H : ℕ → Prop} (h0 : T 0 = none) (hcount : Counted N T)
    (hl : Linked H T cwd old new U) : ∃ i d n m x name, lookup T false cwd old = some (i,x) ∧
      T i = some n ∧ n.type ≠ T_DIR ∧ 0 < i ∧ T d = some m ∧ m.type = T_DIR ∧ i ≠ d ∧
      U = addLink T i d n m name := by
  obtain @⟨i,d,n,m,x,name,U,hold,hi,htype,-,hd,hdir,-,hreap⟩ := hl
  have hne : i ≠ d := by
    rintro rfl
    rw [hi] at hd
    exact htype (Option.some.inj hd ▸ hdir)
  have hi0 : 0 < i := by
    refine Nat.pos_of_ne_zero ?_
    rintro rfl
    rw [h0] at hi
    cases hi
  refine ⟨i,d,n,m,x,name,hold,hi,htype,hi0,hd,hdir,hne,?_⟩
  rcases hreap with ⟨hU,-⟩ | ⟨-,-,n₂,hn₂,hz⟩
  · exact hU
  · -- a count that is a number of names does not become 0
    rw [← addLink,addLink_file hne] at hn₂
    obtain rfl := Option.some.inj hn₂
    change n.nlink+1 = 0 at hz
    have hnlink := hcount.files i n hi htype
    by_cases hmax : n.nlink = 32767
    · rw [hmax] at hz
      exact absurd hz (by decide)
    · have hsucc := toInt_succ hmax
      rw [hz,hnlink] at hsucc
      exact absurd hsucc (by change (0 : ℤ) ≠ _; omega)

/-- A call of `link` by one of the processes, on an inode that has not 32767 links. -/
def LinkStep (sb : Geometry) (F : Multiset ℕ) (s t : Fs) : Prop :=
  ∃ cwd ∈ F, ∃ old new r, (inOp (link sb cwd old new)).run s = .ok (r,t) ∧
    ∀ i x n, lookup (tree sb s.blk) false (s.itable cwd).inum old = some (i,x) →
      tree sb s.blk i = some n → n.nlink ≠ 32767

/-- Between calls of `link`: consistent, with right counts. -/
structure Tidy (sb : Geometry) (F : Multiset ℕ) (s : Fs) : Prop where
  wf : Wf sb s F ∅
  anchored : Anchored sb F s
  zero : tree sb s.blk 0 = none
  counted : Counted sb.ninodes (tree sb s.blk)

theorem wp_linkCall (h : Wf sb s F ∅) (ha : Anchored sb F s) (hcwd : cwd ∈ F) :
    wp (inOp (link sb cwd old new)) (fun _ t => Wf sb t F ∅ ∧ Kept F s t ∧
      (tree sb t.blk = tree sb s.blk ∨
        Linked (Held F s) (tree sb s.blk) (s.itable cwd).inum old new (tree sb t.blk)))
      (fun _ => True) s := by
  refine wp_inOp trivial fun t hb ht => ?_
  have hst : Steady sb F s t := steady_of_same hb ht
  refine wp_conseq (wp_link stops_true (h.congr hb ht) hcwd sb.root_lt (.inl trivial)) ?_
  rintro a u ⟨hwf,hk,hlink,-⟩ v hbv htv
  have hsv : Steady sb F u v := steady_of_same hbv htv
  have hheld : Held F t = Held F s := funext fun i => propext hst.kept.held
  have hout := hlink (hst.anchored ha)
  rw [hst.kept.inum cwd hcwd,hheld,hb] at hout
  refine ⟨hwf.congr hbv htv,hst.kept.trans (hk.trans hsv.kept),?_⟩
  rw [hbv]
  exact hout.imp And.right And.right

theorem Tidy.step (h : Tidy sb F s) (hstep : LinkStep sb F s t) :
    Tidy sb F t ∧ ∀ j, tree sb s.blk j ≠ none → tree sb t.blk j ≠ none := by
  obtain ⟨cwd,hcwd,old,new,r,hrun,hmax⟩ := hstep
  obtain ⟨hwf,hk,hsame | hlinked⟩ := wp_ok (wp_linkCall h.wf h.anchored hcwd) hrun
  · refine ⟨⟨hwf,h.anchored.kept hk hsame,by rw [hsame,h.zero],by rw [hsame]; exact h.counted⟩,?_⟩
    rw [hsame]
    exact fun _ hj => hj
  obtain ⟨i,d,n,m,x,name,hold,hi,htype,hi0,hd,hdir,hne,hU⟩ := linked_tree h.zero h.counted hlinked
  have hn := hmax i x n hold hi
  refine ⟨⟨hwf,?_,?_,?_⟩,fun j hj => by rw [hU]; exact addLink_ne_none hne hj⟩
  · intro j l hl h0
    rw [hk.held]
    rw [hU] at hl
    by_cases hji : j = i
    · rw [hji,addLink_file hne] at hl
      obtain rfl := Option.some.inj hl
      change n.nlink+1 = 0 at h0
      have hsucc := toInt_succ hn
      rw [h0,h.counted.files i n hi htype] at hsucc
      exact absurd hsucc (by change (0 : ℤ) ≠ _; omega)
    · obtain ⟨l',hl',-,hnlink⟩ := addLink_some hd hji hl
      exact h.anchored j l' hl' (by rw [hnlink,h0])
  · have h0d : 0 ≠ d := by
      rintro rfl
      rw [h.zero] at hd
      cases hd
    rw [hU,addLink_ne hi0.ne h0d,h.zero]
  · rw [hU]
    exact h.counted.addLink h.zero hi htype hn hd hdir hne (tree_some hd).1
      ((tree_some hi).1.trans_le sb.ninodes_le)

theorem Tidy.run (h : Tidy sb F s) (hrun : Relation.ReflTransGen (LinkStep sb F) s t) :
    Tidy sb F t ∧ ∀ j, tree sb s.blk j ≠ none → tree sb t.blk j ≠ none := by
  induction hrun with
  | refl => exact ⟨h,fun _ hj => hj⟩
  | tail _ hstep ih =>
    obtain ⟨ht,hall⟩ := ih
    obtain ⟨hu,hnext⟩ := ht.step hstep
    exact ⟨hu,fun j hj => hnext j (hall j hj)⟩

theorem Tidy.pos (h : Tidy sb F s) (hj : Named (tree sb s.blk) i) (hn : tree sb s.blk i = some n) :
    0 < n.nlink.toInt :=
  h.counted.pos (fun _ _ hd => (tree_some hd).1) hj hn

theorem Tidy.unlink_no_panic (h : Tidy sb F s) (hcwd : cwd ∈ F) {path : List UInt8} :
    (unlink sb cwd path).run s ≠ .error .unlinkNlink := by
  intro hrun
  have hE : Stops fun e => e ≠ .unlinkNlink :=
    ⟨fun e he => by rcases he with rfl | rfl <;> decide,by decide,by decide,by decide,by decide,
      by decide⟩
  refine wp_error (wp_unlink hE h.wf hcwd sb.root_lt (.inl (by decide))
    (.inr ⟨h.anchored,fun j l hj hl hlt => ?_⟩)) hrun rfl
  have hpos := h.pos hj hl
  rw [Int16.lt_iff_toInt_lt] at hlt
  exact absurd hlt (by change ¬ _ < (1 : ℤ); omega)

theorem Tidy.unlink_frees (h : Tidy sb F s) (hcwd : cwd ∈ F) {path : List UInt8}
    (hrun : (unlink sb cwd path).run s = .ok (r,t)) (hi : tree sb s.blk i = some n)
    (htype : n.type ≠ T_DIR) (hgone : tree sb t.blk i = none) :
    namesTo sb.ninodes (tree sb t.blk) i = 0 := by
  have hunlink := (wp_ok (wp_unlink stops_true h.wf hcwd sb.root_lt (.inl trivial) (.inl trivial))
    hrun).2.2 h.anchored
  rcases hunlink with ⟨-,hsame⟩ | ⟨-,hu⟩
  · rw [hsame,hi] at hgone
    cases hgone
  obtain @⟨i',d,k,n',m,name,U,V,-,hd,hdir,-,-,hfind,hent,hi',hne,-,-,hreap,hreap'⟩ := hu
  have hUne : ∀ e, e ≠ d → U e = tree sb s.blk e := by
    intro e he
    rcases hreap with ⟨rfl,-⟩ | ⟨rfl,-⟩ <;> simp [he]
  have hUd : U d = none ∨ U d = some (m.cut k n'.type) := by
    rcases hreap with ⟨rfl,-⟩ | ⟨rfl,-⟩ <;> simp
  have hVne : ∀ e, e ≠ i' → tree sb t.blk e = U e := by
    intro e he
    rcases hreap' with ⟨hV,-⟩ | ⟨hV,-⟩ <;> simp [hV,he]
  have hid : i ≠ d := by
    rintro rfl
    rw [hi] at hd
    exact htype (Option.some.inj hd ▸ hdir)
  obtain rfl : i = i' := by
    by_contra hii
    rw [hVne i hii,hUne i hid,hi] at hgone
    cases hgone
  rw [hi] at hi'
  obtain rfl := Option.some.inj hi'
  have hlast : n.nlink-1 = 0 := by
    rcases hreap' with ⟨hV,-⟩ | ⟨-,-,l,hl,h0⟩
    · rw [hV,Function.update_self] at hgone
      cases hgone
    · rw [Function.update_self] at hl
      rw [← Option.some.inj hl] at h0
      exact h0
  have hone : n.nlink = 1 := by
    rw [← Int16.sub_add_cancel n.nlink 1,hlast]
    rfl
  have hi0 : 0 < i := by
    refine Nat.pos_of_ne_zero ?_
    rintro rfl
    rw [h.zero] at hi
    cases hi
  obtain ⟨hk,-⟩ := Node.find_eq_some_iff.mp hfind
  have hless := names_unlink hd hdir (tree_some hd).1 hi0
    (Node.mem_entriesTo.mpr ⟨hk,hent⟩) hgone (by rw [hVne d hne.symm]; exact hUd)
    fun e hed hei => by rw [hVne e hei,hUne e hed]
  have hcount := h.counted.files i n hi htype
  rw [hone] at hcount
  change (1 : ℤ) = _ at hcount
  omega

theorem Tidy.iput_keeps (h : Tidy sb F s) {ip : ℕ} (hip : ip ∈ F)
    (hrun : (iput sb ip).run s = .ok ((),t)) (hj : Named (tree sb s.blk) i)
    (hi : tree sb s.blk i ≠ none) : tree sb t.blk i ≠ none := by
  have hwf : Wf sb s (ip ::ₘ F.erase ip) ∅ := by
    rw [Multiset.cons_erase hip]
    exact h.wf
  obtain ⟨-,-,hreap,hsame,-⟩ := wp_ok (wp_iput (E := fun _ => True) (fun _ _ => trivial) hwf
    fun hL => absurd hL (Finset.notMem_empty ip)) hrun
  cases hv : (s.itable ip).valid with
  | false => rwa [hsame hv]
  | true =>
    rcases hreap hv with ⟨heq,-⟩ | ⟨heq,-,l,hl,h0⟩
    · rwa [heq]
    · rw [heq]
      by_cases hii : i = (s.itable ip).inum
      · have hpos := h.pos (hii ▸ hj) hl
        rw [h0] at hpos
        exact absurd hpos (by decide)
      · rwa [Function.update_of_ne hii]

/-- What holds after calls of `link` from `s` to `t`. -/
structure Sound (sb : Geometry) (F : Multiset ℕ) (s t : Fs) : Prop where
  counted : Counted sb.ninodes (tree sb t.blk)
  kept : ∀ j, tree sb s.blk j ≠ none → tree sb t.blk j ≠ none
  unlink : ∀ cwd ∈ F, ∀ path, (unlink sb cwd path).run t ≠ .error .unlinkNlink
  frees : ∀ cwd ∈ F, ∀ path r u, (Fs.unlink sb cwd path).run t = .ok (r,u) →
    ∀ j n, tree sb t.blk j = some n → n.type ≠ T_DIR → tree sb u.blk j = none →
    namesTo sb.ninodes (tree sb u.blk) j = 0
  iput : ∀ ip ∈ F, ∀ u, (iput sb ip).run t = .ok ((),u) → ∀ j, Named (tree sb t.blk) j →
    tree sb t.blk j ≠ none → tree sb u.blk j ≠ none

/-- After a `link` that does not fail the count of the inode is the number of its names, and
positive, exactly if it was not 32767 before. After calls of `link` none of which is made at 32767
all counts are right, `unlink` does not panic for a count and `iput` frees nothing that has a
name. -/
theorem link_counts_iff (h : Wf sb s F ∅) (ha : Anchored sb F s) (h0 : tree sb s.blk 0 = none)
    (hcount : Counted sb.ninodes (tree sb s.blk)) :
    (∀ cwd ∈ F, ∀ old new i x n r t,
      lookup (tree sb s.blk) false (s.itable cwd).inum old = some (i,x) →
      tree sb s.blk i = some n → (link sb cwd old new).run s = .ok (r,t) → r ≠ -1 →
      ((∃ n', tree sb t.blk i = some n' ∧ n'.nlink.toInt = namesTo sb.ninodes (tree sb t.blk) i ∧
        0 < n'.nlink.toInt) ↔ n.nlink ≠ 32767)) ∧
    ∀ t, Relation.ReflTransGen (LinkStep sb F) s t → Sound sb F s t := by
  refine ⟨fun cwd hcwd old new i x n r t hold hi hrun hr => ?_,fun t hrun => ?_⟩
  · have hlink := (wp_ok (wp_link stops_true h hcwd sb.root_lt (.inl trivial)) hrun).2.2.1 ha
    obtain ⟨-,hlinked⟩ := hlink.resolve_left fun hh => hr hh.1
    obtain ⟨i',d,n',m,x',name,hold',hi',htype,hi0,hd,hdir,hne,hU⟩ := linked_tree h0 hcount hlinked
    rw [hold] at hold'
    obtain ⟨rfl,rfl⟩ := Prod.mk.inj (Option.some.inj hold')
    rw [hi] at hi'
    obtain rfl := Option.some.inj hi'
    have hnlink := hcount.files i n hi htype
    have hlt := (tree_some hi).1.trans_le sb.ninodes_le
    rw [hU,names_link hi htype hd hdir hne (tree_some hd).1 hlt hi0,if_pos rfl,addLink_file hne]
    constructor
    · rintro ⟨n',hn',-,hpos⟩ hmax
      obtain rfl := Option.some.inj hn'
      change 0 < (n.nlink+1).toInt at hpos
      rw [hmax] at hpos
      exact absurd hpos (by decide)
    · intro hmax
      have hsucc := toInt_succ hmax
      refine ⟨_,rfl,?_,?_⟩
      · change (n.nlink+1).toInt = _
        rw [hsucc,hnlink]
        push_cast
        rfl
      · change 0 < (n.nlink+1).toInt
        omega
  · obtain ⟨ht,hkept⟩ := Tidy.run ⟨h,ha,h0,hcount⟩ hrun
    exact ⟨ht.counted,hkept,fun cwd hcwd path => ht.unlink_no_panic hcwd,
      fun cwd hcwd path r u hu j n hj htype hgone => ht.unlink_frees hcwd hu hj htype hgone,
      fun ip hip u hu j hj hn => ht.iput_keeps hip hu hj hn⟩

end Fs

namespace Mkfs

open Fs FileTree

variable {dir base : ℕ}

theorem entriesTo_linkDir (h : LinkPart dir base) (hdir : dir < 256) (h2 : dir ≠ 2) :
    ((nodeOf linkImage (linkDir base)).entriesTo 2).card = 16382 := by
  have hset : (nodeOf linkImage (linkDir base)).entriesTo 2 = Finset.Ico 2 16384 := by
    ext k
    rw [Node.mem_entriesTo,count_linkDir,Finset.mem_Ico]
    constructor
    · rintro ⟨hk,hinum⟩
      rw [inum_linkDir h hdir hk] at hinum
      split_ifs at hinum <;> omega
    · rintro ⟨hk,hlt⟩
      rw [inum_linkDir h hdir hlt]
      exact ⟨hlt,by split_ifs <;> omega⟩
  rw [hset,Nat.card_Ico]

theorem entriesTo_linkDir_ne (h : LinkPart dir base) (hdir : dir < 256) {j : ℕ} (hj : 2 < j)
    (hne : dir ≠ j) : ((nodeOf linkImage (linkDir base)).entriesTo j).card = 0 := by
  rw [Finset.card_eq_zero,Finset.eq_empty_iff_forall_notMem]
  intro k hk
  rw [Node.mem_entriesTo,count_linkDir] at hk
  have hinum := hk.2
  rw [inum_linkDir h hdir hk.1] at hinum
  split_ifs at hinum <;> omega

theorem names_linkImage (j : ℕ) : namesTo geometry.ninodes (tree geometry linkImage) j =
    ((nodeOf linkImage (linkInode 1)).entriesTo j).card+
    ((nodeOf linkImage (linkDir 47)).entriesTo j).card+
    ((nodeOf linkImage (linkDir 304)).entriesTo j).card := by
  have hpoint : ∀ d, namesToIn j (tree geometry linkImage d) =
      (if d = 1 then ((nodeOf linkImage (linkInode 1)).entriesTo j).card else 0)+
      (if d = 3 then ((nodeOf linkImage (linkDir 47)).entriesTo j).card else 0)+
      (if d = 4 then ((nodeOf linkImage (linkDir 304)).entriesTo j).card else 0) := by
    intro d
    have hother : (linkInode d).type ≠ T_DIR → namesToIn j (tree geometry linkImage d) = 0 := by
      intro htype
      rw [tree_linkImage]
      split
      · rfl
      · exact if_neg htype
    have hdir : (linkInode d).type = T_DIR → namesToIn j (tree geometry linkImage d) =
        ((nodeOf linkImage (linkInode d)).entriesTo j).card := by
      intro htype
      rw [tree_linkImage,if_neg (by rw [htype]; decide)]
      exact if_pos htype
    rcases lt_or_ge d 6 with h | h
    · interval_cases d
      · exact hother (by decide)
      · rw [hdir rfl,if_pos rfl,if_neg (by decide),if_neg (by decide),Nat.add_zero]
      · exact hother (by decide)
      · rw [hdir rfl,if_neg (by decide),if_pos rfl,if_neg (by decide),Nat.zero_add,Nat.add_zero]
        rfl
      · rw [hdir rfl,if_neg (by decide),if_neg (by decide),if_pos rfl,Nat.zero_add]
        rfl
      · exact hother (by decide)
    · rw [hother (by rw [linkInode_eq_zero h]; decide),if_neg (by omega),if_neg (by omega),
        if_neg (by omega)]
  have hmem : ∀ d < 200, d ∈ Finset.range geometry.ninodes := fun d hd => Finset.mem_range.mpr hd
  unfold namesTo
  rw [Finset.sum_congr rfl fun d _ => hpoint d,Finset.sum_add_distrib,Finset.sum_add_distrib,
    Finset.sum_ite_eq',Finset.sum_ite_eq',Finset.sum_ite_eq',if_pos (hmem 1 (by omega)),
    if_pos (hmem 3 (by omega)),if_pos (hmem 4 (by omega))]

theorem names_linkImage_two : namesTo geometry.ninodes (tree geometry linkImage) 2 = 32767 := by
  have hroot : ((nodeOf linkImage (linkInode 1)).entriesTo 2).card = 3 := by decide +kernel
  rw [names_linkImage,hroot,entriesTo_linkDir linkPart_three (by decide) (by decide),
    entriesTo_linkDir linkPart_four (by decide) (by decide)]

theorem names_linkImage_five : namesTo geometry.ninodes (tree geometry linkImage) 5 = 1 := by
  have hroot : ((nodeOf linkImage (linkInode 1)).entriesTo 5).card = 1 := by decide +kernel
  rw [names_linkImage,hroot,entriesTo_linkDir_ne linkPart_three (by decide) (by decide) (by decide),
    entriesTo_linkDir_ne linkPart_four (by decide) (by decide) (by decide)]

theorem linkImage_names (j : ℕ) (m : Node) (hm : tree geometry linkImage j = some m)
    (htype : m.type ≠ T_DIR) : m.nlink.toInt = namesTo geometry.ninodes (tree geometry linkImage) j := by
  rw [tree_linkImage] at hm
  split at hm <;> cases hm
  rename_i h0
  rcases lt_or_ge j 6 with h | h
  · interval_cases j
    · exact absurd rfl h0
    · exact absurd rfl htype
    · rw [names_linkImage_two]
      rfl
    · exact absurd rfl htype
    · exact absurd rfl htype
    · rw [names_linkImage_five]
      rfl
  · rw [linkInode_eq_zero h] at h0
    exact absurd rfl h0

theorem linkImage_counted : Counted geometry.ninodes (tree geometry linkImage) where
  files := linkImage_names
  dirs := by
    intro j m _ hm htype
    rw [tree_linkImage] at hm
    split at hm <;> cases hm
    change (linkInode j).type = T_DIR at htype
    change 0 < (linkInode j).nlink.toInt
    rcases linkInode_cases j with h0 | rfl | ⟨x,hx⟩ | rfl | rfl
    · rw [h0] at htype
      exact absurd htype (by decide)
    · decide
    · rw [hx] at htype
      exact absurd htype (by change ¬ T_FILE = T_DIR; decide)
    · decide
    · decide

end Mkfs

namespace Fs

open Command FileTree Mkfs

theorem link_x : ∃ t, (inOp (link geometry 0 [120] [110])).run linkState = .ok (0,t) := by
  obtain ⟨r,t,hrun,rfl⟩ := exists_run (c := inOp (link geometry 0 [120] [110]))
    (Q := fun r _ => r = 0) (s := linkState) (by decide +kernel)
  exact ⟨t,hrun⟩

/-- A second name for `x`. -/
theorem link_counts_second : ∃ t, (inOp (link geometry 0 [120] [110])).run linkState = .ok (0,t) ∧
    Sound geometry {0} linkState t := by
  obtain ⟨t,hrun⟩ := link_x
  have hold : lookup (tree geometry linkImage) false 1 [120] = some (5,[]) := by decide +kernel
  have hstep : LinkStep geometry {0} linkState t := by
    refine ⟨0,Multiset.mem_singleton_self 0,[120],[110],0,hrun,fun i x n hlook hn => ?_⟩
    obtain ⟨rfl,rfl⟩ := Prod.mk.inj (Option.some.inj (hold.symm.trans hlook))
    rw [show tree geometry linkState.blk 5 = some (nodeOf linkImage (linkFile 1)) by
      change tree geometry linkImage 5 = _
      rw [tree_linkImage]
      rfl] at hn
    rw [← Option.some.inj hn]
    change (1 : Int16) ≠ 32767
    decide
  exact ⟨t,hrun,(link_counts_iff linkState_wf linkState_anchored (tree_linkImage 0)
    linkImage_counted).2 t (.single hstep)⟩

/-- The name 32768 of the file `f` makes its count -32768, and an `unlink` of it panics. -/
theorem link_counts_wraps : Wf geometry linkState {0} ∅ ∧
    namesTo geometry.ninodes (tree geometry linkState.blk) 2 = 32767 ∧
    (dinodeOf geometry linkState.blk 2).nlink = 32767 ∧
    ∃ t, (link geometry 0 [102] [110]).run linkState = .ok (0,t) ∧
      (dinodeOf geometry t.blk 2).nlink = -32768 ∧
      (unlink geometry 0 [110]).run t = .error .unlinkNlink := by
  obtain ⟨r,t,hrun,rfl,hnlink,hpanic⟩ := exists_run (c := link geometry 0 [102] [110])
    (Q := fun r t => r = 0 ∧ (dinodeOf geometry t.blk 2).nlink = -32768 ∧
      wp (unlink geometry 0 [110]) (fun _ _ => False) (fun e => e = .unlinkNlink) t)
    (s := linkState) (by decide +kernel)
  refine ⟨linkState_wf,names_linkImage_two,?_,t,hrun,hnlink,?_⟩
  · change (dinodeOf geometry linkImage 2).nlink = _
    rw [dinodeOf_linkImage (by decide)]
    rfl
  · unfold wp at hpanic
    split at hpanic
    case h_1 => exact absurd hpanic id
    case h_2 e he => rw [he,hpanic]

end Fs
end Xv6
