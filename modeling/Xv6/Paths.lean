import Xv6.DirOps

/-! Path lookup. Between its steps a lookup holds one directory more than its caller. It leaves the
tree as it is as long as every node without links is held by someone. -/
namespace Xv6
namespace Fs

open Bytes Command FileTree

def Anchored (sb : Geometry) (F : Multiset ℕ) (s : Fs) : Prop :=
  ∀ i n, tree sb s.blk i = some n → n.nlink = 0 → Held F s i

structure Orderly (sb : Geometry) (F : Multiset ℕ) (s : Fs) : Prop where
  anchored : Anchored sb F s
  held : ∀ k ∈ F, tree sb s.blk (s.itable k).inum ≠ none

structure Solid (sb : Geometry) (F : Multiset ℕ) (s : Fs) : Prop extends Orderly sb F s where
  root : tree sb s.blk ROOTINO ≠ none
  entries : ∀ i n, tree sb s.blk i = some n → n.type = T_DIR → ∀ k < n.count,
    (n.ent k).inum ≠ 0 → tree sb s.blk (n.ent k).inum.toNat ≠ none

structure Steady (sb : Geometry) (F : Multiset ℕ) (s t : Fs) : Prop where
  kept : Kept F s t
  tree_eq : Anchored sb F s → tree sb t.blk = tree sb s.blk

section Steady

variable {sb : Geometry} {F : Multiset ℕ} {L : Finset ℕ} {s t u : Fs} {ip : ℕ}

theorem Anchored.mono (h : Anchored sb F s) (k : ℕ) : Anchored sb (k ::ₘ F) s := by
  intro i n hn h0
  obtain ⟨l,hl,hi⟩ := h i n hn h0
  exact ⟨l,Multiset.mem_cons_of_mem hl,hi⟩

theorem Anchored.kept (h : Anchored sb F s) (hk : Kept F s t)
    (htree : tree sb t.blk = tree sb s.blk) : Anchored sb F t := by
  intro i n hn h0
  rw [htree] at hn
  exact hk.held.mpr (h i n hn h0)

theorem Anchored.reaped (h : Anchored sb F s) (hwf : Wf sb s (ip ::ₘ F) L)
    {T : ℕ → Option Node}
    (hr : Reaped (tree sb s.blk) T (s.itable ip).inum (ip ∈ F)) : T = tree sb s.blk := by
  rcases hr with ⟨heq,-⟩ | ⟨-,hF,n,hn,h0⟩
  · exact heq
  · obtain ⟨k,hk,hi⟩ := h _ n hn h0
    have hkip := hwf.inj k (Multiset.mem_cons_of_mem hk) ip (Multiset.mem_cons_self ip F) hi
    exact absurd (hkip ▸ hk) hF

/-- Attributes of one node may change if its slot is a new holder. -/
theorem Anchored.bump (h : Anchored sb F s) (hk : Kept F s t)
    (htree : ∀ j, j ≠ (t.itable ip).inum → tree sb t.blk j = tree sb s.blk j) :
    Anchored sb (ip ::ₘ F) t := by
  intro j n hn h0
  by_cases hj : j = (t.itable ip).inum
  · exact ⟨ip,Multiset.mem_cons_self ip F,hj.symm⟩
  · rw [htree j hj] at hn
    obtain ⟨k,hF,hi⟩ := h j n hn h0
    exact ⟨k,Multiset.mem_cons_of_mem hF,by rw [hk.inum k hF,hi]⟩

theorem Anchored.update (h : Anchored sb F s) (hk : Kept F s t) {i : ℕ} {n m : Node}
    (hi : tree sb s.blk i = some n) (hm : m.nlink = n.nlink)
    (htree : tree sb t.blk = Function.update (tree sb s.blk) i (some m)) : Anchored sb F t := by
  intro j k hj h0
  rw [htree] at hj
  apply hk.held.mpr
  by_cases hji : j = i
  · rw [hji,Function.update_self] at hj
    obtain rfl := Option.some.inj hj
    rw [hji]
    exact h i n hi (by rw [← hm]; exact h0)
  · rw [Function.update_of_ne hji] at hj
    exact h j k hj h0

theorem Solid.bump (h : Solid sb F s) (hk : Kept F s t)
    (halike : Alike (tree sb s.blk) (tree sb t.blk))
    (htree : ∀ j, j ≠ (t.itable ip).inum → tree sb t.blk j = tree sb s.blk j)
    (hip : tree sb t.blk (t.itable ip).inum ≠ none) : Solid sb (ip ::ₘ F) t where
  anchored := h.anchored.bump hk htree
  held := by
    intro k hkF
    rcases Multiset.mem_cons.mp hkF with rfl | hkF
    · exact hip
    · rw [hk.inum k hkF,ne_eq,halike.none_iff]
      exact h.held k hkF
  root := by
    rw [ne_eq,halike.none_iff]
    exact h.root
  entries := by
    intro i n hn hdir k hlt h0
    obtain ⟨m,hm,htype,hbytes⟩ := halike.node hn
    rw [ne_eq,halike.none_iff,← Node.ent_congr hbytes]
    refine h.entries i m hm (by rw [htype,hdir]) k ?_ ?_
    · rwa [Node.count_congr hbytes]
    · rwa [Node.ent_congr hbytes]

namespace Steady

theorem refl (sb : Geometry) (F : Multiset ℕ) (s : Fs) : Steady sb F s s := ⟨.refl F s,fun _ => rfl⟩

theorem of_blk (hk : Kept F s t) (hb : t.blk = s.blk) : Steady sb F s t :=
  ⟨hk,fun _ => by rw [hb]⟩

theorem trans (h : Steady sb F s t) (h' : Steady sb F t u) : Steady sb F s u where
  kept := h.kept.trans h'.kept
  tree_eq ha := by rw [h'.tree_eq (ha.kept h.kept (h.tree_eq ha)),h.tree_eq ha]

theorem anchored (h : Steady sb F s t) (ha : Anchored sb F s) : Anchored sb F t :=
  ha.kept h.kept (h.tree_eq ha)

theorem orderly (h : Steady sb F s t) (hs : Orderly sb F s) : Orderly sb F t where
  anchored := h.anchored hs.anchored
  held k hk := by
    rw [h.tree_eq hs.anchored,h.kept.inum k hk]
    exact hs.held k hk

theorem solid (h : Steady sb F s t) (hs : Solid sb F s) : Solid sb F t := by
  have htree := h.tree_eq hs.anchored
  exact {
    toOrderly := h.orderly hs.toOrderly
    root := by rw [htree]; exact hs.root
    entries := by rw [htree]; exact hs.entries }

theorem of_cons (h : Steady sb (ip ::ₘ F) s t) : Steady sb F s t :=
  ⟨h.kept.of_cons,fun ha => h.tree_eq (ha.mono ip)⟩

end Steady

end Steady

theorem skipelem_length {path name rest : List UInt8} (h : skipelem path = some (name,rest)) :
    rest.length < path.length := by
  unfold skipelem at h
  split at h
  · cases h
  case h_2 c cs hdrop =>
    obtain ⟨-,rfl⟩ := Prod.mk.inj (Option.some.inj h)
    have hsplit : (path.dropWhile (· = slash)).length ≤ path.length :=
      (List.dropWhile_sublist _).length_le
    have hc : ¬ c = slash := by
      have hne : path.dropWhile (· = slash) ≠ [] := by simp [hdrop]
      have hhead := List.head_dropWhile_not (· = slash) hne
      simpa [hdrop] using hhead
    have hcs : (List.dropWhile (· ≠ slash) (c::cs)) = List.dropWhile (· ≠ slash) cs := by
      simp [hc]
    have h1 : (cs.dropWhile (· ≠ slash)).length ≤ cs.length := (List.dropWhile_sublist _).length_le
    have h2 : ((cs.dropWhile (· ≠ slash)).dropWhile (· = slash)).length ≤
        (cs.dropWhile (· ≠ slash)).length := (List.dropWhile_sublist _).length_le
    rw [hdrop,List.length_cons] at hsplit
    rw [hcs]
    omega

/-- The outcome of a lookup, which the tree gives as `w`: a slot that is held once more, or
nothing. -/
def Walked (sb : Geometry) (E : FsPanic → Prop) (F : Multiset ℕ) (L : Finset ℕ) (par : Bool)
    (w : Option (ℕ × List UInt8)) (s : Fs) : Option (ℕ × List UInt8) → Fs → Prop
  | none, t => Wf sb t F L ∧ Steady sb F s t ∧ (Anchored sb F s → w = none)
  | some (ip,name), t => Wf sb t (ip ::ₘ F) L ∧ Steady sb F s t ∧
      (Anchored sb F s → w = some ((t.itable ip).inum,name)) ∧
      (E .ilockNoType ∨ tree sb t.blk (t.itable ip).inum ≠ none) ∧
      (par = true → (t.itable ip).valid = true ∧ (t.itable ip).d.type = T_DIR)

section Namex

variable {sb : Geometry} {E : FsPanic → Prop} {s t : Fs} {F : Multiset ℕ} {L : Finset ℕ} {ip : ℕ}
  {par : Bool}

theorem Walked.mono {w w' r : Option (ℕ × List UInt8)} {u : Fs} (h : Steady sb F s t)
    (hw : Walked sb E F L par w t r u) (hww : Anchored sb F s → w' = w) :
    Walked sb E F L par w' s r u := by
  rcases r with - | ⟨ip,name⟩
  · obtain ⟨hwf,hst,hr⟩ := hw
    exact ⟨hwf,h.trans hst,fun ha => (hww ha).trans (hr (h.anchored ha))⟩
  · obtain ⟨hwf,hst,hr,hrest⟩ := hw
    exact ⟨hwf,h.trans hst,fun ha => (hww ha).trans (hr (h.anchored ha)),hrest⟩

theorem Wf.tree_ne_none (h : Wf sb s F L) (hip : ip ∈ L) :
    tree sb s.blk (s.itable ip).inum ≠ none := by
  rw [h.tree_nodeAt hip]
  exact Option.some_ne_none _

/-- Where nodes without links are held by others, dropping a slot writes nothing. -/
theorem wp_iput_steady_of (hE : (∀ e, LogFull e → E e) ∨ Anchored sb F s)
    (h : Wf sb s (ip ::ₘ F) L) (hip : ip ∈ L → ip ∈ F) :
    wp (iput sb ip) (fun _ t => Wf sb t F L ∧ Steady sb F s t ∧
      (Anchored sb F s → named sb t.blk = named sb s.blk)) E s := by
  rcases hE with hE | ha
  · refine wp_conseq (wp_iput hE h hip) ?_
    rintro - t ⟨hwf,hkept,hreap,hsame,hspared⟩
    have htree : Anchored sb F s → tree sb t.blk = tree sb s.blk := by
      intro ha
      by_cases hv : (s.itable ip).valid = true
      · exact ha.reaped h (hreap hv)
      · exact hsame (by simpa using hv)
    exact ⟨hwf,⟨hkept,htree⟩,fun ha => hspared.named_eq (htree ha)⟩
  · rw [iput,wp_bind,wp_get,wp_bind,wp_when]
    constructor
    · rintro ⟨href,hv,h0⟩
      have hmem := Multiset.mem_cons_self ip F
      obtain ⟨k,hk,hi⟩ := ha _ _ (h.loaded_of_valid hmem hv).tree_eq h0
      have hkip := h.inj k (Multiset.mem_cons_of_mem hk) ip hmem hi
      have hcount : (1 : ℤ) = ((ip ::ₘ F).count ip : ℤ) := by rw [← h.refs ip,href]
      have hpos := Multiset.one_le_count_iff_mem.mpr (hkip ▸ hk)
      rw [Multiset.count_cons_self] at hcount
      omega
    · intro _
      obtain ⟨hwf,hkept⟩ := h.dropRef hip
      exact ⟨hwf,.of_blk hkept rfl,fun _ => rfl⟩

theorem wp_iunlockput_steady (hE : (∀ e, LogFull e → E e) ∨ Anchored sb F s)
    (h : Wf sb s (ip ::ₘ F) (insert ip L)) (hip : ip ∉ L) :
    wp (iunlockput sb ip) (fun _ t => Wf sb t F L ∧ Steady sb F s t ∧
      (Anchored sb F s → named sb t.blk = named sb s.blk)) E s := by
  rw [iunlockput,wp_bind]
  refine wp_conseq (wp_iunlock h (Finset.mem_insert_self ip L)) ?_
  rintro - t ⟨hwf,hkept,hblk⟩
  rw [Finset.erase_insert hip] at hwf
  have hst : Steady sb F s t := (Steady.of_blk hkept hblk).of_cons
  refine wp_conseq (wp_iput_steady_of (hE.imp_right hst.anchored) hwf fun hL => absurd hL hip) ?_
  rintro - u ⟨hwfu,hu,hnamed⟩
  exact ⟨hwfu,hst.trans hu,fun ha => by rw [hnamed (hst.anchored ha),hblk]⟩

def Whole (T : FileTree) : Prop :=
  ∀ i n, T i = some n → n.type = T_DIR → Dirent.bytes ∣ n.bytes.length

/-- Stops that are not excluded for a lookup from `s`. -/
structure Lookups (sb : Geometry) (E : FsPanic → Prop) (F : Multiset ℕ) (L : Finset ℕ) (s : Fs) :
    Prop where
  log : (∀ e, LogFull e → E e) ∨ Anchored sb F s
  noInodes : NINODE ≤ F.toFinset.card+1 → E .igetNoInodes
  blocked : L.Nonempty → E .blocked
  dirlookup : E .dirlookupRead ∨ Anchored sb F s ∧ Whole (tree sb s.blk)

theorem Stops.lookups (hE : Stops E) : Lookups sb E F L s :=
  ⟨.inl hE.log,fun _ => hE.noInodes,fun _ => hE.blocked,.inl hE.dirlookup⟩

theorem Lookups.steady (hE : Lookups sb E F L s) (h : Steady sb F s t) : Lookups sb E F L t where
  log := hE.log.imp_right h.anchored
  noInodes := hE.noInodes
  blocked := hE.blocked
  dirlookup := hE.dirlookup.imp_right fun hh => ⟨h.anchored hh.1,by rw [h.tree_eq hh.1]; exact hh.2⟩

theorem card_of_full (h : ∀ k < NINODE, k ∈ ip ::ₘ F) : NINODE ≤ F.toFinset.card+1 := by
  have hsub : Finset.range NINODE ⊆ insert ip F.toFinset := by
    intro k hk
    rw [← Multiset.toFinset_cons,Multiset.mem_toFinset]
    exact h k (Finset.mem_range.mp hk)
  have hcard := (Finset.card_le_card hsub).trans (Finset.card_insert_le _ _)
  rwa [Finset.card_range] at hcard

theorem wp_namexLoop_of (hE : Lookups sb E F L s) (h : Wf sb s (ip ::ₘ F) L) (hL : ∀ k ∈ L, k ∈ F)
    (hT : E .ilockNoType ∨ Solid sb F s ∧ tree sb s.blk (s.itable ip).inum ≠ none)
    {fuel : ℕ} {path : List UInt8} (hfuel : path.length < fuel) :
    wp (namexLoop sb par fuel ip path) (fun r t =>
      Walked sb E F L par (walk (tree sb s.blk) par fuel (s.itable ip).inum path) s r t ∧
      (Anchored sb F s → named sb t.blk = named sb s.blk)) E s := by
  induction fuel generalizing ip path s with
  | zero => exact absurd hfuel (Nat.not_lt_zero _)
  | succ fuel ih =>
    rw [namexLoop,walk]
    rcases hskip : skipelem path with - | ⟨name,rest⟩
    · simp only
      cases par with
      | true =>
        rw [if_pos rfl,if_pos rfl,wp_bind]
        refine wp_conseq (wp_iput_steady_of hE.log h (hL ip)) ?_
        rintro - t ⟨hwf,hst,hnamed⟩
        exact ⟨⟨hwf,hst,fun _ => rfl⟩,hnamed⟩
      | false =>
        rw [if_neg Bool.false_ne_true,if_neg Bool.false_ne_true]
        exact ⟨⟨h,.refl sb F s,fun _ => rfl,hT.imp id And.right,fun hpar => by cases hpar⟩,
          fun _ => rfl⟩
    · simp only
      have hlen := skipelem_length hskip
      have hmem := Multiset.mem_cons_self ip F
      rw [wp_bind]
      refine wp_conseq (wp_ilock_of (fun hip => hE.blocked ⟨ip,hip⟩) h hmem (hT.imp id And.right)) ?_
      rintro - t ⟨hnot,hwf,hkept,hblk⟩
      have hip := Finset.mem_insert_self ip L
      have hst : Steady sb F s t := (Steady.of_blk hkept hblk).of_cons
      have hnode : tree sb s.blk (s.itable ip).inum = some (nodeAt t ip) := by
        rw [← hblk,← hkept.inum ip hmem]
        exact hwf.tree_nodeAt hip
      have hdrop : wp (iunlockput sb ip) (fun _ u => (Wf sb u F L ∧ Steady sb F s u) ∧
          (Anchored sb F s → named sb u.blk = named sb s.blk)) E t := by
        refine wp_conseq (wp_iunlockput_steady (hE.steady hst).log hwf hnot) ?_
        rintro - u ⟨hwfu,hu,hnamed⟩
        exact ⟨⟨hwfu,hst.trans hu⟩,fun ha => by rw [hnamed (hst.anchored ha),hblk]⟩
      simp only [hnode]
      rw [wp_bind,wp_get]
      by_cases hdir : (t.itable ip).d.type = T_DIR
      · have hndir : (nodeAt t ip).type = T_DIR := hdir
        rw [if_neg (not_not.mpr hdir),if_neg (not_not.mpr hndir)]
        by_cases hlast : par = true ∧ rest = []
        · rw [if_pos hlast,if_pos hlast,wp_bind]
          refine wp_conseq (wp_iunlock hwf hip) ?_
          rintro - u ⟨hwfu,hku,hbu⟩
          rw [Finset.erase_insert hnot] at hwfu
          obtain ⟨hv,htype⟩ := hku.valid ip hmem (hwf.locked_valid ip hip)
          refine ⟨⟨hwfu,hst.trans (Steady.of_blk hku hbu).of_cons,fun _ => ?_,.inr ?_,
            fun _ => ⟨hv,?_⟩⟩,fun _ => by rw [hbu,hblk]⟩
          · rw [hku.inum ip hmem,hkept.inum ip hmem]
          · rw [hbu,hku.inum ip hmem]
            exact hwf.tree_ne_none hip
          · rw [htype,hdir]
        · rw [if_neg hlast,if_neg hlast,wp_bind]
          have hread : ¬ Dirent.bytes ∣ (t.itable ip).d.size.toNat → E .dirlookupRead := by
            intro hcut
            refine hE.dirlookup.resolve_right fun hh => hcut ?_
            have hwhole := hh.2 _ _ hnode hndir
            rwa [nodeAt,nodeOf,length_fileOf] at hwhole
          refine wp_conseq (wp_dirlookup_of hread (fun hfull => hE.noInodes (card_of_full hfull))
            hwf hip hdir) ?_
          rintro (- | ⟨next,off⟩) u hlook
          · obtain ⟨rfl,hnone⟩ := hlook
            simp only [hnone]
            rw [wp_bind]
            exact wp_conseq hdrop fun _ v hv => ⟨⟨hv.1.1,hv.1.2,fun _ => rfl⟩,hv.2⟩
          · obtain ⟨k,hfind,-,hgot⟩ := hlook
            simp only [hfind]
            rw [wp_bind]
            have hwfu : Wf sb u (ip ::ₘ next ::ₘ F) (insert ip L) := by
              rw [Multiset.cons_swap]
              exact hgot.wf
            have hu : Steady sb F s u := hst.trans (Steady.of_blk hgot.kept hgot.blk).of_cons
            refine wp_conseq (wp_iunlockput_steady
              (hE.log.imp_right fun ha => (hu.anchored ha).mono next) hwfu hnot) ?_
            rintro - v ⟨hwfv,hv,hnamed⟩
            have hsv := hu.trans hv.of_cons
            have hTv : E .ilockNoType ∨
                Solid sb F v ∧ tree sb v.blk (v.itable next).inum ≠ none := by
              refine hT.imp id ?_
              rintro ⟨hsolid,-⟩
              obtain ⟨hk,⟨h0,-⟩,-⟩ := Node.find_eq_some_iff.mp hfind
              refine ⟨hsv.solid hsolid,?_⟩
              rw [hv.of_cons.tree_eq (hu.anchored hsolid.anchored),hgot.blk,
                hv.kept.inum next (Multiset.mem_cons_self next F),hgot.inum]
              exact (hst.solid hsolid).entries _ _ (hwf.tree_nodeAt hip) hdir k hk h0
            refine wp_conseq (ih (hE.steady hsv) hwfv hTv (by omega)) fun r w hw =>
              ⟨hw.1.mono hsv fun ha => ?_,fun ha => ?_⟩
            · rw [hsv.tree_eq ha,hv.kept.inum next (Multiset.mem_cons_self next F),hgot.inum]
            · rw [hw.2 (hsv.anchored ha),hnamed ((hu.anchored ha).mono next),hgot.blk,hblk]
      · have hndir : (nodeAt t ip).type ≠ T_DIR := hdir
        rw [if_pos hdir,if_pos hndir,wp_bind]
        exact wp_conseq hdrop fun _ v hv => ⟨⟨hv.1.1,hv.1.2,fun _ => rfl⟩,hv.2⟩

theorem wp_namex_of (hE : Lookups sb E F L s) (h : Wf sb s F L) {cwd : ℕ} (hcwd : cwd ∈ F)
    (hroot : ROOTINO < sb.ninodes) (hT : E .ilockNoType ∨ Solid sb F s) {path : List UInt8} :
    wp (namex sb cwd path par) (fun r t =>
      Walked sb E F L par (lookup (tree sb s.blk) par (s.itable cwd).inum path) s r t ∧
      (Anchored sb F s → named sb t.blk = named sb s.blk)) E s := by
  rw [namex]
  have hloop : ∀ ip t, Wf sb t (ip ::ₘ F) L → Kept F s t → t.blk = s.blk →
      (t.itable ip).inum = startOf (s.itable cwd).inum path →
      (E .ilockNoType ∨ Solid sb F t ∧ tree sb t.blk (t.itable ip).inum ≠ none) →
      wp (namexLoop sb par (path.length+1) ip path) (fun r u =>
        Walked sb E F L par (lookup (tree sb s.blk) par (s.itable cwd).inum path) s r u ∧
        (Anchored sb F s → named sb u.blk = named sb s.blk)) E t := by
    intro ip t hwf hkept hblk hstart hTt
    have hst : Steady sb F s t := .of_blk hkept hblk
    refine wp_conseq (wp_namexLoop_of (hE.steady hst) hwf h.held hTt (Nat.lt_succ_self _)) fun r u hu =>
      ⟨hu.1.mono hst fun ha => ?_,fun ha => ?_⟩
    · rw [lookup,hst.tree_eq ha,hstart]
    · rw [hu.2 (hst.anchored ha),hblk]
  split
  case isTrue hslash =>
    rw [wp_bind]
    have hino : (∀ k < NINODE, k ∈ F) → E .igetNoInodes := fun hfull =>
      have hcons : ∀ k < NINODE, k ∈ cwd ::ₘ F := fun k hk => Multiset.mem_cons_of_mem (hfull k hk)
      hE.noInodes (card_of_full hcons)
    refine wp_conseq (wp_iget hino h hroot) ?_
    intro ip t hgot
    have hst : Steady sb F s t := .of_blk hgot.kept hgot.blk
    refine hloop ip t hgot.wf hgot.kept hgot.blk ?_ (hT.imp id fun hs => ⟨hst.solid hs,?_⟩)
    · rw [hgot.inum,startOf,if_pos hslash]
    · rw [hgot.inum,hgot.blk]
      exact hs.root
  case isFalse hslash =>
    rw [wp_bind]
    refine wp_conseq (wp_idup h hcwd) ?_
    rintro ip t ⟨rfl,hwf,hkept,hblk⟩
    have hst : Steady sb F s t := .of_blk hkept hblk
    refine hloop ip t hwf hkept hblk ?_ (hT.imp id fun hs => ⟨hst.solid hs,?_⟩)
    · rw [hkept.inum ip hcwd,startOf,if_neg hslash]
    · rw [hkept.inum ip hcwd,hblk]
      exact hs.held ip hcwd

end Namex

end Fs
end Xv6
