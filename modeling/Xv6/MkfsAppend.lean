import Xv6.Itable
import Xv6.Mkfs

/-! `iappend` of `mkfs.c` against the kernel's view of the image. Taking the next free block is an
allocation as the kernel makes it, so that the facts about `bmap` and the loop of `writei` say what
an append does to ownership and content. -/
namespace Xv6
namespace Mkfs

open Bytes Command Fs

def view (s : State) : ℕ → Block :=
  Function.update s.img superblock.bmapstart (marked s.freeblock)

/-- A kernel that has inode `inum` of an image in slot 0 of its table. -/
def opened (blk : ℕ → Block) (inum : ℕ) (d : Dinode) : Fs where
  blk := blk
  disk := blk
  lh := []
  outstanding := 1
  itable := fun _ => ⟨ROOTDEV,inum,1,true,true,d⟩

section View

variable {s : State}

theorem view_of_ne {b : ℕ} (hb : b ≠ superblock.bmapstart) : view s b = s.img b :=
  Function.update_of_ne hb _ _

theorem view_data {b : ℕ} (hb : Xv6.nmeta geometry ≤ b) : view s b = s.img b :=
  view_of_ne (Nat.ne_of_gt (lt_of_lt_of_le (by decide) hb))

theorem BBLOCK_eq {b : ℕ} (hb : b < FSSIZE) : BBLOCK b geometry = superblock.bmapstart := by
  rw [BBLOCK,Nat.div_eq_of_lt (hb.trans (by decide)),Nat.zero_add]
  rfl

theorem bitOf_view {b : ℕ} (hb : b < FSSIZE) :
    bitOf geometry (view s) b = decide (b < s.freeblock) := by
  rw [bitOf,BBLOCK_eq hb,view,Function.update_self,Nat.mod_eq_of_lt (hb.trans (by decide)),
    bitAt_marked]

theorem IBLOCK_lt {i : ℕ} (hi : i < NINODES) : IBLOCK i geometry < superblock.bmapstart := by
  have hi' : i < geometry.ninodes := hi
  exact IBLOCK_lt_bmapstart hi'

theorem IBLOCK_ne_bmapstart {i : ℕ} (hi : i < NINODES) :
    IBLOCK i geometry ≠ superblock.bmapstart :=
  Nat.ne_of_lt (IBLOCK_lt hi)

theorem IBLOCK_lt_FSSIZE {i : ℕ} (hi : i < NINODES) : IBLOCK i geometry < FSSIZE :=
  (IBLOCK_lt hi).trans (by decide)

theorem card_freeBlocks :
    (freeBlocks geometry (view s)).card = FSSIZE-s.freeblock := by
  have heq : freeBlocks geometry (view s) = Finset.Ico s.freeblock FSSIZE := by
    ext b
    rw [freeBlocks,Finset.mem_filter,Finset.mem_range,Finset.mem_Ico]
    change b < FSSIZE ∧ _ ↔ _
    constructor
    · rintro ⟨hb,hbit⟩
      rw [bitOf_view hb,decide_eq_false_iff_not] at hbit
      omega
    · rintro ⟨hl,hb⟩
      rw [bitOf_view hb,decide_eq_false_iff_not]
      omega
  rw [heq,Nat.card_Ico]

end View

/-- Blocks that a file of `n` bytes takes, with its indirect block. -/
def blocksFor (n : ℕ) : ℕ := (n+BSIZE-1)/BSIZE+if NDIRECT*BSIZE < n then 1 else 0

def Within (n : ℕ) (blk : ℕ → Block) (d : Dinode) : Prop :=
  ∀ k, ptr blk d k ≠ 0 → k < blocksFor n

theorem blocksFor_zero : blocksFor 0 = 0 := by decide

theorem lt_blocksFor_iff {k n : ℕ} :
    k < blocksFor n ↔ (if k ≤ NDIRECT then k else k-1)*BSIZE < n := by
  have hN : NDIRECT = 12 := rfl
  have hB : BSIZE = 1024 := rfl
  simp only [blocksFor,hN,hB]
  by_cases hn : 12*1024 < n <;> by_cases hk : k ≤ 12 <;>
    simp only [hn,hk,if_true,if_false] <;> omega

theorem blocksFor_mono {m n : ℕ} (h : m ≤ n) : blocksFor m ≤ blocksFor n := by
  by_contra hlt
  have hk := lt_blocksFor_iff.mp (not_le.mp hlt)
  exact lt_irrefl _ (lt_blocksFor_iff.mpr (hk.trans_le h))

theorem blocksFor_le {n : ℕ} (hn : n ≤ MAXFILE*BSIZE) : blocksFor n ≤ NDIRECT+1+NINDIRECT := by
  by_contra hlt
  have hk := lt_blocksFor_iff.mp (not_le.mp hlt)
  rw [if_neg (by omega)] at hk
  exact absurd hn (not_le.mpr hk)

theorem Within.mono {m n : ℕ} {blk : ℕ → Block} {d : Dinode} (h : Within m blk d) (hmn : m ≤ n) :
    Within n blk d :=
  fun k hk => (h k hk).trans_le (blocksFor_mono hmn)

theorem lt_blocksFor_of_through {bn k n : ℕ} (h : Through bn k) (hbn : bn*BSIZE < n) :
    k < blocksFor n := by
  rw [lt_blocksFor_iff]
  refine lt_of_le_of_lt (Nat.mul_le_mul_right _ ?_) hbn
  rcases h with rfl | ⟨rfl,hle⟩
  · unfold slotOf
    split <;> split <;> omega
  · rw [if_pos le_rfl]
    exact hle

/-- An inode without holes that has no pointer too many has exactly the first pointers set. -/
theorem mappedSlots_eq {blk : ℕ → Block} {d : Dinode} (hsz : Sized blk d)
    (hw : Within d.size.toNat blk d) :
    mappedSlots blk d = Finset.range (blocksFor d.size.toNat) := by
  ext k
  rw [mappedSlots,Finset.mem_filter,Finset.mem_range,Finset.mem_range]
  refine ⟨fun h => hw k h.2,fun hk => ⟨hk.trans_le (blocksFor_le hsz.size_le),?_⟩⟩
  have hm := hsz.mapped _ (lt_blocksFor_iff.mp hk)
  rcases lt_trichotomy k NDIRECT with h | rfl | h
  · rwa [if_pos h.le,slotOf,if_pos h] at hm
  · rw [ptr_indirect]
    intro h0
    rw [if_pos le_rfl] at hm
    exact hm (ptr_eq_zero_of_no_indirect (by decide) (UInt32.toNat_inj.mp h0))
  · rwa [if_neg (by omega),slotOf,if_neg (by omega),Nat.sub_add_cancel (by omega)] at hm

/-- The kernel state `t` shows the image, with `din` for the inode in slot 0. -/
structure Tracks (s : State) (din : Dinode) (t : Fs) : Prop where
  serving : Serving geometry t 0
  blk : t.blk = view s
  node : (t.itable 0).d = din
  zero : ∀ b, s.freeblock ≤ b → s.img b = fun _ => 0
  le : s.freeblock ≤ FSSIZE

section Alloc

variable {s : State} {din : Dinode} {t u : Fs} {B : Prop} {target : ℕ}

namespace Tracks

theorem bit (h : Tracks s din t) {b : ℕ} (hb : b < FSSIZE) :
    bitOf geometry t.blk b = decide (b < s.freeblock) := by
  rw [h.blk,bitOf_view hb]

theorem free (h : Tracks s din t) (hlt : s.freeblock < FSSIZE) :
    bitOf geometry t.blk s.freeblock = false := by
  rw [h.bit hlt]
  simp

theorem nmeta_le (h : Tracks s din t) : Xv6.nmeta geometry ≤ s.freeblock := by
  by_contra hlt
  have hfs : s.freeblock < FSSIZE := (not_le.mp hlt).trans (by decide)
  exact hlt (h.serving.own.nmeta_le_of_free (h.free hfs))

theorem ptr_bounds (h : Tracks s din t) {k : ℕ} (hk : ptr t.blk din k ≠ 0) :
    Xv6.nmeta geometry ≤ ptr t.blk din k ∧ ptr t.blk din k < s.freeblock := by
  rw [← h.node] at hk ⊢
  have hown := h.serving.owner_slot hk
  have hdata := h.serving.own.data hown
  have hbit := h.serving.own.bit hown
  rw [h.bit hdata.2,decide_eq_true_eq] at hbit
  exact ⟨hdata.1,hbit⟩

theorem taken_blk (h : Tracks s din t) (hlt : s.freeblock < FSSIZE) :
    (taken geometry t s.freeblock).blk = view {s with freeblock := s.freeblock+1} := by
  have hmeta := h.serving.own.nmeta_le_of_free (h.free hlt)
  have hne : s.freeblock ≠ superblock.bmapstart :=
    Nat.ne_of_gt (lt_of_lt_of_le (by decide) hmeta)
  funext b
  by_cases hb : b = s.freeblock
  · subst hb
    rw [taken_blk_self,view_of_ne hne,h.zero _ le_rfl]
  · by_cases hbm : b = superblock.bmapstart
    · subst hbm
      simp only [taken,logged_blk,BBLOCK_eq hlt]
      rw [Function.update_of_ne hb,Function.update_self,h.blk,view,Function.update_self,view,
        Function.update_self,Nat.mod_eq_of_lt (hlt.trans (by decide)),← marked_succ]
    · rw [Fs.taken_blk hb (by rwa [BBLOCK_eq hlt]),h.blk,view_of_ne hbm,view_of_ne hbm]

theorem room (h : Tracks s din t) (hw : Within target t.blk din)
    (hroom : blocksFor target ≤ (freeBlocks geometry t.blk).card+(mappedSlots t.blk din).card)
    {k : ℕ} (hk : k < blocksFor target) (h0 : ptr t.blk din k = 0) : s.freeblock < FSSIZE := by
  have hsub : mappedSlots t.blk din ⊂ Finset.range (blocksFor target) := by
    rw [Finset.ssubset_iff_of_subset]
    · exact ⟨k,Finset.mem_range.mpr hk,fun hmem => (Finset.mem_filter.mp hmem).2 h0⟩
    · intro l hl
      exact Finset.mem_range.mpr (hw l (Finset.mem_filter.mp hl).2)
  have hcard := Finset.card_lt_card hsub
  rw [Finset.card_range] at hcard
  rw [h.blk,card_freeBlocks,← h.blk] at hroom
  omega

end Tracks

theorem Within.fills {K : ℕ → Prop} (hw : Within target t.blk (t.itable 0).d)
    (hf : FillsOnly 0 K t u) (hK : ∀ k, K k → k < blocksFor target) :
    Within target u.blk (u.itable 0).d := by
  intro k hk
  by_cases h0 : ptr t.blk (t.itable 0).d k = 0
  · exact hK k (hf k h0 hk)
  · exact hw k h0

/-- A sector has been found or taken for pointer `k`, in a state reached by setting pointers in
`K`; or its number lies behind the end of the image, which only `B` allows. -/
def Found (B : Prop) (s : State) (t : Fs) (K : ℕ → Prop) (k : ℕ) (r : ℕ × Dinode) (s' : State) :
    Prop :=
  FSSIZE ≤ r.1 ∧ B ∨ r.1 < FSSIZE ∧ r.1 ≠ 0 ∧ s'.freeinode = s.freeinode ∧
    ∃ u, Grown geometry 0 t u ∧ Tracks s' r.2 u ∧ r.1 = ptr u.blk r.2 k ∧ FillsOnly 0 K t u

/-- Enough blocks are left for a file of `target` bytes, or it does not matter. -/
def Room (B : Prop) (target : ℕ) (t : Fs) : Prop :=
  B ∨ blocksFor target ≤ (freeBlocks geometry t.blk).card+(mappedSlots t.blk (t.itable 0).d).card

theorem wp_addrOf (h : Tracks s din t) (hw : Within target t.blk din) (hroom : Room B target t)
    {k : Fin (NDIRECT+1)} (hk : k < blocksFor target) :
    wp (addrOf din k) (Found B s t (· = k.val) k) (fun _ => B) s := by
  rw [addrOf,wp_ite]
  constructor
  · intro h0
    rw [wp_bind,nextBlock,wp_bind,wp_get,wp_bind,wp_set,wp_pure,wp_pure]
    have hnode := h.node
    have hk0 : (t.itable 0).d.addrs k = 0 := by
      rw [hnode]
      exact UInt32.toNat_inj.mp h0
    by_cases hlt : s.freeblock < FSSIZE
    · have hbit := h.free hlt
      have hmeta := h.serving.own.nmeta_le_of_free hbit
      have hpos := nmeta_pos geometry
      have hb32 : s.freeblock < 2^32 := hlt.trans (by decide)
      have hg := h.serving.take_addr hk0 hlt hbit
      refine .inr ⟨hlt,by simp only; omega,rfl,_,hg,?_,?_,?_⟩
      · exact {
          serving := hg.serving
          blk := h.taken_blk hlt
          node := by simp [setInode,hnode,withAddr]
          zero := fun b hb => h.zero b (Nat.le_of_succ_le hb)
          le := hlt }
      · exact (ptr_withAddr_self hb32).symm
      · intro l hl hne
        by_contra hlk
        change ptr _ (Function.update t.itable 0 _ 0).d l ≠ 0 at hne
        rw [Function.update_self] at hne
        exact hne ((h.serving.take_addr_ptr hk0 hlt hbit hlk).trans hl)
    · refine .inl ⟨not_lt.mp hlt,hroom.resolve_right fun hr => hlt ?_⟩
      rw [hnode] at hr
      exact h.room hw hr hk (by rw [ptr_addr,h0])
  · intro h0
    have hne : ptr t.blk din k ≠ 0 := by rwa [ptr_addr]
    have hb := h.ptr_bounds hne
    rw [ptr_addr] at hb
    exact .inr ⟨hb.2.trans_le h.le,h0,rfl,t,.refl h.serving,h,(ptr_addr k).symm,
      fun _ hz hnz => absurd hz hnz⟩

theorem Room.grown (h : Room B target t) (g : Grown geometry 0 t u) : Room B target u := by
  unfold Room
  rw [g.balance]
  exact h

theorem wp_rsect {Q : Block → State → Prop} {E : Stop → Prop} {sec : ℕ} (hsec : sec < FSSIZE)
    (hQ : Q (s.img sec) s) : wp (rsect sec) Q E s := by
  rw [rsect,wp_bind,wp_get,if_pos hsec]
  exact hQ

theorem wp_rsect_die {Q : Block → State → Prop} {sec : ℕ} (hsec : FSSIZE ≤ sec) (hB : B) :
    wp (rsect sec) Q (fun _ => B) s := by
  rw [rsect,wp_bind,wp_get,if_neg (not_lt.mpr hsec)]
  exact hB

theorem view_wsect {sec : ℕ} (hsec : Xv6.nmeta geometry ≤ sec) (buf : Block) :
    view {s with img := Function.update s.img sec buf} = Function.update (view s) sec buf :=
  Function.update_comm (Nat.ne_of_gt (lt_of_lt_of_le (by decide) hsec)) _ _ _

theorem wp_sectorOf_entry (h : Tracks s din t) (hw : Within target t.blk din)
    (hroom : Room B target t) (hind : din.addrs indirect ≠ 0) {j : ℕ} (hj : j < NINDIRECT)
    (hk : NDIRECT+1+j < blocksFor target) :
    wp (do
      let buf ← rsect (din.addrs indirect).toNat
      if entryOf buf j = 0 then do
        let b ← nextBlock
        wsect (din.addrs indirect).toNat (setEntry buf j b)
        return (b,din)
      else return (entryOf buf j,din))
      (Found B s t (· = NDIRECT+1+j) (NDIRECT+1+j)) (fun _ => B) s := by
  have hnode := h.node
  have hptr : ptr t.blk din (NDIRECT+1+j) = entryOf (t.blk (din.addrs indirect).toNat) j :=
    ptr_entry hj hind
  have hindptr : ptr t.blk din NDIRECT ≠ 0 := by
    rw [ptr_indirect]
    exact fun h0 => hind (UInt32.toNat_inj.mp h0)
  obtain ⟨hmeta,hltfree⟩ := h.ptr_bounds hindptr
  rw [ptr_indirect] at hmeta hltfree
  have hblk : t.blk (din.addrs indirect).toNat = s.img (din.addrs indirect).toNat := by
    rw [h.blk,view_data hmeta]
  rw [wp_bind]
  apply wp_rsect (hltfree.trans_le h.le)
  rw [← hblk,wp_ite]
  constructor
  · intro h0
    rw [wp_bind,nextBlock,wp_bind,wp_get,wp_bind,wp_set,wp_pure,wp_bind,wsect,wp_modify,wp_pure]
    by_cases hlt : s.freeblock < FSSIZE
    · have hbit := h.free hlt
      have hfree := h.serving.own.nmeta_le_of_free hbit
      have hpos := nmeta_pos geometry
      obtain ⟨hg,hself,honly⟩ := h.serving.take_entry hj (by rwa [hnode])
        (by rwa [hnode]) hlt hbit
      rw [hnode] at hg hself honly
      refine .inr ⟨hlt,by simp only; omega,rfl,_,hg,?_,hself.symm,?_⟩
      · have hsame : (taken geometry t s.freeblock).blk (din.addrs indirect).toNat =
            t.blk (din.addrs indirect).toNat := by
          rw [h.taken_blk hlt,view_data hmeta,hblk]
        exact {
          serving := hg.serving
          blk := by
            rw [logged_blk,hsame,h.taken_blk hlt]
            exact (view_wsect hmeta _).symm
          node := hnode
          zero := by
            intro b hb
            have hne : b ≠ (din.addrs indirect).toNat := by
              change s.freeblock+1 ≤ b at hb
              omega
            change Function.update s.img _ _ b = _
            rw [Function.update_of_ne hne]
            exact h.zero b (Nat.le_of_succ_le hb)
          le := hlt }
      · intro l hl hne
        by_contra hlj
        rw [hnode] at hl
        change ptr _ (t.itable 0).d l ≠ 0 at hne
        rw [hnode] at hne
        exact hne ((honly l hlj).trans hl)
    · refine .inl ⟨not_lt.mp hlt,hroom.resolve_right fun hr => hlt ?_⟩
      rw [hnode] at hr
      exact h.room hw hr hk (by rw [hptr,h0])
  · intro h0
    have hne : ptr t.blk din (NDIRECT+1+j) ≠ 0 := by rwa [hptr]
    have hb := h.ptr_bounds hne
    rw [hptr] at hb
    exact .inr ⟨hb.2.trans_le h.le,h0,rfl,t,.refl h.serving,h,hptr.symm,
      fun _ hz hnz => absurd hz hnz⟩

theorem wp_sectorOf (h : Tracks s din t) (hw : Within target t.blk din) (hroom : Room B target t)
    {fbn : ℕ} (hmax : fbn < MAXFILE) (hfbn : fbn*BSIZE < target) :
    wp (sectorOf din fbn) (Found B s t (Through fbn) (slotOf fbn)) (fun _ => B) s := by
  have hneed : ∀ k, Through fbn k → k < blocksFor target :=
    fun k hk => lt_blocksFor_of_through hk hfbn
  unfold sectorOf
  by_cases hdir : fbn < NDIRECT
  · have hslot : slotOf fbn = fbn := if_pos hdir
    rw [dif_pos hdir]
    refine wp_conseq (wp_addrOf h hw hroom (k := ⟨fbn,Nat.lt_succ_of_lt hdir⟩)
      (hneed _ (.inl hslot.symm))) ?_
    rintro r s' (hbad | ⟨hlt,hne,hino,u,hg,htr,hr,hf⟩)
    · exact .inl hbad
    · refine .inr ⟨hlt,hne,hino,u,hg,htr,by rw [hslot]; exact hr,?_⟩
      exact fun k hz hnz => .inl (by rw [hslot]; exact hf k hz hnz)
  · have hj : fbn-NDIRECT < NINDIRECT := by
      unfold MAXFILE at hmax
      omega
    have hslot : slotOf fbn = NDIRECT+1+(fbn-NDIRECT) := by
      rw [slotOf,if_neg hdir]
      omega
    have hthrough : Through fbn NDIRECT := .inr ⟨rfl,not_lt.mp hdir⟩
    rw [dif_neg hdir,wp_bind]
    refine wp_conseq (wp_addrOf h hw hroom (k := indirect) (hneed _ hthrough)) ?_
    rintro ⟨ind,din'⟩ s' (⟨hge,hB⟩ | ⟨hlt,hne,hino,u,hg,htr,hr,hf⟩)
    · rw [wp_bind]
      exact wp_rsect_die hge hB
    · change ind = ptr u.blk din' NDIRECT at hr
      rw [ptr_indirect] at hr
      change Tracks s' din' u at htr
      subst hr
      have hind : din'.addrs indirect ≠ 0 := by
        intro h0
        apply hne
        change (din'.addrs indirect).toNat = 0
        rw [h0]
        rfl
      have hwu : Within target u.blk din' := by
        rw [← htr.node]
        refine Within.fills (by rwa [h.node]) hf ?_
        rintro k rfl
        exact hneed _ hthrough
      refine wp_conseq (wp_sectorOf_entry htr hwu (hroom.grown hg) hind hj
        (hneed _ (.inl hslot.symm))) ?_
      rintro r s'' (hbad | ⟨hlt',hne',hino',v,hg',htr',hr',hf'⟩)
      · exact .inl hbad
      · refine .inr ⟨hlt',hne',hino'.trans hino,v,hg.trans hg',htr',by rw [hslot]; exact hr',?_⟩
        intro k hz hnz
        by_cases hk : ptr u.blk (u.itable 0).d k = 0
        · exact .inl (by rw [hslot]; exact hf' k hk hnz)
        · exact .inr ⟨hf k hz hk,not_lt.mp hdir⟩

theorem wp_assert {p : Prop} [Decidable p] {Q : Unit → State → Prop} (hp : B ∨ p)
    (hQ : p → Q () s) : wp (assert p) Q (fun _ => B) s := by
  rw [assert,wp_ite]
  exact ⟨hQ,fun hnot => hp.resolve_right hnot⟩

theorem Tracks.write (h : Tracks s din t) {sec : ℕ} (hne : sec ≠ 0) {k : ℕ}
    (hsec : sec = ptr t.blk din k) (buf : Block)
    (hserv : Serving geometry (t.logged sec buf) 0) :
    Tracks {s with img := Function.update s.img sec buf} din (t.logged sec buf) := by
  obtain ⟨hmeta,hlt⟩ := h.ptr_bounds (k := k) (by rwa [← hsec])
  rw [← hsec] at hmeta hlt
  exact {
    serving := hserv
    blk := by rw [logged_blk,h.blk,view_wsect hmeta]
    node := h.node
    zero := by
      intro b hb
      change s.freeblock ≤ b at hb
      change Function.update s.img sec buf b = _
      rw [Function.update_of_ne (by omega)]
      exact h.zero b hb
    le := h.le }

theorem wp_iappendLoop {p : List UInt8} {off : ℕ} {t₀ : Fs}
    (hmax : B ∨ off+p.length ≤ MAXFILE*BSIZE) (hroom : Room B (off+p.length) t₀) {fuel tot : ℕ}
    (hfuel : p.length-tot ≤ fuel) (htot : tot ≤ p.length)
    (hw : Written geometry 0 (fun i => p.getD i 0) off tot t₀ t) (hl : Logs t₀ t)
    (h : Tracks s din t) (hin : Within (off+p.length) t.blk din) :
    wp (iappendLoop fuel din (off+tot) (p.drop tot)) (fun r s' => r.1 = off+p.length ∧
      s'.freeinode = s.freeinode ∧ ∃ u,
        Written geometry 0 (fun i => p.getD i 0) off p.length t₀ u ∧ Logs t₀ u ∧
        Tracks s' r.2 u ∧ Within (off+p.length) u.blk r.2) (fun _ => B) s := by
  induction fuel generalizing tot s din t with
  | zero =>
    obtain rfl : tot = p.length := by omega
    exact ⟨rfl,rfl,t,hw,hl,h,hin⟩
  | succ fuel ih =>
    rw [iappendLoop]
    by_cases hlt : tot < p.length
    case neg =>
      obtain rfl : tot = p.length := by omega
      rw [if_pos (by simp)]
      exact ⟨rfl,rfl,t,hw,hl,h,hin⟩
    have hne : p.drop tot ≠ [] := by
      rw [ne_eq,List.drop_eq_nil_iff]
      omega
    have hdm := Nat.div_add_mod' (off+tot) BSIZE
    have hmod : (off+tot)%BSIZE < BSIZE := Nat.mod_lt _ (by decide)
    rw [if_neg hne,wp_bind]
    apply wp_assert (hmax.imp_right fun hle => div_lt_MAXFILE (by omega))
    intro hfbn
    rw [wp_bind]
    have hroomt : Room B (off+p.length) t := by
      unfold Room
      rw [hw.balance]
      exact hroom
    refine wp_conseq (wp_sectorOf h hin hroomt hfbn (by omega)) ?_
    rintro ⟨x,din'⟩ s' (⟨hge,hB⟩ | ⟨hx,hx0,hino,u,hg,htr,hxp,hf⟩)
    · rw [wp_bind]
      exact wp_rsect_die hge hB
    change x < FSSIZE at hx
    change x ≠ 0 at hx0
    change Tracks s' din' u at htr
    change x = ptr u.blk din' _ at hxp
    have hwu := hw.grow hg hf
    have hlu := hl.trans hg.changed hg.lh_mono
    have hinu : Within (off+p.length) u.blk din' := by
      rw [← htr.node]
      refine Within.fills (by rwa [h.node]) hf fun k hk => ?_
      exact lt_blocksFor_of_through hk (by omega)
    have hpiece : min (p.drop tot).length (((off+tot)/BSIZE+1)*BSIZE-(off+tot)) =
        piece p.length off tot := by
      rw [piece,List.length_drop,Nat.add_mul,Nat.one_mul]
      omega
    have hoffset : off+tot-(off+tot)/BSIZE*BSIZE = (off+tot)%BSIZE := by omega
    have hbytes : (fun i => (p.drop tot).getD i 0) = fun i => p.getD (tot+i) 0 := by
      funext i
      simp
    have himg : s'.img x = u.blk x := by
      rw [htr.blk,view_data]
      rw [hxp]
      exact (htr.ptr_bounds (by rwa [← hxp])).1
    have hpos : 0 < piece p.length off tot := by
      unfold piece
      omega
    rw [wp_bind]
    apply wp_rsect hx
    rw [wp_bind,wsect,wp_modify]
    simp only [hpiece,hoffset,hbytes,himg,List.drop_drop,Nat.add_assoc off]
    have hstep : Written geometry 0 (fun i => p.getD i 0) off (tot+piece p.length off tot) t₀
        (u.logged x (blit (u.blk x) ((off+tot)%BSIZE) (piece p.length off tot)
          fun i => p.getD (tot+i) 0)) := by
      have hxn : x = ptr u.blk (u.itable 0).d (slotOf ((off+tot)/BSIZE)) := by rw [htr.node,hxp]
      refine hwu.write (by rwa [← hxn]) ?_ ?_ rfl ?_ (.inr ⟨hpos,?_⟩) rfl rfl
      · unfold piece
        omega
      · rw [← hxn]
        rfl
      · exact fun b hb => mem_recordBlock.mpr (.inl hb)
      · intro b hb
        rw [← hxn]
        exact mem_recordBlock.mp hb
    refine wp_conseq (ih (by omega) (by unfold piece; omega) hstep
      (hlu.trans (.logged _ _ _) fun b hb => mem_recordBlock.mpr (.inl hb))
      (htr.write hx0 hxp _ hstep.serving) ?_) ?_
    · have hsame : ∀ buf k, ptr (u.logged x buf).blk (u.itable 0).d k =
          ptr u.blk (u.itable 0).d k := fun buf k =>
        hwu.serving.store_data_ptr_self (by rwa [htr.node,← hxp])
          (by rw [htr.node,← hxp,logged_blk]) k
      intro k hk
      rw [htr.node] at hsame
      rw [hsame] at hk
      exact hinu k hk
    · rintro r s'' ⟨hr,hino',hex⟩
      exact ⟨hr,hino'.trans hino,hex⟩

end Alloc

def sizeAt (T : FileTree) (i : ℕ) : ℕ := ((T i).map fun n => n.bytes.length).getD 0

def used (T : FileTree) : ℕ := ∑ i ∈ Finset.range NINODES, blocksFor (sizeAt T i)

structure Fits (T : FileTree) : Prop where
  size_le : ∀ i, sizeAt T i ≤ MAXFILE*BSIZE
  room : nmeta+used T ≤ FSSIZE

/-- The blocks written so far represent the tree, and no block has been taken in vain. -/
structure Built (s : State) (T : FileTree) : Prop where
  consistent : Consistent geometry (view s)
  tree_eq : tree geometry (view s) = T
  within : ∀ i < NINODES, (dinodeOf geometry (view s) i).type ≠ 0 →
    Within (dinodeOf geometry (view s) i).size.toNat (view s) (dinodeOf geometry (view s) i)
  zero : ∀ b, s.freeblock ≤ b → s.img b = fun _ => 0
  le : s.freeblock ≤ FSSIZE
  count : s.freeblock = nmeta+used T

section Trees

variable {T U : FileTree} {i : ℕ} {n : Node}

theorem sizeAt_some (h : T i = some n) : sizeAt T i = n.bytes.length := by
  simp [sizeAt,h]

theorem sizeAt_update (T : FileTree) (i : ℕ) (n : Node) :
    sizeAt (Function.update T i (some n)) = Function.update (sizeAt T) i n.bytes.length := by
  funext j
  by_cases hj : j = i
  · subst hj
    simp [sizeAt]
  · simp [sizeAt,hj]

theorem used_update (hi : i < NINODES) (n : Node) :
    used (Function.update T i (some n))+blocksFor (sizeAt T i) =
      used T+blocksFor n.bytes.length := by
  have hmem : i ∈ Finset.range NINODES := Finset.mem_range.mpr hi
  unfold used
  rw [sizeAt_update,Finset.sum_eq_add_sum_sdiff_singleton_of_mem hmem,
    Finset.sum_eq_add_sum_sdiff_singleton_of_mem hmem fun j => blocksFor (sizeAt T j),
    Function.update_self]
  have hrest : ∀ j ∈ Finset.range NINODES \ {i},
      blocksFor (Function.update (sizeAt T) i n.bytes.length j) = blocksFor (sizeAt T j) := by
    intro j hj
    rw [Function.update_of_ne (by simpa using (Finset.mem_sdiff.mp hj).2)]
  rw [Finset.sum_congr rfl hrest]
  omega

theorem Fits.mono (h : Fits U) (hle : ∀ i, sizeAt T i ≤ sizeAt U i) : Fits T where
  size_le i := (hle i).trans (h.size_le i)
  room := by
    have hsum : used T ≤ used U := Finset.sum_le_sum fun i _ => blocksFor_mono (hle i)
    have := h.room
    omega

end Trees

section Append

variable {s : State} {T : FileTree} {B : Prop} {inum : ℕ} {d : Dinode} {n : Node}

def putInode (s : State) (inum : ℕ) (d : Dinode) : State :=
  {s with img := putDinode geometry s.img inum d}

def withSize (d : Dinode) (k : ℕ) : Dinode := {d with size := UInt32.ofNat k}

theorem view_putInode (hi : inum < NINODES) (d : Dinode) :
    view (putInode s inum d) = putDinode geometry (view s) inum d := by
  have hne := IBLOCK_ne_bmapstart hi
  rw [view,putInode,putDinode,putDinode,view_of_ne hne,view,Function.update_comm hne.symm]

theorem wp_winode {Q : Unit → State → Prop} {E : Stop → Prop} (hi : inum < NINODES)
    (hQ : Q () (putInode s inum d)) : wp (winode inum d) Q E s := by
  rw [winode,wp_bind]
  exact wp_rsect (IBLOCK_lt_FSSIZE hi) hQ

theorem wp_rinode {Q : Dinode → State → Prop} {E : Stop → Prop} (hi : inum < NINODES)
    (hQ : Q (dinodeOf geometry (view s) inum) s) : wp (rinode inum) Q E s := by
  rw [rinode,wp_bind]
  apply wp_rsect (IBLOCK_lt_FSSIZE hi)
  rw [dinodeOf,view_of_ne (IBLOCK_ne_bmapstart hi)] at hQ
  exact hQ

theorem putDinode_zero (hi : inum < NINODES) (hmeta : Xv6.nmeta geometry ≤ s.freeblock)
    (hzero : ∀ b, s.freeblock ≤ b → s.img b = fun _ => 0) {b : ℕ} (hb : s.freeblock ≤ b) :
    putDinode geometry s.img inum d b = fun _ => 0 := by
  have hi' : inum < geometry.ninodes := hi
  rw [putDinode_data hi' (hmeta.trans hb)]
  exact hzero b hb

theorem Built.nmeta_le (h : Built s T) : Xv6.nmeta geometry ≤ s.freeblock := by
  rw [h.count]
  exact Nat.le_add_right _ _

theorem Built.loaded (h : Built s T) (hi : T inum = some n) :
    Loaded geometry (opened (view s) inum (dinodeOf geometry (view s) inum)) 0 := by
  rw [← h.tree_eq] at hi
  obtain ⟨hlt,ht,-⟩ := tree_some hi
  exact ⟨hlt,rfl,ht⟩

theorem Built.tracks (h : Built s T) (hi : T inum = some n) :
    Tracks s (dinodeOf geometry (view s) inum)
      (opened (view s) inum (dinodeOf geometry (view s) inum)) where
  serving := (h.loaded hi).serving h.consistent
  blk := rfl
  node := rfl
  zero := h.zero
  le := h.le

theorem written_le {src : Mem} {off tot : ℕ} {t u : Fs} (hoff : off ≤ MAXFILE*BSIZE)
    (h : Written geometry 0 src off tot t u) : off+tot ≤ MAXFILE*BSIZE := by
  by_contra hlt
  have hpos : 0 < tot := by omega
  apply h.mapped (off+tot-1) (by omega) (by omega)
  apply ptr_eq_zero_of_ge
  have hdiv : MAXFILE ≤ (off+tot-1)/BSIZE := (Nat.le_div_iff_mul_le (by decide)).mpr (by omega)
  unfold MAXFILE at hdiv
  rw [slotOf,if_neg (by omega)]
  omega

def extend (n : Node) (p : List UInt8) : Node := {n with bytes := n.bytes++p}

theorem overwrite_end (l p : List UInt8) :
    ByteFile.overwrite l l.length (srcList (fun i => p.getD i 0) p.length) = l++p := by
  have hsrc : srcList (fun i => p.getD i 0) p.length = p := by
    apply List.ext_getElem
    · simp [srcList]
    · intro i h1 h2
      simp [srcList,h2]
  rw [hsrc,ByteFile.overwrite,List.take_length,List.drop_eq_nil_of_le (Nat.le_add_right _ _),
    List.append_nil]

theorem growTo_eq_withSize {din : Dinode} {k : ℕ} (hle : din.size.toNat ≤ k) (hk : k < 2^32) :
    growTo (UInt32.ofNat k) din = withSize din k := by
  have hof : (UInt32.ofNat k).toNat = k := UInt32.toNat_ofNat_of_lt' hk
  rw [growTo]
  split
  · rfl
  case isFalse hnot =>
    rw [UInt32.lt_iff_toNat_lt,hof] at hnot
    have heq : UInt32.ofNat k = din.size := by
      rw [← UInt32.toNat_inj,hof]
      omega
    rw [withSize,heq]

theorem Built.append (h : Built s T) (hi : T inum = some n) {p : List UInt8} {s' : State}
    {din : Dinode} {u : Fs} (hd : d = dinodeOf geometry (view s) inum)
    (hw : Written geometry 0 (fun i => p.getD i 0) d.size.toNat p.length
      (opened (view s) inum d) u) (hl : Logs (opened (view s) inum d) u) (htr : Tracks s' din u)
    (hin : Within (d.size.toNat+p.length) u.blk din) :
    Built (putInode s' inum (withSize din (d.size.toNat+p.length)))
      (Function.update T inum (some (extend n p))) := by
  have htree := hi
  rw [← h.tree_eq] at htree
  obtain ⟨hlt,ht,hn⟩ := tree_some htree
  rw [← hd] at ht hn
  have hloaded : Loaded geometry (opened (view s) inum d) 0 := hd ▸ h.loaded hi
  have hsized : Sized (view s) d := hd ▸ h.consistent.sized inum hlt (by rwa [← hd])
  have hmax := written_le hsized.size_le hw
  have hwrote := hw.finish h.consistent hloaded le_rfl (le_refl d.size.toNat) hmax
  have hinum : (u.itable 0).inum = inum := hw.inum_eq
  have hsize : din.size = d.size := by
    rw [← htr.node]
    exact hw.size_eq
  have h32 : d.size.toNat+p.length < 2^32 := lt_of_le_of_lt hmax (by decide)
  have hof : (UInt32.ofNat (d.size.toNat+p.length)).toNat = d.size.toNat+p.length :=
    UInt32.toNat_ofNat_of_lt' h32
  have hgrow : growTo (UInt32.ofNat (d.size.toNat+p.length)) (u.itable 0).d =
      withSize din (d.size.toNat+p.length) := by
    rw [htr.node,growTo_eq_withSize (by rw [hsize]; omega) h32]
  set u' := flush geometry (sizeUp (UInt32.ofNat (d.size.toNat+p.length)) u 0) 0 with hu'
  have hd' : (u'.itable 0).d = withSize din (d.size.toNat+p.length) := by
    rw [hu',flush_itable,sizeUp_self,hgrow]
  have hview : view (putInode s' inum (withSize din (d.size.toNat+p.length))) = u'.blk := by
    rw [view_putInode hlt,← htr.blk,hu',flush,logged_blk,sizeUp_blk,sizeUp_self,hgrow,hinum]
    rfl
  have hdinode : ∀ j < NINODES, dinodeOf geometry u'.blk j =
      if j = inum then withSize din (d.size.toNat+p.length) else dinodeOf geometry (view s) j := by
    intro j hj
    split
    case isTrue heq =>
      rw [heq,← hd',hwrote.loaded.same]
      have : (u'.itable 0).inum = inum := by rw [hu',flush_itable,sizeUp_self]; exact hinum
      rw [this]
    case isFalse hne => exact hwrote.dinodes j hj hne
  have hwithin : ∀ i < NINODES, (dinodeOf geometry u'.blk i).type ≠ 0 →
      Within (dinodeOf geometry u'.blk i).size.toNat u'.blk (dinodeOf geometry u'.blk i) := by
    intro j hj htj k hk
    rw [hdinode j hj] at htj hk ⊢
    split at htj
    case isTrue heq =>
      rw [if_pos heq] at hk ⊢
      rw [← hgrow,hu',htr.serving.end_ptr,htr.node] at hk
      change k < blocksFor (UInt32.ofNat _).toNat
      rw [hof]
      exact hin k hk
    case isFalse hne =>
      rw [if_neg hne] at hk ⊢
      refine h.within j hj htj k ?_
      rw [hu'] at hk
      exact hw.end_ptr_other h.consistent hloaded rfl hl hj htj hne k ▸ hk
  exact {
    consistent := by rw [hview]; exact hwrote.consistent
    tree_eq := by
      have hmin : min p.length (max d.size.toNat (d.size.toNat+p.length)-d.size.toNat) =
          p.length := by omega
      have hend := overwrite_end (fileOf (view s) d) p
      rw [length_fileOf] at hend
      rw [hview,hwrote.tree_eq (le_refl d.size.toNat) le_rfl]
      change Function.update (tree geometry (view s)) inum (some {nodeOf (view s) d with
        bytes := ByteFile.overwrite (fileOf (view s) d) d.size.toNat (srcList _
          (min p.length (max d.size.toNat (d.size.toNat+p.length)-d.size.toNat)))}) = _
      rw [hmin,hend,h.tree_eq,hn]
      rfl
    within := by rw [hview]; exact hwithin
    zero := fun b hb => putDinode_zero hlt htr.nmeta_le htr.zero hb
    le := htr.le
    count := by
      have hbal := hwrote.balance
      have hlen : n.bytes.length = d.size.toNat := by rw [hn,nodeOf,length_fileOf]
      have hused := used_update (T := T) hlt (extend n p)
      have hself := hdinode inum hlt
      rw [if_pos rfl] at hself
      have hsz := hwrote.consistent.sized inum hlt
      have hwi := hwithin inum hlt
      rw [hself,← hgrow,growTo_type] at hsz hwi
      have htu : (u.itable 0).d.type ≠ 0 := htr.serving.typed
      have hnew := mappedSlots_eq (hsz htu) (hwi htu)
      have hold := mappedSlots_eq hsized (hd ▸ h.within inum hlt (by rwa [← hd]))
      rw [hd',← hgrow,hnew,hgrow] at hbal
      change (freeBlocks geometry u'.blk).card+(Finset.range (blocksFor (UInt32.ofNat _).toNat)).card
        = (freeBlocks geometry (view s)).card+(mappedSlots (view s) d).card at hbal
      rw [← hview,card_freeBlocks,card_freeBlocks,hold,Finset.card_range,Finset.card_range,
        hof] at hbal
      rw [sizeAt_some hi,hlen,extend,List.length_append,hlen] at hused
      have hle := htr.le
      have hle' := h.le
      have hcount := h.count
      change FSSIZE-s'.freeblock+_ = _ at hbal
      change s'.freeblock = _
      rw [extend]
      omega }

/-- `iappend` adds the bytes to the node, however they fall on the blocks. -/
theorem wp_iappend (h : Built s T) (hi : T inum = some n) {p : List UInt8}
    (hroom : B ∨ Fits (Function.update T inum (some (extend n p)))) :
    wp (iappend inum p) (fun _ s' => Built s' (Function.update T inum (some (extend n p))) ∧
      s'.freeinode = s.freeinode) (fun _ => B) s := by
  have htree := hi
  rw [← h.tree_eq] at htree
  obtain ⟨hlt,ht,hn⟩ := tree_some htree
  set d := dinodeOf geometry (view s) inum with hd
  have htr := h.tracks hi
  have hsized := h.consistent.sized inum hlt ht
  have hwithin := h.within inum hlt ht
  rw [← hd] at htr hsized hwithin
  have hlen : n.bytes.length = d.size.toNat := by rw [hn,nodeOf,length_fileOf]
  have hmax : B ∨ d.size.toNat+p.length ≤ MAXFILE*BSIZE := by
    refine hroom.imp_right fun hf => ?_
    have hle := hf.size_le inum
    rwa [sizeAt_update,Function.update_self,extend,List.length_append,hlen] at hle
  have hspace : Room B (d.size.toNat+p.length) (opened (view s) inum d) := by
    refine hroom.imp_right fun hf => ?_
    have hfit := hf.room
    have hused := used_update (T := T) hlt (extend n p)
    have hcount := h.count
    rw [sizeAt_some hi,hlen,extend,List.length_append,hlen] at hused
    rw [extend] at hfit
    change _ ≤ (freeBlocks geometry (view s)).card+(mappedSlots (view s) d).card
    rw [card_freeBlocks,mappedSlots_eq hsized hwithin,Finset.card_range]
    omega
  have hloop := wp_iappendLoop hmax hspace (Nat.sub_le p.length 0) (Nat.zero_le _)
    (.refl htr.serving) (fun b => .inl rfl) htr (hwithin.mono (Nat.le_add_right _ _))
  rw [Nat.add_zero,List.drop_zero] at hloop
  rw [iappend,wp_bind]
  apply wp_rinode hlt
  rw [← hd,wp_bind]
  refine wp_conseq hloop ?_
  rintro ⟨off,din⟩ s' ⟨hoff,hino,u,hw,hl,htr',hin⟩
  change off = _ at hoff
  subst hoff
  exact wp_winode hlt ⟨h.append hi hd hw hl htr' hin,hino⟩

theorem wp_ialloc {E : Stop → Prop} {type : Int16} (h : Built s T) (hfree : T s.freeinode = none)
    (hlt : s.freeinode < NINODES) (htype : type ≠ 0) :
    wp (ialloc type) (fun r s' => r = s.freeinode ∧ s'.freeinode = s.freeinode+1 ∧
      Built s' (Function.update T s.freeinode (some ⟨type,0,0,1,[]⟩))) E s := by
  set i := s.freeinode with hidef
  set d : Dinode := {Dinode.zero with type := type,nlink := 1} with hddef
  have hzero : (dinodeOf geometry (view s) i).type = 0 := by
    rw [← h.tree_eq] at hfree
    exact tree_eq_none_iff.mp hfree hlt
  have hptr : ∀ k, ptr (view s) d k = 0 := fun k => ptr_hollow (view s) d k
  have hput := h.consistent.put_empty (i := i) (d := d) hlt (fun ht => absurd hzero ht) rfl hptr
  rw [if_neg htype] at hput
  rw [ialloc,wp_bind,wp_get,wp_bind,wp_set,wp_bind]
  apply wp_winode hlt
  refine ⟨rfl,rfl,?_⟩
  have hview : view (putInode {s with freeinode := i+1} i d) = putDinode geometry (view s) i d :=
    view_putInode (s := {s with freeinode := i+1}) hlt d
  exact {
    consistent := by
      rw [hview]
      exact hput.1
    tree_eq := by
      rw [hview,hput.2,h.tree_eq]
      rfl
    within := by
      rw [hview,dinodeOf_putDinode]
      intro j hj ht k hk
      by_cases hji : j = i
      · rw [hji,Function.update_self] at hk
        have h0 : ptr (putDinode geometry (view s) i d) d k = 0 := ptr_hollow _ d k
        exact absurd h0 hk
      · rw [Function.update_of_ne hji] at ht hk ⊢
        apply h.within j hj ht k
        rwa [ptr_congr] at hk
        intro hind
        exact putDinode_data hlt (h.consistent.own.data (owner_indirect hj ht hind)).1
    zero := fun b hb => putDinode_zero hlt h.nmeta_le h.zero hb
    le := h.le
    count := by
      have hused := used_update (T := T) hlt ⟨type,0,0,1,[]⟩
      have hsize : sizeAt T i = 0 := by simp [sizeAt,hfree]
      rw [hsize] at hused
      change _+_ = _+blocksFor 0 at hused
      change s.freeblock = _
      rw [h.count]
      omega }

end Append

end Mkfs
end Xv6
