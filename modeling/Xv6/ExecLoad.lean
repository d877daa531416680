import Xv6.ExecImage

/-! `loadseg` and the loop over the program headers: the bytes of the segments, each over the ones
before. -/
namespace Xv6.Exec

open Bytes Command Vm

theorem readCount_le_toNat (size off n : UInt32) : Fs.readCount size off n ≤ n.toNat := by
  unfold Fs.readCount
  split
  · exact Nat.zero_le _
  · exact Nat.min_le_left _ _

theorem add_le_of_readCount {size off n : UInt32} (h : Fs.readCount size off n = n.toNat)
    (hn : 0 < n.toNat) : off.toNat+n.toNat ≤ size.toNat := by
  by_cases hbad : size < off ∨ off+n < off
  · rw [Fs.readCount,if_pos hbad] at h
    omega
  · rw [← h]
    exact Fs.readCount_le hbad

def header (f : FileData) (off : UInt32) : Proghdr :=
  Proghdr.decode (readi f off (UInt32.ofNat proghdrSize)).2

def next (off : UInt32) : UInt32 := off+UInt32.ofNat proghdrSize

def segment (f : FileData) (ph : Proghdr) (c : ℕ → UInt8) : ℕ → UInt8 :=
  blit c ph.vaddr ph.filesz fun i => f.data (ph.off%2^32+i)

/-- The bytes of `n` program headers from `off` on over those there are. -/
def segments (f : FileData) : ℕ → UInt32 → (ℕ → UInt8) → ℕ → UInt8
  | 0, _, c => c
  | n+1, off, c => segments f n (next off)
      (if (header f off).type = ELF_PROG_LOAD then segment f (header f off) c else c)

/-- The header at `off` is of a segment with file bytes for `va`. -/
def Covers (f : FileData) (off : UInt32) (va : ℕ) : Prop :=
  (header f off).type = ELF_PROG_LOAD ∧ (header f off).vaddr ≤ va ∧
    va < (header f off).vaddr+(header f off).filesz

theorem segments_last {f : FileData} {n : ℕ} {off : UInt32} {c : ℕ → UInt8} {va : ℕ} :
    (∀ i < n, Covers f (next^[i] off) va → (∀ j < n, i < j → ¬ Covers f (next^[j] off) va) →
      segments f n off c va =
        f.data ((header f (next^[i] off)).off%2^32+(va-(header f (next^[i] off)).vaddr))) ∧
    ((∀ i < n, ¬ Covers f (next^[i] off) va) → segments f n off c va = c va) := by
  induction n generalizing off c with
  | zero => exact ⟨fun i hi => absurd hi (Nat.not_lt_zero i),fun _ => rfl⟩
  | succ n ih =>
    obtain ⟨ihlast,ihnone⟩ := @ih (next off)
      (if (header f off).type = ELF_PROG_LOAD then segment f (header f off) c else c)
    constructor
    · intro i hi hcov hlast
      cases i with
      | zero =>
        have htype : (header f off).type = ELF_PROG_LOAD := hcov.1
        rw [segments,ihnone fun j hj => hlast (j+1) (by omega) (by omega),if_pos htype]
        exact blit_inside hcov.2.1 hcov.2.2
      | succ i =>
        rw [segments]
        exact ihlast i (by omega) hcov fun j hj hij => hlast (j+1) (by omega) (by omega)
    · intro hnone
      rw [segments,ihnone fun j hj => hnone (j+1) (by omega)]
      split
      case isTrue htype =>
        apply blit_outside
        by_contra hin
        exact hnone 0 (by omega) ⟨htype,by simp only [Function.iterate_zero,id] at *; omega,
          by simp only [Function.iterate_zero,id] at *; omega⟩
      case isFalse => rfl

variable {E : ExecPanic → Prop} {k : Kernel}

theorem wp_onRam {a : RamM α} {Q : α → Kernel → Prop} :
    wp (onRam a) Q E k ↔ wp a (fun r ram => Q r {k with ram := ram}) (fun e => E (.vm e)) k.ram :=
  wp_zoom

theorem flags2perm_lt (flags : ℕ) : flags2perm flags < 2^10 := by
  unfold flags2perm
  split <;> split <;> decide

variable [KernelImage] {s₀ : Ram} {f : FileData} {p sz : ℕ}
  {N : Finset ℕ} {g : ℕ → Prop} {c : ℕ → UInt8}

def InRam (k : Kernel) (P : Ram → Prop) (t : Kernel) : Prop := ∃ ram, t = {k with ram := ram} ∧ P ram

theorem wp_loadsegLoop {va offset n fuel i : ℕ} (h : Image s₀ k.ram p sz N g
      (blit c va (min i n) fun j => f.data (offset+j)))
    (hg : ∀ va, ¬ g va) (hva : va%PGSIZE = 0) (hle : va+n ≤ PGROUNDUP sz) (hi : i%PGSIZE = 0)
    (hin : i < n+PGSIZE) (hoff : i < n → offset+i < 2^32) (hfuel : n+PGSIZE ≤ i+fuel*PGSIZE) :
    wp (loadsegLoop f p va offset n fuel i) (fun ok t => InRam k (fun ram => if ok then
      Image s₀ ram p sz N g (blit c va n fun j => f.data (offset+j))
      else ∃ c', Image s₀ ram p sz N g c') t) E k := by
  induction fuel generalizing k i with
  | zero => omega
  | succ fuel ih =>
    have htop := h.space.top_le
    have hpg : PGSIZE = 4096 := rfl
    rw [loadsegLoop,wp_ite]
    refine ⟨fun hlt => ?_,fun hge => ?_⟩
    · set m := if n-i < PGSIZE then n-i else PGSIZE with hm
      have hmle : m ≤ PGSIZE ∧ m ≤ n-i ∧ 0 < m ∧ min (i+PGSIZE) n = i+m := by
        rw [hm]
        split <;> omega
      have hmod : (va+i)%PGSIZE = 0 := by
        rw [Nat.add_mod,hva,hi]
        rfl
      have hmtop : va+i < PGROUNDUP sz := by omega
      have hmin : min i n = i := by omega
      rw [hmin] at h
      have hwalk : walkaddr k.ram.mem p ((va+i)%2^64) = frameOf k.ram.mem p (va+i) := by
        rw [Nat.mod_eq_of_lt (by omega)]
        exact h.walkaddr_eq hmtop (hg _)
      have hoffn : (UInt32.ofNat (offset+i)).toNat = offset+i := by
        rw [UInt32.toNat_ofNat']
        exact Nat.mod_eq_of_lt (hoff hlt)
      have hmn : (UInt32.ofNat m).toNat = m := by
        rw [UInt32.toNat_ofNat']
        exact Nat.mod_eq_of_lt (by omega)
      have hcount := readCount_le_toNat f.size (UInt32.ofNat (offset+i)) (UInt32.ofNat m)
      rw [hmn] at hcount
      have hblit : ∀ src, Image s₀ ⟨blit k.ram.mem (frameOf k.ram.mem p (va+i))
          (readi f (UInt32.ofNat (offset+i)) (UInt32.ofNat m)).1 src,k.ram.free⟩ p sz N g (blit (blit c va i fun j => f.data (offset+j)) (va+i)
            (readi f (UInt32.ofNat (offset+i)) (UInt32.ofNat m)).1 src) := by
        intro src
        have hstore := @Image.blit _ _ _ _ _ _ _ _ (va+i) _ src h hmtop (by
          rw [hmod]
          exact (Nat.zero_add _).le.trans (hcount.trans hmle.1))
        rwa [hmod,Nat.add_zero] at hstore
      simp only [wp_bind,wp_get,hwalk,if_neg (h.frameOf_ne_zero hmtop),blitRam,wp_modify]
      rw [wp_ite]
      refine ⟨fun _ => ⟨_,rfl,?_⟩,fun hfull => ?_⟩
      · beta_reduce
        rw [if_neg Bool.false_ne_true]
        exact ⟨_,hblit _⟩
      have hfull' : (readi f (UInt32.ofNat (offset+i)) (UInt32.ofNat m)).1 = m := not_not.mp hfull
      have hend := add_le_of_readCount (hfull'.trans hmn.symm) (by omega)
      have hsize := f.size.toNat_lt
      rw [hoffn,hmn] at hend
      have hsrc : (readi f (UInt32.ofNat (offset+i)) (UInt32.ofNat m)).2 =
          fun j => f.data (offset+(i+j)) := by
        funext j
        simp only [readi,hoffn,Nat.add_assoc]
      have happ := hblit fun j => f.data (offset+(i+j))
      rw [hfull',blit_append c (fun j => f.data (offset+j)) va i m] at happ
      rw [Nat.mod_eq_of_lt (by omega : i+PGSIZE < 2^32)]
      refine wp_conseq (ih (k := {k with ram := {k.ram with mem := _}}) ?_ ?_ ?_ ?_ ?_) ?_
      · rw [hmle.2.2.2,hfull',hsrc]
        exact happ
      · rw [Nat.add_mod,hi]
        rfl
      · omega
      · omega
      · rw [Nat.succ_mul] at hfuel
        omega
      · rintro ok t ⟨ram,rfl,hP⟩
        exact ⟨ram,rfl,hP⟩
    · refine ⟨k.ram,rfl,?_⟩
      rw [min_eq_right (not_lt.mp hge)] at h
      exact h

theorem wp_loadseg {va offset n : ℕ} (h : Image s₀ k.ram p sz N g c) (hg : ∀ va, ¬ g va)
    (hva : va%PGSIZE = 0) (hle : va+n ≤ PGROUNDUP sz) (hoff : offset < 2^32) :
    wp (loadseg f p va offset n) (fun ok t => InRam k (fun ram => if ok then
      Image s₀ ram p sz N g (blit c va n fun j => f.data (offset+j))
      else ∃ c', Image s₀ ram p sz N g c') t) E k := by
  have hpg : PGSIZE = 4096 := rfl
  refine wp_loadsegLoop ?_ hg hva hle (Nat.zero_mod _) (by omega) (fun _ => hoff) ?_
  · rw [Nat.zero_min,blit_zero]
    exact h
  · unfold PGSIZE
    omega

abbrev Loaded (s₀ : Ram) (p sz : ℕ) (c : ℕ → UInt8) (ram : Ram) : Prop :=
  ∃ N, Image s₀ ram p sz N (fun _ => False) c

theorem wp_segment {ph : Proghdr} {K : Bool → ℕ → KernelM (Bool × ℕ)} {Q : Bool × ℕ → Kernel → Prop}
    (h : Loaded s₀ p sz c k.ram) (hc : ∀ va, PGROUNDUP sz ≤ va → c va = 0)
    (hmem : ph.filesz ≤ ph.memsz) (hwrap : ph.vaddr ≤ (ph.vaddr+ph.memsz)%2^64)
    (hv64 : ph.vaddr < 2^64 ∧ ph.memsz < 2^64) (hal : ph.vaddr%PGSIZE = 0)
    (hbad : ∀ ram c', Loaded s₀ p sz c' ram → wp (K false sz) Q E {k with ram := ram})
    (hshort : ∀ ram sz1 c', Loaded s₀ p sz1 c' ram → wp (K false sz1) Q E {k with ram := ram})
    (hgood : ∀ ram sz1, sz ≤ sz1 → Loaded s₀ p sz1 (segment f ph c) ram →
      (∀ va, PGROUNDUP sz1 ≤ va → segment f ph c va = 0) →
      wp (K true sz1) Q E {k with ram := ram}) :
    wp (do
      let sz1 ← onRam (uvmalloc p sz ((ph.vaddr+ph.memsz)%2^64) (flags2perm ph.flags))
      if sz1 = 0 then K false sz
      else if ← loadseg f p ph.vaddr (ph.off%2^32) (ph.filesz%2^32) then K true sz1
      else K false sz1) Q E k := by
  obtain ⟨N,h⟩ := h
  have hsum : (ph.vaddr+ph.memsz)%2^64 = ph.vaddr+ph.memsz := by omega
  rw [hsum,wp_bind,wp_onRam]
  refine wp_conseq (h.wp_uvmalloc (fun va hva => ⟨hc va hva,not_false⟩) (flags2perm_lt _)) ?_
  rintro r ram ⟨N',⟨rfl,hi⟩ | ⟨rfl,hi⟩⟩
  · rw [wp_ite]
    refine ⟨fun hzero => ?_,fun hpos => ?_⟩
    · have hsz : max sz (ph.vaddr+ph.memsz) = sz := by omega
      rw [hsz] at hi
      exact hbad ram c ⟨N',hi⟩
    · have htop := hi.space.top_le
      have hup := le_PGROUNDUP (max sz (ph.vaddr+ph.memsz))
      have hfile : ph.filesz%2^32 = ph.filesz := Nat.mod_eq_of_lt (by omega)
      rw [hfile,wp_bind]
      refine wp_conseq (wp_loadseg (k := {k with ram := ram}) (f := f) hi (fun _ => not_false) hal
        (by omega) (Nat.mod_lt _ (by decide))) ?_
      rintro ok t ⟨ram',rfl,hok⟩
      cases ok with
      | false =>
        obtain ⟨c',hc'⟩ := hok
        exact hshort ram' _ c' ⟨N',hc'⟩
      | true =>
        refine hgood ram' _ (le_max_left _ _) ⟨N',hok⟩ fun va hva => ?_
        rw [segment,blit_outside (by omega)]
        exact hc va ((PGROUNDUP_mono (le_max_left _ _)).trans hva)
  · rw [if_pos rfl]
    exact hbad ram c ⟨N',hi⟩

theorem wp_loadLoop {n : ℕ} {off : UInt32} (h : Loaded s₀ p sz c k.ram)
    (hc : ∀ va, PGROUNDUP sz ≤ va → c va = 0) :
    wp (loadLoop f p n off sz) (fun l t => InRam k (fun ram => if l.1 then
      Loaded s₀ p l.2 (segments f n off c) ram ∧
        ∀ va, PGROUNDUP l.2 ≤ va → segments f n off c va = 0
      else ∃ c', Loaded s₀ p l.2 c' ram) t) E k := by
  induction n generalizing k off sz c with
  | zero => exact ⟨k.ram,rfl,h,hc⟩
  | succ n ih =>
    have hstop : ∀ (ram : Ram) (sz : ℕ) (c' : ℕ → UInt8), Loaded s₀ p sz c' ram →
        wp (pure (false,sz) : KernelM (Bool × ℕ)) (fun l t => InRam k (fun ram => if l.1 then
          Loaded s₀ p l.2 (segments f (n+1) off c) ram ∧
            ∀ va, PGROUNDUP l.2 ≤ va → segments f (n+1) off c va = 0
          else ∃ c', Loaded s₀ p l.2 c' ram) t) E {k with ram := ram} :=
      fun ram sz c' hc' => ⟨ram,rfl,c',hc'⟩
    have hhead : Proghdr.decode (readi f off (UInt32.ofNat proghdrSize)).2 = header f off := rfl
    have hv64 : (header f off).vaddr < 2^64 ∧ (header f off).memsz < 2^64 :=
      ⟨readLE_lt _ _ 8,readLE_lt _ _ 8⟩
    rw [loadLoop,wp_ite]
    refine ⟨fun _ => hstop k.ram sz c h,fun _ => ?_⟩
    simp only [hhead]
    rw [wp_ite]
    refine ⟨fun htype => ?_,fun htype => ?_⟩
    · rw [segments,if_neg htype]
      exact ih h hc
    · have htype' : (header f off).type = ELF_PROG_LOAD := not_not.mp htype
      rw [wp_ite]
      refine ⟨fun _ => hstop k.ram sz c h,fun hmem => ?_⟩
      rw [wp_ite]
      refine ⟨fun _ => hstop k.ram sz c h,fun hwrap => ?_⟩
      rw [wp_ite]
      refine ⟨fun _ => hstop k.ram sz c h,fun hal => ?_⟩
      refine wp_segment (K := fun ok sz1 => if ok then loadLoop f p n (next off) sz1
        else pure (false,sz1)) h hc (not_lt.mp hmem) (not_lt.mp hwrap) hv64 (not_not.mp hal)
        (fun ram c' hc' => hstop ram sz c' hc') hstop ?_
      intro ram sz1 _ hload hzero
      refine wp_conseq (ih (k := {k with ram := ram}) hload hzero) ?_
      rintro l t ⟨ram',rfl,hl⟩
      rw [segments,if_pos htype']
      exact ⟨ram',rfl,hl⟩

end Xv6.Exec
