import Xv6.FileWrite
import Xv6.RootTree

/-! Calls of `filewrite` on a shared `struct file` that all succeed: what they leave in the file,
for any number of them and any order of their chunks. -/
namespace Xv6
namespace FileWrite

open Bytes Command ByteFile Fs

def start (fs : Fs) (off : UInt32) : Sys := ⟨fs,off,fun _ => .idle,[]⟩

def Call.length : Call → ℕ
  | .idle => 0
  | .test q _ => q.length
  | .lock q _ => q.length
  | .done q _ _ => q.length
  | .ret q _ => q.length

/-- `bytes` are those at the start with the chunks of all calls from `off` on, every call's chunks
in order. -/
structure Merged (old : List UInt8) (off : ℕ) (s : Sys) (bytes : List UInt8) : Prop where
  contents : bytes = overwrite old off (allBytes s.chunks)
  inside : allBytes s.chunks ≠ [] → off ≤ old.length
  small : ∀ c ∈ s.chunks,c.2.length ≤ chunkMax
  complete : ∀ k q r,s.calls k = .ret q r → chunksOf s.chunks k = q.bytes
  owned : ∀ c ∈ s.chunks,s.calls c.1 ≠ .idle
  total : ∃ K : Finset ℕ,(∀ k,k ∈ K ↔ s.calls k ≠ .idle) ∧
    s.off.toNat = off+∑ k ∈ K,(s.calls k).length

theorem chunksOf_eq_allBytes {l : List (ℕ × List UInt8)} {k : ℕ} (h : ∀ c ∈ l,c.1 = k) :
    chunksOf l k = allBytes l := by
  rw [chunksOf,List.filter_eq_self.mpr]
  simpa using h

theorem Request.length_lt (q : Request) : q.length < 2^32 := by
  have := Int32.toInt_lt q.n
  unfold Request.length
  omega

section Main

variable {sb : Geometry} {ip : ℕ}

theorem Good.merged {inum off : ℕ} {bytes : List UInt8} {s : Sys}
    (h : Good sb ip inum off bytes s)
    (hret : ∀ k,s.calls k = .idle ∨ ∃ q,s.calls k = .ret q q.n.toInt) :
    ∃ nd,tree sb s.fs.blk inum = some nd ∧ Merged bytes off s nd.bytes := by
  obtain ⟨nd,hnode,-,hbytes⟩ := h.node
  have hcomplete : ∀ k q r,s.calls k = .ret q r → chunksOf s.chunks k = q.bytes := by
    intro k q r hk
    have := h.calls k
    rw [hk] at this
    exact this.2
  have hK : ∀ k,k ∈ h.finite.toFinset ↔ s.calls k ≠ .idle := fun k => h.finite.mem_toFinset
  refine ⟨nd,hnode,hbytes,h.start,h.small,hcomplete,h.owned,h.finite.toFinset,hK,?_⟩
  rw [h.off_eq,length_allBytes fun c hc => (hK c.1).mpr (h.owned c hc)]
  congr 1
  refine Finset.sum_congr rfl fun k hk => ?_
  obtain ⟨q,hq⟩ := (hret k).resolve_left ((hK k).mp hk)
  rw [hcomplete k q _ hq,hq,q.length_bytes]
  rfl

/-- One transaction for the whole buffer, if it returns, has the same effect. -/
theorem unchunked {fs u : Fs} {off : UInt32} {q : Request} {nd : Node}
    (hwf : ∃ F L,Wf sb fs F L ∧ ip ∈ F) (hnode : tree sb fs.blk (fs.itable ip).inum = some nd)
    (htype : nd.type ≠ T_DIR)
    (hrun : (inOp (writeLocked sb ip q 0 off q.length)).run fs = .ok ((q.length : ℤ),u)) :
    ∃ nd',tree sb u.blk (fs.itable ip).inum = some nd' ∧
      nd'.bytes = overwrite nd.bytes off.toNat q.bytes := by
  obtain ⟨F,L,hwf,hip⟩ := hwf
  have hspec : wp (inOp (writeLocked sb ip q 0 off q.length)) (fun r t => r = q.length →
      ∃ nd',tree sb t.blk (fs.itable ip).inum = some nd' ∧
        nd'.bytes = overwrite nd.bytes off.toNat q.bytes) (fun _ => True) fs := by
    rw [inOp,wp_bind]
    refine wp_conseq (wp_beginOp fs) ?_
    rintro - t ⟨hblk,htab⟩
    rw [wp_bind]
    have hnode' : tree sb t.blk (t.itable ip).inum = some nd := by rw [hblk,htab]; exact hnode
    refine wp_conseq (wp_writeLocked (hwf.congr hblk htab) hip hnode' htype off q.length_lt) ?_
    intro r v hr
    rw [wp_bind]
    refine wp_conseq (wp_endOp v) ?_
    rintro - w ⟨hw,-⟩
    rw [wp_pure]
    intro hrq
    obtain ⟨-,-,-,-,htree⟩ := hr hrq
    rw [htab,← hw] at htree
    exact ⟨_,htree,rfl⟩
  exact wp_ok hspec hrun rfl

/-- Calls that share a `struct file` and all return their full lengths leave a merge of their
chunks behind the first offset; the chunks of a single call are one write. -/
theorem writers_merge (fs : Fs) (off : UInt32) (nd : Node) (hwf : ∃ F L,Wf sb fs F L ∧ ip ∈ F)
    (hnode : tree sb fs.blk (fs.itable ip).inum = some nd) (htype : nd.type ≠ T_DIR)
    (as : List Action) (s : Sys)
    (hothers : Machine.Along (step sb ip) (Leaves sb ip) (start fs off) as)
    (hrun : Machine.run (step sb ip) (start fs off) as = some s)
    (hret : ∀ k,s.calls k = .idle ∨ ∃ q,s.calls k = .ret q q.n.toInt) :
    ∃ nd',tree sb s.fs.blk (fs.itable ip).inum = some nd' ∧
      Merged nd.bytes off.toNat s nd'.bytes ∧
      ∀ k q r,s.calls k = .ret q r → (∀ j,j ≠ k → s.calls j = .idle) →
        nd'.bytes = overwrite nd.bytes off.toNat q.bytes ∧
        ∀ u,(inOp (writeLocked sb ip q 0 off q.length)).run fs = .ok ((q.length : ℤ),u) →
          ∃ nd'',tree sb u.blk (fs.itable ip).inum = some nd'' ∧ nd''.bytes = nd'.bytes := by
  have hstart : Good sb ip (fs.itable ip).inum off.toNat nd.bytes (start fs off) :=
    { wf := hwf
      inum_eq := rfl
      node := ⟨nd,hnode,htype,by simp [start,allBytes,overwrite]⟩
      off_eq := by simp [start,allBytes]
      start := fun h => absurd rfl h
      small := fun c hc => absurd hc List.not_mem_nil
      calls := fun k => rfl
      finite := by simp [start]
      owned := fun c hc => absurd hc List.not_mem_nil }
  have hgood : Good sb ip (fs.itable ip).inum off.toNat nd.bytes s := by
    let inv : Sys → Prop := fun s =>
      Good sb ip (fs.itable ip).inum off.toNat nd.bytes s ∨ ∃ k,Short (s.calls k)
    have hinv : inv s := Machine.run_invariant_along (fun _ _ _ h hP ht => good_step h hP ht)
      (.inl hstart) hothers hrun
    refine hinv.resolve_right ?_
    rintro ⟨k,hk⟩
    rcases hret k with hidle | ⟨q,hq⟩
    · rw [hidle] at hk
      exact hk
    · rw [hq] at hk
      exact hk rfl
  obtain ⟨nd',hnode',hmerged⟩ := hgood.merged hret
  refine ⟨nd',hnode',hmerged,fun k q r hk hone => ?_⟩
  have hbytes : nd'.bytes = overwrite nd.bytes off.toNat q.bytes := by
    rw [hmerged.contents,← hmerged.complete k q r hk,chunksOf_eq_allBytes fun c hc => ?_]
    by_contra hne
    exact hmerged.owned c hc (hone c.1 hne)
  refine ⟨hbytes,fun u hu => ?_⟩
  obtain ⟨nd'',hnode'',hbytes''⟩ := unchunked hwf hnode htype hu
  exact ⟨nd'',hnode'',hbytes''.trans hbytes.symm⟩

end Main

def emptyFile : Dinode := ⟨T_FILE,0,0,1,0,fun _ => 0⟩

def oneFile : Fs where
  blk := Fs.putDinode Mkfs.geometry Mkfs.rootImage 2 emptyFile
  disk := Fs.putDinode Mkfs.geometry Mkfs.rootImage 2 emptyFile
  lh := []
  outstanding := 0
  itable k := if k = 0 then ⟨ROOTDEV,2,1,false,true,emptyFile⟩ else ⟨0,0,0,false,false,emptyFile⟩

theorem oneFile_tree : Consistent Mkfs.geometry oneFile.blk ∧
    tree Mkfs.geometry oneFile.blk = Function.update (tree Mkfs.geometry Mkfs.rootImage) 2
      (some (nodeOf Mkfs.rootImage emptyFile)) := by
  have hptr : ∀ k,ptr Mkfs.rootImage emptyFile k = 0 := ptr_hollow _ emptyFile
  have h := Consistent.put_empty (i := 2) (d := emptyFile) Mkfs.rootImage_consistent (by decide)
    (fun ht => absurd (Mkfs.dinodeOf_rootImage (i := 2) (by decide) ▸ ht) (by decide)) rfl hptr
  rwa [if_neg (by decide)] at h

theorem oneFile_wf : Wf Mkfs.geometry oneFile {0} ∅ := by
  obtain ⟨hc,htree⟩ := oneFile_tree
  have hslot : oneFile.itable 0 = ⟨ROOTDEV,2,1,false,true,emptyFile⟩ := rfl
  have hnode : dinodeOf Mkfs.geometry oneFile.blk 2 = emptyFile := by
    change dinodeOf Mkfs.geometry (Fs.putDinode Mkfs.geometry Mkfs.rootImage 2 emptyFile) 2 = _
    rw [dinodeOf_putDinode,Function.update_self]
  refine
    { disk := hc
      range := ?_
      refs := fun k => ?_
      locks := fun k => ?_
      held := by simp
      slot_lt := by simp [NINODE]
      dev := by simp [hslot]
      inum_lt := by simp [hslot]; decide
      inj := by simp
      valid := ?_
      locked_valid := by simp }
  · rw [htree]
    refine Mkfs.rootTree_inRange.update ?_
    rintro n hn hdir
    obtain rfl := Option.some.inj hn
    exact absurd hdir (by decide)
  · by_cases hk : k = 0
    · subst hk
      rfl
    · simp [oneFile,hk]
  · by_cases hk : k = 0
    · subst hk
      simp [hslot]
    · simp [oneFile,hk]
  · intro k hk _
    rw [Multiset.mem_singleton] at hk
    subst hk
    rw [hslot]
    exact ⟨hnode.symm,by decide⟩

def twoCalls : List Action :=
  [.filewrite 0 ⟨Vm.onePage,4096,4094,2⟩,.filewrite 1 ⟨Vm.onePage,4096,0,3⟩,.test 0,.test 1,
    .write 1,.endOp 1,.write 0,.endOp 0,.test 0,.test 1]

def Call.result : Call → Option (Int32 × ℤ)
  | .ret q r => some (q.n,r)
  | _ => none

theorem Call.eq_ret {c : Call} {n : Int32} (h : c.result = some (n,n.toInt)) :
    ∃ q,c = .ret q q.n.toInt := by
  cases c <;> simp [Call.result] at h
  obtain ⟨rfl,rfl⟩ := h
  exact ⟨_,rfl⟩

def Action.caller : Action → Option ℕ
  | .filewrite k _ => some k
  | .test k => some k
  | .write k => some k
  | .endOp k => some k
  | .other _ => none

theorem calls_of_step {sb : Geometry} {ip : ℕ} {s t : Sys} {a : Action} {k : ℕ}
    (hk : a.caller ≠ some k) (hstep : step sb ip s a = some t) : t.calls k = s.calls k := by
  have hkeep : ∀ {j : ℕ} (c : Call),some j ≠ some k → Function.update s.calls j c k = s.calls k :=
    fun _ hj => Function.update_of_ne (fun h => hj (congrArg some h.symm)) ..
  unfold step at hstep
  repeat' split at hstep
  all_goals first
    | cases hstep; done
    | obtain rfl := Option.some.inj hstep
      first | exact hkeep _ hk | rfl

theorem idle_of_run {sb : Geometry} {ip k : ℕ} {s t : Sys} {as : List Action}
    (hk : ∀ a ∈ as,a.caller ≠ some k) (hs : s.calls k = .idle)
    (hrun : Machine.run (step sb ip) s as = some t) : t.calls k = .idle :=
  Machine.run_invariant_of (fun _ _ _ h hP hstep => (calls_of_step hP hstep).trans h) hs hk hrun

theorem writers_merge_twoCalls : ∃ s nd,
    Machine.run (step Mkfs.geometry 0) (start oneFile 0) twoCalls = some s ∧
      s.chunks = [(1,[0,0,0]),(0,[0,65])] ∧ tree Mkfs.geometry s.fs.blk 2 = some nd ∧
      Merged [] 0 s nd.bytes := by
  have heval : (Machine.run (step Mkfs.geometry 0) (start oneFile 0) twoCalls).map
      (fun s => (s.chunks,(s.calls 0).result,(s.calls 1).result)) =
      some ([(1,[0,0,0]),(0,[0,65])],some (2,2),some (3,3)) := by decide +kernel
  obtain ⟨s,hrun,hres⟩ := Option.map_eq_some_iff.mp heval
  simp only [Prod.mk.injEq] at hres
  obtain ⟨hchunks,h0,h1⟩ := hres
  have hret : ∀ k,s.calls k = .idle ∨ ∃ q,s.calls k = .ret q q.n.toInt
    | 0 => .inr (Call.eq_ret (n := 2) h0)
    | 1 => .inr (Call.eq_ret (n := 3) h1)
    | k+2 => .inl (idle_of_run (by simp [twoCalls,Action.caller]) rfl hrun)
  have hnode : tree Mkfs.geometry oneFile.blk 2 = some (nodeOf Mkfs.rootImage emptyFile) := by
    rw [oneFile_tree.2,Function.update_self]
  have hothers : Machine.Along (step Mkfs.geometry 0) (Leaves Mkfs.geometry 0) (start oneFile 0)
      twoCalls := Machine.along_of_forall (by simp [twoCalls,Leaves]) _
  have hwf : ∃ F L,Wf Mkfs.geometry oneFile F L ∧ 0 ∈ F := ⟨_,_,oneFile_wf,by simp⟩
  obtain ⟨nd,hnd,hmerged,-⟩ := writers_merge oneFile 0 (nodeOf Mkfs.rootImage emptyFile) hwf hnode
    (by decide) twoCalls s hothers hrun hret
  exact ⟨s,nd,hrun,hchunks,hnd,hmerged⟩

end FileWrite
end Xv6
