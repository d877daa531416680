import Xv6.Tree

/-! Nodes as directories: a sequence of entries, looked up and overwritten one at a time. -/
namespace Xv6

open Bytes ByteFile

namespace Dirent

@[simp] theorem bytes_eq : bytes = 16 := rfl

theorem decode_encode {de : Dirent} (h : de.name.length = DIRSIZ) : decode de.encode = de := by
  have hname : (List.range DIRSIZ).map (fun i => de.encode (2+i)) = de.name := by
    apply List.ext_getElem
    · simp [h]
    · intro i h1 h2
      have hnot : ¬ 2+i < 2 := by omega
      rw [List.getElem_map,List.getElem_range,encode,if_neg hnot,Nat.add_sub_cancel_left]
      simp [h2]
  have hinum : readLE de.encode 0 2 = de.inum.toNat := by
    have hread : readLE de.encode 0 2 = de.inum.toNat%256^2 := by
      apply readLE_leByte
      intro i hi
      simp only [encode,Nat.zero_add]
      rw [if_pos hi]
    rw [hread]
    exact Nat.mod_eq_of_lt de.inum.toNat_lt
  unfold decode
  rw [hname,hinum]
  simp

theorem decode_congr {mem mem' : Mem} (h : ∀ i < bytes, mem i = mem' i) :
    decode mem = decode mem' := by
  have hinum : readLE mem 0 2 = readLE mem' 0 2 :=
    readLE_congr fun i hi => by simpa using h i (by simp; omega)
  have hname : (List.range DIRSIZ).map (fun i => mem (2+i)) =
      (List.range DIRSIZ).map fun i => mem' (2+i) := by
    apply List.map_congr_left
    intro i hi
    exact h _ (by rw [List.mem_range] at hi; unfold bytes; omega)
  rw [decode,decode,hinum,hname]

end Dirent

theorem length_strncpy (t : List UInt8) (n : ℕ) : (strncpy t n).length = n := by
  simp only [strncpy,List.length_append,List.length_take,List.length_replicate]
  omega

namespace Node

def count (n : Node) : ℕ := n.bytes.length/Dirent.bytes

def ent (n : Node) (k : ℕ) : Dirent := Dirent.decode fun i => n.bytes.getD (Dirent.bytes*k+i) 0

def Matches (n : Node) (name : List UInt8) (k : ℕ) : Prop :=
  (n.ent k).inum ≠ 0 ∧ namecmp name (n.ent k).name = 0

instance (n : Node) (name : List UInt8) (k : ℕ) : Decidable (n.Matches name k) :=
  inferInstanceAs (Decidable (_ ∧ _))

def find (n : Node) (name : List UInt8) : Option ℕ :=
  (List.range n.count).find? fun k => n.Matches name k

def emptyAt (n : Node) : ℕ := ((List.range n.count).find? fun k => (n.ent k).inum = 0).getD n.count

def setEnt (n : Node) (k : ℕ) (de : Dirent) : Node :=
  {n with bytes := overwrite n.bytes (Dirent.bytes*k) (Fs.srcList de.encode Dirent.bytes)}

section Lemmas

variable {n : Node} {k j : ℕ} {de : Dirent} {name : List UInt8}

theorem ent_congr {m : Node} (h : m.bytes = n.bytes) : m.ent = n.ent := by
  funext k
  rw [ent,ent,h]

theorem count_congr {m : Node} (h : m.bytes = n.bytes) : m.count = n.count := by
  rw [count,count,h]

theorem find_congr {m : Node} (h : m.bytes = n.bytes) : m.find name = n.find name := by
  cases m
  cases n
  obtain rfl := h
  rfl

theorem find_eq_some_iff : n.find name = some k ↔
    k < n.count ∧ n.Matches name k ∧ ∀ j < k, ¬ n.Matches name j := by
  rw [find,List.find?_range_eq_some]
  simp only [decide_eq_true_eq,List.mem_range,Bool.not_eq_true',decide_eq_false_iff_not]
  exact and_left_comm

theorem find_eq_none_iff : n.find name = none ↔ ∀ k < n.count, ¬ n.Matches name k := by
  rw [find,List.find?_range_eq_none]
  simp only [Bool.not_eq_true',decide_eq_false_iff_not]

theorem emptyAt_eq_iff : n.emptyAt = k ↔ (k < n.count ∧ (n.ent k).inum = 0 ∨ k = n.count) ∧
    ∀ j < k, (n.ent j).inum ≠ 0 := by
  unfold emptyAt
  cases hf : (List.range n.count).find? fun k => (n.ent k).inum = 0 with
  | none =>
    rw [List.find?_range_eq_none] at hf
    simp only [Bool.not_eq_true',decide_eq_false_iff_not] at hf
    constructor
    · rintro rfl
      exact ⟨.inr rfl,hf⟩
    · rintro ⟨⟨hlt,h0⟩ | rfl,-⟩
      · exact absurd h0 (hf k hlt)
      · rfl
  | some m =>
    rw [List.find?_range_eq_some] at hf
    simp only [decide_eq_true_eq,List.mem_range,Bool.not_eq_true',decide_eq_false_iff_not] at hf
    obtain ⟨h0,hm,hlt⟩ := hf
    constructor
    · rintro rfl
      exact ⟨.inl ⟨hm,h0⟩,hlt⟩
    · rintro ⟨hk,hbefore⟩
      rcases lt_trichotomy m k with h | h | h
      · exact absurd h0 (hbefore m h)
      · exact h
      · rcases hk with ⟨-,hk0⟩ | rfl
        · exact absurd hk0 (hlt k h)
        · exact absurd h (by omega)

theorem emptyAt_le (n : Node) : n.emptyAt ≤ n.count := by
  rcases (emptyAt_eq_iff.mp (rfl : n.emptyAt = n.emptyAt)).1 with h | h <;> omega

theorem ent_emptyAt (h : n.emptyAt < n.count) : (n.ent n.emptyAt).inum = 0 := by
  rcases (emptyAt_eq_iff.mp (rfl : n.emptyAt = n.emptyAt)).1 with h' | h'
  · exact h'.2
  · omega

@[simp] theorem setEnt_type : (n.setEnt k de).type = n.type := rfl
@[simp] theorem setEnt_nlink : (n.setEnt k de).nlink = n.nlink := rfl

theorem length_srcList (src : Mem) (m : ℕ) : (Fs.srcList src m).length = m := by
  simp [Fs.srcList]

theorem length_setEnt (hk : Dirent.bytes*k ≤ n.bytes.length) :
    (n.setEnt k de).bytes.length = max n.bytes.length (Dirent.bytes*k+Dirent.bytes) := by
  rw [setEnt,length_overwrite hk,length_srcList]

theorem ent_setEnt_self (hk : Dirent.bytes*k ≤ n.bytes.length)
    (hde : de.name.length = DIRSIZ) : (n.setEnt k de).ent k = de := by
  refine Eq.trans (Dirent.decode_congr ?_) (Dirent.decode_encode hde)
  intro i hi
  rw [setEnt,List.getD_eq_getElem?_getD,getElem?_overwrite hk,length_srcList,
    if_pos ⟨by omega,by omega⟩,Nat.add_sub_cancel_left,Fs.srcList,List.getElem?_map,
    List.getElem?_range hi]
  rfl

theorem ent_setEnt_ne (hk : Dirent.bytes*k ≤ n.bytes.length) (hj : j ≠ k) :
    (n.setEnt k de).ent j = n.ent j := by
  apply Dirent.decode_congr
  intro i hi
  rw [setEnt,List.getD_eq_getElem?_getD,List.getD_eq_getElem?_getD,getElem?_overwrite hk,
    length_srcList,if_neg]
  simp only [Dirent.bytes_eq] at *
  omega

theorem count_setEnt_of_lt (hk : k < n.count) : (n.setEnt k de).count = n.count := by
  unfold count at *
  have hle : Dirent.bytes*k+Dirent.bytes ≤ n.bytes.length := by
    simp only [Dirent.bytes_eq] at *
    omega
  rw [length_setEnt (by omega),Nat.max_eq_left hle]

theorem count_setEnt_le (hk : k ≤ n.count) : (n.setEnt k de).count ≤ n.count+1 := by
  unfold count at *
  have hle : Dirent.bytes*k ≤ n.bytes.length := by
    simp only [Dirent.bytes_eq] at *
    omega
  rw [length_setEnt hle]
  simp only [Dirent.bytes_eq] at *
  omega

theorem mul_count_le (n : Node) (hk : k ≤ n.count) : Dirent.bytes*k ≤ n.bytes.length := by
  unfold count at hk
  simp only [Dirent.bytes_eq] at *
  omega

end Lemmas
end Node

def InRange (sb : Geometry) (T : ℕ → Option Node) : Prop :=
  ∀ i n, T i = some n → n.type = T_DIR → ∀ k < n.count, (n.ent k).inum.toNat < sb.ninodes

namespace InRange

variable {sb : Geometry} {T : ℕ → Option Node} {i : ℕ} {n n' : Node}

theorem update (h : InRange sb T) {o : Option Node}
    (ho : ∀ n, o = some n → n.type = T_DIR → ∀ k < n.count, (n.ent k).inum.toNat < sb.ninodes) :
    InRange sb (Function.update T i o) := by
  intro j m hj
  by_cases hji : j = i
  · rw [hji,Function.update_self] at hj
    exact ho m hj
  · rw [Function.update_of_ne hji] at hj
    exact h j m hj

theorem erase (h : InRange sb T) : InRange sb (Function.update T i none) :=
  h.update fun _ hn => by cases hn

theorem attributes (h : InRange sb T) (hi : T i = some n) (ht : n'.type = n.type)
    (hb : n'.bytes = n.bytes) : InRange sb (Function.update T i (some n')) := by
  apply h.update
  rintro m hm htype k hk
  obtain rfl := Option.some.inj hm
  rw [Node.ent_congr hb]
  exact h i n hi (by rw [← ht]; exact htype) k (by rwa [← Node.count_congr hb])

theorem setEnt (h : InRange sb T) (hi : T i = some n) {k : ℕ} (hk : k ≤ n.count) {de : Dirent}
    (hde : de.name.length = DIRSIZ) (hin : de.inum.toNat < sb.ninodes) :
    InRange sb (Function.update T i (some (n.setEnt k de))) := by
  apply h.update
  rintro m hm htype j hj
  obtain rfl := Option.some.inj hm
  by_cases hjk : j = k
  · rw [hjk,Node.ent_setEnt_self (n.mul_count_le hk) hde]
    exact hin
  · rw [Node.ent_setEnt_ne (n.mul_count_le hk) hjk]
    apply h i n hi htype
    rcases lt_or_eq_of_le hk with hlt | heq
    · rwa [Node.count_setEnt_of_lt hlt] at hj
    · have hle : (n.setEnt k de).count ≤ n.count+1 := n.count_setEnt_le hk
      omega

end InRange
end Xv6
