import Xv6.Links

/-! The allocator of `user/umalloc.c`. A `Header *` is an address in bytes, a `Header` takes 16 of
them, and the two fields of all headers are maps from addresses; `size` is a `uint`. The loops
carry fuel, and `none` is a loop that did not end with it. -/
namespace Xv6.Umalloc

def unit : ℕ := 16

structure State where
  ptr : ℕ → ℕ
  size : ℕ → ℕ
  /-- 0 until the first call of `malloc`. -/
  freep : ℕ
  /-- The end of the process's memory, which `sbrk` moves. -/
  brk : ℕ

/-- The loop of `free`: where the block at `bp` belongs in the list. -/
def findSlot (s : State) (bp : ℕ) : (fuel p : ℕ) → Option ℕ
  | 0, _ => none
  | fuel+1, p =>
    if p < bp ∧ bp < s.ptr p then some p
    else if s.ptr p ≤ p ∧ (p < bp ∨ bp < s.ptr p) then some p
    else findSlot s bp fuel (s.ptr p)

/-- Join the block at `bp` with the next one of the list, or link it to that one. -/
def joinNext (s : State) (bp p : ℕ) : State :=
  if bp+unit*s.size bp = s.ptr p then
    {s with
      size := Function.update s.size bp ((s.size bp+s.size (s.ptr p))%2^32)
      ptr := Function.update s.ptr bp (s.ptr (s.ptr p))}
  else {s with ptr := Function.update s.ptr bp (s.ptr p)}

/-- Join the block at `p` with the one at `bp`, or link it to that one. -/
def joinPrev (s : State) (bp p : ℕ) : State :=
  if p+unit*s.size p = bp then
    {s with
      size := Function.update s.size p ((s.size p+s.size bp)%2^32)
      ptr := Function.update s.ptr p (s.ptr bp)}
  else {s with ptr := Function.update s.ptr p bp}

def free (fuel : ℕ) (s : State) (ap : ℕ) : Option State :=
  let bp := ap-unit
  match findSlot s bp fuel s.freep with
  | none => none
  | some p => some {joinPrev (joinNext s bp p) bp p with freep := p}

/-- What `sbrk` may do: with the break at `b` it hands out the next bytes if `avail b` and they end
at `limit` or before. -/
structure Kernel where
  avail : ℕ → Bool
  limit : ℕ

def sbrk (k : Kernel) (s : State) (n : ℕ) : Option (ℕ × State) :=
  if k.avail s.brk = true ∧ s.brk+n ≤ k.limit then some (s.brk,{s with brk := s.brk+n}) else none

def coreUnits (nu : ℕ) : ℕ := if nu < 4096 then 4096 else nu

/-- The new state and the value returned, which is 0 if `sbrk` fails. -/
def morecore (k : Kernel) (fuel : ℕ) (s : State) (nu : ℕ) : Option (State × ℕ) :=
  match sbrk k s (coreUnits nu*unit) with
  | none => some (s,0)
  | some (p,s) =>
    match free fuel {s with size := Function.update s.size p (coreUnits nu)} (p+unit) with
    | none => none
    | some s => some (s,s.freep)

/-- How the search of `malloc` ends: at a block that fits, behind `prevp`, or back at `freep`. -/
inductive Found
  | fit (prevp p : ℕ)
  | wrapped
deriving DecidableEq

/-- The rounds of the loop of `malloc` up to a block that fits or to `p == freep`. -/
def search (s : State) (nunits : ℕ) : (fuel prevp : ℕ) → Option Found
  | 0, _ => none
  | fuel+1, prevp =>
    if nunits ≤ s.size (s.ptr prevp) then some (.fit prevp (s.ptr prevp))
    else if s.ptr prevp = s.freep then some .wrapped
    else search s nunits fuel (s.ptr prevp)

def take (s : State) (nunits prevp p : ℕ) : State × ℕ :=
  if s.size p = nunits then
    ({s with ptr := Function.update s.ptr prevp (s.ptr p),freep := prevp},p+unit)
  else
    let p' := p+unit*(s.size p-nunits)
    ({s with
      size := Function.update (Function.update s.size p (s.size p-nunits)) p' nunits
      freep := prevp},p'+unit)

/-- The loop of `malloc`; a round of this one is a search that may end with a call of
`morecore`. -/
def mallocLoop (k : Kernel) (nunits : ℕ) : (fuel : ℕ) → State → ℕ → Option (State × ℕ)
  | 0, _, _ => none
  | fuel+1, s, prevp =>
    match search s nunits fuel prevp with
    | none => none
    | some (.fit prevp p) => some (take s nunits prevp p)
    | some .wrapped =>
      match morecore k fuel s nunits with
      | none => none
      | some (s,p) => if p = 0 then some (s,0) else mallocLoop k nunits fuel s p

def nunits (nbytes : ℕ) : ℕ := (nbytes+unit-1)/unit+1

def malloc (base : ℕ) (k : Kernel) (fuel : ℕ) (s : State) (nbytes : ℕ) : Option (State × ℕ) :=
  if s.freep = 0 then
    mallocLoop k (nunits nbytes) fuel {s with
      ptr := Function.update s.ptr base base
      size := Function.update s.size base 0
      freep := base} base
  else mallocLoop k (nunits nbytes) fuel s s.freep

/-- The blocks in use, with the pointer that `malloc` returned and the bytes asked for. -/
structure Sys where
  heap : State
  live : List (ℕ × ℕ)

/-- `store` is any write of the program to the bytes of a block it holds. -/
inductive Action
  | malloc (nbytes : ℕ) (avail : ℕ → Bool)
  | free (ap : ℕ)
  | store (ap x ptr size : ℕ)

/-- A header at `x` shares bytes with the block that starts at `ap`, behind its own header. -/
def Inside (s : State) (ap x : ℕ) : Prop := ap < x+unit ∧ x < ap+unit*(s.size (ap-unit)-1)

instance (s : State) (ap x : ℕ) : Decidable (Inside s ap x) := inferInstanceAs (Decidable (_ ∧ _))

/-- The request is a `uint` and makes `morecore` ask for less than `2^31` bytes. -/
def Modest (nbytes : ℕ) : Prop := nbytes < 2^32 ∧ coreUnits (nunits nbytes)*unit < 2^31

instance (nbytes : ℕ) : Decidable (Modest nbytes) := inferInstanceAs (Decidable (_ ∧ _))

def step (base limit fuel : ℕ) (s : Sys) : Action → Option Sys
  | .malloc nbytes avail =>
    if Modest nbytes then
      match malloc base ⟨avail,limit⟩ fuel s.heap nbytes with
      | none => none
      | some (heap,ap) => some ⟨heap,if ap = 0 then s.live else (ap,nbytes)::s.live⟩
    else none
  | .free ap =>
    if ap ∈ s.live.map Prod.fst then
      match free fuel s.heap ap with
      | none => none
      | some heap => some ⟨heap,s.live.filter fun b => b.1 ≠ ap⟩
    else none
  | .store ap x ptr size =>
    if ap ∈ s.live.map Prod.fst ∧ Inside s.heap ap x then
      some {s with heap := {s.heap with
        ptr := Function.update s.heap.ptr x ptr,size := Function.update s.heap.size x size}}
    else none

def init (ptr size : ℕ → ℕ) (lo : ℕ) : Sys := ⟨⟨ptr,size,0,lo⟩,[]⟩

end Xv6.Umalloc
