import MallocSim.L4Api.Payload

/-!
# The allocator over abstract heaps

What `mm.c` is for, said on `Heap`. `Alloc` is the allocator's state with
the heap as its blocks and free lists (`none` until `mm_init` succeeds),
the break, and the region provider's answers. A request of `n` bytes takes
a block of `round_up(n + 8, 16)` bytes from the first fit of the segregated
lists (`Heap.findFit`), or from the block a new extension of the heap leaves
when nothing fits; the block is split when it is larger (`Heap.place`). A
freed block merges with its free neighbours (`Heap.free`). `realloc` is
`malloc` then `free`, and `calloc` is `malloc` of the product; the bytes
they copy or clear are the client's, outside the abstract state.

The C code refines this machine (`Refine`), so the client-level results of
`Live` and `Lockstep` are read off it.

Results:
- `locateIn_eq`, `locateIn_some`: finding a block by its header address.
- `Heap.allocate_eq`: `Heap.allocate` is `Heap.place` around the block.
-/
namespace MallocSim

/-! ## Blocks by address -/

/-- The block with its header at `x`, with the blocks before and after it. -/
def locateIn : List Block → Nat → Option (List Block × Block × List Block)
  | [], _ => none
  | b :: bs, x =>
    if b.addr = x then some ([], b, bs) else (locateIn bs x).map fun r => (b :: r.1, r.2.1, r.2.2)

theorem locateIn_eq {pre post : List Block} {b : Block} (h : ∀ c ∈ pre, c.addr ≠ b.addr) :
    locateIn (pre ++ b :: post) b.addr = some (pre, b, post) := by
  induction pre with
  | nil => simp [locateIn]
  | cons c pre ih =>
    simp [locateIn, h c (List.mem_cons_self _ _), ih fun d hd => h d (List.mem_cons_of_mem _ hd)]

theorem locateIn_some {bs pre post : List Block} {b : Block} {x : Nat}
    (h : locateIn bs x = some (pre, b, post)) : bs = pre ++ b :: post ∧ b.addr = x := by
  induction bs generalizing pre with
  | nil => cases h
  | cons c bs ih =>
    simp only [locateIn] at h
    split_ifs at h with hc
    · cases h; exact ⟨rfl, hc⟩
    · obtain ⟨⟨pre', b', post'⟩, hr, he⟩ := Option.map_eq_some'.mp h
      cases he
      obtain ⟨rfl, rfl⟩ := ih hr
      exact ⟨rfl, rfl⟩

/-- Allocating `a` bytes in the free block `F` of `H`. -/
def Heap.allocate (H : Heap) (F : Block) (a : Nat) : Heap :=
  match locateIn H.blocks F.addr with
  | some (pre, _, post) => H.place pre F post a
  | none => H

theorem Heap.allocate_eq {H : Heap} {pre post : List Block} {F : Block} {a : Nat}
    (hH : H.blocks = pre ++ F :: post) (h : ∀ c ∈ pre, c.addr ≠ F.addr) :
    H.allocate F a = H.place pre F post a := by
  simp only [Heap.allocate, hH, locateIn_eq h]

/-! ## The machine -/

/-- The allocator's state over an abstract heap: the heap (`none` until
`mm_init` succeeds), the region's base and break, the provider's answers and
its count. -/
structure Alloc where
  heap : Option Heap
  lo : Nat
  brk : Nat
  grant : Nat → Bool
  calls : Nat

namespace Alloc

/-- The provider grants `S` more bytes. -/
def Grants (A : Alloc) (S : Nat) : Prop := A.grant A.calls = true ∧ S < 2 ^ 63 ∧ A.brk + S ≤ 2 ^ 64

instance (A : Alloc) (S : Nat) : Decidable (A.Grants S) :=
  inferInstanceAs (Decidable (_ ∧ _ ∧ _))

/-- Extending `H` by `S` bytes at the old epilogue: the block the extension
leaves (merged with a free last block), or `none` when the provider refuses. -/
def extend (A : Alloc) (H : Heap) (S : Nat) : Alloc × Option Block :=
  if A.Grants S then
    ({ A with heap := some (H.extend (A.brk - 8) S), brk := A.brk + S, calls := A.calls + 1 },
      some (mergedBlock H.blocks ⟨A.brk - 8, S, true⟩ []))
  else ({ A with calls := A.calls + 1 }, none)

/-- `mm_init`: sixteen bytes for the two sentinels, then a first extension. -/
def init (A : Alloc) : Alloc × Bool :=
  if A.grant A.calls = true ∧ A.brk + 16 ≤ 2 ^ 64 then
    let r := extend { A with heap := some emptyHeap, brk := A.brk + 16, calls := A.calls + 1 }
      emptyHeap chunksize
    (r.1, r.2.isSome)
  else ({ A with calls := A.calls + 1 }, false)

/-- Serving `a` bytes from `H`: the first fit, else the block a new
extension leaves. -/
def place (A : Alloc) (H : Heap) (a : Nat) : Alloc × Nat :=
  match H.findFit a with
  | some F => ({ A with heap := some (H.allocate F a) }, F.addr + 8)
  | none =>
    match A.extend H (max a chunksize) with
    | (A', some M) => ({ A' with heap := some ((H.extend (A.brk - 8) (max a chunksize)).allocate M a) },
        M.addr + 8)
    | (A', none) => (A', 0)

/-- `malloc(n)`: `round_up(n + 8, 16)` bytes, after `mm_init` when there is
no heap yet; NULL for `n = 0`. -/
def malloc (A : Alloc) (n : Nat) : Alloc × Nat :=
  let r := if A.heap.isNone then A.init else (A, true)
  match r.1.heap with
  | some H => if r.2 = true ∧ n ≠ 0 then r.1.place H (16 * ((n + 23) / 16)) else (r.1, 0)
  | none => (r.1, 0)

/-- `free(p)`: the block whose payload is `p` merges with its free
neighbours. -/
def free (A : Alloc) (p : Nat) : Alloc :=
  match A.heap with
  | some H =>
    match locateIn H.blocks (p - 8) with
    | some (pre, b, post) => if p = 0 then A else { A with heap := some (H.free pre b post) }
    | none => A
  | none => A

/-- `realloc(p, n)`: a new block, then `p` freed when the new one was
found. -/
def realloc (A : Alloc) (p n : Nat) : Alloc × Nat :=
  if n = 0 then (A.free p, 0)
  else if p = 0 then A.malloc n
  else
    let r := A.malloc n
    if r.2 = 0 then r else (r.1.free p, r.2)

/-- `calloc(k, n)`: a block for the product. -/
def calloc (A : Alloc) (k n : Nat) : Alloc × Nat :=
  if k = 0 then (A, 0) else A.malloc (k * n)

end Alloc

/-- One call on the abstract allocator. -/
def Call.step : Call → Alloc → Alloc × Nat
  | .malloc size, A => A.malloc size
  | .calloc elements size, A => A.calloc elements size
  | .free ptr, A => (A.free ptr, 0)
  | .realloc ptr size, A => A.realloc ptr size

/-- The bytes a call asks for. -/
def Call.size : Call → Nat
  | .malloc size => size
  | .calloc elements size => elements * size
  | .free _ => 0
  | .realloc _ size => size

/-- The pointer a call frees, given what it returned: `free`'s, and
`realloc`'s when it shrinks to nothing or moves; NULL otherwise. -/
def Call.frees : Call → Nat → Nat
  | .free ptr, _ => ptr
  | .realloc ptr size, r => if size = 0 ∨ r ≠ 0 then ptr else 0
  | _, _ => 0

end MallocSim
