import MallocSim.L1Encoding.Memory

/-!
# Allocator state, the region provider and the block helpers

The state is the memory together with the allocator's globals
(`heap_start`, `segment_list[SEG_LIST_LEN]`, `mini_list_start`, mm.c:165-171)
and the region provider's bookkeeping. Pointers are addresses (`Nat`), NULL
is 0. `segment_list` is indexed by `size_t`; `mm.c` only ever reads or writes
entries below `SEG_LIST_LEN`.

The region provider (`mem_sbrk`, `mem_heap_lo`, `mem_heap_hi`, spec §6.1) is
not part of `mm.c`. `mem_sbrk` extends the region by its argument and returns
the old break, or fails; which requests are granted is the provider's choice,
recorded as `grant` (the answer to the `k`-th request), within the 64-bit
address space. The heap only grows (spec §5), so a negative increment, which
`(intptr_t)` makes of any size of at least `2 ^ 63`, is refused.

Every definition in the second half mirrors the helper of `mm.c` with the
same name; `block` is the address of a header.
-/
namespace MallocSim

/-- `SEG_LIST_LEN` -/
def segListLen : Nat := 10

/-- The allocator's globals, the memory and the region provider. -/
structure State where
  /-- process memory -/
  mem : Mem
  /-- `mem_heap_lo()` -/
  lo : Nat
  /-- the break, `mem_heap_hi() + 1` -/
  brk : Nat
  /-- the provider's answer to its `k`-th request -/
  grant : Nat → Bool
  /-- requests made so far -/
  calls : Nat
  /-- `heap_start` -/
  heapStart : Nat
  /-- `segment_list` -/
  segmentList : Nat → Nat
  /-- `mini_list_start` -/
  miniListStart : Nat

/-- `mem_heap_hi()` -/
def State.heapHi (s : State) : Nat := s.brk - 1

/-- The `(intptr_t)` cast of a `size_t`. -/
def toIntptr (n : Nat) : Int := if n < 2 ^ 63 then n else (n : Int) - 2 ^ 64

/-- Modelled from the spec: memlib's `mem_sbrk(incr)` (spec §6.1; memlib is
not in `src/`) extends the region by `incr` when the provider grants the
request, and returns the old break, or `none` for `(void *)-1`. -/
def memSbrk (s : State) (incr : Int) : Option Nat × State :=
  let s' := { s with calls := s.calls + 1 }
  if s.grant s.calls = true ∧ 0 ≤ incr ∧ s.brk + incr.toNat ≤ 2 ^ 64 then
    (some s.brk, { s' with brk := s.brk + incr.toNat })
  else (none, s')

/-- Fuel of the pointer-chasing loops. A loop of `mm.c` that terminates visits
distinct 64-bit addresses, so it runs fewer than `2 ^ 64` iterations; the
model stops there, where the C loop (on a cyclic list) would not stop. -/
def loopFuel : Nat := 2 ^ 64

/-! ## Block helpers (mm.c:253-534) -/

/-- mirrors mm.c:262-264 -/
def getSize (m : Mem) (block : Nat) : Nat := extractSize (readWord m block)

theorem getSize_mod (m : Mem) (block : Nat) : getSize m block % 16 = 0 := extractSize_mod _

theorem getSize_lt (m : Mem) (block : Nat) : getSize m block < 2 ^ 64 := extractSize_lt _

/-- mirrors mm.c:377-379 -/
def getAlloc (m : Mem) (block : Nat) : Bool := extractAlloc (readWord m block)

/-- mirrors mm.c:387-389 -/
def getPrevAlloc (m : Mem) (block : Nat) : Bool := extractPrevAlloc (readWord m block)

/-- mirrors mm.c:395-397 -/
def getPrevMini (m : Mem) (block : Nat) : Bool := extractPrevMini (readWord m block)

/-- mirrors mm.c:272-274 (`offsetof(block_t, payload)` is one word) -/
def payloadToHeader (bp : Nat) : Nat := bp - wsize

/-- mirrors mm.c:283-286 -/
def headerToPayload (block : Nat) : Nat := block + wsize

/-- mirrors mm.c:295-299 -/
def headerToFooter (m : Mem) (block : Nat) : Nat := block + wsize + getSize m block - dsize

/-- mirrors mm.c:313-319; the pointer arithmetic `footer + wsize - size`
wraps modulo 2^64, as it does on the machine. -/
def footerToHeader (m : Mem) (footer : Nat) : Nat :=
  let size := extractSize (readWord m footer)
  if size = 0 then footer else (footer + wsize + (2 ^ 64 - size)) % 2 ^ 64

/-- mirrors mm.c:330-333 -/
def getPayloadSize (m : Mem) (block : Nat) : Nat := getSize m block - wsize

/-- mirrors mm.c:406-410 -/
def writeEpilogue (m : Mem) (block : Nat) (isPrevMini : Bool) : Mem :=
  writeWord m block (pack 0 true false isPrevMini)

/-- mirrors mm.c:422-427 -/
def findNext (m : Mem) (block : Nat) : Nat := block + getSize m block

/-- mirrors mm.c:434-437 -/
def findPrevFooter (block : Nat) : Nat := block - wsize

/-- mirrors mm.c:452-458 -/
def findPrev (m : Mem) (block : Nat) : Nat := footerToHeader m (findPrevFooter block)

/-- mirrors mm.c:466-486. Both branches of each `if` in the source write the
same word; the next block's header gets `prev_alloc = alloc`,
`prev_mini = true`. -/
def writeMiniblock (m : Mem) (block size : Nat) (alloc prevAlloc prevMini : Bool) : Mem :=
  let m := writeWord m block (pack size alloc prevAlloc prevMini)
  let nextBlock := findNext m block
  let isNextAlloc := getAlloc m nextBlock
  let nextSize := getSize m nextBlock
  writeWord m nextBlock (pack nextSize isNextAlloc alloc true)

/-- mirrors mm.c:499-534. The footer of a free next block is not rewritten:
both branches of the last `if` write the header only. -/
def writeBlock (m : Mem) (block size : Nat) (alloc prevAlloc prevMini : Bool) : Mem :=
  if size = minBlockSize then writeMiniblock m block size alloc prevAlloc prevMini
  else
    let m := writeWord m block (pack size alloc prevAlloc prevMini)
    let m := if alloc then m
      else writeWord m (headerToFooter m block) (pack size alloc prevAlloc prevMini)
    let nextBlock := findNext m block
    let isNextAlloc := getAlloc m nextBlock
    let nextSize := getSize m nextBlock
    writeWord m nextBlock (pack nextSize isNextAlloc alloc false)

/-! ## Free-list links (`block_t.next_free`, `block_t.prev_free`) -/

/-- `block->next_free` -/
def nextFree (m : Mem) (block : Nat) : Nat := (readWord m (block + 8)).toNat

/-- `block->prev_free` -/
def prevFree (m : Mem) (block : Nat) : Nat := (readWord m (block + 16)).toNat

/-- `block->next_free = p` -/
def setNextFree (m : Mem) (block p : Nat) : Mem := writeWord m (block + 8) (ptrWord p)

/-- `block->prev_free = p` -/
def setPrevFree (m : Mem) (block p : Nat) : Mem := writeWord m (block + 16) (ptrWord p)

/-- The nodes of the list starting at `p`, following `next_free` to NULL;
`none` when the fuel runs out (a list that does not end). -/
def freeListNodes (m : Mem) : Nat → Nat → Option (List Nat)
  | 0, _ => none
  | fuel + 1, p => if p = 0 then some [] else (freeListNodes m fuel (nextFree m p)).map (p :: ·)

/-- The implicit list from `block`: the blocks visited by `find_next` up to a
size-0 header; `none` when the fuel runs out. -/
def heapWalk (m : Mem) : Nat → Nat → Option (List Nat)
  | 0, _ => none
  | fuel + 1, block =>
    if getSize m block = 0 then some [] else (heapWalk m fuel (findNext m block)).map (block :: ·)

end MallocSim
