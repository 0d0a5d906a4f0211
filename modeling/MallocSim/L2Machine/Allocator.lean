import MallocSim.L2Machine.FreeLists

/-!
# Coalescing, fit finding and the allocator API

`coalesce_block`, `extend_heap`, `split_block`, `find_fit`, `mm_init`,
`malloc`, `free`, `realloc` and `calloc`, in the release build, where the
`dbg_*` contracts emit no code. Two kinds of them are modelled on their own
in `Bugs`: the assertions `split_block` makes on a 16-byte remainder
(mm.c:922-926, `Bugs.SplitMiniAssert`), and the `mm_checkheap(__LINE__)`
contracts of `coalesce_block`, `malloc` and `free` (mm.c:847, 1384-1476),
through the checker they call (`Bugs.CheckheapRejects`,
`Bugs.CheckheapUnsound`). Each function returns the state and its C result;
a NULL pointer is 0.
-/
namespace MallocSim

/-- mirrors mm.c:747-850 -/
def coalesceBlock (s : State) (block : Nat) : State × Nat :=
  let next := findNext s.mem block
  let isNextFree := !getAlloc s.mem next
  let isPrevFree := !getPrevAlloc s.mem block
  let prevMini := getPrevMini s.mem block
  if !isPrevFree ∧ !isNextFree then (addToFreeList s block, block)
  else if !isPrevFree ∧ isNextFree then
    let s := removeFromFreeList s next
    let newSize := getSize s.mem block + getSize s.mem next
    let s := { s with mem := writeBlock s.mem block newSize false true prevMini }
    (addToFreeList s block, block)
  else if isPrevFree ∧ !isNextFree then
    let prev := if prevMini then block - minBlockSize else findPrev s.mem block
    let s := removeFromFreeList s prev
    let newSize := getSize s.mem prev + getSize s.mem block
    let m := writeBlock s.mem prev newSize false (getPrevAlloc s.mem prev) (getPrevMini s.mem prev)
    let s := { s with mem := m }
    (addToFreeList s prev, prev)
  else
    let prev := if prevMini then block - minBlockSize else findPrev s.mem block
    let s := removeFromFreeList s prev
    let s := removeFromFreeList s next
    let newSize := getSize s.mem prev + getSize s.mem block + getSize s.mem next
    let m := writeBlock s.mem prev newSize false (getPrevAlloc s.mem prev) (getPrevMini s.mem prev)
    let s := { s with mem := m }
    (addToFreeList s prev, prev)

/-- mirrors mm.c:860-882 -/
def extendHeap (s : State) (size : Nat) : State × Nat :=
  let size := roundUp size dsize
  match memSbrk s (toIntptr size) with
  | (none, s) => (s, 0)
  | (some bp, s) =>
    let block := payloadToHeader bp
    let m := writeBlock s.mem block size false (getPrevAlloc s.mem block) (getPrevMini s.mem block)
    let blockNext := findNext m block
    let m := writeEpilogue m blockNext (getSize m block = minBlockSize)
    coalesceBlock { s with mem := m } block

/-- mirrors mm.c:893-931. The caller guarantees `asize ≤ get_size(block)`
(the `dbg_requires`), so the `size_t` difference does not wrap. -/
def splitBlock (s : State) (block asize : Nat) : State :=
  let blockSize := getSize s.mem block
  if blockSize - asize ≥ minBlockSize then
    let m := writeBlock s.mem block asize true (getPrevAlloc s.mem block) (getPrevMini s.mem block)
    let blockNext := findNext m block
    let m := writeBlock m blockNext (blockSize - asize) false true (getSize m block = minBlockSize)
    addToFreeList { s with mem := m } blockNext
  else s

/-- mirrors mm.c:940-948 -/
def findMiniFit (s : State) (_asize : Nat) : Nat :=
  if s.miniListStart ≠ 0 then s.miniListStart else 0

/-- The better-fit scan of `find_fit` (mm.c:986-1008) from `compareBlock`;
`left` is `20 - counter`. -/
def betterFit (m : Mem) (asize : Nat) : Nat → Nat → Nat → Nat → Nat
  | left, compareBlock, bestSize, bestFit =>
    if compareBlock = 0 then bestFit
    else
      let compareSize := getSize m compareBlock
      let better := decide (compareSize < bestSize ∧ compareSize ≥ asize)
      let bestFit := if better then compareBlock else bestFit
      let bestSize := if better then compareSize else bestSize
      match left with
      | 0 => bestFit
      | left + 1 => betterFit m asize left (nextFree m compareBlock) bestSize bestFit

/-- The walk of one segregated list in `find_fit` (mm.c:980-1010): the first
block of size at least `asize` anchors the better-fit scan. -/
def firstFit (m : Mem) (asize : Nat) : Nat → Nat → Option Nat
  | 0, _ => none
  | fuel + 1, block =>
    if block = 0 then none
    else
      let availableSize := getSize m block
      if availableSize ≥ asize then some (betterFit m asize 20 block availableSize block)
      else firstFit m asize fuel (nextFree m block)

/-- mirrors mm.c:958-1015: the classes `index, index + 1, ..., 9` in turn. -/
def findFit (s : State) (asize : Nat) : Nat :=
  let miniBlockFit := if asize = minBlockSize then findMiniFit s asize else 0
  if miniBlockFit ≠ 0 then miniBlockFit
  else
    let index := determineSegIndex asize
    ((List.range' index (segListLen - index)).findSome? fun i =>
      firstFit s.mem asize loopFuel (s.segmentList i)).getD 0

/-- mirrors mm.c:1340-1373; the result is `mm_init`'s `bool`. -/
def mmInit (s : State) : State × Bool :=
  match memSbrk s (toIntptr (2 * wsize)) with
  | (none, s) => (s, false)
  | (some start, s) =>
    let s := { s with segmentList := fun i => if i < segListLen then 0 else s.segmentList i,
                      miniListStart := 0 }
    let m := writeWord s.mem start (pack 0 true false false)
    let m := writeWord m (start + wsize) (pack 0 true true false)
    let s := { s with mem := m, heapStart := start + wsize }
    let (s, block) := extendHeap s chunksize
    (s, block ≠ 0)

/-- mirrors mm.c:1383-1445 -/
def malloc (s : State) (size : Nat) : State × Nat :=
  let (s, ok) := if s.heapStart = 0 then mmInit s else (s, true)
  if !ok then (s, 0)
  else if size = 0 then (s, 0)
  else
    let asize := roundUp ((size + wsize) % 2 ^ 64) dsize
    let block := findFit s asize
    let (s, block) := if block = 0 then extendHeap s (max asize chunksize) else (s, block)
    if block = 0 then (s, 0)
    else
      let blockSize := getSize s.mem block
      let m := writeBlock s.mem block blockSize true (getPrevAlloc s.mem block)
        (getPrevMini s.mem block)
      let s := { s with mem := m }
      let s := removeFromFreeList s block
      let s := splitBlock s block asize
      (s, headerToPayload block)

/-- mirrors mm.c:1454-1477 -/
def free (s : State) (bp : Nat) : State :=
  if bp = 0 then s
  else
    let block := payloadToHeader bp
    let size := getSize s.mem block
    let m := writeBlock s.mem block size false (getPrevAlloc s.mem block) (getPrevMini s.mem block)
    let s := { s with mem := m }
    (coalesceBlock s block).1

/-- mirrors mm.c:1488-1523 -/
def realloc (s : State) (ptr size : Nat) : State × Nat :=
  let block := payloadToHeader ptr
  if size = 0 then (free s ptr, 0)
  else if ptr = 0 then malloc s size
  else
    let (s, newptr) := malloc s size
    if newptr = 0 then (s, 0)
    else
      let copysize := min (getPayloadSize s.mem block) size
      let s := { s with mem := memcpy s.mem newptr ptr copysize }
      (free s ptr, newptr)

/-- mirrors mm.c:1534-1555 -/
def calloc (s : State) (elements size : Nat) : State × Nat :=
  let asize := elements * size % 2 ^ 64
  if elements = 0 then (s, 0)
  else if asize / elements ≠ size then (s, 0)
  else
    let (s, bp) := malloc s asize
    if bp = 0 then (s, 0)
    else ({ s with mem := memset s.mem bp 0 asize }, bp)

end MallocSim
