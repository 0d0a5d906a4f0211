import MallocSim.L2Machine.Allocator

/-!
# The heap checker `mm_checkheap`

Each check walks the implicit list from `heap_start` (the loop
`for (block = heap_start; get_size(block) > 0; block = find_next(block))`,
here `heapWalk`) or the ten segregated lists (here `freeListNodes`; the mini
list is never walked). A walk that runs out of fuel makes the check fail,
where the C loop would not return.
-/
namespace MallocSim

/-- The nodes of `segment_list[i]`, `none` for a list that does not end. -/
def segNodes (s : State) (i : Nat) : Option (List Nat) :=
  freeListNodes s.mem loopFuel (s.segmentList i)

/-- The blocks of the implicit list. -/
def walkBlocks (s : State) : Option (List Nat) := heapWalk s.mem loopFuel s.heapStart

/-- mirrors mm.c:1024-1035 -/
def validPrologue (s : State) : Bool :=
  if s.heapStart = 0 then true
  else getSize s.mem (findPrev s.mem s.heapStart) = 0

/-- mirrors mm.c:1044-1055: the loop condition `get_size(block) >= 0` always
holds, so the loop returns `true` at the first size-0 header. -/
def validEpilogue (s : State) : Bool :=
  if s.heapStart = 0 then true else (walkBlocks s).isSome

/-- mirrors mm.c:1065-1087 -/
def validBlocks (s : State) : Bool :=
  if s.heapStart = 0 then true
  else match walkBlocks s with
    | none => false
    | some bs => bs.all fun block =>
        (block + wsize) % 16 = 0 ∧ getSize s.mem block ≥ minBlockSize

/-- mirrors mm.c:1097-1120 -/
def checkCoalescing (s : State) : Bool :=
  if s.heapStart = 0 then true
  else match walkBlocks s with
    | none => false
    | some bs => bs.all fun block =>
        getAlloc s.mem block ||
          (getAlloc s.mem (findPrev s.mem block) && getAlloc s.mem (findNext s.mem block))

/-- The inner loop of `consistent_pointers` over one list: `some r` when the
function returns `r` from inside the loop, `none` when the list is empty. -/
def pointersWalk (s : State) : Nat → Nat → Option Bool
  | 0, _ => some false
  | fuel + 1, a =>
    if a = 0 then none
    else if a < s.lo then some false
    else if a > s.heapHi then some false
    else
      let b := nextFree s.mem a
      if b = 0 then some true
      else if prevFree s.mem b ≠ a then some false
      else pointersWalk s fuel b

/-- mirrors mm.c:1135-1166: it returns `true` at the end of the first
non-empty list. -/
def consistentPointers (s : State) : Bool :=
  ((List.range segListLen).findSome? fun i => pointersWalk s loopFuel (s.segmentList i)).getD true

/-- mirrors mm.c:1176-1214: free blocks of the implicit list against nodes of
the segregated lists. -/
def listMatchHeap (s : State) : Bool :=
  let heapCount := if s.heapStart = 0 then some 0
    else (walkBlocks s).map fun bs => (bs.filter fun block => !getAlloc s.mem block).length
  let listCount := ((List.range segListLen).mapM (segNodes s)).map fun ls => (ls.map List.length).sum
  match heapCount, listCount with
  | some h, some l => h = l
  | _, _ => false

/-- mirrors mm.c:1224-1237 -/
def allFree (s : State) : Bool :=
  (List.range segListLen).all fun i =>
    match segNodes s i with
    | none => false
    | some xs => xs.all fun a => !getAlloc s.mem a

/-- mirrors mm.c:1247-1262 -/
def noCycles (s : State) : Bool :=
  (List.range segListLen).all fun i =>
    match segNodes s i with
    | none => false
    | some xs => xs.all fun a => nextFree s.mem a ≠ a

/-- mirrors mm.c:1272-1331 -/
def mmCheckheap (s : State) : Bool :=
  validEpilogue s && validPrologue s && validBlocks s && checkCoalescing s && noCycles s &&
    consistentPointers s && allFree s && listMatchHeap s

end MallocSim
