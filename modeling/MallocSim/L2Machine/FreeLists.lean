import MallocSim.L2Machine.State

/-!
# The free lists of `mm.c`

Free blocks of 16 bytes sit on the singly linked mini list headed by
`mini_list_start` (link `next_free` only: a mini block has no room for a
second pointer). Every other free block sits on the doubly linked list
`segment_list[determine_seg_index(size)]`. Insertion is LIFO in both; removal
from a segregated list splices by the block's own links, removal from the
mini list scans from the head.
-/
namespace MallocSim

/-- The search of `not_in_free_list` through one list: is `x` reached? -/
def listContains (m : Mem) (x : Nat) : Nat → Nat → Bool
  | 0, _ => false
  | fuel + 1, p => if p = 0 then false else if x = p then true else listContains m x fuel (nextFree m p)

/-- mirrors mm.c:551-565: the block is on no segregated list (the mini list
is not searched). -/
def notInFreeList (s : State) (inputBlock : Nat) : Bool :=
  (List.range segListLen).all fun i => !listContains s.mem inputBlock loopFuel (s.segmentList i)

/-- mirrors mm.c:608-622 -/
def addToMiniFreeList (s : State) (block : Nat) : State :=
  if s.miniListStart = 0 then
    { s with miniListStart := block, mem := setNextFree s.mem block 0 }
  else
    { s with mem := setNextFree s.mem block s.miniListStart, miniListStart := block }

/-- mirrors mm.c:631-662 -/
def addToFreeList (s : State) (block : Nat) : State :=
  let size := getSize s.mem block
  if size = minBlockSize then addToMiniFreeList s block
  else
    let index := determineSegIndex size
    if s.segmentList index = 0 then
      { s with segmentList := Function.update s.segmentList index block,
               mem := setNextFree (setPrevFree s.mem block 0) block 0 }
    else
      let m := setNextFree s.mem block (s.segmentList index)
      let m := setPrevFree m (s.segmentList index) block
      { s with mem := setPrevFree m block 0,
               segmentList := Function.update s.segmentList index block }

/-- The `while` loop of `remove_from_mini_free_list` (mm.c:677-681): walk
from `current`, with `prev` behind it, to NULL or to `block`; returns the
final `(current, prev)`. Running out of fuel reads as "not found". -/
def miniSearch (m : Mem) (block : Nat) : Nat → Nat → Nat → Nat × Nat
  | 0, _, _ => (0, 0)
  | fuel + 1, current, prev =>
    if current ≠ 0 ∧ current ≠ block then miniSearch m block fuel (nextFree m current) current
    else (current, prev)

/-- mirrors mm.c:671-693 -/
def removeFromMiniFreeList (s : State) (block : Nat) : State :=
  let (current, prev) := miniSearch s.mem block loopFuel s.miniListStart 0
  if current = 0 then s
  else if prev = 0 then { s with miniListStart := nextFree s.mem current }
  else { s with mem := setNextFree s.mem prev (nextFree s.mem current) }

/-- mirrors mm.c:702-736 -/
def removeFromFreeList (s : State) (block : Nat) : State :=
  let size := getSize s.mem block
  if size = minBlockSize then removeFromMiniFreeList s block
  else
    let index := determineSegIndex size
    let next := nextFree s.mem block
    let prev := prevFree s.mem block
    let s := if prev ≠ 0 then { s with mem := setNextFree s.mem prev next }
      else { s with segmentList := Function.update s.segmentList index next }
    let s := if next ≠ 0 then { s with mem := setPrevFree s.mem next prev } else s
    { s with mem := setPrevFree (setNextFree s.mem block 0) block 0 }

end MallocSim
