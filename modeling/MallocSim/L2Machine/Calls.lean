import MallocSim.L2Machine.Checker

/-!
# The allocator's interface and its runs

A client sees `mm_init` and the four calls `malloc`, `calloc`, `free` and
`realloc` (spec §6). `Call.apply` runs one of them on the state, `runCalls` a
sequence. A call is valid when it keeps to the interface's preconditions:
`free` and `realloc` get NULL or the payload of a block currently marked
allocated, and a request is at most `maxRequest` bytes (larger ones wrap the
`size_t` size computation, see `Bugs.RoundUpWrap`).

The globals of `mm.c` are static, so they start zeroed (`initState`); the
memory the provider hands out and its answers to `mem_sbrk` are arbitrary.
Between calls the client may write any byte of the payload of a block marked
allocated (`InPayload`). `Reachable` is the set of states that `mm_init`
followed by valid calls and such writes can produce.
-/
namespace MallocSim

/-- The public calls of `mm.c` with their arguments. -/
inductive Call where
  | malloc (size : Nat)
  | calloc (elements size : Nat)
  | free (ptr : Nat)
  | realloc (ptr size : Nat)
  deriving DecidableEq, Repr

/-- One call: the state after it and the pointer it returns (`free` returns
nothing, read as NULL). -/
def Call.apply : Call → State → State × Nat
  | .malloc size, s => MallocSim.malloc s size
  | .calloc elements size, s => MallocSim.calloc s elements size
  | .free ptr, s => (MallocSim.free s ptr, 0)
  | .realloc ptr size, s => MallocSim.realloc s ptr size

/-- The state after a sequence of calls. -/
def runCalls (s : State) : List Call → State
  | [] => s
  | c :: cs => runCalls (c.apply s).1 cs

/-- The state before the first call: `heap_start`, `segment_list` and
`mini_list_start` zero, the region empty at `lo`. -/
def initState (mem : Mem) (lo : Nat) (grant : Nat → Bool) : State where
  mem := mem
  lo := lo
  brk := lo
  grant := grant
  calls := 0
  heapStart := 0
  segmentList := fun _ => 0
  miniListStart := 0

/-- The largest request whose size computation does not wrap. -/
def maxRequest : Nat := 2 ^ 64 - 24

/-- `ptr` is NULL or the payload of a block of the implicit list marked
allocated. -/
def validPtr (s : State) (ptr : Nat) : Prop :=
  ptr = 0 ∨ (s.heapStart ≠ 0 ∧ 8 ≤ ptr ∧ (∃ bs, walkBlocks s = some bs ∧ payloadToHeader ptr ∈ bs) ∧
    getAlloc s.mem (payloadToHeader ptr) = true)

instance (s : State) (ptr : Nat) : Decidable (validPtr s ptr) :=
  decidable_of_iff (ptr = 0 ∨ (s.heapStart ≠ 0 ∧ 8 ≤ ptr ∧
      (walkBlocks s).any (·.contains (payloadToHeader ptr)) = true ∧
      getAlloc s.mem (payloadToHeader ptr) = true)) (by
    cases h : walkBlocks s <;> simp [validPtr, h])

/-- `x` is a byte of the payload of a block of the implicit list marked
allocated: a byte the client may write. -/
def InPayload (s : State) (x : Nat) : Prop :=
  s.heapStart ≠ 0 ∧ ∃ a ∈ (walkBlocks s).getD [], getAlloc s.mem a = true ∧ a + 8 ≤ x ∧ x < a + getSize s.mem a

instance (s : State) (x : Nat) : Decidable (InPayload s x) :=
  inferInstanceAs (Decidable (_ ∧ _))

/-- The preconditions of a call in the state it is made in. -/
def Call.valid : Call → State → Prop
  | .malloc size, _ => size ≤ maxRequest
  | .calloc elements size, _ => elements * size ≤ maxRequest
  | .free ptr, s => validPtr s ptr
  | .realloc ptr size, s => validPtr s ptr ∧ size ≤ maxRequest

instance : (c : Call) → (s : State) → Decidable (c.valid s)
  | .malloc size, _ => inferInstanceAs (Decidable (size ≤ maxRequest))
  | .calloc elements size, _ => inferInstanceAs (Decidable (elements * size ≤ maxRequest))
  | .free ptr, s => inferInstanceAs (Decidable (validPtr s ptr))
  | .realloc ptr size, s => inferInstanceAs (Decidable (validPtr s ptr ∧ size ≤ maxRequest))

/-- Each call of a sequence is valid in the state it is made in. -/
def validRun : State → List Call → Prop
  | _, [] => True
  | s, c :: cs => c.valid s ∧ validRun (c.apply s).1 cs

instance decValidRun : (s : State) → (cs : List Call) → Decidable (validRun s cs)
  | _, [] => isTrue trivial
  | s, c :: cs => @instDecidableAnd _ _ _ (decValidRun (c.apply s).1 cs)

/-- The states `mm_init` and then valid calls and the client's writes to
payloads reach, from any memory and any answers of the region provider. -/
inductive Reachable : State → Prop where
  | init (mem : Mem) (lo : Nat) (grant : Nat → Bool) : Reachable (mmInit (initState mem lo grant)).1
  | call {s : State} (c : Call) : Reachable s → c.valid s → Reachable (c.apply s).1
  | write {s : State} (x : Nat) (v : Byte) : Reachable s → InPayload s x →
      Reachable { s with mem := store s.mem x v }

/-- A valid sequence of calls from a reachable state reaches its end. -/
theorem Reachable.run {s : State} {cs : List Call} (h : Reachable s) (hv : validRun s cs) :
    Reachable (runCalls s cs) := by
  induction cs generalizing s with
  | nil => exact h
  | cons c cs ih => exact ih (.call c h hv.1) hv.2

end MallocSim
