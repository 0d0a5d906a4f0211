import MallocSim.L2Machine.Calls
import MallocSim.L3Heap.Invariant

/-!
# `split_block` asserts that a 16-byte remainder is the last block

When `split_block` carves a 16-byte remainder, it asserts (mm.c:922-926)
that the remainder heads the mini list and that the epilogue's `prev_mini`
bit is set. The epilogue's `prev_mini` bit says whether the *last* block of
the heap is a mini block; a remainder carved from a recycled block in the
middle of the heap is followed by other blocks, and the assertion fails in
a DEBUG build although the heap is consistent. (The release build is
unaffected: `dbg_assert` emits no code.)

Spec clause: "All internal invariants are enforced by debug assertions
during development and erased in release builds."

Counterexample: `mm_init` on a zeroed region at 4096, three `malloc(24)`,
`free` of the second, then `malloc(8)`: the freed 32-byte block is split
into 16 + 16 bytes, and the epilogue follows the large free block at the
end of the heap, so its `prev_mini` bit is clear.

Fix: drop the epilogue check, or make it check the header of the block
after the remainder.

Results:
- `epilogue_prevMini`: in every represented heap the epilogue's `prev_mini`
  bit is the mini-ness of the last block.
- `splitMiniAssert_false`: the assertion fails whenever the last block is not
  mini.
- `split_assert_fails`: the counterexample.
-/
namespace MallocSim.Bugs.SplitMiniAssert

/-- The assertions after `add_to_free_list(block_next)` in `split_block`
(mm.c:922-926), in the state it leaves. -/
def splitMiniAssert (s : State) (blockNext : Nat) : Bool :=
  if getSize s.mem blockNext = 16 then
    s.miniListStart = blockNext && getPrevMini s.mem (s.heapHi - 7)
  else true

/-- The word at `mem_heap_hi() - 7` is the epilogue, and its `prev_mini` bit
describes the last block. -/
theorem epilogue_prevMini {s : State} {bs : List Block} (hS : Shape s bs) :
    getPrevMini s.mem (s.heapHi - 7) = (prevBits true false bs).2 := by
  have := hS.start; have := hS.layout.le
  rw [State.heapHi, show s.brk - 1 - 7 = s.brk - 8 by omega, getPrevMini, hS.epilogue, epilogueWord,
    extractPrevMini_pack rfl (Nat.two_pow_pos 64)]

/-- The assertion fails in every heap whose last block is not mini, whatever
16-byte block it is asked about. -/
theorem splitMiniAssert_false {s : State} {pre : List Block} {L : Block} {r : Nat}
    (hS : Shape s (pre ++ [L])) (hL : L.size ≠ 16) (hr : getSize s.mem r = 16) :
    splitMiniAssert s r = false := by
  rw [splitMiniAssert, if_pos hr, epilogue_prevMini hS, prevBits_concat]
  simp [hL]

/-- `mm_init` on a zeroed region at 4096, three `malloc(24)` and the `free`
of the second. -/
def beforeSplit : State :=
  runCalls (mmInit (initState (fun _ => 0) 4096 fun _ => true)).1
    [.malloc 24, .malloc 24, .malloc 24, .free 4144]

set_option maxRecDepth 20000 in
/-- **Counterexample**: in a reachable state, `malloc(8)` takes the free
32-byte block at 4136, splits it into two 16-byte blocks, and the epilogue
assertion on the remainder at 4152 fails. -/
theorem split_assert_fails :
    Reachable beforeSplit ∧ getSize beforeSplit.mem 4136 = 32 ∧ getAlloc beforeSplit.mem 4136 = false ∧
      (malloc beforeSplit 8).2 = 4144 ∧ getSize (malloc beforeSplit 8).1.mem 4136 = 16 ∧
      splitMiniAssert (malloc beforeSplit 8).1 4152 = false :=
  ⟨(Reachable.init _ _ _).run (by decide), by decide, by decide, by decide, by decide, by decide⟩

end MallocSim.Bugs.SplitMiniAssert
