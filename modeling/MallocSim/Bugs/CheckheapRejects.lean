import MallocSim.L2Machine.Calls
import MallocSim.L3Heap.Invariant

/-!
# `mm_checkheap` rejects heaps the allocator builds

`check_coalescing` (mm.c:1097-1120) looks at the neighbours of every free
block, the one before through `find_prev`, which reads the word before the
header as a footer. Allocated blocks have no footer: when the block before is
allocated, that word is the last word of its payload, client data (or
whatever the region held). Whenever it decodes with the allocation bit clear,
the checker reports two adjacent free blocks. Independently,
`list_match_heap` (mm.c:1176-1214) counts the free blocks of the implicit
list against the nodes of the segregated lists only, so any free 16-byte
block, which lives on the mini list, makes the counts differ.

Spec clause: the checker is "intended to be invocable before and after
every public operation during tests".

Counterexample: `mm_init` on a zeroed region at 4096, then `malloc(8)`: the
heap is a 16-byte allocated block followed by a free block of 4080 bytes,
and `find_prev` of the free block reads the allocated block's zero payload.

Fix: in `check_coalescing`, test the free block's `prev_alloc` bit instead of
calling `find_prev`, and count the mini list in `list_match_heap`.

Results:
- `checkCoalescing_reads_payload`: in every represented heap, a free block
  whose `find_prev` word has the allocation bit clear makes
  `check_coalescing` fail.
- `checkheap_fails_after_malloc`: the counterexample.
-/
namespace MallocSim.Bugs.CheckheapRejects

/-- `check_coalescing` fails as soon as `find_prev` of some free block reads
a word with the allocation bit clear, whatever else the heap holds. -/
theorem checkCoalescing_reads_payload {s : State} {H : Heap} {b : Block} (hR : Repr s H)
    (hb : b ∈ H.blocks) (hf : b.alloc = false) (hw : getAlloc s.mem (findPrev s.mem b.addr) = false) :
    checkCoalescing s = false := by
  have hS := hR.shape
  have h0 : s.heapStart ≠ 0 := by have := hS.start; omega
  simp only [checkCoalescing, walkBlocks, hS.heapWalk_eq, if_neg h0, List.all_eq_false]
  exact ⟨b.addr, List.mem_map_of_mem _ hb, by simp [(hS.get_mem hb).2, hf, hw]⟩

/-- The heap after `mm_init` on a zeroed region at 4096 and `malloc(8)`. -/
def afterMalloc : State :=
  ((Call.malloc 8).apply (mmInit (initState (fun _ => 0) 4096 fun _ => true)).1).1

/-- **Counterexample**: a state reached by one valid call, which the checker
rejects. -/
theorem checkheap_fails_after_malloc :
    Reachable afterMalloc ∧ walkBlocks afterMalloc = some [4104, 4120] ∧
      checkCoalescing afterMalloc = false ∧ mmCheckheap afterMalloc = false :=
  ⟨.call _ (.init _ _ _) (by decide), by decide, by decide, by decide⟩

end MallocSim.Bugs.CheckheapRejects
