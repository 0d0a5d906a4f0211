import MallocSim.L2Machine.Calls
import MallocSim.L3Heap.Invariant

/-!
# `mm_checkheap` accepts heaps that break the invariant

The checks of `mm_checkheap` (mm.c:1272-1331) read the headers on the
implicit list, the word before each free block (`find_prev`), and the
`next_free` and `prev_free` links of the segregated lists. No check compares
a free block's footer with its header, and nothing reads the footer of the
last block at all: `find_prev` is only asked about free blocks, and the
epilogue is never one. A heap whose last free block has a broken footer
passes every check. The invariant requires the footer (`Block.Marked`), and
`coalesce_block` steps back through it to find the start of a free block
before the one it merges.

Spec clause: the heap invariants (footers among them) are "properties a
debug checker must verify but that the implementation must never violate".

Counterexample: `mm_init` on a zeroed region at 4096 whose provider grants
every request, then the low byte of the single free block's footer (at 8192)
set to 0.

Fix: in `valid_blocks`, compare the footer of every free block that is not
mini with its header.

Results:
- `footer_eq_header`: in every represented heap, the footer of a free block
  that is not mini is its header word.
- `checkheap_passes_bad_footer`: the counterexample.
-/
namespace MallocSim.Bugs.CheckheapUnsound

/-- In a represented heap, a free block that is not mini carries a footer
equal to its header. -/
theorem footer_eq_header {s : State} {H : Heap} {b : Block} (hR : Repr s H) (hb : b ∈ H.blocks)
    (hf : b.alloc = false) (h16 : b.size ≠ 16) : readWord s.mem (b.addr + b.size - 8) = readWord s.mem b.addr := by
  obtain ⟨pre, post, e⟩ := List.append_of_mem hb
  have hm := (show Marked s.mem true false (pre ++ b :: post) from e ▸ hR.shape.marked).at
  exact (hm.2 hf h16).trans hm.1.symm

/-- The heap `mm_init` lays on a zeroed region at 4096, with the low byte of
its free block's footer cleared. -/
def badFooter : State :=
  let s := (mmInit (initState (fun _ => 0) 4096 fun _ => true)).1
  { s with mem := store s.mem 8192 0 }

/-- **Counterexample**: the walk reaches the epilogue inside the region, the
lists are finite and without repeats (`segment_list[8]` holds the one free
block, the others and the mini list are empty), `mm_checkheap` returns true,
and the state represents no heap. -/
theorem checkheap_passes_bad_footer :
    badFooter.heapStart ≠ 0 ∧ walkBlocks badFooter = some [4104] ∧ getSize badFooter.mem 8200 = 0 ∧
      badFooter.lo ≤ 8200 ∧ 8200 ≤ badFooter.heapHi ∧ badFooter.miniListStart = 0 ∧
      (∀ i < segListLen, segNodes badFooter i = if i = 8 then some [4104] else some []) ∧
      mmCheckheap badFooter = true ∧ ¬ ∃ H, Repr badFooter H := by
  refine ⟨by decide, by decide, by decide, by decide, by decide, by decide, by decide, by decide, ?_⟩
  rintro ⟨H, hR⟩
  have hw : H.blocks.map Block.addr = [4104] :=
    Option.some_inj.mp (hR.shape.heapWalk_eq.symm.trans (show walkBlocks badFooter = some [4104] by decide))
  obtain ⟨b, hb, hba⟩ := List.mem_map.mp (hw ▸ List.mem_singleton_self 4104)
  obtain ⟨hs, ha⟩ := hR.shape.get_mem hb
  rw [hba, show getSize badFooter.mem 4104 = 4096 by decide] at hs
  rw [hba, show getAlloc badFooter.mem 4104 = false by decide] at ha
  have := footer_eq_header hR hb ha.symm (by omega)
  rw [hba, ← hs] at this
  exact absurd this (by decide)

end MallocSim.Bugs.CheckheapUnsound
