import MallocSim.L4Api.Malloc

/-!
# Payloads belong to the client

The allocator keeps none of its words in the payload of an allocated block:
headers and footers are block tags, list links live in free blocks
(`Repr.unlinked`). So any write inside such a payload, the client's own
stores, `realloc`'s `memcpy` and `calloc`'s `memset`, keeps the
representation (`Repr.payload_congr`), and what the client wrote there
cannot steer the allocator.

The client-facing predicates of `Calls` read the heap through the checker's
walk; on a represented heap they are statements about `H` (`Repr.validPtr`,
`Repr.inPayload`).

Results:
- `Repr.payload_congr`: writes inside one allocated payload keep `Repr`.
- `Repr.validPtr`, `Repr.validPtr_of_mem`: the valid non-NULL pointers are
  the payloads of the allocated blocks.
- `Repr.inPayload`: a byte the client may write lies in an allocated payload.
-/
namespace MallocSim

section Payload

variable {s : State} {H : Heap} {b : Block} (hR : Repr s H) (hb : b ∈ H.blocks) (ha : b.alloc = true)
include hR hb ha

/-- Memory that differs from `s`'s only inside the payload of the allocated
block `b` represents the same heap. -/
theorem Repr.payload_congr {m : Mem} (hm : ∀ x, (x < b.addr + 8 ∨ b.last ≤ x) → m x = s.mem x) :
    Repr { s with mem := m } H := by
  have hS := hR.shape
  have hbd := hS.layout.bounds hb
  have := hS.start
  refine ⟨⟨hS.start, hS.top, ?_, hS.layout, ?_, ?_⟩, ?_, hR.wf⟩
  · show readWord m (s.heapStart - 8) = _
    rw [← hS.prologue]; exact readWord_congr fun x _ h2 => hm x (.inl (by omega))
  · refine hS.marked.congr hS.layout fun c hc x hx => hm x ?_
    -- tags are header bytes of `b`, or bytes of another block
    by_cases e : c = b
    · subst e; simp only [Block.Tag, ha, Bool.true_eq_false, false_and, or_false] at hx; omega
    · have := Block.tag_bounds (hS.layout.bounds hc).2.2.1 hx
      rcases hS.layout.disjoint hc hb with e' | e' | e'
      · exact absurd e' e
      all_goals simp only [Block.last] at *; omega
  · show readWord m (s.brk - 8) = _
    rw [← hS.epilogue]
    exact readWord_congr fun x h1 _ => hm x (.inr (by simp only [Block.last] at *; omega))
  · exact hR.lists.congr hR.placed rfl (fun _ => rfl) fun _ _ hc x hx =>
      hm x (by have := linkByte_outside hR hb ha hc hx; simp only [Block.last]; omega)

/-- The payload of an allocated block is a valid pointer. -/
theorem Repr.validPtr_of_mem : validPtr s (b.addr + 8) := by
  have hst := hR.shape.start
  have hbd := hR.shape.layout.bounds hb
  refine .inr ⟨by omega, by omega, ⟨_, hR.shape.heapWalk_eq, ?_⟩, ?_⟩
  · simpa [payloadToHeader, wsize] using List.mem_map_of_mem Block.addr hb
  · simpa [payloadToHeader, wsize] using (hR.shape.get_mem hb).2.trans ha

end Payload

/-- A valid non-NULL pointer is the payload of an allocated block. -/
theorem Repr.validPtr {s : State} {H : Heap} {p : Nat} (hR : Repr s H) (h : validPtr s p) (hp : p ≠ 0) :
    ∃ b ∈ H.blocks, b.alloc = true ∧ b.addr + 8 = p := by
  obtain h | ⟨-, h8, ⟨bs, hw, hm⟩, ha⟩ := h
  · exact absurd h hp
  rw [walkBlocks, hR.shape.heapWalk_eq, Option.some_inj] at hw
  subst hw
  obtain ⟨b, hb, he⟩ := List.mem_map.mp hm
  refine ⟨b, hb, ?_, by simp only [payloadToHeader, wsize] at he; omega⟩
  rw [← (hR.shape.get_mem hb).2, he]; exact ha

/-- A byte the client may write lies in the payload of an allocated block. -/
theorem Repr.inPayload {s : State} {H : Heap} {x : Nat} (hR : Repr s H) (h : InPayload s x) :
    ∃ b ∈ H.blocks, b.alloc = true ∧ b.addr + 8 ≤ x ∧ x < b.last := by
  obtain ⟨-, a, hm, ha, h1, h2⟩ := h
  rw [walkBlocks, hR.shape.heapWalk_eq, Option.getD_some] at hm
  obtain ⟨b, hb, rfl⟩ := List.mem_map.mp hm
  have hg := hR.shape.get_mem hb
  exact ⟨b, hb, hg.2 ▸ ha, h1, by rw [Block.last, ← hg.1]; exact h2⟩

end MallocSim
