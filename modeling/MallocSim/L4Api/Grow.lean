import MallocSim.L3Heap.Merge

/-!
# The empty heap and the grown heap

Two states that the allocator's own writes pass through, with what they
represent. `mm_init` lays the prologue and the epilogue in its first 16
bytes (`laidState`), which represents the heap with no blocks. `extend_heap`
puts a block over the provider's new bytes; written as allocated, with the
epilogue moved behind it (`grownState`), it represents the heap with one
more allocated block at the end, and the block is then freed as any other.

Results:
- `laid_repr`: the laid state represents the empty heap.
- `grown_repr`: the grown state represents the heap with the new block.
-/
namespace MallocSim

/-- The heap with an allocated block of `S` bytes appended at `a`. -/
def Heap.grow (H : Heap) (a S : Nat) : Heap := { H with blocks := H.blocks ++ [⟨a, S, true⟩] }

/-- The state with the provider's new bytes appended as an allocated block
after `bs`, and the epilogue moved behind it. -/
def grownState (s : State) (bs : List Block) (S : Nat) : State :=
  { s with brk := s.brk + S, calls := s.calls + 1,
           mem := writeWord (writeWord s.mem (s.brk - 8)
               (pack S true (prevBits true false bs).1 (prevBits true false bs).2))
             (s.brk - 8 + S) (pack 0 true true (decide (S = 16))) }

/-- The heap with no blocks. -/
def emptyHeap : Heap := ⟨[], fun _ => []⟩

/-- The state after `mm_init` has laid the prologue and the epilogue in its
first 16 bytes and cleared the lists (mm.c:1340-1366). -/
def laidState (s : State) : State :=
  { s with brk := s.brk + 16, calls := s.calls + 1,
           segmentList := fun i => if i < segListLen then 0 else s.segmentList i, miniListStart := 0,
           mem := writeWord (writeWord s.mem s.brk (pack 0 true false false)) (s.brk + wsize)
             (pack 0 true true false),
           heapStart := s.brk + wsize }

/-! ## The grown heap -/

theorem grown_frame {s : State} {bs : List Block} {S x : Nat} (hx : x < s.brk - 8) :
    (grownState s bs S).mem x = s.mem x := by
  simp only [grownState]
  rw [writeWord_of_disjoint _ (by omega), writeWord_of_disjoint _ (by omega)]

section Grow

variable {s : State} {H : Heap} {S : Nat} (hR : Repr s H) (h16 : S % 16 = 0) (hS : 16 < S)
  (htop : s.brk + S ≤ 2 ^ 64)
include hR h16 hS htop

/-- The grown state represents the heap with the new allocated block. -/
theorem grown_repr : Repr (grownState s H.blocks S) (H.grow (s.brk - 8) S) := by
  have hSh := hR.shape
  have hl := hSh.layout
  have := hl.le; have := hSh.start
  have hE : readWord (grownState s H.blocks S).mem (s.brk - 8) =
      pack S true (prevBits true false H.blocks).1 (prevBits true false H.blocks).2 := by
    simp only [grownState]
    rw [readWord_writeWord_of_disjoint _ _ (by omega), readWord_writeWord_same]
  refine ⟨⟨hSh.start, htop, ?_, ?_, ?_, ?_⟩, ?_, ?_⟩
  · show readWord _ (s.heapStart - 8) = _
    rw [← hSh.prologue]
    exact readWord_congr fun x _ _ => grown_frame (by omega)
  · exact layout_append.mpr ⟨_, hl, rfl, hS.le, h16, show s.brk - 8 + S = s.brk + S - 8 by omega⟩
  · refine marked_append.mpr ⟨hSh.marked.congr_outside hl fun x _ hx => grown_frame hx,
      ⟨hE, fun h => nomatch h⟩, trivial⟩
  · simp only [grownState, Heap.grow, epilogueWord, prevBits_concat]
    rw [show s.brk + S - 8 = s.brk - 8 + S by omega, readWord_writeWord_same]
  · refine (hR.lists.congr (t := grownState s H.blocks S) hR.placed rfl (fun _ => rfl)
      fun k c hc x hx => grown_frame ?_).of_lists rfl
    have := (hl.bounds (hR.placed.mem k c hc).1).2.1; have := hx.bounds; simp only [Block.last] at *; omega
  · refine ⟨?_, fun k c => ?_, hR.wf.nodup⟩
    · exact List.Chain'.append hR.wf.noAdj (List.chain'_singleton _) fun _ _ _ h => by
        simp only [List.head?_cons, Option.mem_def, Option.some.injEq] at h; subst h; exact .inr rfl
    · simp only [Heap.grow, List.mem_append, List.mem_singleton]
      rw [hR.wf.mem_lists]
      exact ⟨fun ⟨h1, h2, h3⟩ => ⟨.inl h1, h2, h3⟩, fun ⟨h1, h2, h3⟩ =>
        ⟨h1.resolve_right (fun e => by subst e; cases h2), h2, h3⟩⟩

end Grow

/-! ## The laid heap -/

/-- The laid state represents the empty heap. -/
theorem laid_repr {s : State} (hlo : s.lo ≤ s.brk) (htop : s.brk + 16 ≤ 2 ^ 64) :
    Repr (laidState s) emptyHeap := by
  refine ⟨⟨?_, htop, ?_, ?_, trivial, ?_⟩, ⟨rfl, fun i hi => ?_⟩,
    ⟨List.chain'_nil, fun k c => ?_, fun _ => List.nodup_nil⟩⟩
  · show s.lo + 8 ≤ s.brk + wsize
    simp only [wsize]; omega
  · show readWord _ (s.brk + wsize - 8) = _
    simp only [laidState, wsize, Nat.add_sub_cancel]
    rw [readWord_writeWord_of_disjoint _ _ (by omega), readWord_writeWord_same]
  · show s.brk + wsize = s.brk + 16 - 8
    simp only [wsize]; omega
  · show readWord _ (s.brk + 16 - 8) = _
    simp only [laidState, wsize, show s.brk + 16 - 8 = s.brk + 8 by omega, readWord_writeWord_same]
    rfl
  · show DSeg _ 0 (if i < segListLen then 0 else _) [] 0 0
    simp only [if_pos hi, DSeg, and_self]
  · simp [emptyHeap]

end MallocSim
