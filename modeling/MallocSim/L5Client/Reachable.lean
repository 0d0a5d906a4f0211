import MallocSim.L4Api.Checkheap
import MallocSim.L5Client.Refine

/-!
# Every reachable heap

Read off the refinement (`Reachable.refines`): whatever `mm_init`, valid
calls and the client's writes to payloads do, from any memory and any
answers of the region provider, a state whose `heap_start` is set represents
a heap (`Repr`): the checker's walk visits its blocks, sizes are multiples
of 16 and at least 16, the prologue and epilogue frame them, free blocks
carry footers, the previous-block bits are right, no two free blocks are
adjacent, and the free lists hold exactly the free blocks.

On such a state `malloc(n)` behaves as `mm.c`'s comments say
(`MallocBehaves`): no provider request while `find_fit` finds a block; NULL
only when it finds none and the provider refuses, with nothing changed but
the provider's count; otherwise a block of exactly `round_up(n + 8, 16)`
bytes where the found block was, or where the extension's block was, with
the rest split off at the front of its list. `realloc(p, n)` for a live `p`
is NULL with nothing changed but the provider's count, or a block with room
for `n` bytes holding the first `min(n, m)` bytes of `p`'s payload of `m`
bytes, `p` freed by `free` afterwards (`ReallocBehaves`).

On any represented heap, reachable or not, `find_fit(a)` is the abstract
search mapped to addresses: NULL exactly when no free block has `a` bytes,
else the block the search picks on the list of its size. `free(p)` merges
`p`'s block with its free neighbours into one block at the front of the list
of its size. `coalesce_block`'s step back from a block whose `prev_alloc`
bit is clear, 16 bytes or through the footer before it, lands on the free
block the walk visits just before.

On a reachable state, with the region's base 16-byte aligned, every check of
`mm_checkheap` but two accepts; `list_match_heap` accepts exactly when the
mini list is empty. `check_coalescing` reads the word before each free
block as a footer; when those reads stay in the region, it accepts exactly
when every free block's `find_prev` lands on a word with the allocation bit
set, and `mm_checkheap` exactly when both hold.

Results:
- `reachable_repr`: the allocator invariant on every reachable state.
- `malloc_reachable`: `malloc(n)` for `1 ≤ n ≤ maxRequest` on a reachable
  state with `heap_start` set.
- `findFit_spec`: `find_fit(a)` on any represented heap.
- `free_coalesces`: `free(p)` on any represented heap.
- `checkheap_reachable`: what each check of `mm_checkheap` answers on a
  reachable state.
- `coalesce_finds_prev`: on any represented heap, the step back of
  `coalesce_block` from a block whose `prev_alloc` bit is clear.
- `realloc_reachable`: `realloc(p, n)` for a live `p` on a reachable state.
-/
namespace MallocSim

/-- Every reachable state with `heap_start` set represents a heap, whose
blocks the checker's walk visits. -/
theorem reachable_repr {s : State} (h : Reachable s) (h0 : s.heapStart ≠ 0) :
    ∃ H, Repr s H ∧ walkBlocks s = some (H.blocks.map Block.addr) := by
  obtain ⟨A, hA⟩ := h.refines
  cases hAh : A.heap with
  | none => exact absurd (hA.heap_none hAh).1 h0
  | some H => exact ⟨H, (hA.heap_some hAh).1, (hA.heap_some hAh).1.shape.heapWalk_eq⟩

/-- Two `malloc(24)` after `mm_init` on a zeroed region at 4096, then the
`free` of the first: the allocated block at 4136 lies between the free
32-byte block at 4104 and the free rest of the chunk at 4168. -/
def freedFirst : State :=
  runCalls (mmInit (initState (fun _ => 0) 4096 fun _ => true)).1 [.malloc 24, .malloc 24, .free 4112]

theorem freedFirst_reachable : Reachable freedFirst := (Reachable.init _ _ _).run (by decide)

set_option maxRecDepth 20000 in
/-- `freedFirst` after the client writes a byte of the payload at 4144. -/
theorem reachable_repr_written :
    Reachable { freedFirst with mem := store freedFirst.mem 4150 7 } ∧
      ({ freedFirst with mem := store freedFirst.mem 4150 7 } : State).heapStart ≠ 0 ∧
      ∃ H, Repr { freedFirst with mem := store freedFirst.mem 4150 7 } H ∧
        walkBlocks { freedFirst with mem := store freedFirst.mem 4150 7 } = some (H.blocks.map Block.addr) :=
  have hs : Reachable { freedFirst with mem := store freedFirst.mem 4150 7 } :=
    .write 4150 7 freedFirst_reachable (by decide)
  ⟨hs, by decide, reachable_repr hs (by decide)⟩

/-- What `malloc` does with a request of `a` bytes from `s`, representing
`H`, in terms of `find_fit`: no provider request while it finds a block;
NULL only when it finds none and the provider refuses, and then nothing but
the provider's count changes; otherwise the payload of a block of exactly
`a` bytes where the free block `F` was, `F` being the block `find_fit`
found or the one the extension left, the rest of `F` split off at the front
of the list of its size, and every other block as it was. -/
structure MallocBehaves (s : State) (H : Heap) (a : Nat) (r : State × Nat) : Prop where
  no_sbrk : findFit s a ≠ 0 → r.1.calls = s.calls
  null : r.2 = 0 → findFit s a = 0 ∧ ¬ Grants s (max a chunksize) ∧ r.1 = { s with calls := s.calls + 1 }
  placed : r.2 ≠ 0 → ∃ G pre F post H', Repr r.1 H' ∧ r.2 = F.addr + 8 ∧
    (findFit s a = F.addr ∧ G = H ∨
      findFit s a = 0 ∧ G = H.extend (s.brk - 8) (max a chunksize) ∧
        F = mergedBlock H.blocks ⟨s.brk - 8, max a chunksize, true⟩ []) ∧
    G.blocks = pre ++ F :: post ∧ F.alloc = false ∧ a ≤ F.size ∧
    H'.blocks = pre ++ ⟨F.addr, a, true⟩ :: ((if a < F.size then [⟨F.addr + a, F.size - a, false⟩] else []) ++ post) ∧
    (a < F.size → (H'.lists (listIndex (F.size - a))).head? = some ⟨F.addr + a, F.size - a, false⟩)

/-- `malloc(n)` on a reachable state with `heap_start` set, for
`1 ≤ n ≤ maxRequest`: the rounded size is `round_up(n + 8, 16)` and the call
behaves as `MallocBehaves` says. -/
theorem malloc_reachable {s : State} {n : Nat} (hs : Reachable s) (h0 : s.heapStart ≠ 0) (hn1 : 1 ≤ n)
    (hn : n ≤ maxRequest) :
    roundUp ((n + wsize) % 2 ^ 64) dsize = 16 * ((n + 23) / 16) ∧
      ∃ H, Repr s H ∧ MallocBehaves s H (16 * ((n + 23) / 16)) (malloc s n) := by
  obtain ⟨A, hA⟩ := hs.refines
  obtain ⟨H, hAH⟩ : ∃ H, A.heap = some H := by
    cases hAh : A.heap with
    | none => exact absurd (hA.heap_none hAh).1 h0
    | some H => exact ⟨H, rfl⟩
  have hR := (hA.heap_some hAH).1
  obtain ⟨ha, hM⟩ := malloc_spec hR hn1 hn
  refine ⟨ha, H, hR, ?_⟩
  have hff := findFit_eq hR (16 * ((n + 23) / 16))
  rcases hF : H.findFit (16 * ((n + 23) / 16)) with _ | F
  · rw [hF, Option.map_none', Option.getD_none] at hff
    by_cases hg : Grants s (max (16 * ((n + 23) / 16)) chunksize)
    · -- the extension's block
      obtain ⟨pre, hblk, hret, hR', -⟩ := hM.granted hF hg
      refine ⟨fun h => absurd hff h, fun h => by omega, fun _ => ⟨_, pre, _, [], _, hR', hret,
        .inr ⟨hff, rfl, rfl⟩, hblk, rfl, (le_max_left _ _).trans
          (size_le_mergedBlock H.blocks ⟨s.brk - 8, max (16 * ((n + 23) / 16)) chunksize, true⟩ []),
        Heap.place_blocks _ _ _ _ _, fun h => Heap.place_lists_head h⟩⟩
    · rw [hM.refused hF hg]
      exact ⟨fun h => absurd hff h, fun _ => ⟨hff, hg, rfl⟩, fun h => absurd rfl h⟩
  · -- the first fit
    rw [hF, Option.map_some', Option.getD_some] at hff
    obtain ⟨pre, post, hH, hr, hR', hf, -⟩ := hM.found F hF
    obtain ⟨-, -, hFf, hFa⟩ := Heap.findFit_mem hR.wf hF
    refine ⟨fun _ => hf.calls, fun h => by rw [hr] at h; simp at h, fun _ => ⟨H, pre, F, post, _, hR', by rw [hr],
      .inl ⟨hff, rfl⟩, hH, hFf, hFa, Heap.place_blocks _ _ _ _ _, fun h => Heap.place_lists_head h⟩⟩

/-- `malloc(1)` on the state `mm_init` leaves on an empty region at 4096 whose
provider grants every request. -/
theorem malloc_reachable_init :
    Reachable (mmInit (initState (fun _ => 0) 4096 fun _ => true)).1 ∧
      (mmInit (initState (fun _ => 0) 4096 fun _ => true)).1.heapStart ≠ 0 ∧ 1 ≤ 1 ∧ 1 ≤ maxRequest ∧
      roundUp ((1 + wsize) % 2 ^ 64) dsize = 16 * ((1 + 23) / 16) ∧
      ∃ H, Repr (mmInit (initState (fun _ => 0) 4096 fun _ => true)).1 H ∧
        MallocBehaves (mmInit (initState (fun _ => 0) 4096 fun _ => true)).1 H (16 * ((1 + 23) / 16))
          (malloc (mmInit (initState (fun _ => 0) 4096 fun _ => true)).1 1) :=
  ⟨.init _ _ _, by decide, le_rfl, by decide, malloc_reachable (.init _ _ _) (by decide) le_rfl (by decide)⟩

/-! ## `find_fit` -/

/-- `find_fit(a)`, `a` a positive multiple of 16, in a represented heap: the
address of the block the abstract search chooses, or NULL; NULL exactly when
no free block has `a` bytes, and otherwise a block on the list of its size
with at least `a` bytes. -/
theorem findFit_spec {s : State} {H : Heap} {a : Nat} (hR : Repr s H) (ha : a % 16 = 0) (ha0 : 0 < a) :
    findFit s a = ((H.findFit a).map Block.addr).getD 0 ∧
      (findFit s a = 0 ↔ ∀ b ∈ H.blocks, b.alloc = false → b.size < a) ∧
      ∀ F, H.findFit a = some F → findFit s a = F.addr ∧ F ∈ H.lists (listIndex F.size) ∧ a ≤ F.size := by
  rw [findFit_eq hR]
  refine ⟨rfl, ?_, fun F hF => ⟨by simp [hF], (Heap.findFit_mem hR.wf hF).1, (Heap.findFit_mem hR.wf hF).2.2.2⟩⟩
  rw [← Heap.findFit_eq_none hR.wf ha ha0]
  cases hF : H.findFit a with
  | none => simp
  | some F =>
    have := (hR.placed.addr_pos (Heap.findFit_mem hR.wf hF).2.1).1
    simp only [Option.map_some', Option.getD_some, reduceCtorEq, iff_false]
    omega

/-- `malloc(120)`, `malloc(24)`, `malloc(72)` and `malloc(24)` after
`mm_init` on a zeroed region at 4096, then the `free` of the 80-byte block
at 4264 and of the 128-byte block at 4104, both between allocated blocks:
`segment_list[3]` is 4104, then 4264. -/
def windowFreed : State := runCalls (mmInit (initState (fun _ => 0) 4096 fun _ => true)).1
  [.malloc 120, .malloc 24, .malloc 72, .malloc 24, .free 4272, .free 4112]

set_option maxRecDepth 20000 in
/-- `find_fit(80)` in `windowFreed`: the first fit on `segment_list[3]` is
its head at 4104, and the window after it holds the smaller fit at 4264,
which `find_fit` returns. -/
theorem findFit_spec_window :
    ∃ H, Repr windowFreed H ∧ windowFreed.segmentList 3 = 4104 ∧ findFit windowFreed 80 = 4264 ∧
      80 % 16 = 0 ∧ 0 < 80 ∧
      findFit windowFreed 80 = ((H.findFit 80).map Block.addr).getD 0 ∧
      (findFit windowFreed 80 = 0 ↔ ∀ b ∈ H.blocks, b.alloc = false → b.size < 80) ∧
      ∀ F, H.findFit 80 = some F →
        findFit windowFreed 80 = F.addr ∧ F ∈ H.lists (listIndex F.size) ∧ 80 ≤ F.size := by
  obtain ⟨H, hR⟩ := ((Reachable.init _ _ _).run (by decide) : Reachable windowFreed).repr (by decide)
  exact ⟨H, hR, by decide, by decide, by decide, by decide, findFit_spec hR (by decide) (by decide)⟩

/-! ## `free` -/

/-- `free(p)` for the payload `p` of an allocated block `b` of a represented
heap leaves a state representing `Heap.free`: `b` and its free neighbours
are one free block, at the front of the list of its size, the neighbours
are off their lists, and every other block and list node is as before. -/
theorem free_coalesces {s : State} {H : Heap} {pre post : List Block} {b : Block} (hR : Repr s H)
    (hH : H.blocks = pre ++ b :: post) (hb : b.alloc = true) :
    Repr (free s (b.addr + 8)) (H.free pre b post) :=
  (free_spec hR hH hb).1

set_option maxRecDepth 20000 in
/-- `free(4144)` in `freedFirst`: the block at 4136 merges with the free
block before it and the free rest of the chunk after it, into one free block
of 4096 bytes. -/
theorem free_coalesces_both :
    ∃ H, Repr freedFirst H ∧
      H.blocks = [⟨4104, 32, false⟩] ++ ⟨4136, 32, true⟩ :: [⟨4168, 4032, false⟩] ∧
      (⟨4136, 32, true⟩ : Block).alloc = true ∧
      (H.free [⟨4104, 32, false⟩] ⟨4136, 32, true⟩ [⟨4168, 4032, false⟩]).blocks = [⟨4104, 4096, false⟩] ∧
      Repr (free freedFirst ((⟨4136, 32, true⟩ : Block).addr + 8))
        (H.free [⟨4104, 32, false⟩] ⟨4136, 32, true⟩ [⟨4168, 4032, false⟩]) := by
  obtain ⟨H, hR⟩ := freedFirst_reachable.repr (by decide)
  have hH : H.blocks = [⟨4104, 32, false⟩] ++ ⟨4136, 32, true⟩ :: [⟨4168, 4032, false⟩] := by
    rw [hR.blocks_eq]; decide
  exact ⟨H, hR, hH, rfl, by rw [Heap.free_blocks]; decide, free_coalesces hR hH rfl⟩

/-! ## The heap checker -/

/-- Every word `check_coalescing` reads through `find_prev` lies in the
region `[lo, brk)`. The word before a free block is the last payload word of
an allocated block, which the client may have written; read as a footer it
can send `find_prev` anywhere, and outside the region the C code reads
unmapped memory. -/
def PrevReadsInRegion (s : State) : Prop :=
  ∀ a ∈ (walkBlocks s).getD [], getAlloc s.mem a = false → s.lo ≤ findPrev s.mem a ∧ findPrev s.mem a + 8 ≤ s.brk

instance (s : State) : Decidable (PrevReadsInRegion s) :=
  inferInstanceAs (Decidable (∀ a ∈ (walkBlocks s).getD [], getAlloc s.mem a = false →
    s.lo ≤ findPrev s.mem a ∧ findPrev s.mem a + 8 ≤ s.brk))

/-- On every reachable state with `heap_start` set, in a region that starts on
a 16-byte boundary, six checks of `mm_checkheap` pass and `list_match_heap`
passes exactly when the mini list is empty. When the reads of `find_prev`
stay in the region, `check_coalescing` passes exactly when the word
`find_prev` reads before every free block of the walk has its allocation bit
set, and `mm_checkheap` returns true exactly when both hold. -/
theorem checkheap_reachable {s : State} (h : Reachable s) (h0 : s.heapStart ≠ 0) (hlo : s.lo % 16 = 0) :
    validPrologue s = true ∧ validEpilogue s = true ∧ validBlocks s = true ∧ noCycles s = true ∧
      consistentPointers s = true ∧ allFree s = true ∧
      (listMatchHeap s = true ↔ s.miniListStart = 0) ∧
      (PrevReadsInRegion s → (checkCoalescing s = true ↔ ∀ a ∈ (walkBlocks s).getD [],
        getAlloc s.mem a = false → getAlloc s.mem (findPrev s.mem a) = true)) ∧
      (PrevReadsInRegion s → (mmCheckheap s = true ↔ s.miniListStart = 0 ∧ ∀ a ∈ (walkBlocks s).getD [],
        getAlloc s.mem a = false → getAlloc s.mem (findPrev s.mem a) = true)) := by
  obtain ⟨A, hA⟩ := h.refines
  cases hAh : A.heap with
  | none => exact absurd (hA.heap_none hAh).1 h0
  | some H =>
    obtain ⟨hR, hst⟩ := hA.heap_some hAh
    have hco : checkCoalescing s = true ↔ ∀ a ∈ (walkBlocks s).getD [], getAlloc s.mem a = false →
        getAlloc s.mem (findPrev s.mem a) = true := by
      rw [checkCoalescing_of_repr hR, hR.walk_eq, Option.getD_some, List.forall_mem_map]
      exact forall₂_congr fun b hb => by rw [(hR.shape.get_mem hb).2]
    have hbl := validBlocks_of_repr hR (by omega)
    refine ⟨validPrologue_of_repr hR, validEpilogue_of_repr hR, hbl, noCycles_of_repr hR,
      consistentPointers_of_repr hR, allFree_of_repr hR, listMatchHeap_of_repr hR, fun _ => hco, fun _ => ?_⟩
    rw [← hco, ← listMatchHeap_of_repr hR]
    simp [mmCheckheap, validPrologue_of_repr hR, validEpilogue_of_repr hR, hbl, noCycles_of_repr hR,
      consistentPointers_of_repr hR, allFree_of_repr hR, and_comm]

/-- `malloc(8)` after `mm_init` on a zeroed region at 4096 whose provider
grants every request: the allocated mini block at 4104 is followed by the
free rest of the chunk. -/
def miniAllocated : State := runCalls (mmInit (initState (fun _ => 0) 4096 fun _ => true)).1 [.malloc 8]

/-- The checker on `miniAllocated`, where `find_prev` of the free block at
4120 reads the mini block's zero payload word at 4112 as a footer. -/
theorem checkheap_reachable_mini :
    Reachable miniAllocated ∧ miniAllocated.heapStart ≠ 0 ∧ miniAllocated.lo % 16 = 0 ∧
      PrevReadsInRegion miniAllocated ∧ checkCoalescing miniAllocated = false ∧
      validPrologue miniAllocated = true ∧ validEpilogue miniAllocated = true ∧
      validBlocks miniAllocated = true ∧ noCycles miniAllocated = true ∧
      consistentPointers miniAllocated = true ∧ allFree miniAllocated = true ∧
      (listMatchHeap miniAllocated = true ↔ miniAllocated.miniListStart = 0) ∧
      (PrevReadsInRegion miniAllocated → (checkCoalescing miniAllocated = true ↔
        ∀ a ∈ (walkBlocks miniAllocated).getD [], getAlloc miniAllocated.mem a = false →
          getAlloc miniAllocated.mem (findPrev miniAllocated.mem a) = true)) ∧
      (PrevReadsInRegion miniAllocated → (mmCheckheap miniAllocated = true ↔
        miniAllocated.miniListStart = 0 ∧ ∀ a ∈ (walkBlocks miniAllocated).getD [],
          getAlloc miniAllocated.mem a = false → getAlloc miniAllocated.mem (findPrev miniAllocated.mem a) = true)) :=
  have hs : Reachable miniAllocated := (Reachable.init _ _ _).run (by decide)
  ⟨hs, by decide, by decide, by decide, by decide, checkheap_reachable hs (by decide) (by decide)⟩

/-! ## The block before a block -/

/-- On a represented heap, `coalesce_block`'s step back from a block `B`
whose `prev_alloc` bit is clear lands on the block `P` the walk visits just
before `B`: `find_next(P) = B`, `P` is free and on the list of its size, and
it is mini exactly when `B`'s `prev_mini` bit is set. -/
theorem coalesce_finds_prev {s : State} {H : Heap} (hR : Repr s H) {B : Nat}
    (hB : B ∈ (walkBlocks s).getD []) (hpa : getPrevAlloc s.mem B = false) :
    ∃ P ∈ H.blocks, (∃ l1 l2, walkBlocks s = some (l1 ++ P.addr :: B :: l2)) ∧
      (if getPrevMini s.mem B = true then B - minBlockSize else findPrev s.mem B) = P.addr ∧
      findNext s.mem P.addr = B ∧ getAlloc s.mem P.addr = false ∧
      P ∈ H.lists (listIndex (getSize s.mem P.addr)) ∧
      (getSize s.mem P.addr = 16 ↔ getPrevMini s.mem B = true) := by
  have hS := hR.shape
  have hw : walkBlocks s = some (H.blocks.map Block.addr) := hS.heapWalk_eq
  rw [hw, Option.getD_some] at hB
  obtain ⟨b, hb, rfl⟩ := List.mem_map.mp hB
  obtain ⟨pre, post, hH, hl⟩ := hS.split_mem hb
  have hg := (show Shape s (pre ++ b :: post) from hH ▸ hS).get_at hl
  -- the prologue reads as allocated, so a block is before `b`
  obtain ⟨pre', P, rfl⟩ : ∃ pre' P, pre = pre' ++ [P] := by
    rcases pre.eq_nil_or_concat with rfl | ⟨pre', P, rfl⟩
    · rw [hg.2.2.1] at hpa; cases hpa
    · exact ⟨pre', P, List.concat_eq_append pre' P⟩
  rw [prevBits_concat] at hg
  have hPf : P.alloc = false := hg.2.2.1.symm.trans hpa
  have hH' : H.blocks = pre' ++ P :: b :: post := by rw [hH]; simp
  have hP : P ∈ H.blocks := by rw [hH']; simp
  obtain ⟨hPs, hPa⟩ := hS.get_mem hP
  obtain ⟨c, -, hPc, hP16, hPmod, hPend⟩ := layout_append.mp hl
  have hPB : P.addr + P.size = b.addr := by rw [hPc]; exact hPend
  have hPlt : b.addr ≤ 2 ^ 64 ∧ P.size < 2 ^ 64 := by
    have := (hS.layout.bounds hb).2.1; have := (hS.layout.bounds hP).2.1; have := hS.top
    simp only [Block.last] at *; omega
  have hft := (show Marked s.mem true false (pre' ++ P :: b :: post) from hH' ▸ hS.marked).at
  refine ⟨P, hP, ⟨pre'.map Block.addr, post.map Block.addr, by rw [hw, hH']; simp⟩,
    prev_found hPB hP16 hPlt.1 hg.2.2.2 fun hm => ?_, by rw [findNext, hPs, hPB], by rw [hPa, hPf], ?_, ?_⟩
  · rw [show b.addr - wsize = P.addr + P.size - 8 by simp only [wsize]; omega, hft.2 hPf hm, Block.hdr,
      extractSize_pack hPmod hPlt.2]
  · rw [hPs]; exact (hR.wf.mem_lists _ P).mpr ⟨hP, hPf, rfl⟩
  · rw [hPs, hg.2.2.2, decide_eq_true_iff]


/-- `malloc(8)` and three `malloc(24)` after `mm_init` on a zeroed region at
4096, then the `free` of the mini block at 4104 and of the 32-byte block at
4152: the blocks at 4120 and 4184 follow a free mini block and a free
32-byte block. -/
def bothFreed : State := runCalls (mmInit (initState (fun _ => 0) 4096 fun _ => true)).1
  [.malloc 8, .malloc 24, .malloc 24, .malloc 24, .free 4112, .free 4160]

set_option maxRecDepth 20000 in
/-- In `bothFreed`, the step back from 4120 is the 16 bytes to the mini
block, and the step back from 4184 goes through the footer of the block at
4152. -/
theorem coalesce_finds_prev_both :
    ∃ H, Repr bothFreed H ∧ getPrevMini bothFreed.mem 4120 = true ∧ getPrevMini bothFreed.mem 4184 = false ∧
      ∀ B ∈ [4120, 4184], B ∈ (walkBlocks bothFreed).getD [] ∧ getPrevAlloc bothFreed.mem B = false ∧
        ∃ P ∈ H.blocks, (∃ l1 l2, walkBlocks bothFreed = some (l1 ++ P.addr :: B :: l2)) ∧
          (if getPrevMini bothFreed.mem B = true then B - minBlockSize else findPrev bothFreed.mem B) = P.addr ∧
          findNext bothFreed.mem P.addr = B ∧ getAlloc bothFreed.mem P.addr = false ∧
          P ∈ H.lists (listIndex (getSize bothFreed.mem P.addr)) ∧
          (getSize bothFreed.mem P.addr = 16 ↔ getPrevMini bothFreed.mem B = true) := by
  obtain ⟨H, hR⟩ := ((Reachable.init _ _ _).run (by decide) : Reachable bothFreed).repr (by decide)
  refine ⟨H, hR, by decide, by decide, fun B hB => ?_⟩
  have hw : B ∈ (walkBlocks bothFreed).getD [] ∧ getPrevAlloc bothFreed.mem B = false := by
    simp only [List.mem_cons, List.mem_singleton, List.not_mem_nil, or_false] at hB
    rcases hB with rfl | rfl <;> decide
  exact ⟨hw.1, hw.2, coalesce_finds_prev hR hw.1 hw.2⟩

/-! ## `realloc` -/

/-- What `realloc(p, n)` does with a live `p` and `n ≥ 1`, where `m` is the
payload size of `p`'s block: NULL with nothing changed but the provider's
count, `p`'s block and its bytes included; or the pointer `malloc(n)` gave,
the payload of an allocated block with room for `n` bytes that holds the
first `min(n, m)` bytes `p` held, `p` having been freed by `free` in the
state the allocation and the copy left, where its block was still
allocated. -/
structure ReallocBehaves (s : State) (p n : Nat) (r : State × Nat) : Prop where
  null : r.2 = 0 → r.1 = { s with calls := s.calls + 1 }
  moved : r.2 ≠ 0 → r.2 = (malloc s n).2 ∧ getAlloc r.1.mem (r.2 - 8) = true ∧
    n ≤ getPayloadSize r.1.mem (r.2 - 8) ∧
    (∀ i < min n (getPayloadSize s.mem (payloadToHeader p)), r.1.mem (r.2 + i) = s.mem (p + i)) ∧
    r.1 = free (movedState s p n) p ∧
    ∃ H b, Repr (movedState s p n) H ∧ b ∈ H.blocks ∧ b.alloc = true ∧ b.addr + 8 = p

/-- `realloc(p, n)` on a reachable state for a live `p` and
`1 ≤ n ≤ maxRequest` behaves as `ReallocBehaves` says; `realloc(p, 0)` is
`free(p)` returning NULL and `realloc(NULL, n)` is `malloc(n)`. -/
theorem realloc_reachable {s : State} {p n : Nat} (hs : Reachable s) (hp : validPtr s p) (hp0 : p ≠ 0)
    (hn1 : 1 ≤ n) (hn : n ≤ maxRequest) :
    ReallocBehaves s p n (realloc s p n) ∧ realloc s p 0 = (free s p, 0) ∧ realloc s 0 n = malloc s n := by
  obtain ⟨A, hA⟩ := hs.refines
  have hn0 : n ≠ 0 := by omega
  obtain ⟨H, -, hAH, -⟩ := hA.block_of_validPtr hp hp0
  -- `realloc` returns what `malloc` returned
  have hret : (realloc s p n).2 = (malloc s n).2 := by
    rw [realloc_move hn0 hp0]; split_ifs <;> rfl
  refine ⟨⟨fun h0 => ?_, fun hq => ?_⟩, by simp [realloc], by simp [realloc, hn0]⟩
  · have hq : (malloc s n).2 = 0 := hret ▸ h0
    rw [realloc_move hn0 hp0, if_pos hq]
    exact congrArg Prod.fst ((malloc_spec (hA.heap_some hAH).1 hn1 hn).2.null hq).2.2
  · have hq' : (malloc s n).2 ≠ 0 := hret ▸ hq
    obtain ⟨heq, hfree, hcopy⟩ := realloc_moved hA hp hp0 hn0 hn hq'
    have hS := realloc_steps hA hp hn
    obtain ⟨hsz, hal⟩ := hS.new_block (by rw [← hS.ret]; exact hq)
    refine ⟨hret, hal, ?_, fun i hi => by rw [hret]; exact hcopy i hi, congrArg Prod.fst heq, hfree⟩
    rw [getPayloadSize, hsz, wsize]; omega

set_option maxRecDepth 20000 in
/-- `realloc(4144, 40)` in `freedFirst`, where 4144 is the payload of the
allocated block at 4136. -/
theorem realloc_reachable_freed :
    Reachable freedFirst ∧ validPtr freedFirst 4144 ∧ 4144 ≠ 0 ∧ 1 ≤ 40 ∧ 40 ≤ maxRequest ∧
      ReallocBehaves freedFirst 4144 40 (realloc freedFirst 4144 40) ∧
      realloc freedFirst 4144 0 = (free freedFirst 4144, 0) ∧ realloc freedFirst 0 40 = malloc freedFirst 40 :=
  ⟨freedFirst_reachable, by decide, by decide, by decide, by decide,
    realloc_reachable freedFirst_reachable (by decide) (by decide) (by decide) (by decide)⟩

end MallocSim
