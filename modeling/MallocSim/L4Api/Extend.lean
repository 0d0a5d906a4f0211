import MallocSim.L4Api.Free

/-!
# `extend_heap` and `mm_init`

`extend_heap(size)` asks the provider for `size` more bytes; the old
epilogue becomes the header of a new free block over the new bytes, a new
epilogue goes at the new end, and `coalesce_block` merges the block with a
free last block. Abstractly (`Heap.extend`) that is `free` of an allocated
block appended at the old epilogue: the code's writes are exactly `free`'s
on the block of the grown state (`extendHeap_eq`), so `coalesce_spec` gives
the rest.

`mm_init` lays the prologue and the epilogue (`laidState`, which represents
the empty heap) and extends the heap by `chunksize`.

Results:
- `extendHeap_fail`: a refused request changes nothing but the provider's count.
- `extendHeap_spec`: a granted request, against `Heap.extend`.
- `mmInit_fail`, `mmInit_eq`: `mm_init` refused, or laid and extended.
-/
namespace MallocSim

/-! ## The abstract operation -/

/-- Extending the heap by `S` bytes at `a`, the old epilogue: the new block
is freed, merging with a free last block. -/
def Heap.extend (H : Heap) (a S : Nat) : Heap := (H.grow a S).free H.blocks ⟨a, S, true⟩ []

theorem Heap.mem_extend_alloc {H : Heap} {a S : Nat} {c : Block} (hc : c.alloc = true) :
    c ∈ (H.extend a S).blocks ↔ c ∈ H.blocks := by
  simp [Heap.extend, Heap.mem_free_alloc hc]

/-- The provider grants a request of `S` bytes: its answer is yes, the
`(intptr_t)` of `S` is not negative, and the region stays in the address
space. -/
def Grants (s : State) (S : Nat) : Prop := s.grant s.calls = true ∧ S < 2 ^ 63 ∧ s.brk + S ≤ 2 ^ 64

instance (s : State) (S : Nat) : Decidable (Grants s S) :=
  inferInstanceAs (Decidable (s.grant s.calls = true ∧ S < 2 ^ 63 ∧ s.brk + S ≤ 2 ^ 64))

/-- What `extend_heap` returns on a granted request: a state representing
`Heap.extend`, the merged block's address, the provider's frame moved by the
request, and memory changed only around the merged block and at link words
of free blocks. -/
structure Extended (s : State) (H : Heap) (S : Nat) (r : State × Nat) : Prop where
  repr : Repr r.1 (H.extend (s.brk - 8) S)
  addr : r.2 = (mergedBlock H.blocks ⟨s.brk - 8, S, true⟩ []).addr
  frame : SameFrame (grownState s H.blocks S) r.1
  mem : ∀ x, (x < (mergedBlock H.blocks ⟨s.brk - 8, S, true⟩ []).addr ∨
      (mergedBlock H.blocks ⟨s.brk - 8, S, true⟩ []).last + 8 ≤ x) → H.Unlinked x → r.1.mem x = s.mem x

/-! ## `extend_heap` -/

theorem extend_mem {m : Mem} {a S : Nat} {pa pm : Bool} (h16 : S % 16 = 0) (hS : 16 < S)
    (hlt : a + S < 2 ^ 64) :
    writeEpilogue (writeBlock m a S false pa pm) (findNext (writeBlock m a S false pa pm) a)
        (decide (getSize (writeBlock m a S false pa pm) a = minBlockSize)) =
      writeBlock (writeWord (writeWord m a (pack S true pa pm)) (a + S) (pack 0 true true (decide (S = 16))))
        a S false pa pm := by
  have hS' : S ≠ 16 := by omega
  have hs : S < 2 ^ 64 := by omega
  have hh : getSize (writeBlock m a S false pa pm) a = S := by
    rw [getSize, writeBlock_hdr hS.le h16 hs, extractSize_pack h16 hs]
  have he : readWord (writeWord (writeWord m a (pack S true pa pm)) (a + S) (pack 0 true true false)) (a + S) =
      pack 0 true true false := readWord_writeWord_same _ _ _
  simp only [writeEpilogue, findNext, hh, minBlockSize, hS', decide_False]
  rw [writeBlock_eq hS.le h16 hs, writeBlock_eq hS.le h16 hs, if_pos ⟨rfl, hS'⟩, if_pos ⟨rfl, hS'⟩,
    writeWord_writeWord_same, getSize, getAlloc, he, extractSize_pack rfl (Nat.two_pow_pos 64),
    extractAlloc_pack rfl (Nat.two_pow_pos 64),
    writeWord_comm (writeWord m a _) _ _ (by omega : a + S + 8 ≤ a ∨ a + 8 ≤ a + S), writeWord_writeWord_same,
    writeWord_comm (writeWord m a _) _ _ (by omega : a + S + 8 ≤ a + S - 8 ∨ a + S - 8 + 8 ≤ a + S),
    writeWord_writeWord_same, decide_eq_false hS']

theorem extend_sbrk {s : State} {S : Nat} (h16 : S % 16 = 0) (hlt : S + 15 < 2 ^ 64) :
    memSbrk s (toIntptr (roundUp S dsize)) =
      if Grants s S then (some s.brk, { s with calls := s.calls + 1, brk := s.brk + S })
      else (none, { s with calls := s.calls + 1 }) := by
  rw [roundUp_dsize h16 hlt, toIntptr]
  by_cases hg : Grants s S
  · obtain ⟨h1, h63, h3⟩ := hg
    rw [if_pos h63, if_pos ⟨h1, h63, h3⟩, memSbrk, if_pos ⟨h1, Int.natCast_nonneg S, by simpa using h3⟩]
    simp
  · rw [if_neg hg]
    by_cases h63 : S < 2 ^ 63
    · rw [if_pos h63, memSbrk, if_neg]
      rintro ⟨h1, -, h3⟩
      exact hg ⟨h1, h63, by simpa using h3⟩
    · rw [if_neg h63, memSbrk, if_neg (fun h => by omega)]

/-- A refused request: nothing changes but the provider's count. -/
theorem extendHeap_fail {s : State} {S : Nat} (h16 : S % 16 = 0) (hlt : S + 15 < 2 ^ 64)
    (hg : ¬ Grants s S) : extendHeap s S = ({ s with calls := s.calls + 1 }, 0) := by
  simp only [extendHeap]
  rw [extend_sbrk h16 hlt, if_neg hg]

theorem extendHeap_eq {s : State} {H : Heap} {S : Nat} (hR : Repr s H) (h16 : S % 16 = 0) (hS : 16 < S)
    (hg : Grants s S) :
    extendHeap s S = coalesceBlock (freedState (grownState s H.blocks S) H.blocks ⟨s.brk - 8, S, true⟩)
      (s.brk - 8) := by
  have hSh := hR.shape
  have := hSh.layout.le; have := hSh.start
  obtain ⟨-, h63, htop⟩ := id hg
  have hS0 : Shape s (H.blocks ++ []) := by rw [List.append_nil]; exact hSh
  have hg' := hS0.get_at hSh.layout
  simp only [List.headD_nil] at hg'
  simp only [extendHeap]
  rw [extend_sbrk h16 (by omega), if_pos hg]
  simp only [payloadToHeader, wsize, hg'.2.2.1, hg'.2.2.2, freedState, grownState,
    roundUp_dsize h16 (by omega : S + 15 < 2 ^ 64)]
  rw [extend_mem h16 hS (by omega)]

theorem extend_merged {h0 e S : Nat} {bs : List Block} (hl : Layout h0 bs e) :
    (mergedBlock bs ⟨e, S, true⟩ []).addr ≤ e ∧ (mergedBlock bs ⟨e, S, true⟩ []).last = e + S := by
  rcases leftFree_cases bs with ⟨hlf, -⟩ | ⟨pre', P, rfl, -, hlf⟩
  · simp [mergedBlock, hlf, rightFree, Block.last]
  · obtain ⟨c, -, hPc, -, -, hPe⟩ := layout_append.mp hl
    simp only [mergedBlock, hlf, rightFree, Block.last, List.singleton_append, List.headD_cons,
      List.map_cons, List.map_nil, List.sum_cons, List.sum_nil]
    have : P.addr + P.size = e := by rw [hPc]; exact hPe
    omega

/-- A granted request of `S` bytes, a multiple of 16 above 16: the new region
joins the heap as a free block, merged with a free last block. -/
theorem extendHeap_spec {s : State} {H : Heap} {S : Nat} (hR : Repr s H) (h16 : S % 16 = 0) (hS : 16 < S)
    (hg : Grants s S) : Extended s H S (extendHeap s S) := by
  rw [extendHeap_eq hR h16 hS hg]
  have h := coalesce_spec (grown_repr hR h16 hS hg.2.2)
    (show (H.grow (s.brk - 8) S).blocks = H.blocks ++ ⟨s.brk - 8, S, true⟩ :: [] from rfl) rfl
  have hM := extend_merged (S := S) hR.shape.layout
  refine ⟨h.repr, h.addr, h.frame, fun x hx hu => ?_⟩
  rw [h.mem x hx hu]
  rcases hx with hx | hx
  · exact grown_frame (by omega)
  · simp only [grownState]
    rw [writeWord_of_disjoint _ (by omega), writeWord_of_disjoint _ (by omega)]

/-! ## `mm_init` -/

theorem init_sbrk (s : State) :
    memSbrk s (toIntptr (2 * wsize)) =
      if s.grant s.calls = true ∧ s.brk + 16 ≤ 2 ^ 64 then
        (some s.brk, { s with calls := s.calls + 1, brk := s.brk + 16 })
      else (none, { s with calls := s.calls + 1 }) := by
  simp [memSbrk, toIntptr, wsize]

theorem mmInit_fail {s : State} (hg : ¬ (s.grant s.calls = true ∧ s.brk + 16 ≤ 2 ^ 64)) :
    mmInit s = ({ s with calls := s.calls + 1 }, false) := by
  simp only [mmInit]
  rw [init_sbrk, if_neg hg]

theorem mmInit_eq {s : State} (hg : s.grant s.calls = true ∧ s.brk + 16 ≤ 2 ^ 64) :
    mmInit s = ((extendHeap (laidState s) chunksize).1, decide ((extendHeap (laidState s) chunksize).2 ≠ 0)) := by
  simp only [mmInit]
  rw [init_sbrk, if_pos hg]
  rfl


end MallocSim
