import MallocSim.L5Client.RoundTrip
import MallocSim.L5Client.Runs

/-!
# `mm.c` writes only inside its region

The heap of `mm.c` lives in the region `[mem_heap_lo(), break)` the
provider hands out; nothing else in memory belongs to it. Every write of
`mm_init`, `malloc`, `free`, `realloc` and `calloc` lands in the region as
the call leaves it (`WritesIn`): `mm_init` lays the prologue and the
epilogue at the break; `extend_heap` writes the new block over the old
epilogue and the epilogue after it; placing, splitting and coalescing
rewrite headers, footers and the link words of listed blocks, all inside
blocks of the heap (`Repr.inRegion`, `Repr.unlinked_outside`); the copy of
`realloc` and the clearing of `calloc` stay inside the payload of the block
`malloc` returned.

So along a valid run from a reachable state every byte below
`mem_heap_lo()`, or at or above the break the run ends with, holds what it
held before the run (`run_writes_inside`).

The one copy the allocator makes, `memcpy(newptr, ptr, copysize)` in a
moving `realloc`, is between blocks that are both allocated when it runs:
`p`'s block is freed only after it, and `malloc` placed the new block apart
from every allocated one. So the two ranges never overlap
(`realloc_copy_disjoint`), as `memcpy` requires.

Results:
- `Repr.inRegion`, `Repr.unlinked_outside`: the blocks of a represented heap
  lie in the region, and no byte outside it is a link byte.
- `malloc_writesIn`, `free_writesIn`, `realloc_writesIn`, `calloc_writesIn`:
  one call writes inside the region it leaves.
- `run_writesIn`, `run_writes_inside`: every valid run.
- `realloc_copy_disjoint`: the ranges of `realloc`'s `memcpy` are apart.
-/
namespace MallocSim

/-- From `s` to `s'` the base stays, the break does not fall, and memory
changes only inside `s'`'s region `[lo, brk)`. -/
structure WritesIn (s s' : State) : Prop where
  lo : s'.lo = s.lo
  brk : s.brk ≤ s'.brk
  mem : ∀ x, x < s.lo ∨ s'.brk ≤ x → s'.mem x = s.mem x

theorem WritesIn.refl (s : State) : WritesIn s s := ⟨rfl, le_rfl, fun _ _ => rfl⟩

theorem WritesIn.bump (s : State) : WritesIn s { s with calls := s.calls + 1 } := ⟨rfl, le_rfl, fun _ _ => rfl⟩

theorem WritesIn.trans {s s' s'' : State} (h : WritesIn s s') (h' : WritesIn s' s'') : WritesIn s s'' :=
  ⟨h'.lo.trans h.lo, h.brk.trans h'.brk, fun x hx =>
    (h'.mem x (by have := h.lo; omega)).trans (h.mem x (by have := h'.brk; omega))⟩

/-! ## Represented heaps -/

section Heap

variable {s s' : State} {H : Heap}

/-- Every block of a represented heap, with the header after it, lies in the
region above the prologue. -/
theorem Repr.inRegion (hR : Repr s H) {b : Block} (hb : b ∈ H.blocks) : s.lo + 8 ≤ b.addr ∧ b.last + 8 ≤ s.brk := by
  have := hR.shape.layout.bounds hb; have := hR.shape.start
  simp only [Block.last] at *; omega

/-- No byte outside the region is a link byte of a listed block. -/
theorem Repr.unlinked_outside (hR : Repr s H) {x : Nat} (hx : x < s.lo ∨ s.brk ≤ x) : H.Unlinked x :=
  fun k c hc hl => by
    have := hR.inRegion ((hR.wf.mem_lists k c).mp hc).1
    simp only [LinkByte, Block.last] at hl this; omega

theorem Repr.writesIn (hR : Repr s H) (hf : SameFrame s s') {b : Block}
    (hb : s.lo + 8 ≤ b.addr ∧ b.last + 8 ≤ s.brk)
    (hm : ∀ x, (x < b.addr ∨ b.last + 8 ≤ x) → H.Unlinked x → s'.mem x = s.mem x) : WritesIn s s' :=
  ⟨hf.lo, hf.brk.ge, fun x hx => hm x (by have := hf.brk; omega) (hR.unlinked_outside (by have := hf.brk; omega))⟩

theorem free_writesIn_repr (hR : Repr s H) {b : Block} (hb : b ∈ H.blocks) (hba : b.alloc = true) :
    WritesIn s (free s (b.addr + 8)) := by
  obtain ⟨pre, post, hH, -⟩ := hR.shape.split_mem hb
  obtain ⟨h1, h2, h3⟩ := free_spec hR hH hba
  have hM := h1.inRegion (b := mergedBlock pre b post) (by rw [Heap.free_blocks]; simp)
  exact hR.writesIn h2 (by have := h2.lo; have := h2.brk; omega) h3

theorem mallocPlace_writesIn (hR : Repr s H) {pre post : List Block} {F : Block} {a : Nat}
    (hH : H.blocks = pre ++ F :: post) (hF : F.alloc = false) (ha : a % 16 = 0) (ha16 : 16 ≤ a)
    (hle : a ≤ F.size) : WritesIn s (mallocPlace s F.addr a) := by
  obtain ⟨-, h2, h3⟩ := mallocPlace_spec hR hH hF ha ha16 hle
  exact hR.writesIn h2 (hR.inRegion (by rw [hH]; simp)) h3

theorem extend_writesIn (hR : Repr s H) {S : Nat} (h16 : S % 16 = 0) (hS : 16 < S) (hlt : S + 15 < 2 ^ 64) :
    WritesIn s (extendHeap s S).1 := by
  by_cases hg : Grants s S
  · have hE := extendHeap_spec hR h16 hS hg
    have hM := hE.repr.inRegion (b := mergedBlock H.blocks ⟨s.brk - 8, S, true⟩ [])
      (by simp [Heap.extend, Heap.free_blocks])
    have hlo : (extendHeap s S).1.lo = s.lo := hE.frame.lo
    have hbrk : (extendHeap s S).1.brk = s.brk + S := hE.frame.brk
    exact ⟨hlo, by omega, fun x hx => hE.mem x (by omega) (hR.unlinked_outside (by omega))⟩
  · rw [extendHeap_fail h16 hlt hg]; exact .bump s

theorem malloc_writesIn_repr (hR : Repr s H) {n : Nat} (hn : n ≤ maxRequest) : WritesIn s (malloc s n).1 := by
  have h0 : s.heapStart ≠ 0 := by have := hR.shape.start; omega
  by_cases hn0 : n = 0
  · rw [hn0, malloc_zero h0]; exact .refl s
  obtain ⟨ha, hM⟩ := malloc_spec hR (by omega) hn
  simp only [maxRequest] at hn
  have ha16 : 16 * ((n + 23) / 16) % 16 = 0 := by omega
  have ha1 : 16 ≤ 16 * ((n + 23) / 16) := by omega
  rcases hF : H.findFit (16 * ((n + 23) / 16)) with _ | F
  · have hS16 : max (16 * ((n + 23) / 16)) chunksize % 16 = 0 := by simp only [chunksize]; omega
    have hSlt : max (16 * ((n + 23) / 16)) chunksize + 15 < 2 ^ 64 := by simp only [chunksize]; omega
    by_cases hg : Grants s (max (16 * ((n + 23) / 16)) chunksize)
    · obtain ⟨pre, hblk, -⟩ := hM.granted hF hg
      have hE := extendHeap_spec hR hS16 (by simp only [chunksize]; omega) hg
      have hMr := hE.repr.inRegion (by rw [hblk]; exact List.mem_append_right pre (List.mem_singleton_self _))
      have hm := malloc_eq h0 hn0
      rw [ha, findFit_eq hR, hF, Option.map_none', Option.getD_none, if_pos rfl, hE.addr, if_neg (by omega)] at hm
      rw [hm]
      exact (extend_writesIn hR hS16 (by simp only [chunksize]; omega) hSlt).trans
        (mallocPlace_writesIn hE.repr hblk rfl ha16 ha1
          ((le_max_left _ _).trans
            (size_le_mergedBlock H.blocks ⟨s.brk - 8, max (16 * ((n + 23) / 16)) chunksize, true⟩ [])))
    · rw [hM.refused hF hg]; exact .bump s
  · obtain ⟨pre, post, hH, hr, -⟩ := hM.found F hF
    obtain ⟨-, -, hFf, hFa⟩ := Heap.findFit_mem hR.wf hF
    rw [hr]
    exact mallocPlace_writesIn hR hH hFf ha16 ha1 hFa

end Heap

theorem mmInit_writesIn {s : State} (hbrk : s.brk = s.lo) : WritesIn s (mmInit s).1 := by
  by_cases hg : s.grant s.calls = true ∧ s.brk + 16 ≤ 2 ^ 64
  · rw [mmInit_eq hg]
    have hL : WritesIn s (laidState s) := ⟨rfl, by simp [laidState], fun x hx => by
      simp only [laidState, wsize] at hx ⊢
      rw [writeWord_of_disjoint _ (by omega), writeWord_of_disjoint _ (by omega)]⟩
    exact hL.trans (extend_writesIn (laid_repr (by omega) hg.2) (by decide) (by decide) (by decide))
  · rw [mmInit_fail hg]; exact .bump s

/-! ## The calls -/

section Calls

variable {s : State} {A : Alloc}

theorem Steps.writesIn_payload {p a : Nat} {r : State × Nat} {R : Alloc × Nat} (hS : Steps s A p a r R)
    (hq : r.2 ≠ 0) {m : Mem} {k : Nat} (hk : k + 8 ≤ a) (hm : ∀ x, x < r.2 ∨ r.2 + k ≤ x → m x = r.1.mem x) :
    WritesIn r.1 { r.1 with mem := m } := by
  obtain ⟨H, hA, hN, -⟩ := (hS.allocated ⟨R.2 - 8, a, true⟩ rfl).mpr (.inr ⟨hS.ret ▸ hq, rfl⟩)
  have hb := (hS.refines.heap_some hA).1.inRegion hN
  have := hS.ret
  simp only [Block.last] at hb
  exact ⟨rfl, le_rfl, fun x (hx : x < r.1.lo ∨ r.1.brk ≤ x) => hm x (by omega)⟩

theorem malloc_writesIn (h : Refines s A) {n : Nat} (hn : n ≤ maxRequest) : WritesIn s (malloc s n).1 := by
  cases hA : A.heap with
  | some H => exact malloc_writesIn_repr (h.heap_some hA).1 hn
  | none =>
    obtain ⟨hI, hok, -⟩ := init_refines h hA
    have hs : (mmInit s).2 = true → ∃ H1, Repr (mmInit s).1 H1 := fun ht => by
      obtain ⟨H1, hH1⟩ := Alloc.init_heap (hok ▸ ht)
      exact ⟨H1, (hI.heap_some hH1).1⟩
    have hw := mmInit_writesIn (h.heap_none hA).2.1
    rw [malloc_init (h.heap_none hA).1 fun ht => by
      obtain ⟨_, hR1⟩ := hs ht; have := hR1.shape.start; omega]
    by_cases hb : (mmInit s).2 = true
    · obtain ⟨H1, hR1⟩ := hs hb
      rw [if_pos hb]; exact hw.trans (malloc_writesIn_repr hR1 hn)
    · rw [if_neg hb]; exact hw

theorem free_writesIn (h : Refines s A) {p : Nat} (hp : validPtr s p) : WritesIn s (free s p) := by
  by_cases hp0 : p = 0
  · rw [hp0, show free s 0 = s by simp [free]]; exact .refl s
  obtain ⟨H, b, hA, hb, hba, rfl⟩ := h.block_of_validPtr hp hp0
  exact free_writesIn_repr (h.heap_some hA).1 hb hba

theorem calloc_writesIn (h : Refines s A) {k n : Nat} (hn : k * n ≤ maxRequest) : WritesIn s (calloc s k n).1 := by
  by_cases hk : k = 0
  · subst hk; simp only [calloc, if_true]; exact .refl s
  rw [calloc_eq hk hn]
  have hw := malloc_writesIn h hn
  have hS := malloc_steps h hn
  by_cases hq : (malloc s (k * n)).2 = 0
  · rw [if_pos hq]; exact hw
  · rw [if_neg hq]
    simp only [maxRequest] at hn
    exact hw.trans (hS.writesIn_payload hq (k := k * n) (by omega) fun x hx => by
      simp only [memset]; rw [if_neg (by omega)])

/-- `realloc(p, n)`: `free`, `malloc`, or `malloc`, the copy into the new
payload, and `free(p)`. -/
theorem realloc_writesIn (h : Refines s A) {p n : Nat} (hp : validPtr s p) (hn : n ≤ maxRequest) :
    WritesIn s (realloc s p n).1 := by
  by_cases hn0 : n = 0
  · simpa [realloc, hn0] using free_writesIn h hp
  by_cases hp0 : p = 0
  · simpa [realloc, hn0, hp0] using malloc_writesIn h hn
  have hw := malloc_writesIn h hn
  by_cases hq : (malloc s n).2 = 0
  · rw [realloc_move hn0 hp0, if_pos hq]; exact hw
  obtain ⟨he, ⟨H, b, hR, hb, hba, hbp⟩, -⟩ := realloc_moved h hp hp0 hn0 hn hq
  have hf := free_writesIn_repr hR hb hba
  rw [hbp] at hf
  have hc : WritesIn (malloc s n).1 (movedState s p n) :=
    (malloc_steps h hn).writesIn_payload hq (k := min (getPayloadSize s.mem (payloadToHeader p)) n)
      (by simp only [maxRequest] at hn; omega) fun x hx => by simp only [memcpy]; rw [if_neg (by omega)]
  rw [he]
  exact (hw.trans hc).trans hf

theorem call_writesIn (h : Refines s A) {c : Call} (hv : c.valid s) : WritesIn s (c.apply s).1 := by
  cases c with
  | malloc n => exact malloc_writesIn h hv
  | calloc k n => exact calloc_writesIn h hv
  | free p => exact free_writesIn h hv
  | realloc p n => exact realloc_writesIn h hv.1 hv.2

/-- Every valid run from a state implementing an abstract allocator. -/
theorem run_writesIn (h : Refines s A) {cs : List Call} (hv : validRun s cs) : WritesIn s (runCalls s cs) := by
  induction cs generalizing s A with
  | nil => exact .refl s
  | cons c cs ih => exact (call_writesIn h hv.1).trans (ih (call_steps h hv.1).refines hv.2)

end Calls

/-- Along every valid run from a reachable state, every byte below
`mem_heap_lo()` or at or above the break the run ends with holds what it
held before the run: `mm.c` writes only inside its region. -/
theorem run_writes_inside {s : State} {cs : List Call} (h : Reachable s) (hv : validRun s cs) :
    ∀ x, x < s.lo ∨ (runCalls s cs).brk ≤ x → (runCalls s cs).mem x = s.mem x := by
  obtain ⟨A, hA⟩ := h.refines
  exact (run_writesIn hA hv).mem

set_option maxRecDepth 20000 in
/-- A `malloc`, a `realloc` that outgrows the first chunk, and a `free` after
`mm_init`. -/
theorem run_writes_inside_grown :
    Reachable (mmInit (initState (fun _ => 0) 4096 fun _ => true)).1 ∧
      validRun (mmInit (initState (fun _ => 0) 4096 fun _ => true)).1 [.malloc 24, .realloc 4112 5000, .free 4144] ∧
      ∀ x, x < (mmInit (initState (fun _ => 0) 4096 fun _ => true)).1.lo ∨
        (runCalls (mmInit (initState (fun _ => 0) 4096 fun _ => true)).1
          [.malloc 24, .realloc 4112 5000, .free 4144]).brk ≤ x →
        (runCalls (mmInit (initState (fun _ => 0) 4096 fun _ => true)).1
          [.malloc 24, .realloc 4112 5000, .free 4144]).mem x =
          (mmInit (initState (fun _ => 0) 4096 fun _ => true)).1.mem x :=
  ⟨.init _ _ _, grownRun_valid, run_writes_inside (.init _ _ _) grownRun_valid⟩

/-! ## `realloc`'s copy -/

/-- In a moving `realloc(p, n)` on a reachable state, once `malloc(n)` has
returned `q`, the `memcpy` of `copysize = min(get_payload_size(p's block), n)`
bytes from `p` to `q` reads and writes ranges that do not overlap. -/
theorem realloc_copy_disjoint {s : State} {p n : Nat} (hs : Reachable s) (hp : validPtr s p) (hp0 : p ≠ 0)
    (hn : n ≤ maxRequest) (hq : (malloc s n).2 ≠ 0) :
    p + min (getPayloadSize (malloc s n).1.mem (payloadToHeader p)) n ≤ (malloc s n).2 ∨
      (malloc s n).2 + min (getPayloadSize (malloc s n).1.mem (payloadToHeader p)) n ≤ p := by
  obtain ⟨A, h⟩ := hs.refines
  obtain ⟨H, b, hA, hb, hba, rfl⟩ := h.block_of_validPtr hp hp0
  have hS := malloc_steps h hn
  have hq' : (A.malloc n).2 ≠ 0 := hS.ret ▸ hq
  have hbA := (Alloc.allocated_of_heap hA).mpr ⟨hb, hba⟩
  -- `p`'s block and the new one are both blocks of the heap `malloc` leaves
  obtain ⟨H1, hA1, hb1, -⟩ := (hS.allocated b hba).mpr (.inl ⟨hbA, by omega⟩)
  obtain ⟨H2, hA2, hc2, -⟩ :=
    (hS.allocated ⟨(A.malloc n).2 - 8, 16 * ((n + 23) / 16), true⟩ rfl).mpr (.inr ⟨hq', rfl⟩)
  rw [hA1, Option.some_inj] at hA2
  subst hA2
  have hR1 := (hS.refines.heap_some hA1).1
  have hf := hS.fresh hq' b hbA
  have hc := (hR1.shape.layout.bounds hc2).1
  have := hR1.shape.start
  simp only [payloadToHeader, getPayloadSize, wsize, Nat.add_sub_cancel, (hR1.shape.get_mem hb1).1, hS.ret]
  simp only [maxRequest] at hn
  rcases hR1.shape.layout.disjoint hb1 hc2 with e | e | e
  · rw [e] at hf; simp only at hf hc; omega
  · simp only [Block.last] at e; omega
  · simp only [Block.last] at e hc; omega

set_option maxRecDepth 20000 in
/-- `realloc(4144, 100)` in `threeSmall`: the middle block's payload is
copied to a block after the third. -/
theorem realloc_copy_disjoint_middle :
    Reachable threeSmall ∧ validPtr threeSmall 4144 ∧ 4144 ≠ 0 ∧ 100 ≤ maxRequest ∧
      (malloc threeSmall 100).2 ≠ 0 ∧
      (4144 + min (getPayloadSize (malloc threeSmall 100).1.mem (payloadToHeader 4144)) 100 ≤
          (malloc threeSmall 100).2 ∨
        (malloc threeSmall 100).2 + min (getPayloadSize (malloc threeSmall 100).1.mem (payloadToHeader 4144)) 100 ≤
          4144) :=
  have hs : Reachable threeSmall := (Reachable.init _ _ _).run (by decide)
  have hp : validPtr threeSmall 4144 := by decide
  have hq : (malloc threeSmall 100).2 ≠ 0 := by decide
  ⟨hs, hp, by decide, by decide, hq, realloc_copy_disjoint hs hp (by decide) (by decide) hq⟩

end MallocSim
