import MallocSim.L4Api.Checkheap
import MallocSim.L5Client.RoundTrip

/-!
# The heap is determined by its allocated blocks

The blocks tile the heap from `heap_start` to the epilogue, and
`coalesce_block` leaves no two free blocks next to each other. So the free
blocks are exactly the gaps between the allocated blocks, one block per gap:
a tiling without adjacent free blocks is determined by its allocated blocks
(`Layout.eq_of_alloc`). A represented heap is then determined by its bounds
and its allocated blocks, but for the order of each free list, which depends
on the history of the calls (`canonical_heap`).

Two `free`s therefore commute: `free(p)` then `free(q)` and `free(q)` then
`free(p)` leave the same implicit list, and free lists that differ at most in
order (`free_comm`). And since free blocks are separated by allocated ones,
a heap holds at most one free block more than it holds allocated blocks
(`free_count_le`), and freeing every allocated block, in any order, leaves
the heap one free block from `heap_start` to the epilogue (`free_all`).

Results:
- `Layout.eq_of_alloc`: a tiling without adjacent free blocks is determined
  by its allocated blocks.
- `canonical_heap`: represented heaps with the same bounds and the same
  allocated blocks.
- `free_comm`: two `free`s in either order.
- `free_count_le`: free blocks are at most one more than allocated blocks.
- `free_all`: freeing every allocated block, in any order, leaves one free
  block.
-/
namespace MallocSim

/-! ## Tilings without adjacent free blocks -/

/-- No two adjacent blocks are free. -/
def NoAdjFree (L : List Block) : Prop := L.Chain' fun b c => b.alloc = true ∨ c.alloc = true

theorem Layout.addr_ne_head {a e : Nat} {b c : Block} {L : List Block} (h : Layout a (b :: L) e) (hc : c ∈ L) :
    c.addr ≠ b.addr := by
  have := (h.2.2.2.bounds hc).1; have := h.2.1; have := h.1; omega

theorem Layout.size_le_of_alloc {a e : Nat} {b d : Block} {L1 L2 : List Block} (h1 : Layout a (b :: L1) e)
    (h2 : Layout a (d :: L2) e) (c1 : NoAdjFree (b :: L1))
    (hal : ∀ c, c.alloc = true → c ∈ b :: L1 → c ∈ d :: L2) : d.size ≤ b.size := by
  by_contra hlt
  have hL2 := h2.2.2.2
  cases hb : b.alloc
  · cases L1 with
    | nil => have : a + b.size = e := h1.2.2.2; have := hL2.le; omega
    | cons c L1 =>
      have hc : c.alloc = true := (List.chain'_cons.mp c1).1.resolve_left (by simp [hb])
      have hca : c.addr = a + b.size := h1.2.2.2.1
      rcases List.mem_cons.mp (hal c hc (List.mem_cons_of_mem _ (List.mem_cons_self _ _))) with rfl | hcm
      · have := h2.1; have := h1.2.1; omega
      · have := (hL2.bounds hcm).1; omega
  · rcases List.mem_cons.mp (hal b hb (List.mem_cons_self _ _)) with rfl | hbm
    · omega
    · exact h2.addr_ne_head hbm (h1.1.trans h2.1.symm)

/-- A tiling of a stretch without adjacent free blocks is determined by its
allocated blocks. -/
theorem Layout.eq_of_alloc {a e : Nat} {L1 L2 : List Block} (h1 : Layout a L1 e) (h2 : Layout a L2 e)
    (c1 : NoAdjFree L1) (c2 : NoAdjFree L2) (hal : ∀ c, c.alloc = true → (c ∈ L1 ↔ c ∈ L2)) : L1 = L2 := by
  induction L1 generalizing a L2 with
  | nil =>
    cases L2 with
    | nil => rfl
    | cons d L2 => have : a = e := h1; have := h2.2.2.2.le; have := h2.2.1; omega
  | cons b L1 ih =>
    cases L2 with
    | nil => have : a = e := h2; have := h1.2.2.2.le; have := h1.2.1; omega
    | cons d L2 =>
      have hs : b.size = d.size := le_antisymm
        (Layout.size_le_of_alloc h2 h1 c2 fun c hc => (hal c hc).mpr)
        (Layout.size_le_of_alloc h1 h2 c1 fun c hc => (hal c hc).mp)
      -- the first blocks agree: an allocated one is in the other list, at its start
      have hbd : b = d := by
        cases hb : b.alloc
        · cases hd : d.alloc
          · cases b; cases d
            simp_all only [Block.mk.injEq, and_true]
            exact h1.1.trans h2.1.symm
          · exact ((List.mem_cons.mp ((hal d hd).mpr (List.mem_cons_self _ _))).resolve_right
              fun hm => h1.addr_ne_head hm (h2.1.trans h1.1.symm)).symm
        · exact (List.mem_cons.mp ((hal b hb).mp (List.mem_cons_self _ _))).resolve_right
            fun hm => h2.addr_ne_head hm (h1.1.trans h2.1.symm)
      subst hbd
      refine congrArg _ (ih h1.2.2.2 h2.2.2.2 c1.tail c2.tail fun c hc => ⟨fun hm => ?_, fun hm => ?_⟩)
      · exact ((List.mem_cons.mp ((hal c hc).mp (List.mem_cons_of_mem _ hm))).resolve_left
          fun e => h1.addr_ne_head hm (congrArg Block.addr e))
      · exact ((List.mem_cons.mp ((hal c hc).mpr (List.mem_cons_of_mem _ hm))).resolve_left
          fun e => h2.addr_ne_head hm (congrArg Block.addr e))

theorem Heap.WF.lists_perm {H H' : Heap} (hW : H.WF) (hW' : H'.WF) (he : H.blocks = H'.blocks) (k : Option Nat) :
    (H.lists k).Perm (H'.lists k) :=
  (List.perm_ext_iff_of_nodup (hW.nodup k) (hW'.nodup k)).mpr fun c => by
    rw [hW.mem_lists, hW'.mem_lists, he]

/-! ## Represented heaps -/

/-- Two represented heaps with the same `heap_start`, the same break and the
same allocated blocks have the same blocks, and each of their free lists
holds the same blocks. -/
theorem canonical_heap {s s' : State} {H H' : Heap} (hR : Repr s H) (hR' : Repr s' H')
    (hst : s'.heapStart = s.heapStart) (hbrk : s'.brk = s.brk)
    (hal : H.blocks.filter (·.alloc) = H'.blocks.filter (·.alloc)) :
    H.blocks = H'.blocks ∧ ∀ k, (H.lists k).Perm (H'.lists k) := by
  have hl' := hR'.shape.layout
  rw [hst, hbrk] at hl'
  have hb := Layout.eq_of_alloc hR.shape.layout hl' hR.wf.noAdj hR'.wf.noAdj fun c hc => by
    simpa [hc] using congrArg (c ∈ ·) hal
  exact ⟨hb, hR.wf.lists_perm hR'.wf hb⟩

/-- Three `malloc(24)` on `initialHeap`, then `free(4144)`: allocated blocks
at 4104 and 4168, each followed by a free block. -/
def gapsFreed : State := runCalls initialHeap [.malloc 24, .malloc 24, .malloc 24, .free 4144]

theorem gapsFreed_reachable : Reachable gapsFreed := (Reachable.init _ _ _).run (by decide)

/-- A fourth `malloc(24)` before the `free`s of `gapsFreed`, its block freed
first and merged with the rest of the chunk: the allocated blocks of
`gapsFreed` by another history. -/
def gapsMerged : State :=
  runCalls initialHeap [.malloc 24, .malloc 24, .malloc 24, .malloc 24, .free 4208, .free 4144]

set_option maxRecDepth 20000 in
/-- `gapsFreed` and `gapsMerged`: the same allocated blocks, so the same
blocks, and lists with the same blocks. -/
theorem canonical_heap_gaps :
    ∃ H H', Repr gapsFreed H ∧ Repr gapsMerged H' ∧ gapsMerged.heapStart = gapsFreed.heapStart ∧
      gapsMerged.brk = gapsFreed.brk ∧ H.blocks.filter (·.alloc) = [⟨4104, 32, true⟩, ⟨4168, 32, true⟩] ∧
      H.blocks.filter (·.alloc) = H'.blocks.filter (·.alloc) ∧
      H.blocks = H'.blocks ∧ ∀ k, (H.lists k).Perm (H'.lists k) := by
  obtain ⟨H, hR⟩ := gapsFreed_reachable.repr (by decide)
  obtain ⟨H', hR'⟩ := ((Reachable.init _ _ _).run (by decide) : Reachable gapsMerged).repr (by decide)
  have h1 : H.blocks.filter (·.alloc) = [⟨4104, 32, true⟩, ⟨4168, 32, true⟩] := by rw [hR.blocks_eq]; decide
  have hal : H.blocks.filter (·.alloc) = H'.blocks.filter (·.alloc) := by
    rw [h1, hR'.blocks_eq]; decide
  exact ⟨H, H', hR, hR', by decide, by decide, h1, hal, canonical_heap hR hR' (by decide) (by decide) hal⟩

/-! ## Two `free`s -/

theorem freed_heap {s : State} {H : Heap} {p : Nat} (hR : Repr s H) (hp : validPtr s p) (hp0 : p ≠ 0) :
    ∃ H', Repr (free s p) H' ∧ SameFrame s (free s p) ∧
      ∀ c, c.alloc = true → (c ∈ H'.blocks ↔ c ∈ H.blocks ∧ c.addr + 8 ≠ p) := by
  obtain ⟨b, hb, hba, rfl⟩ := hR.validPtr hp hp0
  obtain ⟨pre, post, hH, -⟩ := hR.shape.split_mem hb
  obtain ⟨h1, h2, -⟩ := free_spec hR hH hba
  refine ⟨_, h1, h2, fun c hc => ?_⟩
  rw [Heap.mem_free_alloc hc, Layout.mem_other (hH ▸ hR.shape.layout), ← hH]
  simp

theorem freed_validPtr {s : State} {H H' : Heap} {r t : Nat} (hR : Repr s H) (hr : validPtr s r) (hr0 : r ≠ 0)
    (hrt : r ≠ t) (hR' : Repr (free s t) H')
    (ha : ∀ c, c.alloc = true → (c ∈ H'.blocks ↔ c ∈ H.blocks ∧ c.addr + 8 ≠ t)) : validPtr (free s t) r := by
  obtain ⟨c, hc, hca, rfl⟩ := hR.validPtr hr hr0
  exact hR'.validPtr_of_mem ((ha c hca).mpr ⟨hc, hrt⟩) hca

/-- `free(p)` then `free(q)`, and `free(q)` then `free(p)`, for distinct valid
non-NULL `p` and `q` on a represented heap: both orders leave states with the
frame of `s` that represent heaps with the same blocks, whose free lists hold
the same blocks. -/
theorem free_comm {s : State} {H : Heap} {p q : Nat} (hR : Repr s H) (hp : validPtr s p) (hq : validPtr s q)
    (hp0 : p ≠ 0) (hq0 : q ≠ 0) (hpq : p ≠ q) :
    ∃ H1 H2, Repr (free (free s p) q) H1 ∧ Repr (free (free s q) p) H2 ∧
      H1.blocks = H2.blocks ∧ (∀ k, (H1.lists k).Perm (H2.lists k)) ∧
      SameFrame s (free (free s p) q) ∧ SameFrame s (free (free s q) p) := by
  obtain ⟨Hp, hRp, hfp, hap⟩ := freed_heap hR hp hp0
  obtain ⟨Hq, hRq, hfq, haq⟩ := freed_heap hR hq hq0
  obtain ⟨H1, hR1, hf1, ha1⟩ := freed_heap hRp (freed_validPtr hR hq hq0 (Ne.symm hpq) hRp hap) hq0
  obtain ⟨H2, hR2, hf2, ha2⟩ := freed_heap hRq (freed_validPtr hR hp hp0 hpq hRq haq) hp0
  have hl1 := hR1.shape.layout
  have hl2 := hR2.shape.layout
  rw [(hfp.trans hf1).heapStart, (hfp.trans hf1).brk] at hl1
  rw [(hfq.trans hf2).heapStart, (hfq.trans hf2).brk] at hl2
  have hb := Layout.eq_of_alloc hl1 hl2 hR1.wf.noAdj hR2.wf.noAdj fun c hc => by
    rw [ha1 c hc, hap c hc, ha2 c hc, haq c hc]; exact and_right_comm
  exact ⟨H1, H2, hR1, hR2, hb, hR1.wf.lists_perm hR2.wf hb, hfp.trans hf1, hfq.trans hf2⟩

set_option maxRecDepth 20000 in
/-- `free(4112)` and `free(4144)` in `threeSmall`: two neighbouring blocks,
which merge in either order. -/
theorem free_comm_neighbours :
    ∃ H, Repr threeSmall H ∧ validPtr threeSmall 4112 ∧ validPtr threeSmall 4144 ∧ 4112 ≠ 0 ∧ 4144 ≠ 0 ∧
      4112 ≠ 4144 ∧ ∃ H1 H2, Repr (free (free threeSmall 4112) 4144) H1 ∧
        Repr (free (free threeSmall 4144) 4112) H2 ∧ H1.blocks = H2.blocks ∧
        (∀ k, (H1.lists k).Perm (H2.lists k)) ∧ SameFrame threeSmall (free (free threeSmall 4112) 4144) ∧
        SameFrame threeSmall (free (free threeSmall 4144) 4112) := by
  obtain ⟨H, hR⟩ := threeSmall_repr
  exact ⟨H, hR, by decide, by decide, by decide, by decide, by decide,
    free_comm hR (by decide) (by decide) (by decide) (by decide) (by decide)⟩

/-! ## Fragmentation -/

theorem NoAdjFree.count_le : ∀ {L : List Block}, NoAdjFree L →
    (L.filter fun b => !b.alloc).length ≤ (L.filter (·.alloc)).length + 1 ∧
      ∀ b ∈ L.head?, b.alloc = true → (L.filter fun b => !b.alloc).length ≤ (L.filter (·.alloc)).length
  | [], _ => by simp
  | b :: L, h => by
    have ih := NoAdjFree.count_le (List.chain'_cons'.mp h).2
    cases hb : b.alloc
    · rw [List.filter_cons_of_pos (by simp [hb]), List.filter_cons_of_neg (by simp [hb]), List.length_cons]
      refine ⟨?_, by simp [hb]⟩
      -- the block after a free block, if any, is allocated
      cases L with
      | nil => simp
      | cons c L => exact Nat.succ_le_succ (ih.2 c rfl ((List.chain'_cons.mp h).1.resolve_left (by simp [hb])))
    · rw [List.filter_cons_of_neg (by simp [hb]), List.filter_cons_of_pos (by simp [hb]), List.length_cons]
      have := ih.1
      exact ⟨by omega, fun _ _ _ => by omega⟩

/-- On a represented heap the checker's walk meets at most one free block
more than allocated blocks. -/
theorem free_count_le {s : State} {H : Heap} (hR : Repr s H) :
    (((walkBlocks s).getD []).filter fun a => !getAlloc s.mem a).length ≤
      (((walkBlocks s).getD []).filter fun a => getAlloc s.mem a).length + 1 := by
  have hc := (NoAdjFree.count_le hR.wf.noAdj).1
  rw [hR.walk_eq, Option.getD_some, List.filter_map, List.filter_map, List.length_map, List.length_map]
  rwa [List.filter_congr fun b hb => by rw [Function.comp_apply, (hR.shape.get_mem hb).2],
    List.filter_congr (p := (fun a => getAlloc s.mem a) ∘ Block.addr) fun b hb => by
      rw [Function.comp_apply, (hR.shape.get_mem hb).2]]

set_option maxRecDepth 20000 in
/-- The bound on `gapsFreed`: two free blocks, each after one of its two
allocated blocks. -/
theorem free_count_le_gaps :
    ∃ H, Repr gapsFreed H ∧
      (((walkBlocks gapsFreed).getD []).filter fun a => !getAlloc gapsFreed.mem a).length = 2 ∧
      (((walkBlocks gapsFreed).getD []).filter fun a => getAlloc gapsFreed.mem a).length = 2 ∧
      (((walkBlocks gapsFreed).getD []).filter fun a => !getAlloc gapsFreed.mem a).length ≤
        (((walkBlocks gapsFreed).getD []).filter fun a => getAlloc gapsFreed.mem a).length + 1 := by
  obtain ⟨H, hR⟩ := gapsFreed_reachable.repr (by decide)
  exact ⟨H, hR, by decide, by decide, free_count_le hR⟩

/-! ## Freeing everything -/

theorem NoAdjFree.eq_of_free {a e : Nat} {L : List Block} (h : Layout a L e) (c : NoAdjFree L)
    (hf : ∀ b ∈ L, b.alloc = false) : L = [] ∨ L = [⟨a, e - a, false⟩] := by
  match L, h, c with
  | [], _, _ => exact .inl rfl
  | [b], h, _ =>
    have hb : b = ⟨b.addr, b.size, false⟩ := by cases b; simp_all
    have he : a + b.size = e := h.2.2.2
    exact .inr (by rw [hb, h.1, ← he, Nat.add_sub_cancel_left])
  | b :: d :: _, _, c =>
    have := (List.chain'_cons.mp c).1
    simp [hf b (List.mem_cons_self _ _), hf d (List.mem_cons_of_mem _ (List.mem_cons_self _ _))] at this

/-- `free` of every allocated block of a represented heap, in any order:
the frame is kept, and the heap is empty or one free block from
`heap_start` to the epilogue. -/
theorem free_all {s : State} {H : Heap} {ps : List Nat} (hR : Repr s H) (hps : ps.Nodup)
    (hv : ∀ p ∈ ps, validPtr s p ∧ p ≠ 0) (hall : ∀ b ∈ H.blocks, b.alloc = true → b.addr + 8 ∈ ps) :
    ∃ H', Repr (runCalls s (ps.map Call.free)) H' ∧ SameFrame s (runCalls s (ps.map Call.free)) ∧
      (H'.blocks = [] ∨ H'.blocks = [⟨s.heapStart, s.brk - 8 - s.heapStart, false⟩]) := by
  induction ps generalizing s H with
  | nil =>
    refine ⟨H, hR, .refl s, NoAdjFree.eq_of_free hR.shape.layout hR.wf.noAdj fun b hb => ?_⟩
    cases hba : b.alloc
    · rfl
    · exact absurd (hall b hb hba) (List.not_mem_nil _)
  | cons p ps ih =>
    obtain ⟨hp, hp0⟩ := hv p (List.mem_cons_self _ _)
    obtain ⟨hpn, hnd⟩ := List.nodup_cons.mp hps
    obtain ⟨H1, hR1, hf1, ha1⟩ := freed_heap hR hp hp0
    obtain ⟨H', hR', hf', hH'⟩ := ih (s := free s p) hR1 hnd
      (fun q hq => have hq' := hv q (List.mem_cons_of_mem _ hq)
        ⟨freed_validPtr hR hq'.1 hq'.2 (fun e => hpn (e ▸ hq)) hR1 ha1, hq'.2⟩)
      fun b hb hba => by
        obtain ⟨hbH, hbp⟩ := (ha1 b hba).mp hb
        exact (List.mem_cons.mp (hall b hbH hba)).resolve_left hbp
    rw [hf1.heapStart, hf1.brk] at hH'
    exact ⟨H', hR', hf1.trans hf', hH'⟩

set_option maxRecDepth 20000 in
/-- `free` of the three allocated blocks of `threeSmall`, middle one first. -/
theorem free_all_three :
    ∃ H, Repr threeSmall H ∧ [4144, 4112, 4176].Nodup ∧ (∀ p ∈ [4144, 4112, 4176], validPtr threeSmall p ∧ p ≠ 0) ∧
      (∀ b ∈ H.blocks, b.alloc = true → b.addr + 8 ∈ [4144, 4112, 4176]) ∧
      ∃ H', Repr (runCalls threeSmall ([4144, 4112, 4176].map Call.free)) H' ∧
        SameFrame threeSmall (runCalls threeSmall ([4144, 4112, 4176].map Call.free)) ∧
        (H'.blocks = [] ∨ H'.blocks = [⟨threeSmall.heapStart, threeSmall.brk - 8 - threeSmall.heapStart, false⟩]) := by
  obtain ⟨H, hR⟩ := threeSmall_repr
  have hall : ∀ b ∈ H.blocks, b.alloc = true → b.addr + 8 ∈ [4144, 4112, 4176] := by
    rw [hR.blocks_eq]; decide
  exact ⟨H, hR, by decide, by decide, hall, free_all hR (by decide) (by decide) hall⟩

end MallocSim
