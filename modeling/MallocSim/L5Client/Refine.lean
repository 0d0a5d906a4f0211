import MallocSim.L5Client.Spec

/-!
# The C code refines the abstract allocator

`Refines s A`: the state `s` of `mm.c` implements `A`. The break, the
provider and its count are the same; before `mm_init` succeeds there is no
heap and the region is empty; after it, `s` represents `A`'s heap (`Repr`)
and the heap starts right after the prologue at the bottom of the region.

Each call is matched by the abstract call (`Steps`): the results are the
same pointer, the new states refine each other, the payload of every
allocated block but the freed one keeps its bytes, and the allocated blocks
afterwards are the old ones but the freed one, with the new block added,
at an address no old allocated block has. Every reachable state refines a
state of the abstract machine.

Results:
- `init_refines`, `place_steps`, `malloc_steps`, `free_steps`,
  `realloc_steps`, `calloc_steps`: one lemma per entry point.
- `Steps.then_free`: a call returning a new block, then `free` of an old
  one; the moving path of `realloc`.
- `call_steps`: any valid call.
- `Reachable.refines`: every reachable state implements an abstract state.
-/
namespace MallocSim

/-- The heap part of the refinement. -/
def HeapRefines (s : State) : Option Heap → Prop
  | none => s.heapStart = 0 ∧ s.brk = s.lo ∧ s.miniListStart = 0 ∧ ∀ i < segListLen, s.segmentList i = 0
  | some H => Repr s H ∧ s.heapStart = s.lo + 8

/-- `s` implements `A`. -/
structure Refines (s : State) (A : Alloc) : Prop where
  lo : s.lo = A.lo
  brk : s.brk = A.brk
  grant : s.grant = A.grant
  calls : s.calls = A.calls
  heap : HeapRefines s A.heap

/-- `b` is an allocated block of `A`'s heap. -/
def Alloc.Allocated (A : Alloc) (b : Block) : Prop := ∃ H, A.heap = some H ∧ b ∈ H.blocks ∧ b.alloc = true

theorem Alloc.allocated_of_heap {A : Alloc} {H : Heap} (hA : A.heap = some H) {b : Block} :
    A.Allocated b ↔ b ∈ H.blocks ∧ b.alloc = true := by
  simp [Alloc.Allocated, hA]

theorem Alloc.Allocated.alloc {A : Alloc} {b : Block} (h : A.Allocated b) : b.alloc = true := by
  obtain ⟨_, -, -, h⟩ := h; exact h

theorem Alloc.not_allocated {A : Alloc} (hA : A.heap = none) (b : Block) : ¬ A.Allocated b := by
  simp [Alloc.Allocated, hA]

section Basics

variable {s : State} {A : Alloc}

theorem Refines.heap_some (h : Refines s A) {H : Heap} (hA : A.heap = some H) :
    Repr s H ∧ s.heapStart = s.lo + 8 := by
  have := h.heap; rw [hA] at this; exact this

theorem Refines.heap_none (h : Refines s A) (hA : A.heap = none) :
    s.heapStart = 0 ∧ s.brk = s.lo ∧ s.miniListStart = 0 ∧ ∀ i < segListLen, s.segmentList i = 0 := by
  have := h.heap; rw [hA] at this; exact this

theorem Refines.block_of_validPtr (h : Refines s A) {p : Nat} (hp : validPtr s p) (hp0 : p ≠ 0) :
    ∃ H b, A.heap = some H ∧ b ∈ H.blocks ∧ b.alloc = true ∧ b.addr + 8 = p := by
  cases hA : A.heap with
  | none => exact absurd (h.heap_none hA).1 (hp.resolve_left hp0).1
  | some H =>
    obtain ⟨b, hb, hba, hbp⟩ := (h.heap_some hA).1.validPtr hp hp0
    exact ⟨H, b, rfl, hb, hba, hbp⟩

theorem Refines.grants (h : Refines s A) (S : Nat) : Grants s S ↔ A.Grants S := by
  rw [Grants, Alloc.Grants, h.grant, h.calls, h.brk]

theorem Repr.of_calls {H : Heap} (h : Repr s H) (k : Nat) : Repr { s with calls := k } H :=
  ⟨⟨h.shape.start, h.shape.top, h.shape.prologue, h.shape.layout, h.shape.marked, h.shape.epilogue⟩,
    ⟨h.lists.mini, h.lists.seg⟩, h.wf⟩

theorem Refines.bump (h : Refines s A) :
    Refines { s with calls := s.calls + 1 } { A with calls := A.calls + 1 } := by
  refine ⟨h.lo, h.brk, h.grant, by simp [h.calls], ?_⟩
  cases hA : A.heap with
  | none => exact h.heap_none hA
  | some H => exact ⟨(h.heap_some hA).1.of_calls _, (h.heap_some hA).2⟩

theorem Refines.same {s' : State} {H H' : Heap} (h : Refines s A) (hA : A.heap = some H)
    (hf : SameFrame s s') (hR : Repr s' H') : Refines s' { A with heap := some H' } :=
  ⟨hf.lo.trans h.lo, hf.brk.trans h.brk, hf.grant.trans h.grant, hf.calls.trans h.calls,
    hR, by rw [hf.heapStart, hf.lo]; exact (h.heap_some hA).2⟩

theorem Refines.grown {s' : State} {H H' : Heap} {S : Nat} (h : Refines s A) (hA : A.heap = some H)
    (hf : SameFrame (grownState s H.blocks S) s') (hR : Repr s' H') :
    Refines s' { A with heap := some H', brk := s.brk + S, calls := A.calls + 1 } :=
  ⟨hf.lo.trans h.lo, by rw [hf.brk, grownState], hf.grant.trans h.grant, by rw [hf.calls, grownState, h.calls],
    hR, by rw [hf.heapStart, hf.lo]; exact (h.heap_some hA).2⟩

end Basics

theorem Layout.addr_ne_of_pre {a e : Nat} {pre post : List Block} {b : Block}
    (h : Layout a (pre ++ b :: post) e) : ∀ c ∈ pre, c.addr ≠ b.addr := by
  obtain ⟨x, h1, rfl, -⟩ := layout_append.mp h
  intro c hc
  have := h1.bounds hc
  simp only [Block.last] at this; omega

theorem Layout.mem_other {a e : Nat} {pre post : List Block} {b c : Block}
    (h : Layout a (pre ++ b :: post) e) : c ∈ pre ∨ c ∈ post ↔ c ∈ pre ++ b :: post ∧ c.addr ≠ b.addr := by
  obtain ⟨x, h1, rfl, h16, -, h4⟩ := layout_append.mp h
  constructor
  · rintro (hc | hc)
    · exact ⟨by simp [hc], by have := h1.bounds hc; simp only [Block.last] at this; omega⟩
    · exact ⟨by simp [hc], by have := (h4.bounds hc).1; omega⟩
  · rintro ⟨hc, hne⟩
    rcases List.mem_append.mp hc with hc | hc
    · exact .inl hc
    · rcases List.mem_cons.mp hc with rfl | hc
      · exact absurd rfl hne
      · exact .inr hc

/-! ## `mm_init` -/

section Init

variable {s : State} {A : Alloc}

theorem extend_refines {H : Heap} {S : Nat} (h : Refines s A) (hA : A.heap = some H) (h16 : S % 16 = 0)
    (hS : 16 < S) (hlt : S + 15 < 2 ^ 64) :
    Refines (extendHeap s S).1 (A.extend H S).1 ∧ ((extendHeap s S).2 ≠ 0 ↔ (A.extend H S).2.isSome) := by
  have hR := (h.heap_some hA).1
  by_cases hg : Grants s S
  · have hE := extendHeap_spec hR h16 hS hg
    have hM := hE.repr.placed.addr_pos (b := mergedBlock H.blocks ⟨s.brk - 8, S, true⟩ [])
      (by simp [Heap.extend, Heap.free_blocks, rightFree])
    simp only [Alloc.extend, if_pos ((h.grants S).mp hg), ← h.brk, Option.isSome_some, iff_true]
    exact ⟨h.grown hA hE.frame hE.repr, by rw [hE.addr]; exact hM.1.ne'⟩
  · simp only [Alloc.extend, if_neg (mt (h.grants S).mpr hg), extendHeap_fail h16 hlt hg]
    exact ⟨h.bump, by simp⟩

/-- `mm_init` against the abstract one; the heap it lays has no allocated
block. -/
theorem init_refines (h : Refines s A) (hA : A.heap = none) :
    Refines (mmInit s).1 A.init.1 ∧ (mmInit s).2 = A.init.2 ∧
      ∀ c, c.alloc = true → ¬ A.init.1.Allocated c := by
  obtain ⟨h0, hlo, -⟩ := h.heap_none hA
  have hc : (s.grant s.calls = true ∧ s.brk + 16 ≤ 2 ^ 64) ↔
      (A.grant A.calls = true ∧ A.brk + 16 ≤ 2 ^ 64) := by rw [h.grant, h.calls, h.brk]
  by_cases hg : s.grant s.calls = true ∧ s.brk + 16 ≤ 2 ^ 64
  · have hL : Refines (laidState s)
        { A with heap := some emptyHeap, brk := A.brk + 16, calls := A.calls + 1 } :=
      ⟨h.lo, by simp [laidState, h.brk], h.grant, by simp [laidState, h.calls],
        laid_repr (by omega) hg.2, by simp [laidState, hlo, wsize]⟩
    obtain ⟨h1, h2⟩ := extend_refines hL rfl (S := chunksize) (by decide) (by decide) (by decide)
    rw [mmInit_eq hg]
    simp only [Alloc.init, if_pos (hc.mp hg)]
    refine ⟨h1, by rw [Bool.eq_iff_iff, decide_eq_true_iff]; exact h2, fun c hc' ⟨H, hH, hcH, _⟩ => ?_⟩
    simp only [Alloc.extend] at hH
    split_ifs at hH <;> cases hH
    · exact absurd ((Heap.mem_extend_alloc hc').mp hcH) (List.not_mem_nil c)
    · exact List.not_mem_nil c hcH
  · rw [mmInit_fail hg, Alloc.init, if_neg (mt hc.mpr hg)]
    exact ⟨h.bump, rfl, fun c _ => Alloc.not_allocated hA c⟩

end Init

/-! ## One call against the abstract one -/

/-- One call, from `s` concretely and from `A` abstractly: the same pointer
comes back and the new states refine each other; the payloads of the
allocated blocks but the one at `p` keep their bytes; the allocated blocks
afterwards are the old ones but the one at `p`, and the new block of `a`
bytes when a pointer comes back, at an address no old allocated block has. -/
structure Steps (s : State) (A : Alloc) (p a : Nat) (r : State × Nat) (R : Alloc × Nat) : Prop where
  refines : Refines r.1 R.1
  ret : r.2 = R.2
  keeps : ∀ H, A.heap = some H → H.Keeps p s r.1
  allocated : ∀ c, c.alloc = true →
    (R.1.Allocated c ↔ (A.Allocated c ∧ c.addr + 8 ≠ p) ∨ (R.2 ≠ 0 ∧ c = ⟨R.2 - 8, a, true⟩))
  fresh : R.2 ≠ 0 → ∀ c, A.Allocated c → c.addr + 8 ≠ R.2

theorem Steps.new_block {s : State} {A : Alloc} {p a : Nat} {r : State × Nat} {R : Alloc × Nat}
    (hS : Steps s A p a r R) (hq : R.2 ≠ 0) : getSize r.1.mem (r.2 - 8) = a ∧ getAlloc r.1.mem (r.2 - 8) = true := by
  obtain ⟨H, hA, hN, -⟩ := (hS.allocated ⟨R.2 - 8, a, true⟩ rfl).mpr (.inr ⟨hq, rfl⟩)
  have := (hS.refines.heap_some hA).1.shape.get_mem hN
  simp only at this
  rw [hS.ret]; exact this

/-! ## `malloc` -/

section Malloc

variable {s : State} {A : Alloc} {H : Heap} {n : Nat}

/-- `malloc(n)` on an initialised heap against `Alloc.place`. -/
theorem place_steps (h : Refines s A) (hA : A.heap = some H) (hn1 : 1 ≤ n) (hn : n ≤ maxRequest) :
    Steps s A 0 (16 * ((n + 23) / 16)) (malloc s n) (A.place H (16 * ((n + 23) / 16))) := by
  have hR := (h.heap_some hA).1
  have hM := (malloc_spec hR hn1 hn).2
  have hal : ∀ c, A.Allocated c ↔ c ∈ H.blocks ∧ c.alloc = true := fun c => Alloc.allocated_of_heap hA
  have hkeep : ∀ {H'} {s'}, H.Keeps 0 s s' → A.heap = some H' → H'.Keeps 0 s s' :=
    fun hk hA' => by rw [hA] at hA'; cases hA'; exact hk
  rcases hF : H.findFit (16 * ((n + 23) / 16)) with _ | F
  · by_cases hg : Grants s (max (16 * ((n + 23) / 16)) chunksize)
    · -- extended, then placed in the block the extension leaves
      obtain ⟨pre, hblk, hret, hR', hf, hk⟩ := hM.granted hF hg
      have hpre := (Heap.place_blocks _ _ _ _ _ ▸ hR'.shape.layout).addr_ne_of_pre
      simp only [Alloc.place, hF, Alloc.extend, if_pos ((h.grants _).mp hg), ← h.brk]
      rw [Heap.allocate_eq hblk hpre]
      -- the allocated blocks of the extended heap are the old ones, all before the merged block
      have hext : ∀ c, c.alloc = true → (c ∈ H.blocks ↔ c ∈ pre) := fun c hc => by
        have hcM : c ≠ mergedBlock H.blocks ⟨s.brk - 8, max (16 * ((n + 23) / 16)) chunksize, true⟩ [] :=
          fun e => by rw [e] at hc; cases hc
        rw [← Heap.mem_extend_alloc (a := s.brk - 8) (S := max (16 * ((n + 23) / 16)) chunksize) hc, hblk]
        simp [hcM]
      refine ⟨h.grown hA hf hR', hret, fun _ hA' => hkeep hk hA', fun c hc => ?_, fun _ c hcA => ?_⟩
      · rw [Alloc.allocated_of_heap rfl, hal c, Heap.mem_place_alloc hc, hext c hc]
        simp [hc]
      · obtain ⟨hcH, hc⟩ := (hal c).mp hcA
        exact fun e => hpre c ((hext c hc).mp hcH) (by simpa using e)
    · -- refused: nothing but the provider's count changes
      rw [hM.refused hF hg]
      simp only [Alloc.place, hF, Alloc.extend, if_neg (mt (h.grants _).mpr hg)]
      exact ⟨h.bump, rfl, fun _ _ _ _ _ _ _ _ _ => rfl, fun c _ => by simp [Alloc.Allocated],
        fun h0 => absurd rfl h0⟩
  · -- the first fit
    obtain ⟨pre, post, hH, hr, hR', hf, hk⟩ := hM.found F hF
    obtain ⟨-, hFb, hFf, -⟩ := Heap.findFit_mem hR.wf hF
    have hcF : ∀ c, c.alloc = true → c ≠ F := fun c hc e => by rw [e, hFf] at hc; cases hc
    simp only [Alloc.place, hF]
    rw [Heap.allocate_eq hH (hH ▸ hR.shape.layout).addr_ne_of_pre]
    refine ⟨h.same hA hf hR', by rw [hr], fun _ hA' => hkeep hk hA', fun c hc => ?_, fun _ c hcA => ?_⟩
    · rw [Alloc.allocated_of_heap rfl, hal c, Heap.mem_place_alloc hc, hH]
      simp [hc, hcF c hc]
      tauto
    · obtain ⟨hcH, hc⟩ := (hal c).mp hcA
      exact fun e => hcF c hc (hR.shape.layout.addr_inj hcH hFb (by simpa using e))

theorem malloc_zero (h0 : s.heapStart ≠ 0) : malloc s 0 = (s, 0) := by
  simp [malloc, h0]

theorem malloc_init (h0 : s.heapStart = 0) (hs : (mmInit s).2 = true → (mmInit s).1.heapStart ≠ 0) :
    malloc s n = if (mmInit s).2 then malloc (mmInit s).1 n else ((mmInit s).1, 0) := by
  rcases hm : mmInit s with ⟨s1, _ | _⟩
  · simp [malloc, h0, hm]
  · have h1 : s1.heapStart ≠ 0 := by simpa [hm] using hs
    simp [malloc, h0, hm, h1]

theorem Alloc.init_heap (h : A.init.2 = true) : ∃ H, A.init.1.heap = some H := by
  simp only [Alloc.init] at h ⊢
  split_ifs at h ⊢ with hc
  · simp only [Alloc.extend] at h ⊢
    split_ifs at h ⊢ <;> simp at h ⊢

theorem Alloc.malloc_of_init (hA : A.heap = none) (hok : A.init.2 = true) : A.malloc n = A.init.1.malloc n := by
  obtain ⟨H, hH⟩ := Alloc.init_heap hok
  simp [Alloc.malloc, hA, hok, hH]

theorem Steps.of_init {s1 : State} {A1 : Alloc} {a : Nat} {r : State × Nat} {R : Alloc × Nat}
    (hS : Steps s1 A1 0 a r R) (hA : A.heap = none) (hnone : ∀ c, c.alloc = true → ¬ A1.Allocated c) :
    Steps s A 0 a r R :=
  ⟨hS.refines, hS.ret, (fun _ hA' => by rw [hA] at hA'; cases hA'),
    fun c hc => by rw [hS.allocated c hc]; simp [hnone c hc, Alloc.not_allocated hA c],
    fun _ c hc => absurd hc (Alloc.not_allocated hA c)⟩

theorem malloc_steps_some (h : Refines s A) (hA : A.heap = some H) (hn : n ≤ maxRequest) :
    Steps s A 0 (16 * ((n + 23) / 16)) (malloc s n) (A.malloc n) := by
  by_cases hn0 : n = 0
  · subst hn0
    have h0 : s.heapStart ≠ 0 := by have := (h.heap_some hA).1.shape.start; omega
    rw [malloc_zero h0]
    simp only [Alloc.malloc, hA, Option.isNone_some, Bool.false_eq_true, if_false, ne_eq, not_true_eq_false,
      and_false]
    exact ⟨h, rfl, fun _ _ _ _ _ _ _ _ _ => rfl, fun c hc => by simp [hc, Alloc.Allocated], fun h0 => absurd rfl h0⟩
  · have := place_steps h hA (by omega) hn
    simpa [Alloc.malloc, hA, hn0] using this

/-- `malloc(n)` for every `n ≤ maxRequest`, with `mm_init` first when the
heap is not laid yet. -/
theorem malloc_steps (h : Refines s A) (hn : n ≤ maxRequest) :
    Steps s A 0 (16 * ((n + 23) / 16)) (malloc s n) (A.malloc n) := by
  cases hA : A.heap with
  | some H => exact malloc_steps_some h hA hn
  | none =>
    obtain ⟨hI, hok, hnone⟩ := init_refines h hA
    have hs : (mmInit s).2 = true → (mmInit s).1.heapStart ≠ 0 := fun ht => by
      obtain ⟨H1, hH1⟩ := Alloc.init_heap (hok ▸ ht)
      have := (hI.heap_some hH1).1.shape.start; omega
    rw [malloc_init (h.heap_none hA).1 hs]
    cases hb : (mmInit s).2
    · have hb' : A.init.2 = false := hok ▸ hb
      have hm : A.malloc n = (A.init.1, 0) := by
        simp only [Alloc.malloc, hA, Option.isNone_none, if_true, hb', Bool.false_eq_true, false_and, if_false]
        split <;> rfl
      rw [hm, if_neg (by simp)]
      exact ⟨hI, rfl, (fun _ hA' => by rw [hA] at hA'; cases hA'),
        fun c hc => by simp [hnone c hc, Alloc.not_allocated hA c], fun h0 => absurd rfl h0⟩
    · have hb' : A.init.2 = true := hok ▸ hb
      obtain ⟨H1, hH1⟩ := Alloc.init_heap hb'
      rw [if_pos rfl, Alloc.malloc_of_init hA hb']
      exact (malloc_steps_some hI hH1 hn).of_init hA hnone

end Malloc

/-! ## `free` -/

section Free

variable {s : State} {A : Alloc}

theorem Alloc.free_zero (A : Alloc) : A.free 0 = A := by
  unfold Alloc.free
  split
  · split <;> simp
  · rfl

/-- `free(p)` for a valid `p`. -/
theorem free_steps {p a : Nat} (h : Refines s A) (hp : validPtr s p) :
    Steps s A p a (free s p, 0) (A.free p, 0) := by
  by_cases hp0 : p = 0
  · subst hp0
    rw [Alloc.free_zero, show free s 0 = s by simp [free]]
    exact ⟨h, rfl, fun _ _ _ _ _ _ _ _ _ => rfl, fun c _ => by simp, fun h0 => absurd rfl h0⟩
  obtain ⟨H, b, hA, hb, hba, rfl⟩ := h.block_of_validPtr hp hp0
  have hR := (h.heap_some hA).1
  obtain ⟨pre, post, hH, -⟩ := hR.shape.split_mem hb
  have hl : Layout s.heapStart (pre ++ b :: post) (s.brk - 8) := hH ▸ hR.shape.layout
  obtain ⟨hR', hf, hfp⟩ := free_spec hR hH hba
  have hfree : A.free (b.addr + 8) = { A with heap := some (H.free pre b post) } := by
    simp [Alloc.free, hA, hH, locateIn_eq hl.addr_ne_of_pre]
  rw [hfree]
  refine ⟨h.same hA hf hR', rfl, fun H' hA' c hc hca hne x hx1 hx2 => ?_, fun c hc => ?_,
    fun h0 => absurd rfl h0⟩
  · -- another allocated block lies outside the merged block
    rw [hA] at hA'; cases hA'
    have hc' := (Heap.mem_free_alloc (H := H) (b := b) hca).mpr (hl.mem_other.mpr ⟨hH ▸ hc, by omega⟩)
    have hout := hR'.shape.layout.payload_outside hc' (c := mergedBlock pre b post)
      (by simp [Heap.free_blocks]) (fun e => by rw [e] at hca; cases hca) hx1 hx2
    exact hfp x hout (hR.unlinked hc hca hx1 hx2)
  · rw [Alloc.allocated_of_heap rfl, Alloc.allocated_of_heap hA, Heap.mem_free_alloc hc, hl.mem_other, ← hH]
    simp [hc]

end Free

/-! ## `realloc` and `calloc` -/

section Move

variable {s : State} {A : Alloc}

theorem Steps.write_new {a : Nat} {r : State × Nat} {R : Alloc × Nat} {m : Mem} (hS : Steps s A 0 a r R)
    (hq : R.2 ≠ 0) (hm : ∀ x, (x < R.2 ∨ R.2 - 8 + a ≤ x) → m x = r.1.mem x) :
    Steps s A 0 a ({ r.1 with mem := m }, r.2) R := by
  obtain ⟨H1, hA1, hN, -⟩ := (hS.allocated ⟨R.2 - 8, a, true⟩ rfl).mpr (.inr ⟨hq, rfl⟩)
  have hR1 := hS.refines.heap_some hA1
  have h8 : 0 < R.2 - 8 := (hR1.1.placed.addr_pos hN).1
  have hR2 : Repr { r.1 with mem := m } H1 :=
    hR1.1.payload_congr hN rfl fun x hx => hm x (by simp only [Block.last] at hx; omega)
  refine ⟨⟨hS.refines.lo, hS.refines.brk, hS.refines.grant, hS.refines.calls, by rw [hA1]; exact ⟨hR2, hR1.2⟩⟩,
    hS.ret,
    fun H hA c hc hca hne x hx1 hx2 => ?_, hS.allocated, hS.fresh⟩
  -- an old allocated block lies outside the returned one
  have hcA := (Alloc.allocated_of_heap hA).mpr ⟨hc, hca⟩
  have hc1 := ((Alloc.allocated_of_heap hA1).mp ((hS.allocated c hca).mpr (.inl ⟨hcA, hne⟩))).1
  have hcN : c ≠ ⟨R.2 - 8, a, true⟩ := fun e => hS.fresh hq c hcA (by rw [e]; simp only; omega)
  have := hR1.1.shape.layout.payload_outside hc1 hN hcN hx1 hx2
  show m x = s.mem x
  rw [hm x (by simp only [Block.last] at this; omega), hS.keeps H hA c hc hca hne x hx1 hx2]

/-- A call that returns a new block, then `free(p)` of a block allocated
before it: the path of a moving `realloc(p, n)`. -/
theorem Steps.then_free {p a : Nat} {r : State × Nat} {R : Alloc × Nat} (h : Refines s A)
    (hS : Steps s A 0 a r R) (hq : R.2 ≠ 0) (hp : validPtr s p) (hp0 : p ≠ 0) :
    Steps s A p a (free r.1 p, r.2) (R.1.free p, R.2) := by
  obtain ⟨H, b, hA, hb, hba, rfl⟩ := h.block_of_validPtr hp hp0
  have hbA := (Alloc.allocated_of_heap hA).mpr ⟨hb, hba⟩
  obtain ⟨H1, hA1, hbH1, -⟩ := (hS.allocated b hba).mpr (.inl ⟨hbA, by omega⟩)
  have hS3 := free_steps (a := a) hS.refines ((hS.refines.heap_some hA1).1.validPtr_of_mem hbH1 hba)
  obtain ⟨hN, -⟩ :=
    (Alloc.allocated_of_heap hA1).mp ((hS.allocated ⟨R.2 - 8, a, true⟩ rfl).mpr (.inr ⟨hq, rfl⟩))
  have h8 : 0 < R.2 - 8 := ((hS.refines.heap_some hA1).1.placed.addr_pos hN).1
  have hfr := hS.fresh hq b hbA
  refine ⟨hS3.refines, hS.ret, fun H' hA' c hc hca hne x hx1 hx2 => ?_, fun c hc => ?_, hS.fresh⟩
  · have hc1 := (Alloc.allocated_of_heap hA1).mp ((hS.allocated c hca).mpr
      (.inl ⟨(Alloc.allocated_of_heap hA').mpr ⟨hc, hca⟩, by omega⟩))
    exact (hS3.keeps H1 hA1 c hc1.1 hca hne x hx1 hx2).trans (hS.keeps H' hA' c hc hca (by omega) x hx1 hx2)
  · rw [hS3.allocated c hc, hS.allocated c hc]
    constructor
    · rintro (⟨⟨hc1, -⟩ | ⟨-, rfl⟩, hne⟩ | ⟨h0, -⟩)
      · exact .inl ⟨hc1, hne⟩
      · exact .inr ⟨hq, rfl⟩
      · exact absurd rfl h0
    · rintro (⟨hc1, hne⟩ | ⟨-, rfl⟩)
      · exact .inl ⟨.inl ⟨hc1, by omega⟩, hne⟩
      · exact .inl ⟨.inr ⟨hq, rfl⟩, by simp only; omega⟩

theorem realloc_move {p n : Nat} (hn : n ≠ 0) (hp : p ≠ 0) :
    realloc s p n = if (malloc s n).2 = 0 then malloc s n else
      (free { (malloc s n).1 with mem := (memcpy (malloc s n).1.mem (malloc s n).2 p
        (min (getPayloadSize (malloc s n).1.mem (payloadToHeader p)) n)) } p, (malloc s n).2) := by
  rcases hm : malloc s n with ⟨s1, q⟩
  simp only [realloc, hn, hp, if_false, hm]
  split_ifs <;> simp_all

/-- The state `realloc(p, n)` hands to `free(p)` once `malloc(n)` has
returned a block: `malloc`'s state with the first `min(m, n)` bytes of `p`'s
payload of `m` bytes copied to the new payload. -/
def movedState (s : State) (p n : Nat) : State :=
  { (malloc s n).1 with
    mem := memcpy (malloc s n).1.mem (malloc s n).2 p (min (getPayloadSize s.mem (payloadToHeader p)) n) }

theorem realloc_moved {p n : Nat} (h : Refines s A) (hp : validPtr s p) (hp0 : p ≠ 0) (hn0 : n ≠ 0)
    (hn : n ≤ maxRequest) (hq : (malloc s n).2 ≠ 0) :
    realloc s p n = (free (movedState s p n) p, (malloc s n).2) ∧
      (∃ H b, Repr (movedState s p n) H ∧ b ∈ H.blocks ∧ b.alloc = true ∧ b.addr + 8 = p) ∧
      ∀ i < min n (getPayloadSize s.mem (payloadToHeader p)),
        (realloc s p n).1.mem ((malloc s n).2 + i) = s.mem (p + i) := by
  obtain ⟨H, b, hA, hb, hba, rfl⟩ := h.block_of_validPtr hp hp0
  have hR := (h.heap_some hA).1
  have hbA := (Alloc.allocated_of_heap hA).mpr ⟨hb, hba⟩
  have hS1 := malloc_steps h hn
  have hq' : (A.malloc n).2 ≠ 0 := by rw [← hS1.ret]; exact hq
  obtain ⟨H1, hA1, hbH1, -⟩ := (hS1.allocated b hba).mpr (.inl ⟨hbA, by omega⟩)
  -- `p`'s block keeps its size through `malloc`
  have hm : getPayloadSize (malloc s n).1.mem (payloadToHeader (b.addr + 8)) =
      getPayloadSize s.mem (payloadToHeader (b.addr + 8)) := by
    have h1 := ((hS1.refines.heap_some hA1).1.shape.get_mem hbH1).1
    have h0 := (hR.shape.get_mem hb).1
    simp only [getPayloadSize, payloadToHeader, wsize, Nat.add_sub_cancel] at h1 h0 ⊢
    rw [h1, h0]
  have heq : realloc s (b.addr + 8) n = (free (movedState s (b.addr + 8) n) (b.addr + 8), (malloc s n).2) := by
    rw [realloc_move hn0 hp0, if_neg hq, hm]; rfl
  -- the copy writes only the new payload
  have hS2 := hS1.write_new hq' (m := (movedState s (b.addr + 8) n).mem) fun x hx => by
    simp only [movedState, memcpy]; rw [if_neg (by rw [hS1.ret]; omega)]
  have hR2 := (hS2.refines.heap_some hA1).1
  refine ⟨heq, ⟨H1, b, hR2, hbH1, hba, rfl⟩, fun i hi => ?_⟩
  -- `free(p)` keeps the new payload, where the copy put the bytes `malloc` kept at `p`
  obtain ⟨hN, -⟩ := (Alloc.allocated_of_heap hA1).mp
    ((hS1.allocated ⟨(A.malloc n).2 - 8, 16 * ((n + 23) / 16), true⟩ rfl).mpr (.inr ⟨hq', rfl⟩))
  have h8 : 0 < (A.malloc n).2 - 8 := (hR2.placed.addr_pos hN).1
  have hS3 := free_steps (a := 16 * ((n + 23) / 16)) hS2.refines (hR2.validPtr_of_mem hbH1 hba)
  have hfr := hS1.fresh hq' b hbA
  have hsz := (hR.shape.get_mem hb).1
  have hr := hS1.ret
  simp only [getPayloadSize, payloadToHeader, wsize, Nat.add_sub_cancel, hsz] at hi
  rw [heq]
  refine (hS3.keeps H1 hA1 _ hN rfl (by simp only; omega) _ (by simp only; omega)
    (by simp only [Block.last]; omega)).trans ?_
  show memcpy _ _ _ _ _ = _
  simp only [memcpy, payloadToHeader, wsize, Nat.add_sub_cancel, getPayloadSize, hsz]
  rw [if_pos ⟨by omega, by omega⟩,
    show b.addr + 8 + ((malloc s n).2 + i - (malloc s n).2) = b.addr + 8 + i by omega]
  exact hS1.keeps H hA b hb hba (by omega) _ (by omega) (by simp only [Block.last]; omega)

/-- `realloc(p, n)` for a valid `p`: `free` when `n = 0`, `malloc` when `p` is
NULL, and otherwise a new block, the old payload copied into it, and `p`
freed. -/
theorem realloc_steps {p n : Nat} (h : Refines s A) (hp : validPtr s p) (hn : n ≤ maxRequest) :
    Steps s A (if n = 0 ∨ (A.realloc p n).2 ≠ 0 then p else 0) (16 * ((n + 23) / 16))
      (realloc s p n) (A.realloc p n) := by
  by_cases hn0 : n = 0
  · subst hn0
    simpa [realloc, Alloc.realloc] using free_steps (a := 16 * ((0 + 23) / 16)) h hp
  by_cases hp0 : p = 0
  · subst hp0
    simpa [realloc, Alloc.realloc, hn0] using malloc_steps h hn
  have hS1 := malloc_steps h hn
  have hAr : A.realloc p n =
      if (A.malloc n).2 = 0 then A.malloc n else ((A.malloc n).1.free p, (A.malloc n).2) := by
    simp [Alloc.realloc, hn0, hp0]
  have hfr : (A.realloc p n).2 = (A.malloc n).2 := by rw [hAr]; split_ifs <;> rfl
  rw [hfr, realloc_move hn0 hp0, hAr]
  by_cases hq : (A.malloc n).2 = 0
  · have hq' : (malloc s n).2 = 0 := hS1.ret.trans hq
    simp only [hq, hq', if_true, hn0, ne_eq, not_true_eq_false, or_self, if_false]
    exact hS1
  have hq' : (malloc s n).2 ≠ 0 := by rw [hS1.ret]; exact hq
  simp only [hq, hq', if_false, ne_eq, not_false_eq_true, or_true, if_true]
  -- the copy writes only the new payload, and `p`'s block is still there to free
  have hS2 := hS1.write_new hq (m := memcpy (malloc s n).1.mem (malloc s n).2 p
      (min (getPayloadSize (malloc s n).1.mem (payloadToHeader p)) n)) fun x hx => by
    simp only [memcpy]; rw [if_neg (by rw [hS1.ret]; omega)]
  exact (hS2.then_free h hq hp hp0 :)

theorem calloc_eq {k n : Nat} (hk : k ≠ 0) (hn : k * n ≤ maxRequest) :
    calloc s k n = if (malloc s (k * n)).2 = 0 then malloc s (k * n) else
      ({ (malloc s (k * n)).1 with mem := memset (malloc s (k * n)).1.mem (malloc s (k * n)).2 0 (k * n) },
        (malloc s (k * n)).2) := by
  have hlt : k * n < 2 ^ 64 := by simp only [maxRequest] at hn; omega
  rcases hm : malloc s (k * n) with ⟨s1, q⟩
  simp only [calloc, hk, if_false, Nat.mod_eq_of_lt hlt, Nat.mul_div_cancel_left n (Nat.pos_of_ne_zero hk),
    ne_eq, not_true_eq_false, hm]
  split_ifs <;> simp_all

/-- `calloc(k, n)` when the product is a valid request: `malloc` of the
product, the new payload cleared. -/
theorem calloc_steps {k n : Nat} (h : Refines s A) (hn : k * n ≤ maxRequest) :
    Steps s A 0 (16 * ((k * n + 23) / 16)) (calloc s k n) (A.calloc k n) := by
  by_cases hk : k = 0
  · subst hk
    simp only [calloc, Alloc.calloc, if_true]
    exact ⟨h, rfl, fun _ _ _ _ _ _ _ _ _ => rfl, fun c _ => by simp, fun h0 => absurd rfl h0⟩
  have hS1 := malloc_steps h hn
  rw [calloc_eq hk hn, Alloc.calloc, if_neg hk]
  by_cases hq : (A.malloc (k * n)).2 = 0
  · rw [if_pos (hS1.ret.trans hq)]; exact hS1
  · rw [if_neg (by rw [hS1.ret]; exact hq)]
    exact hS1.write_new hq fun x hx => by simp only [memset]; rw [if_neg (by rw [hS1.ret]; omega)]

end Move

/-! ## Any call, and runs -/

/-- Any valid call against the abstract one. -/
theorem call_steps {s : State} {A : Alloc} {c : Call} (h : Refines s A) (hv : c.valid s) :
    Steps s A (c.frees (c.step A).2) (16 * ((c.size + 23) / 16)) (c.apply s) (c.step A) := by
  cases c with
  | malloc n => exact malloc_steps h hv
  | calloc k n => exact calloc_steps h hv
  | free p => exact free_steps h hv
  | realloc p n => exact realloc_steps h hv.1 hv.2

theorem Refines.write {s : State} {A : Alloc} {x : Nat} (h : Refines s A) (hx : InPayload s x) (v : Byte) :
    Refines { s with mem := store s.mem x v } A := by
  cases hA : A.heap with
  | none => exact absurd (h.heap_none hA).1 hx.1
  | some H =>
    obtain ⟨b, hb, hba, h1, h2⟩ := (h.heap_some hA).1.inPayload hx
    have hR' := (h.heap_some hA).1.payload_congr hb hba (m := store s.mem x v)
      fun y hy => if_neg (by simp only [Block.last] at *; omega)
    exact ⟨h.lo, h.brk, h.grant, h.calls, by rw [hA]; exact ⟨hR', (h.heap_some hA).2⟩⟩

theorem initState_refines (mem : Mem) (lo : Nat) (grant : Nat → Bool) :
    Refines (initState mem lo grant) ⟨none, lo, lo, grant, 0⟩ :=
  ⟨rfl, rfl, rfl, rfl, ⟨rfl, rfl, rfl, fun _ _ => rfl⟩⟩

/-- Every reachable state implements a state of the abstract allocator. -/
theorem Reachable.refines {s : State} (h : Reachable s) : ∃ A, Refines s A := by
  induction h with
  | init mem lo grant => exact ⟨_, (init_refines (initState_refines mem lo grant) rfl).1⟩
  | call c _ hv ih => obtain ⟨A, hA⟩ := ih; exact ⟨_, (call_steps hA hv).refines⟩
  | write x v _ hx ih => obtain ⟨A, hA⟩ := ih; exact ⟨A, hA.write hx v⟩

theorem Reachable.repr {s : State} (h : Reachable s) (h0 : s.heapStart ≠ 0) : ∃ H, Repr s H := by
  obtain ⟨A, hA⟩ := h.refines
  cases hAh : A.heap with
  | none => exact absurd (hA.heap_none hAh).1 h0
  | some H => exact ⟨H, (hA.heap_some hAh).1⟩

end MallocSim
