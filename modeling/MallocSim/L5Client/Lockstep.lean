import MallocSim.L5Client.Refine

/-!
# Client data does not steer the allocator

Two runs of the same calls with the same answers of the region provider
(`Lockstep`) may start from different memories, which stand for what
`mem_sbrk` hands out, and may differ in every byte the client writes into
the payloads of allocated blocks. They return the same pointers and keep the
same metadata (`SameMeta`): the walk of the implicit list, every header, the
links and footers of free blocks, the prologue and epilogue, `segment_list`
and `mini_list_start`.

Both runs refine one abstract state (`Lockstep.refines`), since the call
lemmas of `Refine` hold from any memory and a client's write refines the
state it was made in. The metadata is a function of the abstract heap: a
representation fixes every header, footer and link word (`Repr.sameBlockMeta`),
and the list heads are the first nodes of the lists.

Results:
- `Refines.validPtr_iff`, `Refines.valid_iff`: the valid calls are read off
  the abstract state.
- `Refines.sameMeta`: two states refining one abstract state keep the same
  metadata.
- `client_data_oblivious`: over two runs in lockstep, the same metadata, and
  every valid call is valid in both, returns the same pointer in both and
  leaves the same metadata.
-/
namespace MallocSim

/-! ## Lists in two memories -/

theorem Seg.head_eq {m : Mem} {p q : Nat} {xs : List Nat} (h : Seg m p xs q) : p = xs.headD q := by
  cases xs with
  | nil => exact h
  | cons x xs => exact h.1

theorem Seg.nextFree_eq {m1 m2 : Mem} {p1 p2 q x : Nat} {xs : List Nat} (h1 : Seg m1 p1 xs q)
    (h2 : Seg m2 p2 xs q) (hx : x ∈ xs) : nextFree m1 x = nextFree m2 x := by
  induction xs generalizing p1 p2 with
  | nil => cases hx
  | cons y ys ih =>
    rcases List.mem_cons.mp hx with rfl | hx
    · exact h1.2.2.head_eq.trans h2.2.2.head_eq.symm
    · exact ih h1.2.2 h2.2.2 hx

theorem DSeg.head_eq {m : Mem} {q p q' p' : Nat} {xs : List Nat} (h : DSeg m q p xs q' p') :
    p = xs.headD p' := by
  cases xs with
  | nil => exact h.2
  | cons x xs => exact h.1

theorem DSeg.links_eq {m1 m2 : Mem} {q p1 p2 q' p' x : Nat} {xs : List Nat}
    (h1 : DSeg m1 q p1 xs q' p') (h2 : DSeg m2 q p2 xs q' p') (hx : x ∈ xs) :
    nextFree m1 x = nextFree m2 x ∧ prevFree m1 x = prevFree m2 x := by
  induction xs generalizing q p1 p2 with
  | nil => cases hx
  | cons y ys ih =>
    rcases List.mem_cons.mp hx with rfl | hx
    · exact ⟨h1.2.2.2.head_eq.trans h2.2.2.2.head_eq.symm, h1.2.2.1.trans h2.2.2.1.symm⟩
    · exact ih h1.2.2.2 h2.2.2.2 hx

/-! ## Metadata of one heap in two memories -/

/-- The words `mm.c` keeps for the block whose header is at `a`, the same in
the two memories: the header, and for a free block its `next_free` link and,
when it is not mini, its `prev_free` link and footer. -/
def SameBlockMeta (m1 m2 : Mem) (a : Nat) : Prop :=
  readWord m1 a = readWord m2 a ∧
    (getAlloc m1 a = false → nextFree m1 a = nextFree m2 a ∧
      (getSize m1 a ≠ 16 → prevFree m1 a = prevFree m2 a ∧
        readWord m1 (a + getSize m1 a - 8) = readWord m2 (a + getSize m1 a - 8)))

/-- Two states keep the same heap metadata: the break, `heap_start` and the
list heads, and once there is a heap, the same walk of the implicit list,
the same words for each of its blocks, and the same prologue and epilogue. -/
structure SameMeta (s1 s2 : State) : Prop where
  brk : s1.brk = s2.brk
  heap_start : s1.heapStart = s2.heapStart
  mini_list_start : s1.miniListStart = s2.miniListStart
  segment_list : ∀ i < segListLen, s1.segmentList i = s2.segmentList i
  blocks : s1.heapStart ≠ 0 → ∃ bs, walkBlocks s1 = some bs ∧ walkBlocks s2 = some bs ∧
    ∀ a ∈ bs, SameBlockMeta s1.mem s2.mem a
  sentinels : s1.heapStart ≠ 0 →
    readWord s1.mem (s1.heapStart - 8) = readWord s2.mem (s1.heapStart - 8) ∧
      readWord s1.mem (s1.brk - 8) = readWord s2.mem (s1.brk - 8)

section TwoMemories

variable {s1 s2 : State} {H : Heap}

theorem Repr.links_eq (h1 : Repr s1 H) (h2 : Repr s2 H) {b : Block} (hb : b ∈ H.blocks)
    (hf : b.alloc = false) :
    nextFree s1.mem b.addr = nextFree s2.mem b.addr ∧
      (b.size ≠ 16 → prevFree s1.mem b.addr = prevFree s2.mem b.addr) := by
  have hx := List.mem_map_of_mem Block.addr ((h1.wf.mem_lists _ b).mpr ⟨hb, hf, rfl⟩)
  cases hk : listIndex b.size with
  | none =>
    rw [hk] at hx
    exact ⟨h1.lists.mini.nextFree_eq h2.lists.mini hx, fun h16 => absurd (listIndex_none.mp hk) h16⟩
  | some i =>
    rw [hk] at hx
    have := DSeg.links_eq (h1.lists.seg i (listIndex_lt hk)) (h2.lists.seg i (listIndex_lt hk)) hx
    exact ⟨this.1, fun _ => this.2⟩

theorem Repr.sameBlockMeta (h1 : Repr s1 H) (h2 : Repr s2 H) {b : Block} (hb : b ∈ H.blocks) :
    SameBlockMeta s1.mem s2.mem b.addr := by
  obtain ⟨pre, post, e⟩ := List.append_of_mem hb
  have k1 := (show Marked s1.mem true false (pre ++ b :: post) from e ▸ h1.shape.marked).at
  have k2 := (show Marked s2.mem true false (pre ++ b :: post) from e ▸ h2.shape.marked).at
  obtain ⟨hs, ha⟩ := h1.shape.get_mem hb
  rw [SameBlockMeta, hs, ha]
  exact ⟨k1.1.trans k2.1.symm, fun hf => ⟨(h1.links_eq h2 hb hf).1,
    fun h16 => ⟨(h1.links_eq h2 hb hf).2 h16, (k1.2 hf h16).trans (k2.2 hf h16).symm⟩⟩⟩

end TwoMemories

/-! ## Through the refinement -/

section Refined

variable {s s1 s2 : State} {A : Alloc}

/-- The valid pointers are NULL and the payloads of the allocated blocks of
the abstract heap. -/
theorem Refines.validPtr_iff (h : Refines s A) {p : Nat} :
    validPtr s p ↔ p = 0 ∨ ∃ b, A.Allocated b ∧ b.addr + 8 = p := by
  cases hA : A.heap with
  | none =>
    have hn : ¬ ∃ b, A.Allocated b ∧ b.addr + 8 = p := fun ⟨b, hb, _⟩ => Alloc.not_allocated hA b hb
    exact ⟨fun hp => .inl (hp.resolve_right fun hp => hp.1 (h.heap_none hA).1),
      fun hp => .inl (hp.resolve_right hn)⟩
  | some H =>
    have hR := (h.heap_some hA).1
    constructor
    · intro hp
      by_cases hp0 : p = 0
      · exact .inl hp0
      obtain ⟨b, hb, hba, rfl⟩ := hR.validPtr hp hp0
      exact .inr ⟨b, ⟨H, hA, hb, hba⟩, rfl⟩
    · rintro (rfl | ⟨b, hb, rfl⟩)
      · exact .inl rfl
      · obtain ⟨hb, hba⟩ := (Alloc.allocated_of_heap hA).mp hb
        exact hR.validPtr_of_mem hb hba

/-- Two states refining one abstract state admit the same calls. -/
theorem Refines.valid_iff (h1 : Refines s1 A) (h2 : Refines s2 A) (c : Call) : c.valid s1 ↔ c.valid s2 := by
  cases c <;> simp only [Call.valid, h1.validPtr_iff, h2.validPtr_iff]

/-- Two states refining one abstract state keep the same metadata. -/
theorem Refines.sameMeta (h1 : Refines s1 A) (h2 : Refines s2 A) : SameMeta s1 s2 := by
  have hbrk : s1.brk = s2.brk := h1.brk.trans h2.brk.symm
  cases hA : A.heap with
  | none =>
    obtain ⟨a0, -, a1, a2⟩ := h1.heap_none hA
    obtain ⟨b0, -, b1, b2⟩ := h2.heap_none hA
    exact ⟨hbrk, a0.trans b0.symm, a1.trans b1.symm, fun i hi => (a2 i hi).trans (b2 i hi).symm,
      fun h => absurd a0 h, fun h => absurd a0 h⟩
  | some H =>
    obtain ⟨r1, e1⟩ := h1.heap_some hA
    obtain ⟨r2, e2⟩ := h2.heap_some hA
    have hst : s1.heapStart = s2.heapStart := by rw [e1, e2, h1.lo, h2.lo]
    refine ⟨hbrk, hst, r1.lists.mini.head_eq.trans r2.lists.mini.head_eq.symm,
      fun i hi => (DSeg.head_eq (r1.lists.seg i hi)).trans (DSeg.head_eq (r2.lists.seg i hi)).symm,
      fun _ => ⟨_, r1.shape.heapWalk_eq, r2.shape.heapWalk_eq, fun a ha => ?_⟩, fun _ => ⟨?_, ?_⟩⟩
    · obtain ⟨b, hb, rfl⟩ := List.mem_map.mp ha
      exact r1.sameBlockMeta r2 hb
    · rw [r1.shape.prologue, hst, r2.shape.prologue]
    · rw [r1.shape.epilogue, hbrk, r2.shape.epilogue]

end Refined

/-! ## Two runs -/

/-- Two runs of the same valid calls with the same answers of the region
provider, from memories that may differ, each run also taking writes to the
payloads of its allocated blocks. -/
inductive Lockstep : State → State → Prop where
  | init (mem1 mem2 : Mem) (lo : Nat) (grant : Nat → Bool) :
      Lockstep (mmInit (initState mem1 lo grant)).1 (mmInit (initState mem2 lo grant)).1
  | call {s1 s2 : State} (c : Call) : Lockstep s1 s2 → c.valid s1 →
      Lockstep (c.apply s1).1 (c.apply s2).1
  | writeLeft {s1 s2 : State} (x : Nat) (v : Byte) : Lockstep s1 s2 → InPayload s1 x →
      Lockstep { s1 with mem := store s1.mem x v } s2
  | writeRight {s1 s2 : State} (x : Nat) (v : Byte) : Lockstep s1 s2 → InPayload s2 x →
      Lockstep s1 { s2 with mem := store s2.mem x v }

theorem Lockstep.refines {s1 s2 : State} (h : Lockstep s1 s2) : ∃ A, Refines s1 A ∧ Refines s2 A := by
  induction h with
  | init mem1 mem2 lo grant =>
    exact ⟨_, (init_refines (initState_refines mem1 lo grant) rfl).1,
      (init_refines (initState_refines mem2 lo grant) rfl).1⟩
  | call c _ hv ih =>
    obtain ⟨A, h1, h2⟩ := ih
    exact ⟨_, (call_steps h1 hv).refines, (call_steps h2 ((h1.valid_iff h2 c).mp hv)).refines⟩
  | writeLeft x v _ hx ih => obtain ⟨A, h1, h2⟩ := ih; exact ⟨A, h1.write hx v, h2⟩
  | writeRight x v _ hx ih => obtain ⟨A, h1, h2⟩ := ih; exact ⟨A, h1, h2.write hx v⟩

/-- Over two runs in lockstep the metadata is the same, and a call valid in
one run is valid in the other, returns the same pointer in both and leaves
the same metadata. -/
theorem client_data_oblivious {s1 s2 : State} (h : Lockstep s1 s2) :
    SameMeta s1 s2 ∧ ∀ c : Call, c.valid s1 →
      c.valid s2 ∧ (c.apply s1).2 = (c.apply s2).2 ∧ SameMeta (c.apply s1).1 (c.apply s2).1 := by
  obtain ⟨A, h1, h2⟩ := h.refines
  refine ⟨h1.sameMeta h2, fun c hc => ?_⟩
  have hc2 := (h1.valid_iff h2 c).mp hc
  have S1 := call_steps h1 hc
  have S2 := call_steps h2 hc2
  exact ⟨hc2, S1.ret.trans S2.ret.symm, S1.refines.sameMeta S2.refines⟩

/-- `mm_init` on a region at 4096 whose provider grants every request, once
over zeroed memory and once over memory of all ones. -/
theorem client_data_oblivious_init :
    Lockstep (mmInit (initState (fun _ => 0) 4096 fun _ => true)).1
        (mmInit (initState (fun _ => 255) 4096 fun _ => true)).1 ∧
      SameMeta (mmInit (initState (fun _ => 0) 4096 fun _ => true)).1
        (mmInit (initState (fun _ => 255) 4096 fun _ => true)).1 ∧
      ∀ c : Call, c.valid (mmInit (initState (fun _ => 0) 4096 fun _ => true)).1 →
        c.valid (mmInit (initState (fun _ => 255) 4096 fun _ => true)).1 ∧
          (c.apply (mmInit (initState (fun _ => 0) 4096 fun _ => true)).1).2 =
            (c.apply (mmInit (initState (fun _ => 255) 4096 fun _ => true)).1).2 ∧
          SameMeta (c.apply (mmInit (initState (fun _ => 0) 4096 fun _ => true)).1).1
            (c.apply (mmInit (initState (fun _ => 255) 4096 fun _ => true)).1).1 :=
  ⟨.init _ _ _ _, client_data_oblivious (.init _ _ _ _)⟩

end MallocSim
