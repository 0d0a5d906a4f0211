import MallocSim.L5Client.Refine

/-!
# The client's live allocations

A client holds the pairs `(p, n)` of the non-NULL pointers `malloc`,
`calloc` and `realloc` returned and the bytes it asked for, until it frees
them (`Call.track`). It calls `free` and `realloc` only with NULL or a live
pointer, asks for at most `maxRequest` bytes (`Call.validFor`), and writes
only inside its live allocations (`Tracked`).

On the abstract allocator the live allocations are the allocated blocks,
one each, each inside its block's payload (`LiveOk`); every call keeps
that, since it allocates exactly the block it returns, at an address no
allocated block has, and frees exactly the block it is given (`Steps`).
Read through the representation: live pointers are 16-byte aligned when the
region is, their ranges lie in the payloads of the blocks the checker walks,
off every header, free block, sentinel and other live range, and no
allocated block is leaked (`live_allocations`). A call changes no byte of a
live allocation it does not free (`live_payloads_kept`).

Results:
- `Tracked.refines`: every tracked state refines an abstract state whose
  allocated blocks are the live allocations.
- `live_allocations`: where the live allocations lie.
- `live_payloads_kept`: calls keep the bytes of the other live allocations.
-/
namespace MallocSim

/-! ## The client -/

/-- The live allocations after a call that returned `r`: the returned
pointer with the bytes asked for, and no longer the freed one. -/
def Call.track (c : Call) (r : Nat) (L : List (Nat × Nat)) : List (Nat × Nat) :=
  (if r = 0 then [] else [(r, c.size)]) ++ L.filter fun x => x.1 ≠ c.frees r

/-- A call a client holding the live allocations `L` may make: `free` and
`realloc` of NULL or a live pointer, requests of at most `maxRequest` bytes. -/
def Call.validFor : Call → List (Nat × Nat) → Prop
  | .malloc size, _ => size ≤ maxRequest
  | .calloc elements size, _ => elements * size ≤ maxRequest
  | .free ptr, L => ptr = 0 ∨ ptr ∈ L.map Prod.fst
  | .realloc ptr size, L => (ptr = 0 ∨ ptr ∈ L.map Prod.fst) ∧ size ≤ maxRequest

/-- The states a client reaches holding the live allocations `L`: from
`mm_init`, by valid calls and by writes inside its live allocations. -/
inductive Tracked : State → List (Nat × Nat) → Prop where
  | init (mem : Mem) (lo : Nat) (grant : Nat → Bool) : Tracked (mmInit (initState mem lo grant)).1 []
  | call {s : State} {L : List (Nat × Nat)} (c : Call) : Tracked s L → c.validFor L →
      Tracked (c.apply s).1 (c.track (c.apply s).2 L)
  | write {s : State} {L : List (Nat × Nat)} (x : Nat) (v : Byte) : Tracked s L →
      (∃ p n, (p, n) ∈ L ∧ p ≤ x ∧ x < p + n) → Tracked { s with mem := store s.mem x v } L

/-! ## On the abstract allocator -/

/-- The live allocations are the allocated blocks of `A`, one each, each
inside its block's payload. -/
structure LiveOk (A : Alloc) (L : List (Nat × Nat)) : Prop where
  nodup : (L.map Prod.fst).Nodup
  block : ∀ p n, (p, n) ∈ L → ∃ b, A.Allocated b ∧ b.addr + 8 = p ∧ n + 8 ≤ b.size
  live : ∀ b, A.Allocated b → ∃ n, (b.addr + 8, n) ∈ L

section Abstract

variable {s : State} {A : Alloc} {L : List (Nat × Nat)}

theorem Refines.allocated_pos (h : Refines s A) {b : Block} (hb : A.Allocated b) : 0 < b.addr := by
  obtain ⟨H, hA, hbH, -⟩ := hb
  exact ((h.heap_some hA).1.placed.addr_pos hbH).1

theorem Call.valid_of_validFor {c : Call} (h : Refines s A) (hL : LiveOk A L) (hc : c.validFor L) :
    c.valid s := by
  have hp : ∀ p, (p = 0 ∨ p ∈ L.map Prod.fst) → validPtr s p := by
    rintro p (rfl | hp)
    · exact .inl rfl
    obtain ⟨⟨p, n⟩, hpn, rfl⟩ := List.mem_map.mp hp
    obtain ⟨b, ⟨H, hA, hb, hba⟩, rfl, -⟩ := hL.block p n hpn
    exact (h.heap_some hA).1.validPtr_of_mem hb hba
  cases c with
  | malloc n => exact hc
  | calloc k n => exact hc
  | free p => exact hp p hc
  | realloc p n => exact ⟨hp p hc.1, hc.2⟩

theorem LiveOk.step {c : Call} {p a : Nat} {r : State × Nat} {R : Alloc × Nat} (hL : LiveOk A L)
    (hS : Steps s A p a r R) (hp : p = c.frees R.2) (ha : a = 16 * ((c.size + 23) / 16)) :
    LiveOk R.1 (c.track R.2 L) := by
  subst hp ha
  -- the returned block, when there is one
  have hnew : R.2 ≠ 0 → R.1.Allocated ⟨R.2 - 8, 16 * ((c.size + 23) / 16), true⟩ ∧ 8 < R.2 := fun hq => by
    have hN := (hS.allocated _ rfl).mpr (.inr ⟨hq, rfl⟩)
    exact ⟨hN, by have := hS.refines.allocated_pos hN; simp only at this; omega⟩
  refine ⟨?_, fun q n hq => ?_, fun b hb => ?_⟩
  · -- the new pointer is fresh, the rest a sublist
    have hsub : ((L.filter fun x => x.1 ≠ c.frees R.2).map Prod.fst).Nodup :=
      hL.nodup.sublist ((List.filter_sublist _).map _)
    unfold Call.track
    split_ifs with hq
    · simpa using hsub
    · refine List.nodup_cons.mpr ⟨fun hm => ?_, hsub⟩
      obtain ⟨⟨q, n⟩, hqn, e⟩ := List.mem_map.mp hm
      obtain ⟨b, hb, hbq, -⟩ := hL.block q n (List.mem_filter.mp hqn).1
      exact hS.fresh hq b hb (by simp only at e; omega)
  · unfold Call.track at hq
    rcases List.mem_append.mp hq with hq | hq
    · split_ifs at hq with h0
      · cases hq
      · obtain ⟨rfl, rfl⟩ := Prod.mk.inj (List.mem_singleton.mp hq)
        exact ⟨_, (hnew h0).1, by have := (hnew h0).2; simp only; omega, by simp only; omega⟩
    · obtain ⟨hqL, hqf⟩ := List.mem_filter.mp hq
      obtain ⟨b, hb, rfl, hbn⟩ := hL.block q n hqL
      exact ⟨b, (hS.allocated b hb.alloc).mpr (.inl ⟨hb, by simpa using hqf⟩), rfl, hbn⟩
  · unfold Call.track
    rcases (hS.allocated b hb.alloc).mp hb with ⟨hbA, hne⟩ | ⟨h0, rfl⟩
    · obtain ⟨n, hn⟩ := hL.live b hbA
      exact ⟨n, List.mem_append_right _ (List.mem_filter.mpr ⟨hn, by simpa using hne⟩)⟩
    · refine ⟨c.size, List.mem_append_left _ ?_⟩
      rw [if_neg h0]
      have := (hnew h0).2
      simp only [List.mem_singleton, Prod.mk.injEq, and_true]
      omega

end Abstract

theorem Repr.inPayload_of_mem {s : State} {H : Heap} {b : Block} (hR : Repr s H) (hb : b ∈ H.blocks)
    (ha : b.alloc = true) {x : Nat} (h1 : b.addr + 8 ≤ x) (h2 : x < b.last) : InPayload s x := by
  have hst := hR.shape.start
  have := (hR.shape.layout.bounds hb).1
  refine ⟨by omega, b.addr, ?_, (hR.shape.get_mem hb).2.trans ha, h1, ?_⟩
  · rw [walkBlocks, hR.shape.heapWalk_eq, Option.getD_some]; exact List.mem_map_of_mem _ hb
  · rw [(hR.shape.get_mem hb).1]; exact h2

/-- Every tracked state refines an abstract state whose allocated blocks are
the live allocations. -/
theorem Tracked.refines {s : State} {L : List (Nat × Nat)} (h : Tracked s L) :
    ∃ A, Refines s A ∧ LiveOk A L := by
  induction h with
  | init mem lo grant =>
    obtain ⟨hI, -, hnone⟩ := init_refines (initState_refines mem lo grant) rfl
    exact ⟨_, hI, ⟨List.nodup_nil, (fun _ _ h => by cases h), fun b hb => absurd hb (hnone b hb.alloc)⟩⟩
  | call c _ hc ih =>
    obtain ⟨A, hA, hL⟩ := ih
    have hS := call_steps hA (c.valid_of_validFor hA hL hc)
    refine ⟨_, hS.refines, ?_⟩
    rw [hS.ret]
    exact hL.step hS rfl rfl
  | write x v _ hx ih =>
    obtain ⟨A, hA, hL⟩ := ih
    obtain ⟨p, n, hpn, h1, h2⟩ := hx
    obtain ⟨b, ⟨H, hAH, hb, hba⟩, rfl, hbn⟩ := hL.block p n hpn
    exact ⟨A, hA.write ((hA.heap_some hAH).1.inPayload_of_mem hb hba h1
      (by simp only [Block.last]; omega)) v, hL⟩

/-! ## Read through the representation -/

/-- Where the live allocation `(p, n)` lies in the heap whose block headers
the checker's walk lists as `bs`: 16-byte aligned, inside the payload of the
allocated block whose header is at `p - 8`, inside the region, after the
prologue, and off every header, every free block and every other live
range. -/
structure LiveAt (s : State) (bs : List Nat) (L : List (Nat × Nat)) (p n : Nat) : Prop where
  aligned : p % 16 = 0
  header : p - 8 ∈ bs
  allocated : getAlloc s.mem (p - 8) = true
  in_payload : p + n ≤ p - 8 + getSize s.mem (p - 8)
  in_region : s.lo ≤ p - 8 ∧ p - 8 + getSize s.mem (p - 8) ≤ s.brk - 8
  after_prologue : s.heapStart ≤ p
  off_headers : ∀ a ∈ bs, a + 8 ≤ p ∨ p + n ≤ a
  off_free : ∀ a ∈ bs, getAlloc s.mem a = false → a + getSize s.mem a ≤ p ∨ p + n ≤ a
  off_live : ∀ q m, (q, m) ∈ L → q ≠ p → q + m ≤ p ∨ p + n ≤ q

/-- The live allocations `L` in the heap of `s`: distinct pointers, none
before `mm_init` succeeds, and after it each one `LiveAt` its place in the
heap the checker walks, every block marked allocated being the block of one
of them. -/
structure LiveLayout (s : State) (L : List (Nat × Nat)) : Prop where
  nodup : (L.map Prod.fst).Nodup
  none_before : s.heapStart = 0 → L = []
  placed : s.heapStart ≠ 0 → ∃ bs, walkBlocks s = some bs ∧
    (∀ a ∈ bs, getAlloc s.mem a = true → ∃ n, (a + 8, n) ∈ L) ∧ ∀ p n, (p, n) ∈ L → LiveAt s bs L p n

/-- The live allocations of a tracked client, on a region whose base is
16-byte aligned, lie as `LiveLayout` says. -/
theorem live_allocations {s : State} {L : List (Nat × Nat)} (h : Tracked s L) (hlo : s.lo % 16 = 0) :
    LiveLayout s L := by
  obtain ⟨A, hA, hL⟩ := h.refines
  cases hAh : A.heap with
  | none =>
    -- no heap, so no allocated block and no live allocation
    have hnil : L = [] := by
      cases L with
      | nil => rfl
      | cons x L =>
        obtain ⟨b, hb, -⟩ := hL.block x.1 x.2 (List.mem_cons_self _ _)
        exact absurd hb (Alloc.not_allocated hAh b)
    exact ⟨hL.nodup, fun _ => hnil, fun h0 => absurd (hA.heap_none hAh).1 h0⟩
  | some H =>
    obtain ⟨hR, hst⟩ := hA.heap_some hAh
    refine ⟨hL.nodup, fun h0 => absurd h0 (by have := hR.shape.start; omega), fun _ => ?_⟩
    have hl := hR.shape.layout
    have hal : ∀ b, A.Allocated b ↔ b ∈ H.blocks ∧ b.alloc = true := fun b => Alloc.allocated_of_heap hAh
    refine ⟨_, hR.shape.heapWalk_eq, fun a ha hga => ?_, fun p n hpn => ?_⟩
    · obtain ⟨b, hb, rfl⟩ := List.mem_map.mp ha
      exact hL.live b ((hal b).mpr ⟨hb, (hR.shape.get_mem hb).2 ▸ hga⟩)
    obtain ⟨b, hbA, rfl, hbn⟩ := hL.block p n hpn
    obtain ⟨hb, hba⟩ := (hal b).mp hbA
    have hg : getSize s.mem (b.addr + 8 - 8) = b.size ∧ getAlloc s.mem (b.addr + 8 - 8) = b.alloc := by
      rw [Nat.add_sub_cancel]; exact hR.shape.get_mem hb
    have hbd := hl.bounds hb
    have hmod := hl.addr_mod hb
    simp only [Block.last] at hbd
    -- another block of the heap lies on one side of `b`
    have side : ∀ c ∈ H.blocks, c ≠ b → c.addr + c.size ≤ b.addr ∨ b.addr + b.size ≤ c.addr :=
        fun c hc hne => by
      rcases hl.disjoint hc hb with e | e | e
      · exact absurd e hne
      all_goals simp only [Block.last] at e; omega
    refine ⟨by omega, by rw [Nat.add_sub_cancel]; exact List.mem_map_of_mem _ hb, hg.2.trans hba, by omega,
      ⟨by omega, by omega⟩, by omega, fun a ha => ?_, fun a ha hfa => ?_, fun q m hqm hne => ?_⟩
    · obtain ⟨c, hc, rfl⟩ := List.mem_map.mp ha
      by_cases e : c = b
      · subst e; omega
      · have := (hl.bounds hc).2.2.1; rcases side c hc e with e' | e' <;> omega
    · obtain ⟨c, hc, rfl⟩ := List.mem_map.mp ha
      have hgc := hR.shape.get_mem hc
      have hcb : c ≠ b := fun e => by rw [hgc.2, e, hba] at hfa; cases hfa
      rw [hgc.1]; rcases side c hc hcb with e' | e' <;> omega
    · obtain ⟨c, hcA, rfl, hcm⟩ := hL.block q m hqm
      have hc := ((hal c).mp hcA).1
      have hcb : c ≠ b := fun e => hne (by rw [e])
      rcases side c hc hcb with e' | e' <;> omega

/-- `malloc(8)`, `malloc(24)` and `malloc(40)` after `mm_init` on a zeroed
region at 4096 whose provider grants every request, then the `free` of the
second: live allocations at 4112 and 4160 with a free block between. -/
def liveGap : State :=
  runCalls (mmInit (initState (fun _ => 0) 4096 fun _ => true)).1 [.malloc 8, .malloc 24, .malloc 40, .free 4128]

set_option maxRecDepth 20000 in
/-- The live allocations of `liveGap`. -/
theorem live_allocations_gap :
    Tracked liveGap [(4160, 40), (4112, 8)] ∧ liveGap.lo % 16 = 0 ∧ LiveLayout liveGap [(4160, 40), (4112, 8)] := by
  have h1 := Tracked.call (.malloc 8) (.init (fun _ => 0) 4096 fun _ => true) (show 8 ≤ maxRequest by decide)
  have h2 := Tracked.call (.malloc 24) h1 (show 24 ≤ maxRequest by decide)
  have h3 := Tracked.call (.malloc 40) h2 (show 40 ≤ maxRequest by decide)
  have h4 : Tracked liveGap [(4160, 40), (4112, 8)] := Tracked.call (.free 4128) h3 (Or.inr (by decide))
  exact ⟨h4, by decide, live_allocations h4 (by decide)⟩

/-- A call from a tracked state changes no byte of a live allocation it does
not free. -/
theorem live_payloads_kept {s : State} {L : List (Nat × Nat)} {c : Call} (h : Tracked s L) (hc : c.valid s)
    {q m : Nat} (hq : (q, m) ∈ L) (hne : q ≠ c.frees (c.apply s).2) :
    ∀ x, q ≤ x → x < q + m → (c.apply s).1.mem x = s.mem x := by
  obtain ⟨A, hA, hL⟩ := h.refines
  have hS := call_steps hA hc
  obtain ⟨b, ⟨H, hAh, hb, hba⟩, rfl, hbm⟩ := hL.block q m hq
  intro x h1 h2
  exact hS.keeps H hAh b hb hba (by rw [← hS.ret]; exact hne) x h1 (by simp only [Block.last]; omega)

/-- A second request, of 16 bytes, after `malloc(8)` on the region of
`liveGap`: the bytes at 4112 stay. -/
theorem live_payloads_kept_malloc :
    Tracked ((Call.malloc 8).apply (mmInit (initState (fun _ => 0) 4096 fun _ => true)).1).1 [(4112, 8)] ∧
      (Call.malloc 16).valid ((Call.malloc 8).apply (mmInit (initState (fun _ => 0) 4096 fun _ => true)).1).1 ∧
      (4112, 8) ∈ [(4112, 8)] ∧
      4112 ≠ (Call.malloc 16).frees ((Call.malloc 16).apply
        ((Call.malloc 8).apply (mmInit (initState (fun _ => 0) 4096 fun _ => true)).1).1).2 ∧
      ∀ x, 4112 ≤ x → x < 4112 + 8 →
        ((Call.malloc 16).apply ((Call.malloc 8).apply
          (mmInit (initState (fun _ => 0) 4096 fun _ => true)).1).1).1.mem x =
          ((Call.malloc 8).apply (mmInit (initState (fun _ => 0) 4096 fun _ => true)).1).1.mem x := by
  have h := Tracked.call (.malloc 8) (.init (fun _ => 0) 4096 fun _ => true) (show 8 ≤ maxRequest by decide)
  rw [show (Call.malloc 8).track ((Call.malloc 8).apply (mmInit (initState (fun _ => 0) 4096 fun _ => true)).1).2 []
    = [(4112, 8)] by decide] at h
  exact ⟨h, show 16 ≤ maxRequest by decide, List.mem_singleton_self _, by decide,
    live_payloads_kept (c := .malloc 16) h (show 16 ≤ maxRequest by decide) (List.mem_singleton_self _) (by decide)⟩

end MallocSim
