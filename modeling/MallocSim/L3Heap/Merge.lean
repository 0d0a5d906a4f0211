import MallocSim.L3Heap.Blocks

/-!
# Merging a stretch into one free block

The last step of `coalesce_block` in each of its four cases: the stretch
`run` of the implicit list, from `a` to `a + S` (the freed block and its
free neighbours, already taken off their lists), has been rewritten as one
free block `M = ⟨a, S, free⟩`, and `add_to_free_list(M)` pushes it.
`merge_final` says the result represents the heap with `M` in place of the
stretch and on the front of its list, given that the blocks on either side
of the stretch are allocated.

`free`, and through it `extend_heap` and `split_block`, all end here.

Results:
- `Shape.congr_links`: writes to link words keep the implicit list.
- `merge_final`: the pushed merged block, against the abstract heap.
- `merge_write`: the same from the state before `write_block` of the merged
  block, which is where each path of `coalesce_block` arrives.
-/
namespace MallocSim

/-! ## Arithmetic of a layout -/

theorem Layout.sub_mod {a e : Nat} {bs : List Block} (h : Layout a bs e) : (e - a) % 16 = 0 := by
  induction bs generalizing a with
  | nil => rw [show a = e from h, Nat.sub_self]
  | cons b bs ih =>
    have := ih h.2.2.2; have := h.2.2.1; have := h.2.2.2.le; omega

theorem Layout.add_le_of_ne_nil {a e : Nat} {bs : List Block} (h : Layout a bs e) (hne : bs ≠ []) :
    a + 16 ≤ e := by
  cases bs with
  | nil => exact absurd rfl hne
  | cons b bs => have := h.2.2.2.le; have := h.2.1; omega

/-- Where the blocks of each part of a split layout lie. -/
theorem Layout.split_bounds {h0 a e E : Nat} {pre run post : List Block}
    (hl : Layout h0 (pre ++ run ++ post) E) (hpre : Layout h0 pre a) (hrun : Layout a run e) :
    (∀ c ∈ pre, c.last ≤ a) ∧ (∀ c ∈ post, e ≤ c.addr) := by
  have hpl : Layout e post E := hl.right (layout_append.mpr ⟨a, hpre, hrun⟩)
  exact ⟨fun c hc => (hpre.bounds hc).2.1, fun c hc => (hpl.bounds hc).1⟩

/-- Blocks on either side of a stretch are not in it. -/
theorem Layout.not_mem_run {h0 a e E : Nat} {pre run post : List Block}
    (hl : Layout h0 (pre ++ run ++ post) E) (hpre : Layout h0 pre a) (hrun : Layout a run e)
    {c : Block} (hc : c ∈ pre ∨ c ∈ post) : c ∉ run := fun hcr => by
  have hb := hrun.bounds hcr
  have := hb.2.2.1
  rcases hc with hc | hc
  · have := (hl.split_bounds hpre hrun).1 c hc; simp only [Block.last] at *; omega
  · have := (hl.split_bounds hpre hrun).2 c hc; simp only [Block.last] at *; omega

/-- Link bytes of a block off a stretch lie outside the stretch and the
header after it. -/
theorem Layout.linkByte_off_run {h0 a e E : Nat} {pre run post : List Block}
    (hl : Layout h0 (pre ++ run ++ post) E) (hpre : Layout h0 pre a) (hrun : Layout a run e)
    {c : Block} (hc : c ∈ pre ++ run ++ post) (hcr : c ∉ run) {x : Nat} (hx : LinkByte c x) :
    x < a ∨ e + 8 ≤ x := by
  have := hx.bounds
  rcases List.mem_append.mp hc with hc | hc
  · rcases List.mem_append.mp hc with hc | hc
    · have := (hl.split_bounds hpre hrun).1 c hc; omega
    · exact absurd hc hcr
  · have := (hl.split_bounds hpre hrun).2 c hc; omega

/-! ## Writes to link words -/

/-- Writes to link bytes of blocks keep the sentinels and every tag. -/
theorem Shape.congr_links {s s' : State} {bs : List Block} (h : Shape s bs) (hf : SameFrame s s')
    (hm : ∀ x, (∀ c ∈ bs, ¬ LinkByte c x) → s'.mem x = s.mem x) : Shape s' bs := by
  have hl := h.layout
  have hlink : ∀ x, (x < s.heapStart ∨ s.brk - 8 ≤ x) → s'.mem x = s.mem x := fun x hx =>
    hm x fun c hc hcx => by have := hl.bounds hc; have := hcx.bounds; omega
  have := h.start; have := hl.le
  refine ⟨hf.lo ▸ hf.heapStart ▸ h.start, hf.brk ▸ h.top, ?_, hf.heapStart ▸ hf.brk ▸ hl, ?_, ?_⟩
  · rw [hf.heapStart, readWord_congr fun x h1 h2 => hlink x (by omega)]; exact h.prologue
  · exact h.marked.congr hl fun d hd x hx => hm x fun c hc hcx => hl.tag_not_linkByte hc hd hcx hx
  · rw [hf.brk, readWord_congr fun x h1 h2 => hlink x (by omega)]; exact h.epilogue

/-! ## No two free blocks in a row -/

/-- Replacing a block by a nonempty run of allocated blocks keeps the
implicit list free of two free blocks in a row. -/
theorem chain'_splice {pre post : List Block} {B : Block} (mid : List Block)
    (h : (pre ++ B :: post).Chain' fun b c => b.alloc = true ∨ c.alloc = true)
    (hne : mid ≠ []) (hmid : ∀ c ∈ mid, c.alloc = true) :
    (pre ++ mid ++ post).Chain' fun b c => b.alloc = true ∨ c.alloc = true := by
  obtain ⟨hpre, hpost, -⟩ := List.chain'_append.mp h
  rw [List.append_assoc, List.chain'_append, List.chain'_append]
  refine ⟨hpre, ⟨(List.pairwise_of_forall_mem_list fun c hc _ _ => .inl (hmid c hc)).chain', hpost.tail,
    fun c hc _ _ => .inl (hmid c (List.mem_of_mem_getLast? hc))⟩, fun _ _ c hc => .inr (hmid c ?_)⟩
  rw [List.head?_append_of_ne_nil _ hne] at hc
  exact List.mem_of_mem_head? hc

/-- Rewriting an allocated block as a nonempty run of allocated blocks keeps
the well-formedness of the abstract heap. -/
theorem Heap.WF.splice {H : Heap} {pre post : List Block} {B : Block} (hW : H.WF) (mid : List Block)
    (hH : H.blocks = pre ++ B :: post) (hB : B.alloc = true) (hne : mid ≠ [])
    (hmid : ∀ c ∈ mid, c.alloc = true) : ({ H with blocks := pre ++ mid ++ post } : Heap).WF := by
  refine ⟨chain'_splice mid (hH ▸ hW.noAdj) hne hmid, fun k c => ?_, hW.nodup⟩
  rw [hW.mem_lists, hH]
  simp only [List.mem_append, List.mem_cons]
  constructor
  · rintro ⟨h1 | rfl | h1, h2, h3⟩
    · exact ⟨.inl (.inl h1), h2, h3⟩
    · rw [hB] at h2; cases h2
    · exact ⟨.inr h1, h2, h3⟩
  · rintro ⟨(h1 | h1) | h1, h2, h3⟩
    · exact ⟨.inl h1, h2, h3⟩
    · rw [hmid c h1] at h2; cases h2
    · exact ⟨.inr (.inr h1), h2, h3⟩

/-! ## The merged block -/

/-- Pushing the merged block `M = ⟨a, S, free⟩` that replaced the stretch
`run` gives a state representing the heap with `M` in place of `run`. -/
theorem merge_final {s0 : State} {H0 : Heap} {pre post : List Block} {a S : Nat}
    (run : List Block) (H2 : Heap) (s3 : State) (hR : Repr s0 H0) (hH : H0.blocks = pre ++ run ++ post)
    (hpre : Layout s0.heapStart pre a) (hrun : Layout a run (a + S)) (hne : run ≠ [])
    (hleft : ∀ p ∈ pre.getLast?, p.alloc = true) (hright : ∀ n ∈ post.head?, n.alloc = true)
    (hmem2 : ∀ k c, c ∈ H2.lists k ↔ c ∈ H0.lists k ∧ c ∉ run) (hnd2 : ∀ k, (H2.lists k).Nodup)
    (hf : SameFrame s0 s3) (hL : Lists s3 H2)
    (hmark : Block.Marked s3.mem (prevBits true false pre).1 (prevBits true false pre).2 ⟨a, S, false⟩)
    (hnext : readWord s3.mem (a + S) = (post.headD ⟨a + S, 0, true⟩).hdr false (decide (S = 16)))
    (hfr : ∀ x, (x < a ∨ a + S + 8 ≤ x) → H0.Unlinked x → s3.mem x = s0.mem x) :
    Repr (addToFreeList s3 a) (({ H2 with blocks := pre ++ ⟨a, S, false⟩ :: post } : Heap).push
        ⟨a, S, false⟩) ∧
      SameFrame s0 (addToFreeList s3 a) ∧
      ∀ x, (x < a ∨ a + S + 8 ≤ x) → H0.Unlinked x → (addToFreeList s3 a).mem x = s0.mem x := by
  set e := a + S with he'
  set M : Block := ⟨a, S, false⟩ with hM
  have hS := hR.shape
  rw [hH] at hS
  have hle := hrun.le
  have h16 := hrun.add_le_of_ne_nil hne
  have hmid : Layout a [M] e := ⟨rfl, by simp only [hM]; omega, by have := hrun.sub_mod; simp only [hM]; omega, rfl⟩
  have hS3 : Shape s3 (pre ++ [M] ++ post) :=
    hS.splice s3 [M] hf hpre hrun hmid ⟨hmark, trivial⟩ (by rw [prevBits_concat]; exact hnext) hright
      (fun x h1 h2 => hfr x h1 fun k c hc => h2 c (hH ▸ ((hR.wf.mem_lists k c).mp hc).1))
  have hbnd := hS.layout.split_bounds hpre hrun
  have he : e ≤ s0.brk - 8 := (hS.layout.right (layout_append.mpr ⟨a, hpre, hrun⟩)).le
  -- the nodes left on the lists lie outside the stretch
  have hside : ∀ k c, c ∈ H2.lists k → (c ∈ pre ∨ c ∈ post) ∧ c.alloc = false ∧ listIndex c.size = k := by
    intro k c hc
    obtain ⟨hc0, hcr⟩ := (hmem2 k c).mp hc
    obtain ⟨hcb, hcf, hck⟩ := (hR.wf.mem_lists k c).mp hc0
    rw [hH] at hcb
    simp only [List.mem_append] at hcb
    exact ⟨by tauto, hcf, hck⟩
  have hMn : ∀ k, M ∉ H2.lists k := fun k hc => by
    have := (hside k M hc).1
    rcases this with h | h
    · have := hbnd.1 M h; simp only [hM, Block.last] at this; omega
    · have := hbnd.2 M h; simp only [hM] at this; omega
  have hP : Placed H2 (pre ++ [M] ++ post) := by
    refine ⟨⟨_, _, ?_, hS3.layout, hf.brk ▸ by have := hS.top; omega⟩, fun k c hc => ?_, hnd2⟩
    · have := hS3.start; omega
    · obtain ⟨h1, h2, h3⟩ := hside k c hc
      exact ⟨by simp only [List.mem_append, List.mem_singleton]; tauto, h2, h3⟩
  have hMb : M ∈ pre ++ [M] ++ post := by simp
  have hsz : getSize s3.mem M.addr = M.size := by
    have h1 : M.size % 16 = 0 := by have := hrun.sub_mod; simp only [hM]; omega
    rw [getSize, hmark.1, Block.hdr, extractSize_pack h1 (by have := hS.top; simp only [hM]; omega)]
  obtain ⟨hf4, hL4, hfp4⟩ := Lists.push hP hL hMb hMn hsz
  have hfr4 : ∀ x, (x < a ∨ e + 8 ≤ x) → H0.Unlinked x → (addToFreeList s3 a).mem x = s0.mem x := by
    intro x h1 h2
    rw [hfp4 x (fun hx => by simp only [LinkByte, hM] at hx; omega) fun c hc => h2 _ c ((hmem2 _ c).mp hc).1]
    exact hfr x h1 h2
  refine ⟨⟨?_, hL4.of_lists rfl, ?_⟩, hf.trans hf4, hfr4⟩
  · have := hS3.congr_links hf4 fun x hx => hfp4 x (hx M hMb) fun c hc => hx c (hP.mem _ c hc).1
    simpa using this
  · have hP4 := hP.push hMb rfl hMn
    have hc0 := hR.wf.noAdj
    rw [hH] at hc0
    refine ⟨?_, fun k c => ⟨fun hc => ?_, fun ⟨hc, hcf, hck⟩ => ?_⟩, hP4.nodup⟩
    all_goals simp only [Heap.push_blocks] at *
    · -- the merged block sits between allocated blocks
      refine List.Chain'.append hc0.left_of_append.left_of_append
        (List.chain'_cons'.mpr ⟨fun n hn => .inr (hright n hn), hc0.right_of_append⟩) ?_
      intro p hp y hy
      simp only [List.head?_cons, Option.mem_def, Option.some.injEq] at hy
      exact .inl (hleft p hp)
    · obtain ⟨h1, h2, h3⟩ := hP4.mem k c hc
      exact ⟨by simpa using h1, h2, h3⟩
    · rw [Heap.mem_push]
      simp only [List.mem_append, List.mem_cons] at hc
      -- a free block beside the stretch is still on its list
      have hold : c ∈ pre ∨ c ∈ post → c ∈ H2.lists k := fun h => (hmem2 _ c).mpr
        ⟨(hR.wf.mem_lists _ c).mpr ⟨by rw [hH]; simp only [List.mem_append]; tauto, hcf, hck⟩,
          hS.layout.not_mem_run hpre hrun h⟩
      rcases hc with hc | rfl | hc
      · exact .inr (hold (.inl hc))
      · exact .inl ⟨rfl, hck⟩
      · exact .inr (hold (.inr hc))

/-- `write_block` of the merged block `⟨a, S, free⟩` over the stretch, with
the previous-block bits of the block before it, then `add_to_free_list`: the
last two steps of `coalesce_block`, from the state `s2` in which the free
neighbours are off their lists and the header after the stretch is intact. -/
theorem merge_write {s0 s2 : State} {H0 : Heap} {pre post : List Block} {a S : Nat}
    (run : List Block) (H2 : Heap) (hR : Repr s0 H0) (hH : H0.blocks = pre ++ run ++ post)
    (hpre : Layout s0.heapStart pre a) (hrun : Layout a run (a + S)) (hne : run ≠ [])
    (hleft : ∀ p ∈ pre.getLast?, p.alloc = true) (hright : ∀ n ∈ post.head?, n.alloc = true)
    (hmem2 : ∀ k c, c ∈ H2.lists k ↔ c ∈ H0.lists k ∧ c ∉ run) (hnd2 : ∀ k, (H2.lists k).Nodup)
    (hf : SameFrame s0 s2) (hL : Lists s2 H2)
    (hnext : getSize s2.mem (a + S) = (post.headD ⟨a + S, 0, true⟩).size ∧
      getAlloc s2.mem (a + S) = (post.headD ⟨a + S, 0, true⟩).alloc)
    (hfr : ∀ x, (x < a ∨ a + S + 8 ≤ x) → H0.Unlinked x → s2.mem x = s0.mem x) :
    let s3 : State :=
      { s2 with mem := writeBlock s2.mem a S false (prevBits true false pre).1 (prevBits true false pre).2 }
    Repr (addToFreeList s3 a) (({ H2 with blocks := pre ++ ⟨a, S, false⟩ :: post } : Heap).push
        ⟨a, S, false⟩) ∧
      SameFrame s0 (addToFreeList s3 a) ∧
      ∀ x, (x < a ∨ a + S + 8 ≤ x) → H0.Unlinked x → (addToFreeList s3 a).mem x = s0.mem x := by
  have hl := hR.shape.layout
  rw [hH] at hl
  have hS := hrun.add_le_of_ne_nil hne
  have hmod : S % 16 = 0 := by have := hrun.sub_mod; omega
  have hlt : S < 2 ^ 64 := by
    have := (hl.right (layout_append.mpr ⟨a, hpre, hrun⟩)).le; have := hR.shape.top; omega
  -- `write_block` touches the stretch and the header after it only
  have hw : ∀ x, (x < a ∨ a + S + 8 ≤ x) →
      writeBlock s2.mem a S false (prevBits true false pre).1 (prevBits true false pre).2 x = s2.mem x :=
    fun x hx => writeBlock_frame (by omega) hmod hlt (by omega) (by omega) (fun _ => by omega)
  have hP2 : Placed H2 H0.blocks :=
    ⟨hR.placed.layout, fun k c hc => hR.placed.mem k c ((hmem2 k c).mp hc).1, hnd2⟩
  refine merge_final run H2 _ hR hH hpre hrun hne hleft hright hmem2 hnd2 (hf.trans ⟨rfl, rfl, rfl, rfl, rfl⟩)
    (hL.congr hP2 rfl (fun _ => rfl) fun k c hc x hx => hw x ?_)
    ⟨writeBlock_hdr (by omega) hmod hlt, fun _ hs => writeBlock_ftr (by omega) hmod hlt rfl hs⟩
    (by simp only; rw [writeBlock_next (by omega) hmod hlt, hnext.1, hnext.2]; rfl)
    (fun x hx hu => (hw x hx).trans (hfr x hx hu))
  obtain ⟨hc0, hcr⟩ := (hmem2 k c).mp hc
  exact hl.linkByte_off_run hpre hrun (hH ▸ (hR.placed.mem k c hc0).1) hcr hx

end MallocSim
