import MallocSim.L2Machine.Calls
import MallocSim.L4Api.Grow

/-!
# `coalesce_block` and `free`

Freeing the block `b` between `pre` and `post` (`Heap.free`): `b` and the
free blocks next to it, found by `leftFree` and `rightFree`, become one free
block `mergedBlock pre b post` starting where the first of them starts, of
their total size; it goes on the front of the list of its size, and the
neighbours leave theirs.

`free(p)` writes `b`'s tags as free and calls `coalesce_block`, which takes
one of four paths on the two previous-block and next-block bits. Each path
ends in `merge_write`. On the way, the predecessor is found either 16 bytes
back (when `prev_mini` is set) or through its footer (`findPrev`), and both
give the block the forward walk visits before `b`.

Results:
- `coalesce_spec`: `coalesce_block` after `free`'s write, in all four cases.
- `free_spec`: `free(p)` for the payload `p` of an allocated block.
-/
namespace MallocSim

/-! ## The abstract operation -/

/-- The free block just before a block, as a list of zero or one block. -/
def leftFree (pre : List Block) : List Block :=
  match pre.getLast? with
  | some p => if p.alloc then [] else [p]
  | none => []

/-- The free block just after a block, as a list of zero or one block. -/
def rightFree (post : List Block) : List Block :=
  match post with
  | n :: _ => if n.alloc then [] else [n]
  | [] => []

/-- The block that freeing `b` leaves: the stretch made of `b` and its free
neighbours, as one free block. -/
def mergedBlock (pre : List Block) (b : Block) (post : List Block) : Block :=
  let run := leftFree pre ++ b :: rightFree post
  ⟨(run.headD b).addr, (run.map Block.size).sum, false⟩

theorem size_le_mergedBlock (pre : List Block) (b : Block) (post : List Block) :
    b.size ≤ (mergedBlock pre b post).size := by
  simp only [mergedBlock, List.map_append, List.map_cons, List.sum_append, List.sum_cons]
  omega

/-- Freeing `b`, the block between `pre` and `post`. -/
def Heap.free (H : Heap) (pre : List Block) (b : Block) (post : List Block) : Heap :=
  let H2 := (leftFree pre ++ rightFree post).foldl Heap.pull H
  let pre' := if leftFree pre = [] then pre else pre.dropLast
  let post' := if rightFree post = [] then post else post.tail
  ({ H2 with blocks := pre' ++ mergedBlock pre b post :: post' } : Heap).push (mergedBlock pre b post)

@[simp] theorem foldl_pull_blocks (H : Heap) (l : List Block) : (l.foldl Heap.pull H).blocks = H.blocks := by
  induction l generalizing H with
  | nil => rfl
  | cons c l ih => exact (ih _).trans (Heap.pull_blocks _ _)

theorem Heap.free_blocks (H : Heap) (pre : List Block) (b : Block) (post : List Block) :
    (H.free pre b post).blocks = (if leftFree pre = [] then pre else pre.dropLast) ++
      mergedBlock pre b post :: (if rightFree post = [] then post else post.tail) := by
  simp [Heap.free]

theorem leftFree_cases (pre : List Block) :
    (leftFree pre = [] ∧ ∀ p ∈ pre.getLast?, p.alloc = true) ∨
      ∃ pre' P, pre = pre' ++ [P] ∧ P.alloc = false ∧ leftFree pre = [P] := by
  rcases pre.eq_nil_or_concat with rfl | ⟨pre', P, rfl⟩
  · exact .inl ⟨rfl, by simp⟩
  · cases hP : P.alloc
    · exact .inr ⟨pre', P, by simp, hP, by simp [leftFree, hP]⟩
    · exact .inl ⟨by simp [leftFree, hP], by simp [hP]⟩

theorem rightFree_cases (post : List Block) :
    (rightFree post = [] ∧ ∀ n ∈ post.head?, n.alloc = true) ∨
      ∃ N post', post = N :: post' ∧ N.alloc = false ∧ rightFree post = [N] := by
  cases post with
  | nil => exact .inl ⟨rfl, by simp⟩
  | cons N post' =>
    cases hN : N.alloc
    · exact .inr ⟨N, post', rfl, hN, by simp [rightFree, hN]⟩
    · exact .inl ⟨by simp [rightFree, hN], by simp [hN]⟩

theorem Heap.mem_free_alloc {H : Heap} {pre post : List Block} {b c : Block} (hc : c.alloc = true) :
    c ∈ (H.free pre b post).blocks ↔ c ∈ pre ∨ c ∈ post := by
  have ne : ∀ d : Block, d.alloc = false → c ≠ d := fun d hd e => by rw [e, hd] at hc; cases hc
  rw [Heap.free_blocks]
  rcases leftFree_cases pre with ⟨hl, -⟩ | ⟨pre', P, rfl, hP, hl⟩ <;>
    rcases rightFree_cases post with ⟨hr, -⟩ | ⟨N, post', rfl, hN, hr⟩ <;>
    simp [*, ne _ (rfl : (mergedBlock _ b _).alloc = false)]


theorem prevBits_fst_of_alloc {pre : List Block} (hl : ∀ p ∈ pre.getLast?, p.alloc = true) :
    (prevBits true false pre).1 = true := by
  rcases pre.eq_nil_or_concat with rfl | ⟨pre', p, rfl⟩
  · rfl
  · rw [List.concat_eq_append, prevBits_concat]; exact hl p (by simp)

theorem Heap.WF.neighbours {H : Heap} (h : H.WF) {l r : List Block} {c : Block}
    (hH : H.blocks = l ++ c :: r) (hc : c.alloc = false) :
    (∀ p ∈ l.getLast?, p.alloc = true) ∧ ∀ n ∈ r.head?, n.alloc = true := by
  have h0 := h.noAdj
  rw [hH, List.chain'_append] at h0
  refine ⟨fun p hp => ?_, fun n hn => ?_⟩
  · simpa [hc] using h0.2.2 p hp c rfl
  · simpa [hc] using (List.chain'_cons'.mp h0.2.1).1 n hn

/-! ## Reads that survive the list operations -/

theorem linkByte_outside {s : State} {H : Heap} {b : Block} (hR : Repr s H) (hb : b ∈ H.blocks)
    (ha : b.alloc = true) {k : Option Nat} {c : Block} (hc : c ∈ H.lists k) {x : Nat}
    (hx : LinkByte c x) : x < b.addr ∨ b.addr + b.size + 8 ≤ x := by
  obtain ⟨hcb, hcf, -⟩ := hR.placed.mem k c hc
  have hne : c ≠ b := fun e => by rw [e, ha] at hcf; cases hcf
  exact hR.shape.layout.payload_outside hcb hb hne hx.bounds.1 hx.bounds.2

theorem Repr.unlinked {s : State} {H : Heap} {b : Block} (hR : Repr s H) (hb : b ∈ H.blocks)
    (ha : b.alloc = true) {x : Nat} (h1 : b.addr + 8 ≤ x) (h2 : x < b.last) : H.Unlinked x :=
  fun _ _ hc hx => by have := linkByte_outside hR hb ha hc hx; simp only [Block.last] at h2; omega

theorem Layout.boundary_not_linkByte {h0 y E : Nat} {pre post : List Block} (hl : Layout h0 (pre ++ post) E)
    (hpre : Layout h0 pre y) {c : Block} {x : Nat} (hc : c ∈ pre ++ post) (hx : LinkByte c x) :
    x < y ∨ y + 8 ≤ x := by
  have := hx.bounds
  rcases List.mem_append.mp hc with hc | hc
  · have := (hpre.bounds hc).2.1; omega
  · have := ((hl.right hpre).bounds hc).1; omega

theorem readWord_of_links {m m' : Mem} {bs pre post l : List Block} {h0 y E : Nat}
    (hl : Layout h0 (pre ++ post) E) (hbs : bs = pre ++ post) (hpre : Layout h0 pre y)
    (hsub : ∀ c ∈ l, c ∈ bs) (hfp : ∀ x, (∀ c ∈ l, ¬ LinkByte c x) → m' x = m x) :
    readWord m' y = readWord m y :=
  readWord_congr fun x h1 h2 => hfp x fun c hc hcx => by
    have := hl.boundary_not_linkByte hpre (hbs ▸ hsub c hc) hcx; omega

/-! ## `coalesce_block` -/

/-- The state `free` hands to `coalesce_block`: `b`'s tags rewritten as free,
with the previous-block bits its header had. -/
def freedState (s : State) (pre : List Block) (b : Block) : State :=
  { s with mem := writeBlock s.mem b.addr b.size false (prevBits true false pre).1 (prevBits true false pre).2 }

/-- What `coalesce_block` returns from the freed state: a state representing
`Heap.free`, the merged block's address, the same frame, and memory changed
only around the merged block and at link words of free blocks. -/
structure Coalesced (s : State) (H : Heap) (pre : List Block) (b : Block) (post : List Block)
    (r : State × Nat) : Prop where
  repr : Repr r.1 (H.free pre b post)
  addr : r.2 = (mergedBlock pre b post).addr
  frame : SameFrame s r.1
  mem : ∀ x, (x < (mergedBlock pre b post).addr ∨ (mergedBlock pre b post).last + 8 ≤ x) →
    H.Unlinked x → r.1.mem x = s.mem x

theorem Coalesced.of_merge {s s3 : State} {H H2 : Heap} {pre post pre2 post2 : List Block} {b : Block}
    {a S : Nat} (hM : mergedBlock pre b post = ⟨a, S, false⟩)
    (hF : H.free pre b post = ({ H2 with blocks := pre2 ++ ⟨a, S, false⟩ :: post2 } : Heap).push ⟨a, S, false⟩)
    (h : Repr (addToFreeList s3 a) (({ H2 with blocks := pre2 ++ ⟨a, S, false⟩ :: post2 } : Heap).push
        ⟨a, S, false⟩) ∧ SameFrame s (addToFreeList s3 a) ∧
      ∀ x, (x < a ∨ a + S + 8 ≤ x) → H.Unlinked x → (addToFreeList s3 a).mem x = s.mem x) :
    Coalesced s H pre b post (addToFreeList s3 a, a) :=
  ⟨hF ▸ h.1, by rw [hM], h.2.1, by rw [hM]; exact h.2.2⟩

section Coalesce

variable {s : State} {H : Heap} {pre post : List Block} {b : Block}
  (hR : Repr s H) (hH : H.blocks = pre ++ b :: post)
include hR hH

theorem freed_geom : Layout s.heapStart pre b.addr ∧ Layout (b.addr + b.size) post (s.brk - 8) ∧
    16 ≤ b.size ∧ b.size % 16 = 0 ∧ b.addr + b.size + 8 ≤ s.brk ∧ s.brk ≤ 2 ^ 64 := by
  have hl := hR.shape.layout
  rw [hH] at hl
  obtain ⟨c, h1, hc, h16, hmod, h3⟩ := layout_append.mp hl
  subst hc
  have := h3.le; have := hR.shape.start; have := h1.le
  exact ⟨h1, h3, h16, hmod, by omega, hR.shape.top⟩

theorem freed_frame {x : Nat} (hx : x < b.addr ∨ b.addr + b.size + 8 ≤ x) :
    (freedState s pre b).mem x = s.mem x := by
  obtain ⟨-, -, h16, hmod, hlast, htop⟩ := freed_geom hR hH
  exact writeBlock_frame h16 hmod (by omega) (by omega) (by omega) (fun _ => by omega)

theorem next_get : getSize s.mem (b.addr + b.size) = (post.headD ⟨b.addr + b.size, 0, true⟩).size ∧
    getAlloc s.mem (b.addr + b.size) = (post.headD ⟨b.addr + b.size, 0, true⟩).alloc := by
  obtain ⟨hpre, -, h16, hmod, -, -⟩ := freed_geom hR hH
  have hS := hR.shape
  rw [hH, ← List.singleton_append, ← List.append_assoc] at hS
  have hg := hS.get_at (layout_append.mpr ⟨b.addr, hpre, rfl, h16, hmod, rfl⟩)
  exact ⟨hg.1, hg.2.1⟩

theorem freed_get :
    getSize (freedState s pre b).mem b.addr = b.size ∧
      getPrevAlloc (freedState s pre b).mem b.addr = (prevBits true false pre).1 ∧
      getPrevMini (freedState s pre b).mem b.addr = (prevBits true false pre).2 ∧
      getSize (freedState s pre b).mem (b.addr + b.size) = (post.headD ⟨b.addr + b.size, 0, true⟩).size ∧
      getAlloc (freedState s pre b).mem (b.addr + b.size) = (post.headD ⟨b.addr + b.size, 0, true⟩).alloc := by
  obtain ⟨hpre, -, h16, hmod, hlast, htop⟩ := freed_geom hR hH
  have hg := next_get hR hH
  have hh : readWord (freedState s pre b).mem b.addr = _ := writeBlock_hdr h16 hmod (by omega)
  have hn : readWord (freedState s pre b).mem (b.addr + b.size) = _ := writeBlock_next h16 hmod (by omega)
  refine ⟨?_, ?_, ?_, ?_, ?_⟩
  · rw [getSize, hh, extractSize_pack hmod (by omega)]
  · rw [getPrevAlloc, hh, extractPrevAlloc_pack hmod (by omega)]
  · rw [getPrevMini, hh, extractPrevMini_pack hmod (by omega)]
  · rw [getSize, hn, extractSize_pack (getSize_mod _ _) (getSize_lt _ _), hg.1]
  · rw [getAlloc, hn, extractAlloc_pack (getSize_mod _ _) (getSize_lt _ _), hg.2]

theorem freed_lists (hb : b.alloc = true) : Lists (freedState s pre b) H :=
  hR.lists.congr hR.placed rfl (fun _ => rfl) fun _ _ hc _ hx =>
    freed_frame hR hH (linkByte_outside hR (by rw [hH]; simp) hb hc hx)

omit hH in
theorem lists_not_run (hb : b.alloc = true) {k : Option Nat} {c : Block} (hc : c ∈ H.lists k) : c ≠ b :=
  fun e => by have := (hR.wf.mem_lists k c).mp hc; rw [e, hb] at this; cases this.2.1

theorem coalesce_none_eq (hl : ∀ p ∈ pre.getLast?, p.alloc = true) (hr : ∀ n ∈ post.head?, n.alloc = true) :
    coalesceBlock (freedState s pre b) b.addr = (addToFreeList (freedState s pre b) b.addr, b.addr) := by
  obtain ⟨g1, g2, -, -, g5⟩ := freed_get hR hH
  have hna : (post.headD ⟨b.addr + b.size, 0, true⟩).alloc = true := by
    cases post with
    | nil => rfl
    | cons n _ => exact hr n rfl
  simp only [coalesceBlock, findNext, g1, g2, g5, prevBits_fst_of_alloc hl, hna, Bool.not_true,
    Bool.not_false, and_self, ↓reduceIte]

theorem coalesce_none (hb : b.alloc = true) (hl : ∀ p ∈ pre.getLast?, p.alloc = true)
    (hr : ∀ n ∈ post.head?, n.alloc = true) (hlf : leftFree pre = []) (hrf : rightFree post = []) :
    Coalesced s H pre b post (coalesceBlock (freedState s pre b) b.addr) := by
  obtain ⟨hpre, -, h16, hmod, -, -⟩ := freed_geom hR hH
  have hM : mergedBlock pre b post = ⟨b.addr, b.size, false⟩ := by simp [mergedBlock, hlf, hrf]
  rw [coalesce_none_eq hR hH hl hr]
  exact Coalesced.of_merge hM (by simp [Heap.free, hlf, hrf, hM])
    (merge_write [b] H hR (by rw [hH]; simp) hpre ⟨rfl, h16, hmod, rfl⟩ (List.cons_ne_nil _ _) hl hr
      (fun k c => ⟨fun h => ⟨h, by simpa using lists_not_run hR hb h⟩, fun h => h.1⟩) hR.wf.nodup
      (SameFrame.refl s) hR.lists (next_get hR hH) fun _ _ _ => rfl)

theorem coalesce_next (hb : b.alloc = true) (hl : ∀ p ∈ pre.getLast?, p.alloc = true)
    (hlf : leftFree pre = []) {N : Block} {post' : List Block} (hpost : post = N :: post')
    (hN : N.alloc = false) :
    Coalesced s H pre b post (coalesceBlock (freedState s pre b) b.addr) := by
  subst hpost
  obtain ⟨hpre, ⟨hNa, hN16, hNmod, -⟩, h16, hmod, hlast, htop⟩ := freed_geom hR hH
  obtain ⟨g1, g2, g3, g4, g5⟩ := freed_get hR hH
  simp only [List.headD_cons] at g4 g5
  rw [← hNa] at g4 g5
  have hr := (hR.wf.neighbours (l := pre ++ [b]) (c := N) (r := post') (by rw [hH]; simp) hN).2
  have hNl : N ∈ H.lists (listIndex N.size) := (hR.wf.mem_lists _ N).mpr ⟨by rw [hH]; simp, hN, rfl⟩
  have hP := hR.placed
  obtain ⟨hf2, hL2, hfp2⟩ := Lists.pull hP (freed_lists hR hH hb) hNl g4
  set s2 := removeFromFreeList (freedState s pre b) N.addr with hs2
  -- the boundary words `removeFromFreeList` leaves alone
  have hl0 := hR.shape.layout
  have hsub : ∀ c ∈ H.lists (listIndex N.size), c ∈ H.blocks := fun c hc => (hP.mem _ c hc).1
  have hl1 : Layout s.heapStart (pre ++ [b]) N.addr := layout_append.mpr ⟨_, hpre, rfl, h16, hmod, hNa.symm⟩
  have hl2 : Layout s.heapStart (pre ++ [b, N]) (N.addr + N.size) :=
    layout_append.mpr ⟨_, hpre, rfl, h16, hmod, hNa, hN16, hNmod, show _ = _ by omega⟩
  have hbs1 : H.blocks = (pre ++ [b]) ++ N :: post' := by rw [hH]; simp
  have hbs2 : H.blocks = (pre ++ [b, N]) ++ post' := by rw [hH]; simp
  have r_e : readWord s2.mem (N.addr + N.size) = readWord s.mem (N.addr + N.size) := by
    rw [readWord_of_links (hbs2 ▸ hl0) hbs2 hl2 hsub hfp2,
      readWord_congr fun x h1 h2 => freed_frame hR hH (by omega)]
  -- the code's path: `N` off its list, `b` rewritten over both
  have hco : coalesceBlock (freedState s pre b) b.addr = (addToFreeList { s2 with
      mem := writeBlock s2.mem b.addr (b.size + N.size) false (prevBits true false pre).1
        (prevBits true false pre).2 } b.addr, b.addr) := by
    have hgb : getSize s2.mem b.addr = b.size := by
      rw [getSize, readWord_of_links (hH ▸ hl0) hH hpre hsub hfp2]; exact g1
    have hgN : getSize s2.mem N.addr = N.size := by
      rw [getSize, readWord_of_links (hbs1 ▸ hl0) hbs1 hl1 hsub hfp2]; exact g4
    simp only [coalesceBlock, findNext, g1, g2, g3, ← hNa, g5, hN, prevBits_fst_of_alloc hl, hgb, hgN,
      Bool.not_true, Bool.not_false, and_self, and_true, true_and, ↓reduceIte]
    rfl
  have hg := (hbs2 ▸ hR.shape : Shape s ((pre ++ [b, N]) ++ post')).get_at hl2
  have hM : mergedBlock pre b (N :: post') = ⟨b.addr, b.size + N.size, false⟩ := by
    simp [mergedBlock, hlf, rightFree, hN]
  rw [hco]
  exact Coalesced.of_merge hM (by simp [Heap.free, hlf, rightFree, hN, hM])
    (merge_write [b, N] (S := b.size + N.size) (H.pull N) hR (by rw [hH]; simp) hpre
      ⟨rfl, h16, hmod, hNa, hN16, hNmod, show _ = _ by omega⟩ (List.cons_ne_nil _ _) hl hr
      (fun k c => by
        rw [hP.mem_pull]
        simp only [List.mem_cons, List.mem_singleton, List.not_mem_nil, or_false, not_or]
        exact ⟨fun h => ⟨h.1, lists_not_run hR hb h.1, h.2⟩, fun h => ⟨h.1, h.2.2⟩⟩)
      (hP.pull N).nodup ((⟨rfl, rfl, rfl, rfl, rfl⟩ : SameFrame s (freedState s pre b)).trans hf2) hL2
      (by
        rw [show b.addr + (b.size + N.size) = N.addr + N.size by omega, getSize, getAlloc, r_e,
          ← getSize, ← getAlloc]
        exact ⟨hg.1, hg.2.1⟩)
      fun x h1 h2 => by rw [hfp2 x fun c hc => h2 _ c hc]; exact freed_frame hR hH (by omega))

theorem freed_prev {P : Block} {pre' : List Block} (hpre0 : pre = pre' ++ [P]) (hP0 : P.alloc = false) :
    (if getPrevMini (freedState s pre b).mem b.addr = true then b.addr - minBlockSize
      else findPrev (freedState s pre b).mem b.addr) = P.addr := by
  obtain ⟨hpre, -, h16, hmod, hlast, htop⟩ := freed_geom hR hH
  subst hpre0
  obtain ⟨c, hpre', hPc, hP16, hPmod, hPend⟩ := layout_append.mp hpre
  have hPend' : P.addr + P.size = b.addr := by rw [hPc]; exact hPend
  have hS := hR.shape
  rw [hH, List.append_assoc] at hS
  have := hpre.le; have := hR.shape.start
  refine prev_found hPend' hP16 (by omega) (by rw [(freed_get hR hH).2.2.1, prevBits_concat]) fun hm => ?_
  -- the footer of `P`, untouched by `free`'s write
  rw [readWord_congr fun x h1 h2 => freed_frame hR hH (by simp only [wsize] at *; omega),
    show b.addr - wsize = P.addr + P.size - 8 by simp only [wsize]; omega, hS.marked.at.2 hP0 hm, Block.hdr,
    extractSize_pack hPmod (by omega)]

theorem coalesce_prev (hb : b.alloc = true) (hr : ∀ n ∈ post.head?, n.alloc = true)
    (hrf : rightFree post = []) {P : Block} {pre' : List Block} (hpre0 : pre = pre' ++ [P])
    (hP0 : P.alloc = false) :
    Coalesced s H pre b post (coalesceBlock (freedState s pre b) b.addr) := by
  have hprev := freed_prev hR hH hpre0 hP0
  subst hpre0
  obtain ⟨hpre, -, h16, hmod, hlast, htop⟩ := freed_geom hR hH
  obtain ⟨c, hpre', hPc, hP16, hPmod, hPend⟩ := layout_append.mp hpre
  subst hPc
  have hPend' : P.addr + P.size = b.addr := hPend
  obtain ⟨g1, g2, -, g4, g5⟩ := freed_get hR hH
  have hpa : (prevBits true false (pre' ++ [P])).1 = false := by rw [prevBits_concat]; exact hP0
  have hna : (post.headD ⟨b.addr + b.size, 0, true⟩).alloc = true := by
    cases post with
    | nil => rfl
    | cons n _ => exact hr n rfl
  have hl' := (hR.wf.neighbours (l := pre') (c := P) (r := b :: post) (by rw [hH]; simp) hP0).1
  have hPl : P ∈ H.lists (listIndex P.size) := (hR.wf.mem_lists _ P).mpr ⟨by rw [hH]; simp, hP0, rfl⟩
  have hP := hR.placed
  set s1 := freedState s (pre' ++ [P]) b with hs1
  have hl0 := hR.shape.layout
  have hbs0 : H.blocks = pre' ++ P :: b :: post := by rw [hH]; simp
  have hgP := (hbs0 ▸ hR.shape : Shape s (pre' ++ P :: b :: post)).get_at hpre'
  simp only [List.headD_cons] at hgP
  have r1P : readWord s1.mem P.addr = readWord s.mem P.addr :=
    readWord_congr fun x h1 h2 => freed_frame hR hH (by omega)
  obtain ⟨hf2, hL2, hfp2⟩ := Lists.pull hP (freed_lists hR hH hb) hPl (by rw [getSize, r1P]; exact hgP.1)
  set s2 := removeFromFreeList s1 P.addr with hs2
  have hsub : ∀ c ∈ H.lists (listIndex P.size), c ∈ H.blocks := fun c hc => (hP.mem _ c hc).1
  have hbs2 : H.blocks = (pre' ++ [P, b]) ++ post := by rw [hH]; simp
  have hl2 : Layout s.heapStart (pre' ++ [P, b]) (b.addr + b.size) :=
    layout_append.mpr ⟨_, hpre', rfl, hP16, hPmod, hPend'.symm, h16, hmod, show _ = _ by omega⟩
  have r_P : readWord s2.mem P.addr = readWord s.mem P.addr :=
    (readWord_of_links (hbs0 ▸ hl0) hbs0 hpre' hsub hfp2).trans r1P
  have hco : coalesceBlock s1 b.addr = (addToFreeList { s2 with
      mem := writeBlock s2.mem P.addr (P.size + b.size) false (prevBits true false pre').1
        (prevBits true false pre').2 } P.addr, P.addr) := by
    have hgb : getSize s2.mem b.addr = b.size := by
      rw [getSize, readWord_of_links (hH ▸ hl0) hH hpre hsub hfp2]; exact g1
    have hgP1 : getSize s2.mem P.addr = P.size := by rw [getSize, r_P]; exact hgP.1
    have hgP2 : getPrevAlloc s2.mem P.addr = (prevBits true false pre').1 := by
      rw [getPrevAlloc, r_P]; exact hgP.2.2.1
    have hgP3 : getPrevMini s2.mem P.addr = (prevBits true false pre').2 := by
      rw [getPrevMini, r_P]; exact hgP.2.2.2
    simp only [coalesceBlock, findNext, g1, g2, g5, hna, hpa, hprev, hgP1, hgP2, hgP3, hgb, Bool.not_true,
      Bool.not_false, and_self, and_true, true_and, and_false, false_and, ↓reduceIte]
    rfl
  have hM : mergedBlock (pre' ++ [P]) b post = ⟨P.addr, P.size + b.size, false⟩ := by
    simp [mergedBlock, leftFree, hP0, hrf]
  rw [hco]
  exact Coalesced.of_merge hM (by simp [Heap.free, leftFree, hP0, hrf, hM])
    (merge_write [P, b] (S := P.size + b.size) (H.pull P) hR hbs2 hpre'
      ⟨rfl, hP16, hPmod, hPend'.symm, h16, hmod, show _ = _ by omega⟩ (List.cons_ne_nil _ _) hl' hr
      (fun k c => by
        rw [hP.mem_pull]
        simp only [List.mem_cons, List.mem_singleton, List.not_mem_nil, or_false, not_or]
        exact ⟨fun h => ⟨h.1, h.2, lists_not_run hR hb h.1⟩, fun h => ⟨h.1, h.2.1⟩⟩)
      (hP.pull P).nodup ((⟨rfl, rfl, rfl, rfl, rfl⟩ : SameFrame s s1).trans hf2) hL2
      (by
        rw [show P.addr + (P.size + b.size) = b.addr + b.size by omega, getSize, getAlloc,
          readWord_of_links (hbs2 ▸ hl0) hbs2 hl2 hsub hfp2, ← getSize, ← getAlloc]
        exact ⟨g4, g5⟩)
      fun x h1 h2 => by rw [hfp2 x fun c hc => h2 _ c hc]; exact freed_frame hR hH (by omega))

theorem coalesce_both (hb : b.alloc = true) {P N : Block} {pre' post' : List Block}
    (hpre0 : pre = pre' ++ [P]) (hP0 : P.alloc = false) (hpost : post = N :: post') (hN : N.alloc = false) :
    Coalesced s H pre b post (coalesceBlock (freedState s pre b) b.addr) := by
  have hprev := freed_prev hR hH hpre0 hP0
  subst hpre0 hpost
  obtain ⟨hpre, ⟨hNa, hN16, hNmod, -⟩, h16, hmod, hlast, htop⟩ := freed_geom hR hH
  obtain ⟨c, hpre', hPc, hP16, hPmod, hPend⟩ := layout_append.mp hpre
  subst hPc
  have hPend' : P.addr + P.size = b.addr := hPend
  obtain ⟨g1, g2, -, g4, g5⟩ := freed_get hR hH
  simp only [List.headD_cons] at g4 g5
  rw [← hNa] at g4 g5
  have hpa : (prevBits true false (pre' ++ [P])).1 = false := by rw [prevBits_concat]; exact hP0
  have hl' := (hR.wf.neighbours (l := pre') (c := P) (r := b :: N :: post') (by rw [hH]; simp) hP0).1
  have hr := (hR.wf.neighbours (l := pre' ++ [P, b]) (c := N) (r := post') (by rw [hH]; simp) hN).2
  have hPl : P ∈ H.lists (listIndex P.size) := (hR.wf.mem_lists _ P).mpr ⟨by rw [hH]; simp, hP0, rfl⟩
  have hNl : N ∈ H.lists (listIndex N.size) := (hR.wf.mem_lists _ N).mpr ⟨by rw [hH]; simp, hN, rfl⟩
  have hNP : N ≠ P := fun e => by have := congrArg Block.addr e; omega
  have hP := hR.placed
  set s1 := freedState s (pre' ++ [P]) b with hs1
  have hl0 := hR.shape.layout
  have hbs0 : H.blocks = pre' ++ P :: b :: N :: post' := by rw [hH]; simp
  have hgP := (hbs0 ▸ hR.shape : Shape s (pre' ++ P :: b :: N :: post')).get_at hpre'
  simp only [List.headD_cons] at hgP
  have r1P : readWord s1.mem P.addr = readWord s.mem P.addr :=
    readWord_congr fun x h1 h2 => freed_frame hR hH (by omega)
  obtain ⟨hf2, hL2, hfp2⟩ := Lists.pull hP (freed_lists hR hH hb) hPl (by rw [getSize, r1P]; exact hgP.1)
  set s2 := removeFromFreeList s1 P.addr with hs2
  have hsub : ∀ c ∈ H.lists (listIndex P.size), c ∈ H.blocks := fun c hc => (hP.mem _ c hc).1
  have hbs1 : H.blocks = (pre' ++ [P, b]) ++ N :: post' := by rw [hH]; simp
  have hbs2 : H.blocks = (pre' ++ [P, b, N]) ++ post' := by rw [hH]; simp
  have hl1 : Layout s.heapStart (pre' ++ [P, b]) N.addr :=
    layout_append.mpr ⟨_, hpre', rfl, hP16, hPmod, hPend'.symm, h16, hmod, show _ = _ by omega⟩
  have hl2 : Layout s.heapStart (pre' ++ [P, b, N]) (N.addr + N.size) :=
    layout_append.mpr ⟨_, hpre', rfl, hP16, hPmod, hPend'.symm, h16, hmod, show _ = _ by omega, hN16, hNmod,
      show _ = _ by omega⟩
  have hszN : getSize s2.mem N.addr = N.size := by
    rw [getSize, readWord_of_links (hbs1 ▸ hl0) hbs1 hl1 hsub hfp2]; exact g4
  obtain ⟨hf3, hL3, hfp3⟩ := Lists.pull (hP.pull P) hL2 (hP.mem_pull.mpr ⟨hNl, hNP⟩) hszN
  set s3 := removeFromFreeList s2 N.addr with hs3
  have hsub' : ∀ c ∈ (H.pull P).lists (listIndex N.size), c ∈ H.blocks :=
    fun c hc => ((hP.pull P).mem _ c hc).1
  -- words at block boundaries survive both removals
  have hrd : ∀ {pre1 post1 : List Block} {y : Nat}, H.blocks = pre1 ++ post1 → Layout s.heapStart pre1 y →
      readWord s3.mem y = readWord s1.mem y := fun hbs hl =>
    (readWord_of_links (hbs ▸ hl0) hbs hl hsub' hfp3).trans (readWord_of_links (hbs ▸ hl0) hbs hl hsub hfp2)
  have r_P : readWord s3.mem P.addr = readWord s.mem P.addr := (hrd hbs0 hpre').trans r1P
  have hco : coalesceBlock s1 b.addr = (addToFreeList { s3 with
      mem := writeBlock s3.mem P.addr (P.size + b.size + N.size) false (prevBits true false pre').1
        (prevBits true false pre').2 } P.addr, P.addr) := by
    have hgb : getSize s3.mem b.addr = b.size := by rw [getSize, hrd hH hpre]; exact g1
    have hgN : getSize s3.mem N.addr = N.size := by rw [getSize, hrd hbs1 hl1]; exact g4
    have hgP1 : getSize s3.mem P.addr = P.size := by rw [getSize, r_P]; exact hgP.1
    have hgP2 : getPrevAlloc s3.mem P.addr = (prevBits true false pre').1 := by
      rw [getPrevAlloc, r_P]; exact hgP.2.2.1
    have hgP3 : getPrevMini s3.mem P.addr = (prevBits true false pre').2 := by
      rw [getPrevMini, r_P]; exact hgP.2.2.2
    simp only [coalesceBlock, findNext, g1, g2, ← hNa, g5, hN, hpa, hprev, hgP1, hgP2, hgP3, hgb, hgN,
      Bool.not_true, Bool.not_false, and_self, and_true, true_and, and_false, false_and, ↓reduceIte]
    rfl
  have hg := (hbs2 ▸ hR.shape : Shape s ((pre' ++ [P, b, N]) ++ post')).get_at hl2
  have hM : mergedBlock (pre' ++ [P]) b (N :: post') = ⟨P.addr, P.size + b.size + N.size, false⟩ := by
    simp [mergedBlock, leftFree, rightFree, hP0, hN, Nat.add_assoc]
  rw [hco]
  exact Coalesced.of_merge hM (by simp [Heap.free, leftFree, rightFree, hP0, hN, hM])
    (merge_write [P, b, N] (S := P.size + b.size + N.size) ((H.pull P).pull N) hR hbs2 hpre'
      ⟨rfl, hP16, hPmod, hPend'.symm, h16, hmod, by omega, hN16, hNmod, show _ = _ by omega⟩
      (List.cons_ne_nil _ _) hl' hr
      (fun k c => by
        rw [(hP.pull P).mem_pull, hP.mem_pull]
        simp only [List.mem_cons, List.mem_singleton, List.not_mem_nil, or_false, not_or]
        exact ⟨fun h => ⟨h.1.1, h.1.2, lists_not_run hR hb h.1.1, h.2⟩,
          fun h => ⟨⟨h.1, h.2.1⟩, h.2.2.2⟩⟩)
      ((hP.pull P).pull N).nodup ((⟨rfl, rfl, rfl, rfl, rfl⟩ : SameFrame s s1).trans (hf2.trans hf3)) hL3
      (by
        rw [show P.addr + (P.size + b.size + N.size) = N.addr + N.size by omega, getSize, getAlloc,
          (hrd hbs2 hl2).trans (readWord_congr fun x h1 h2 => freed_frame hR hH (by omega)), ← getSize,
          ← getAlloc]
        exact ⟨hg.1, hg.2.1⟩)
      fun x h1 h2 => by
        rw [hfp3 x fun c hc => h2 _ c (hP.mem_pull.mp hc).1, hfp2 x fun c hc => h2 _ c hc]
        exact freed_frame hR hH (by omega))

/-- `coalesce_block` after `free`'s write merges `b` with its free
neighbours, in each of its four cases. -/
theorem coalesce_spec (hb : b.alloc = true) :
    Coalesced s H pre b post (coalesceBlock (freedState s pre b) b.addr) := by
  rcases leftFree_cases pre with ⟨hlf, hl⟩ | ⟨pre', P, hpre0, hP0, -⟩ <;>
    rcases rightFree_cases post with ⟨hrf, hr⟩ | ⟨N, post', hpost, hN, -⟩
  · exact coalesce_none hR hH hb hl hr hlf hrf
  · exact coalesce_next hR hH hb hl hlf hpost hN
  · exact coalesce_prev hR hH hb hr hrf hpre0 hP0
  · exact coalesce_both hR hH hb hpre0 hP0 hpost hN

theorem free_eq : free s (b.addr + 8) = (coalesceBlock (freedState s pre b) b.addr).1 := by
  obtain ⟨hpre, -, -, -, -, -⟩ := freed_geom hR hH
  have hg := (hH ▸ hR.shape : Shape s (pre ++ b :: post)).get_at hpre
  simp only [List.headD_cons] at hg
  simp only [free, payloadToHeader, wsize, Nat.add_sub_cancel, hg.1, hg.2.2.1, hg.2.2.2, freedState]
  rw [if_neg (by omega)]

/-- `free(p)`, for the payload `p` of an allocated block `b`, leaves a state
representing `Heap.free`, with the same frame, and changes memory only around
the merged block and at link words of free blocks. -/
theorem free_spec (hb : b.alloc = true) :
    Repr (free s (b.addr + 8)) (H.free pre b post) ∧ SameFrame s (free s (b.addr + 8)) ∧
      ∀ x, (x < (mergedBlock pre b post).addr ∨ (mergedBlock pre b post).last + 8 ≤ x) →
        H.Unlinked x → (free s (b.addr + 8)).mem x = s.mem x := by
  rw [free_eq hR hH]
  have h := coalesce_spec hR hH hb
  exact ⟨h.repr, h.frame, h.mem⟩

end Coalesce

end MallocSim
