import MallocSim.L4Api.Extend
import MallocSim.L4Api.FindFit
import MallocSim.L2Machine.Calls

/-!
# `split_block` and `malloc`

`malloc(n)` sizes the request as `a = round_up(n + 8, 16)`, asks `find_fit`
for a free block, extends the heap when there is none, and places the
request in the block (`mallocPlace`): the block is marked allocated and
taken off its list, and `split_block` cuts off what is left when that is at
least 16 bytes. Abstractly (`Heap.place`) the free block `F` becomes an
allocated block of exactly `a` bytes followed, when `F` was larger, by a
free block of the rest at the front of the list of its size.

`split_block` is read as `free` of an allocated remainder: the block is
first carved into two allocated blocks (`carvedState`, which represents the
heap with both), and `split_block`'s writes are then `free`'s on the second
one, whose neighbours are both allocated (`splitBlock_eq`).

Results:
- `mallocPlace_spec`: placing a request in a free block.
- `malloc_spec`: `malloc(n)` for every `n` up to `maxRequest`.
-/
namespace MallocSim

/-! ## The abstract operation -/

/-- Allocating `a` bytes from the free block `F` between `pre` and `post`:
`F` leaves its list and becomes an allocated block of `a` bytes; when `F` is
larger, the rest becomes a free block at the front of the list of its size. -/
def Heap.place (H : Heap) (pre : List Block) (F : Block) (post : List Block) (a : Nat) : Heap :=
  if a < F.size then
    ({ H.pull F with blocks := pre ++ ⟨F.addr, a, true⟩ :: ⟨F.addr + a, F.size - a, false⟩ :: post } : Heap).push
      ⟨F.addr + a, F.size - a, false⟩
  else { H.pull F with blocks := pre ++ ⟨F.addr, a, true⟩ :: post }

theorem Heap.place_blocks (H : Heap) (pre : List Block) (F : Block) (post : List Block) (a : Nat) :
    (H.place pre F post a).blocks = pre ++ ⟨F.addr, a, true⟩ ::
      ((if a < F.size then [⟨F.addr + a, F.size - a, false⟩] else []) ++ post) := by
  unfold Heap.place
  split_ifs <;> simp

theorem Heap.place_lists_head {H : Heap} {pre post : List Block} {F : Block} {a : Nat} (h : a < F.size) :
    ((H.place pre F post a).lists (listIndex (F.size - a))).head? = some ⟨F.addr + a, F.size - a, false⟩ := by
  simp [Heap.place, h, Heap.push]

theorem Heap.mem_place_alloc {H : Heap} {pre post : List Block} {F c : Block} {a : Nat}
    (hc : c.alloc = true) :
    c ∈ (H.place pre F post a).blocks ↔ c ∈ pre ∨ c = ⟨F.addr, a, true⟩ ∨ c ∈ post := by
  have hr : c ≠ ⟨F.addr + a, F.size - a, false⟩ := fun e => by rw [e] at hc; cases hc
  rw [Heap.place_blocks]
  split_ifs <;> simp [hr]

/-- The tail of `malloc` once a free block is chosen (mm.c:1424-1437): mark
it allocated, take it off its list, split off the rest. -/
def mallocPlace (s : State) (block asize : Nat) : State :=
  let blockSize := getSize s.mem block
  let m := writeBlock s.mem block blockSize true (getPrevAlloc s.mem block) (getPrevMini s.mem block)
  splitBlock (removeFromFreeList { s with mem := m } block) block asize

theorem malloc_eq {s : State} {size : Nat} (h0 : s.heapStart ≠ 0) (hn : size ≠ 0) :
    malloc s size =
      if findFit s (roundUp ((size + wsize) % 2 ^ 64) dsize) = 0 then
        if (extendHeap s (max (roundUp ((size + wsize) % 2 ^ 64) dsize) chunksize)).2 = 0 then
          ((extendHeap s (max (roundUp ((size + wsize) % 2 ^ 64) dsize) chunksize)).1, 0)
        else
          (mallocPlace (extendHeap s (max (roundUp ((size + wsize) % 2 ^ 64) dsize) chunksize)).1
            (extendHeap s (max (roundUp ((size + wsize) % 2 ^ 64) dsize) chunksize)).2
            (roundUp ((size + wsize) % 2 ^ 64) dsize),
          headerToPayload (extendHeap s (max (roundUp ((size + wsize) % 2 ^ 64) dsize) chunksize)).2)
      else
        (mallocPlace s (findFit s (roundUp ((size + wsize) % 2 ^ 64) dsize)) (roundUp ((size + wsize) % 2 ^ 64) dsize),
          headerToPayload (findFit s (roundUp ((size + wsize) % 2 ^ 64) dsize))) := by
  simp only [malloc, h0, hn, ↓reduceIte, Bool.not_true, Bool.false_eq_true, mallocPlace]
  split_ifs <;> rfl

/-! ## Taking a free block -/

/-- The state after `malloc` has marked the free block `F` allocated. -/
def markedState (s : State) (pre : List Block) (F : Block) : State :=
  { s with mem := writeBlock s.mem F.addr F.size true (prevBits true false pre).1 (prevBits true false pre).2 }

section Mark

variable {s : State} {H : Heap} {pre post : List Block} {F : Block}
  (hR : Repr s H) (hH : H.blocks = pre ++ F :: post)
include hR hH

theorem marked_frame {x : Nat} (h1 : x < F.addr ∨ F.addr + 8 ≤ x)
    (h2 : x < F.addr + F.size ∨ F.addr + F.size + 8 ≤ x) : (markedState s pre F).mem x = s.mem x := by
  obtain ⟨-, -, h16, hmod, hlast, htop⟩ := freed_geom hR hH
  exact writeBlock_frame h16 hmod (by omega) h1 h2 (fun h => by cases h.1)

theorem marked_lists : Lists (markedState s pre F) H := by
  obtain ⟨hpre, -, h16, hmod, -, -⟩ := freed_geom hR hH
  have hl := hH ▸ hR.shape.layout
  have hl' : Layout s.heapStart ((pre ++ [F]) ++ post) (s.brk - 8) := by simpa using hl
  refine hR.lists.congr hR.placed rfl (fun _ => rfl) fun k c hc x hx => ?_
  have hcb := hH ▸ (hR.placed.mem k c hc).1
  exact marked_frame hR hH (hl.boundary_not_linkByte hpre hcb hx)
    (hl'.boundary_not_linkByte (layout_append.mpr ⟨_, hpre, rfl, h16, hmod, rfl⟩) (by simpa using hcb) hx)

variable (hF : F.alloc = false)
include hF

theorem marked_shape : Shape (markedState s pre F) (pre ++ ⟨F.addr, F.size, true⟩ :: post) := by
  obtain ⟨hpre, -, h16, hmod, hlast, htop⟩ := freed_geom hR hH
  have hS : Shape s (pre ++ [F] ++ post) := by simpa using hH ▸ hR.shape
  have hn := next_get hR hH
  have := hS.splice (markedState s pre F) [⟨F.addr, F.size, true⟩] ⟨rfl, rfl, rfl, rfl, rfl⟩ hpre
    ⟨rfl, h16, hmod, rfl⟩ ⟨rfl, h16, hmod, rfl⟩
    ⟨⟨writeBlock_hdr h16 hmod (by omega), fun h => by cases h⟩, trivial⟩
    (by rw [prevBits_concat]; simp only [markedState]; rw [writeBlock_next h16 hmod (by omega), hn.1, hn.2]; rfl)
    (hR.wf.neighbours hH hF).2 (fun x hx _ => marked_frame hR hH (by omega) (by omega))
  simpa using this

theorem taken_spec :
    Repr (removeFromFreeList (markedState s pre F) F.addr)
        ({ H.pull F with blocks := pre ++ ⟨F.addr, F.size, true⟩ :: post } : Heap) ∧
      SameFrame s (removeFromFreeList (markedState s pre F) F.addr) ∧
      ∀ x, (x < F.addr ∨ F.addr + F.size + 8 ≤ x) → H.Unlinked x →
        (removeFromFreeList (markedState s pre F) F.addr).mem x = s.mem x := by
  obtain ⟨hpre, -, h16, hmod, hlast, htop⟩ := freed_geom hR hH
  have hFb : F ∈ H.blocks := by rw [hH]; simp
  have hFl : F ∈ H.lists (listIndex F.size) := (hR.wf.mem_lists _ F).mpr ⟨hFb, hF, rfl⟩
  have hsz : getSize (markedState s pre F).mem F.addr = F.size := by
    rw [getSize, markedState, writeBlock_hdr h16 hmod (by omega), extractSize_pack hmod (by omega)]
  obtain ⟨hf2, hL2, hfp2⟩ := Lists.pull hR.placed (marked_lists hR hH) hFl hsz
  have hl := hH ▸ hR.shape.layout
  have hl3 : Layout s.heapStart (pre ++ [F] ++ post) (s.brk - 8) := by simpa using hl
  refine ⟨⟨(marked_shape hR hH hF).congr_links hf2 fun x hx => hfp2 x fun c hc hcx => ?_, hL2.of_lists rfl,
    ?_⟩, (⟨rfl, rfl, rfl, rfl, rfl⟩ : SameFrame s (markedState s pre F)).trans hf2, fun x hx hu => ?_⟩
  · have hcb := hH ▸ (hR.placed.mem _ c hc).1
    simp only [List.mem_append, List.mem_cons] at hcb
    rcases hcb with h | rfl | h
    · exact hx c (by simp [h]) hcx
    · exact hx ⟨c.addr, c.size, true⟩ (by simp) hcx
    · exact hx c (by simp [h]) hcx
  · refine ⟨by simpa using chain'_splice [⟨F.addr, F.size, true⟩] (hH ▸ hR.wf.noAdj) (by simp) (by simp),
      fun k c => ?_, (hR.placed.pull F).nodup⟩
    simp only
    rw [hR.placed.mem_pull, hR.wf.mem_lists, hH]
    simp only [List.mem_append, List.mem_cons]
    constructor
    · rintro ⟨⟨h1 | rfl | h1, h2, h3⟩, hne⟩
      · exact ⟨.inl h1, h2, h3⟩
      · exact absurd rfl hne
      · exact ⟨.inr (.inr h1), h2, h3⟩
    · rintro ⟨h1 | rfl | h1, h2, h3⟩
      · exact ⟨⟨.inl h1, h2, h3⟩, fun e => hl3.not_mem_run hpre ⟨rfl, h16, hmod, rfl⟩ (.inl h1) (by simp [e])⟩
      · cases h2
      · exact ⟨⟨.inr (.inr h1), h2, h3⟩, fun e => hl3.not_mem_run hpre ⟨rfl, h16, hmod, rfl⟩ (.inr h1) (by simp [e])⟩
  · rw [hfp2 x fun c hc => hu _ c hc]
    exact marked_frame hR hH (by omega) (by omega)

end Mark

/-! ## Carving an allocated block -/

/-- `B` rewritten as two allocated blocks of `a` and `B.size - a` bytes, as
`split_block` writes them but with the second still allocated. -/
def carvedState (s : State) (pre : List Block) (B : Block) (a : Nat) : State :=
  let m := writeBlock s.mem B.addr a true (prevBits true false pre).1 (prevBits true false pre).2
  { s with mem := writeBlock m (B.addr + a) (B.size - a) true true (decide (a = 16)) }

section Carve

variable {s : State} {H : Heap} {pre post : List Block} {B : Block} {a : Nat}
  (hR : Repr s H) (hH : H.blocks = pre ++ B :: post) (ha : a % 16 = 0) (ha16 : 16 ≤ a) (hle : a + 16 ≤ B.size)
include hR hH ha ha16 hle

theorem carved_frame {x : Nat} (hx : x < B.addr ∨ B.addr + B.size + 8 ≤ x) :
    (carvedState s pre B a).mem x = s.mem x := by
  obtain ⟨-, -, h16, hmod, hlast, htop⟩ := freed_geom hR hH
  simp only [carvedState]
  rw [writeBlock_frame (by omega) (by omega) (by omega) (by omega) (by omega) (fun h => by cases h.1),
    writeBlock_frame ha16 ha (by omega) (by omega) (by omega) (fun h => by cases h.1)]

theorem carve_repr (hB : B.alloc = true) (hpost : ∀ c ∈ post.head?, c.alloc = true) :
    Repr (carvedState s pre B a)
      { H with blocks := pre ++ ⟨B.addr, a, true⟩ :: ⟨B.addr + a, B.size - a, true⟩ :: post } := by
  obtain ⟨hpre, -, h16, hmod, hlast, htop⟩ := freed_geom hR hH
  have hS : Shape s (pre ++ [B] ++ post) := by simpa using hH ▸ hR.shape
  set m1 := writeBlock s.mem B.addr a true (prevBits true false pre).1 (prevBits true false pre).2 with hm1
  have hA : readWord (carvedState s pre B a).mem B.addr = pack a true (prevBits true false pre).1
      (prevBits true false pre).2 := by
    rw [← writeBlock_hdr ha16 ha (by omega) (m := s.mem)]
    exact readWord_congr fun x _ _ =>
      writeBlock_frame (by omega) (by omega) (by omega) (by omega) (by omega) (fun h => by cases h.1)
  have hRh : readWord (carvedState s pre B a).mem (B.addr + a) = pack (B.size - a) true true (decide (a = 16)) :=
    writeBlock_hdr (by omega) (by omega) (by omega)
  have hn := next_get hR hH
  have hN : readWord (carvedState s pre B a).mem (B.addr + B.size) =
      (post.headD ⟨B.addr + B.size, 0, true⟩).hdr true (decide (B.size - a = 16)) := by
    simp only [carvedState]
    rw [show B.addr + B.size = B.addr + a + (B.size - a) by omega, writeBlock_next (by omega) (by omega) (by omega),
      show B.addr + a + (B.size - a) = B.addr + B.size by omega, getSize, getAlloc,
      readWord_congr (m := s.mem) fun x _ _ => writeBlock_frame ha16 ha (by omega) (by omega) (by omega)
        (fun h => by cases h.1), ← getSize, ← getAlloc, hn.1, hn.2]
    rfl
  have hsp := hS.splice (carvedState s pre B a) [⟨B.addr, a, true⟩, ⟨B.addr + a, B.size - a, true⟩]
    ⟨rfl, rfl, rfl, rfl, rfl⟩ hpre ⟨rfl, h16, hmod, rfl⟩
    ⟨rfl, ha16, ha, rfl, show 16 ≤ B.size - a by omega, show (B.size - a) % 16 = 0 by omega,
      show B.addr + a + (B.size - a) = B.addr + B.size by omega⟩
    ⟨⟨hA, fun h => by cases h⟩, ⟨hRh, fun h => by cases h⟩, trivial⟩
    (by rw [prevBits_append]; exact hN) hpost (fun x hx _ => carved_frame hR hH ha ha16 hle hx)
  refine ⟨by simpa using hsp, (hR.lists.congr (t := carvedState s pre B a) hR.placed rfl (fun _ => rfl)
    fun _ _ hc _ hx => carved_frame hR hH ha ha16 hle (linkByte_outside hR (by rw [hH]; simp) hB hc hx)).of_lists rfl, ?_⟩
  have := hR.wf.splice [⟨B.addr, a, true⟩, ⟨B.addr + a, B.size - a, true⟩] hH hB (by simp) (by simp)
  simpa using this

theorem splitBlock_eq :
    splitBlock s B.addr a = addToFreeList (freedState (carvedState s pre B a) (pre ++ [⟨B.addr, a, true⟩])
      ⟨B.addr + a, B.size - a, true⟩) (B.addr + a) := by
  obtain ⟨hpre, -, h16, hmod, hlast, htop⟩ := freed_geom hR hH
  have hg := (hH ▸ hR.shape : Shape s (pre ++ B :: post)).get_at hpre
  simp only [List.headD_cons] at hg
  have hm1 : getSize (writeBlock s.mem B.addr a true (prevBits true false pre).1 (prevBits true false pre).2)
      B.addr = a := by
    rw [getSize, writeBlock_hdr ha16 ha (by omega), extractSize_pack ha (by omega)]
  simp only [splitBlock, hg.1, hg.2.2.1, hg.2.2.2, findNext, hm1, minBlockSize]
  rw [if_pos (by omega)]
  simp only [freedState, carvedState, prevBits_concat, writeBlock_writeBlock (show 16 ≤ B.size - a by omega)
    (show (B.size - a) % 16 = 0 by omega) (show B.size - a < 2 ^ 64 by omega)]

end Carve

/-! ## Placing a request -/

/-- Placing `a` bytes, a multiple of 16 and at least 16, in the free block
`F`: the state represents `Heap.place`, with the same frame, and memory
changes only within `F` and the header after it and at link words of
listed blocks. -/
theorem mallocPlace_spec {s : State} {H : Heap} {pre post : List Block} {F : Block} {a : Nat}
    (hR : Repr s H) (hH : H.blocks = pre ++ F :: post) (hF : F.alloc = false)
    (ha : a % 16 = 0) (ha16 : 16 ≤ a) (hle : a ≤ F.size) :
    Repr (mallocPlace s F.addr a) (H.place pre F post a) ∧ SameFrame s (mallocPlace s F.addr a) ∧
      ∀ x, (x < F.addr ∨ F.addr + F.size + 8 ≤ x) → H.Unlinked x → (mallocPlace s F.addr a).mem x = s.mem x := by
  obtain ⟨hpre, -, h16, hmod, hlast, htop⟩ := freed_geom hR hH
  have hg := (hH ▸ hR.shape : Shape s (pre ++ F :: post)).get_at hpre
  simp only [List.headD_cons] at hg
  have hpl : mallocPlace s F.addr a = splitBlock (removeFromFreeList (markedState s pre F) F.addr) F.addr a := by
    simp only [mallocPlace, hg.1, hg.2.2.1, hg.2.2.2, markedState]
  have hr := (hR.wf.neighbours hH hF).2
  obtain ⟨hR2, hf2, hm2⟩ := taken_spec hR hH hF
  rw [hpl]
  by_cases hlt : a < F.size
  · -- the rest is carved off and freed: `coalesce_block`'s first case
    have hle' : a + 16 ≤ F.size := by omega
    have hRV := carve_repr hR2 rfl ha ha16 hle' rfl hr
    have hl : ∀ p ∈ (pre ++ [(⟨F.addr, a, true⟩ : Block)]).getLast?, p.alloc = true := by simp
    have hrf : rightFree post = [] := by
      cases post with
      | nil => rfl
      | cons n _ => simp [rightFree, hr n rfl]
    have hHV : ({ ({ H.pull F with blocks := pre ++ ⟨F.addr, F.size, true⟩ :: post } : Heap) with
        blocks := pre ++ ⟨F.addr, a, true⟩ :: ⟨F.addr + a, F.size - a, true⟩ :: post } : Heap).blocks =
        (pre ++ [⟨F.addr, a, true⟩]) ++ ⟨F.addr + a, F.size - a, true⟩ :: post := by simp
    have hC := coalesce_none hRV hHV rfl hl hr (by simp [leftFree]) hrf
    rw [coalesce_none_eq hRV hHV hl hr] at hC
    rw [splitBlock_eq hR2 rfl ha ha16 hle']
    have hfV : SameFrame (removeFromFreeList (markedState s pre F) F.addr)
        (carvedState (removeFromFreeList (markedState s pre F) F.addr) pre ⟨F.addr, F.size, true⟩ a) :=
      ⟨rfl, rfl, rfl, rfl, rfl⟩
    refine ⟨?_, hf2.trans (hfV.trans hC.frame), fun x hx hu => ?_⟩
    · convert hC.repr using 1
      simp [Heap.free, Heap.place, hlt, leftFree, hrf, mergedBlock]
    · have hM : mergedBlock (pre ++ [⟨F.addr, a, true⟩]) ⟨F.addr + a, F.size - a, true⟩ post =
          ⟨F.addr + a, F.size - a, false⟩ := by simp [mergedBlock, leftFree, hrf]
      rw [hC.mem x (by rw [hM]; simp only [Block.last]; omega) fun k c hc => hu k c (hR.placed.mem_pull.mp hc).1,
        carved_frame hR2 rfl ha ha16 hle' hx, hm2 x hx hu]
  · -- nothing to split: `F` is allocated whole
    have hs : splitBlock (removeFromFreeList (markedState s pre F) F.addr) F.addr a =
        removeFromFreeList (markedState s pre F) F.addr := by
      have := (hR2.shape.get_at (hf2.heapStart ▸ hpre)).1
      simp only [List.headD_cons] at this
      simp only [splitBlock, this, minBlockSize]
      rw [if_neg (by omega)]
    rw [hs]
    refine ⟨?_, hf2, hm2⟩
    rw [Heap.place, if_neg hlt, show a = F.size by omega]
    exact hR2

/-! ## `malloc` -/

/-- What `malloc` does with a request of `a` bytes (after rounding) on a
heap represented by `H`: take the block the abstract search finds, with no
provider request; when it finds none, ask for `max(a, chunksize)` bytes, and
return NULL with nothing changed but the provider's count when refused, or
take the merged block at the new end of the heap when granted. -/
structure Malloced (s : State) (H : Heap) (a : Nat) (r : State × Nat) : Prop where
  found : ∀ F, H.findFit a = some F → ∃ pre post, H.blocks = pre ++ F :: post ∧
    r = (mallocPlace s F.addr a, F.addr + 8) ∧ Repr r.1 (H.place pre F post a) ∧ SameFrame s r.1 ∧
      H.Keeps 0 s r.1
  refused : H.findFit a = none → ¬ Grants s (max a chunksize) → r = ({ s with calls := s.calls + 1 }, 0)
  granted : H.findFit a = none → Grants s (max a chunksize) →
    ∃ pre, (H.extend (s.brk - 8) (max a chunksize)).blocks =
        pre ++ [mergedBlock H.blocks ⟨s.brk - 8, max a chunksize, true⟩ []] ∧
      r.2 = (mergedBlock H.blocks ⟨s.brk - 8, max a chunksize, true⟩ []).addr + 8 ∧
      Repr r.1 ((H.extend (s.brk - 8) (max a chunksize)).place pre
        (mergedBlock H.blocks ⟨s.brk - 8, max a chunksize, true⟩ []) [] a) ∧
      SameFrame (grownState s H.blocks (max a chunksize)) r.1 ∧ H.Keeps 0 s r.1

/-- `malloc(n)` for `1 ≤ n ≤ maxRequest` on a represented heap: the rounded
size is `round_up(n + 8, 16)` without wrapping, and the call is `Malloced`. -/
theorem malloc_spec {s : State} {H : Heap} {n : Nat} (hR : Repr s H) (hn1 : 1 ≤ n) (hn : n ≤ maxRequest) :
    roundUp ((n + wsize) % 2 ^ 64) dsize = 16 * ((n + 23) / 16) ∧
      Malloced s H (16 * ((n + 23) / 16)) (malloc s n) := by
  have ha : roundUp ((n + wsize) % 2 ^ 64) dsize = 16 * ((n + 23) / 16) := by
    simp only [maxRequest] at hn
    rw [Nat.mod_eq_of_lt (by simp only [wsize]; omega), roundUp_of_lt (by simp only [wsize, dsize]; omega)]
    simp only [wsize, dsize]
  refine ⟨ha, ?_⟩
  have h0 : s.heapStart ≠ 0 := by have := hR.shape.start; omega
  have hff := findFit_eq hR (16 * ((n + 23) / 16))
  rw [malloc_eq h0 (by omega), ha, hff]
  simp only [maxRequest] at hn
  have ha16 : 16 * ((n + 23) / 16) % 16 = 0 := by omega
  have ha1 : 16 ≤ 16 * ((n + 23) / 16) := by omega
  have hS16 : max (16 * ((n + 23) / 16)) chunksize % 16 = 0 := by simp only [chunksize]; omega
  have hSlt : max (16 * ((n + 23) / 16)) chunksize + 15 < 2 ^ 64 := by simp only [chunksize]; omega
  refine ⟨fun F hF => ?_, fun hF hg => ?_, fun hF hg => ?_⟩
  · obtain ⟨-, hFb, hFf, hFa⟩ := Heap.findFit_mem hR.wf hF
    obtain ⟨pre, post, hH, -⟩ := hR.shape.split_mem hFb
    have hne : F.addr ≠ 0 := (hR.placed.addr_pos hFb).1.ne'
    obtain ⟨h1, h2, h3⟩ := mallocPlace_spec hR hH hFf ha16 ha1 hFa
    rw [hF, Option.map_some', Option.getD_some, if_neg hne]
    refine ⟨pre, post, hH, rfl, h1, h2, fun c hc hca _ x hx1 hx2 => h3 x ?_ (hR.unlinked hc hca hx1 hx2)⟩
    exact hR.shape.layout.payload_outside hc hFb (fun e => by rw [e, hFf] at hca; cases hca) hx1 hx2
  · simp only [hF, Option.map_none', Option.getD_none, if_true, extendHeap_fail hS16 hSlt hg]
  · have hE := extendHeap_spec hR hS16 (by simp only [chunksize]; omega) hg
    have hblk : (H.extend (s.brk - 8) (max (16 * ((n + 23) / 16)) chunksize)).blocks =
        (if leftFree H.blocks = [] then H.blocks else H.blocks.dropLast) ++
          [mergedBlock H.blocks ⟨s.brk - 8, max (16 * ((n + 23) / 16)) chunksize, true⟩ []] := by
      simp [Heap.extend, Heap.free_blocks, rightFree]
    have hne := (hE.repr.placed.addr_pos
      (b := mergedBlock H.blocks ⟨s.brk - 8, max (16 * ((n + 23) / 16)) chunksize, true⟩ []) (by rw [hblk]; simp)).1.ne'
    have hMa : 16 * ((n + 23) / 16) ≤
        (mergedBlock H.blocks ⟨s.brk - 8, max (16 * ((n + 23) / 16)) chunksize, true⟩ []).size :=
      (le_max_left _ _).trans (size_le_mergedBlock H.blocks ⟨s.brk - 8, max (16 * ((n + 23) / 16)) chunksize, true⟩ [])
    obtain ⟨h1, h2, h3⟩ := mallocPlace_spec hE.repr hblk rfl ha16 ha1 hMa
    rw [hF, Option.map_none', Option.getD_none, if_pos rfl, hE.addr, if_neg hne]
    refine ⟨_, hblk, rfl, h1, hE.frame.trans h2, fun c hc hca _ x hx1 hx2 => ?_⟩
    -- `c` lies before the merged block, in the heap before and after the extension
    have hcE := (Heap.mem_extend_alloc (a := s.brk - 8) (S := max (16 * ((n + 23) / 16)) chunksize) hca).mpr hc
    have hout := hE.repr.shape.layout.payload_outside hcE
      (c := mergedBlock H.blocks ⟨s.brk - 8, max (16 * ((n + 23) / 16)) chunksize, true⟩ [])
      (by rw [hblk]; simp) (fun e => by rw [e] at hca; cases hca) hx1 hx2
    rw [h3 x hout (hE.repr.unlinked hcE hca hx1 hx2), hE.mem x hout (hR.unlinked hc hca hx1 hx2)]

theorem Malloced.null {s : State} {H : Heap} {a : Nat} {r : State × Nat} (hM : Malloced s H a r)
    (h : r.2 = 0) :
    H.findFit a = none ∧ ¬ Grants s (max a chunksize) ∧ r = ({ s with calls := s.calls + 1 }, 0) := by
  rcases hF : H.findFit a with _ | F
  · by_cases hg : Grants s (max a chunksize)
    · obtain ⟨-, -, hret, -⟩ := hM.granted hF hg; omega
    · exact ⟨rfl, hg, hM.refused hF hg⟩
  · obtain ⟨-, -, -, hr, -⟩ := hM.found F hF
    rw [hr] at h; cases h

end MallocSim
