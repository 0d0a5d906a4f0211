import MallocSim.L4Api.Checkheap
import MallocSim.L4Api.Malloc

/-!
# `malloc` and `free` undo each other

Two round trips on a represented heap.

* `malloc(n)` then `free` of the pointer it returned. The free block `F` the
  request was placed in comes back whole: its rest, when `split_block` made
  one, is the free block just after the new one and merges back, and the
  block before `F` is allocated (no two free blocks are adjacent). The heap
  is the one before the call with `F` moved to the front of the list of its
  size (`Heap.place_free`). When the request was served from an extension,
  `F` is the extension's block, already at the front: the heap is the one
  `extend_heap` alone would have left.
* `free(p)` then `malloc(n)` with `round_up(n + 8, 16)` the size of `p`'s
  block, both neighbours of which are allocated. The freed block is not
  merged, goes on the front of the list of its size, and is the first fit for
  its own size (`Heap.findFit_push`); placing the request in it takes it off
  the list again. The heap is the one before the two calls, list order
  included (`Heap.free_place`), and `malloc` returns `p`.

Results:
- `Heap.place_free`, `Heap.free_place`: the two round trips on abstract heaps.
- `Heap.findFit_push`: a block pushed on its list is the first fit for its
  own size.
- `free_placed`: `free` of the block `malloc` placed, in memory.
-/
namespace MallocSim

attribute [ext] Heap

/-! ## Lists -/

/-- Taking off the block just pushed restores the lists. -/
@[simp] theorem Heap.pull_push (H : Heap) (b : Block) : (H.push b).pull b = H := by
  simp only [Heap.push, Heap.pull, Function.update_same, List.erase_cons_head, Function.update_idem,
    Function.update_eq_self]

theorem leftFree_eq_nil {pre : List Block} (hl : ∀ p ∈ pre.getLast?, p.alloc = true) : leftFree pre = [] := by
  unfold leftFree; split <;> simp_all

theorem rightFree_eq_nil {post : List Block} (hr : ∀ n ∈ post.head?, n.alloc = true) : rightFree post = [] := by
  unfold rightFree; split <;> simp_all

theorem bestFit_of_size {a : Nat} {best : Block} (h : best.size = a) (l : List Block) :
    bestFit a best l = best := by
  induction l with
  | nil => rfl
  | cons c l ih => rw [bestFit, if_neg (by omega), ih]

/-- A block pushed on its list is the first fit for its own size: the head of
the mini list, or the head of the first list searched. -/
theorem Heap.findFit_push (H : Heap) (c : Block) : (H.push c).findFit c.size = some c := by
  unfold Heap.findFit
  by_cases hm : c.size = minBlockSize
  · rw [if_pos ⟨hm, by simp [Heap.push, listIndex_none.mpr hm]⟩]
    simp [Heap.push, listIndex_none.mpr hm]
  · have hd := determineSegIndex_lt c.size
    rw [if_neg fun h => hm h.1, show segListLen - determineSegIndex c.size =
      segListLen - determineSegIndex c.size - 1 + 1 by unfold segListLen; omega, List.range'_succ, List.findSome?_cons]
    have hl : listIndex c.size = some (determineSegIndex c.size) := listIndex_some.mpr ⟨hm, rfl⟩
    simp [Heap.push, hl, listFit_cons le_rfl, bestFit_of_size rfl]

/-! ## The round trips on abstract heaps -/

/-- Freeing the block just placed in the free block `F` gives `F` back, at
the front of the list of its size. -/
theorem Heap.place_free {H : Heap} {pre post : List Block} {F : Block} {a : Nat} (hW : H.WF)
    (hH : H.blocks = pre ++ F :: post) (hF : F.alloc = false) (ha : a ≤ F.size) :
    (H.place pre F post a).free pre ⟨F.addr, a, true⟩
      ((if a < F.size then [⟨F.addr + a, F.size - a, false⟩] else []) ++ post) = (H.pull F).push F := by
  obtain ⟨hl, hr⟩ := hW.neighbours hH hF
  have hFm : F = ⟨F.addr, F.size, false⟩ := by cases F; simp_all
  by_cases hlt : a < F.size
  · have hm : mergedBlock pre ⟨F.addr, a, true⟩ (⟨F.addr + a, F.size - a, false⟩ :: post) = F := by
      rw [hFm]; simp [mergedBlock, leftFree_eq_nil hl, rightFree]; omega
    simp only [Heap.free, Heap.place, if_pos hlt, List.singleton_append, hm, leftFree_eq_nil hl]
    ext1 <;> simp [rightFree, hH]; rfl
  · have hm : mergedBlock pre ⟨F.addr, a, true⟩ post = F := by
      rw [hFm]; simp [mergedBlock, leftFree_eq_nil hl, rightFree_eq_nil hr]; omega
    simp only [Heap.free, Heap.place, if_neg hlt, List.nil_append, hm, leftFree_eq_nil hl, rightFree_eq_nil hr]
    ext1 <;> simp [hH]; rfl

theorem Heap.free_isolated {H : Heap} {pre post : List Block} {b : Block}
    (hl : ∀ p ∈ pre.getLast?, p.alloc = true) (hr : ∀ n ∈ post.head?, n.alloc = true) :
    H.free pre b post =
      ({ H with blocks := pre ++ ⟨b.addr, b.size, false⟩ :: post } : Heap).push ⟨b.addr, b.size, false⟩ := by
  have hm : mergedBlock pre b post = ⟨b.addr, b.size, false⟩ := by
    simp [mergedBlock, leftFree_eq_nil hl, rightFree_eq_nil hr]
  simp only [Heap.free, hm, leftFree_eq_nil hl, rightFree_eq_nil hr]
  rfl

/-- Placing a request of its own size in the block that freeing `b` left,
when neither neighbour of `b` was free, gives the heap back. -/
theorem Heap.free_place {H : Heap} {pre post : List Block} {b : Block} (hH : H.blocks = pre ++ b :: post)
    (hb : b.alloc = true) (hl : ∀ p ∈ pre.getLast?, p.alloc = true) (hr : ∀ n ∈ post.head?, n.alloc = true) :
    (H.free pre b post).place pre ⟨b.addr, b.size, false⟩ post b.size = H := by
  have hbm : b = ⟨b.addr, b.size, true⟩ := by cases b; simp_all
  rw [Heap.free_isolated hl hr, Heap.place, if_neg (Nat.lt_irrefl _), Heap.pull_push]
  ext1
  · simp only [hH]; rw [← hbm]
  · rfl

theorem Heap.free_repush (H : Heap) (pre : List Block) (b : Block) (post : List Block) :
    ((H.free pre b post).pull (mergedBlock pre b post)).push (mergedBlock pre b post) = H.free pre b post := by
  simp only [Heap.free, Heap.pull_push]

theorem Heap.extend_repush (H : Heap) (a S : Nat) :
    ((H.extend a S).pull (mergedBlock H.blocks ⟨a, S, true⟩ [])).push (mergedBlock H.blocks ⟨a, S, true⟩ []) =
      H.extend a S :=
  Heap.free_repush _ _ _ _

/-! ## In memory -/

/-- `free` of the block `malloc` placed in the free block `F` of `G`: the
state represents `G` with `F` at the front of the list of its size. -/
theorem free_placed {s : State} {G : Heap} {pre post : List Block} {F : Block} {a : Nat}
    (hR : Repr s (G.place pre F post a)) (hW : G.WF) (hG : G.blocks = pre ++ F :: post) (hF : F.alloc = false)
    (ha : a ≤ F.size) :
    Repr (free s (F.addr + 8)) ((G.pull F).push F) ∧ SameFrame s (free s (F.addr + 8)) := by
  have h := free_spec hR (Heap.place_blocks G pre F post a) rfl
  rw [Heap.place_free hW hG hF ha] at h
  exact ⟨h.1, h.2.1⟩

theorem prevBits_fst_true {pre : List Block} (h : (prevBits true false pre).1 = true) :
    ∀ p ∈ pre.getLast?, p.alloc = true := by
  rcases pre.eq_nil_or_concat with rfl | ⟨pre', P, rfl⟩
  · simp
  · rw [List.concat_eq_append, prevBits_concat] at h
    simpa using h

end MallocSim
