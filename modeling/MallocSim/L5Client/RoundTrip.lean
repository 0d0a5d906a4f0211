import MallocSim.L4Api.Reuse
import MallocSim.L5Client.Refine

/-!
# `malloc` then `free`, and `free` then `malloc`

The round trips of `Reuse` read in memory, on every represented heap.

`malloc(n)` followed by `free` of the pointer it returned leaves the blocks
as they were, with no provider request, when `find_fit` found a block `F`:
the only trace of the two calls is `F` at the front of the list of its size.
When nothing fitted and the provider granted the extension, the state
represents the heap that `extend_heap` alone leaves.

`free(p)` followed by `malloc(n)`, where the block of `p` has allocated
neighbours and `round_up(n + 8, 16)` is its size, returns `p` again, and the
state represents the heap before the two calls, the order of every free list
included.

Results:
- `malloc_then_free`: `malloc` then `free` of its result.
- `free_then_malloc`: `free` then `malloc` of the freed size.
-/
namespace MallocSim

/-- The state `mm_init` leaves on a zeroed region at 4096 whose provider
grants every request: one free block of 4096 bytes. -/
def initialHeap : State := (mmInit (initState (fun _ => 0) 4096 fun _ => true)).1

/-- `malloc(n)` for `1 ≤ n ≤ maxRequest` on a heap represented by `H`, then
`free` of the pointer it returned when that is not NULL: with `F` the block
`find_fit` found, the state represents `H` with `F` at the front of the list
of its size, with the same frame; when nothing fitted, it represents the
heap `extend_heap` leaves, in the frame of the granted extension. -/
theorem malloc_then_free {s : State} {H : Heap} {n : Nat} (hR : Repr s H) (hn1 : 1 ≤ n) (hn : n ≤ maxRequest)
    (hq : (malloc s n).2 ≠ 0) :
    (∃ F, H.findFit (16 * ((n + 23) / 16)) = some F ∧
        Repr (free (malloc s n).1 (malloc s n).2) ((H.pull F).push F) ∧
        SameFrame s (free (malloc s n).1 (malloc s n).2)) ∨
      (H.findFit (16 * ((n + 23) / 16)) = none ∧
        Repr (free (malloc s n).1 (malloc s n).2) (H.extend (s.brk - 8) (max (16 * ((n + 23) / 16)) chunksize)) ∧
        SameFrame (grownState s H.blocks (max (16 * ((n + 23) / 16)) chunksize))
          (free (malloc s n).1 (malloc s n).2)) := by
  obtain ⟨-, hM⟩ := malloc_spec hR hn1 hn
  rcases hF : H.findFit (16 * ((n + 23) / 16)) with _ | F
  · by_cases hg : Grants s (max (16 * ((n + 23) / 16)) chunksize)
    · obtain ⟨pre, hblk, hret, hR', hf, -⟩ := hM.granted hF hg
      have hE := extendHeap_spec hR (by simp only [chunksize]; omega) (by simp only [chunksize]; omega) hg
      have h := free_placed hR' hE.repr.wf hblk rfl ((le_max_left _ _).trans
        (size_le_mergedBlock H.blocks ⟨s.brk - 8, max (16 * ((n + 23) / 16)) chunksize, true⟩ []))
      rw [Heap.extend_repush] at h
      rw [hret]
      exact .inr ⟨rfl, h.1, hf.trans h.2⟩
    · exact absurd (congrArg Prod.snd (hM.refused hF hg)) hq
  · obtain ⟨pre, post, hH, hr, hR', hf, -⟩ := hM.found F hF
    obtain ⟨-, -, hFf, hFa⟩ := Heap.findFit_mem hR.wf hF
    have h := free_placed hR' hR.wf hH hFf hFa
    rw [show (malloc s n).2 = F.addr + 8 by rw [hr]]
    exact .inl ⟨F, rfl, h.1, hf.trans h.2⟩

/-- `malloc(1)` and its `free` on `initialHeap`. -/
theorem malloc_then_free_initial :
    ∃ H, Repr initialHeap H ∧ 1 ≤ 1 ∧ 1 ≤ maxRequest ∧ (malloc initialHeap 1).2 ≠ 0 ∧
      ((∃ F, H.findFit (16 * ((1 + 23) / 16)) = some F ∧
          Repr (free (malloc initialHeap 1).1 (malloc initialHeap 1).2) ((H.pull F).push F) ∧
          SameFrame initialHeap (free (malloc initialHeap 1).1 (malloc initialHeap 1).2)) ∨
        (H.findFit (16 * ((1 + 23) / 16)) = none ∧
          Repr (free (malloc initialHeap 1).1 (malloc initialHeap 1).2)
            (H.extend (initialHeap.brk - 8) (max (16 * ((1 + 23) / 16)) chunksize)) ∧
          SameFrame (grownState initialHeap H.blocks (max (16 * ((1 + 23) / 16)) chunksize))
            (free (malloc initialHeap 1).1 (malloc initialHeap 1).2))) := by
  obtain ⟨H, hR⟩ := (Reachable.init (fun _ => 0) 4096 fun _ => true).repr (by decide)
  exact ⟨H, hR, le_rfl, by decide, by decide, malloc_then_free hR le_rfl (by decide) (by decide)⟩

/-- `free(p)` for the payload `p` of an allocated block whose neighbours are
both allocated, then `malloc(n)` with `round_up(n + 8, 16)` the size of that
block, on a heap represented by `H`: `malloc` returns `p`, the state
represents `H` again, the order of every free list included, and the frame
is the same. -/
theorem free_then_malloc {s : State} {H : Heap} {p n : Nat} (hR : Repr s H) (hp : validPtr s p) (hp0 : p ≠ 0)
    (hpa : getPrevAlloc s.mem (p - 8) = true) (hna : getAlloc s.mem (findNext s.mem (p - 8)) = true)
    (hn1 : 1 ≤ n) (hn : n ≤ maxRequest) (ha : 16 * ((n + 23) / 16) = getSize s.mem (p - 8)) :
    (malloc (free s p) n).2 = p ∧ Repr (malloc (free s p) n).1 H ∧ SameFrame s (malloc (free s p) n).1 := by
  obtain ⟨b, hb, hba, rfl⟩ := hR.validPtr hp hp0
  obtain ⟨pre, post, hH, hl⟩ := hR.shape.split_mem hb
  rw [Nat.add_sub_cancel] at hpa hna ha
  rw [(hR.shape.get_mem hb).1] at ha
  -- the neighbours of `b` are allocated
  have hl' := prevBits_fst_true
    (((show Shape s (pre ++ b :: post) from hH ▸ hR.shape).get_at hl).2.2.1.symm.trans hpa)
  have hr' : ∀ c ∈ post.head?, c.alloc = true := by
    rw [findNext, (hR.shape.get_mem hb).1, (next_get hR hH).2] at hna
    cases post with
    | nil => simp
    | cons c post => simpa using hna
  obtain ⟨hF, hf, -⟩ := free_spec hR hH hba
  obtain ⟨-, hM⟩ := malloc_spec hF hn1 hn
  have hblk : (H.free pre b post).blocks = pre ++ ⟨b.addr, b.size, false⟩ :: post := by
    rw [Heap.free_isolated hl' hr']; rfl
  have hfit : (H.free pre b post).findFit (16 * ((n + 23) / 16)) = some ⟨b.addr, b.size, false⟩ := by
    rw [Heap.free_isolated hl' hr', ha]; exact Heap.findFit_push _ _
  obtain ⟨pre2, post2, hH2, hr2, hR2, hf2, -⟩ := hM.found _ hfit
  -- `find_fit`'s block is the freed one, where `b` was
  have hnd := hF.blocks_nodup
  rw [hblk, List.nodup_append] at hnd
  obtain ⟨rfl, -, rfl⟩ := (List.append_cons_inj_of_not_mem (fun h => hnd.2.2 h (List.mem_cons_self _ _))
    (List.nodup_cons.mp hnd.2.1).1).mp (hblk.symm.trans hH2)
  rw [ha, Heap.free_place hH hba hl' hr'] at hR2
  exact ⟨by rw [hr2], hR2, hf.trans hf2⟩

/-- Three `malloc(24)` on `initialHeap`: allocated blocks of 32 bytes at
4104, 4136 and 4168. -/
def threeSmall : State := runCalls initialHeap [.malloc 24, .malloc 24, .malloc 24]

set_option maxRecDepth 20000 in
theorem threeSmall_repr : ∃ H, Repr threeSmall H :=
  ((Reachable.init _ _ _).run (by decide) : Reachable threeSmall).repr (by decide)

set_option maxRecDepth 20000 in
/-- `free(4144)` then `malloc(24)` in `threeSmall`: the middle block. -/
theorem free_then_malloc_middle :
    ∃ H, Repr threeSmall H ∧ validPtr threeSmall 4144 ∧ 4144 ≠ 0 ∧
      getPrevAlloc threeSmall.mem (4144 - 8) = true ∧
      getAlloc threeSmall.mem (findNext threeSmall.mem (4144 - 8)) = true ∧ 1 ≤ 24 ∧ 24 ≤ maxRequest ∧
      16 * ((24 + 23) / 16) = getSize threeSmall.mem (4144 - 8) ∧
      (malloc (free threeSmall 4144) 24).2 = 4144 ∧ Repr (malloc (free threeSmall 4144) 24).1 H ∧
      SameFrame threeSmall (malloc (free threeSmall 4144) 24).1 := by
  obtain ⟨H, hR⟩ := threeSmall_repr
  exact ⟨H, hR, by decide, by decide, by decide, by decide, by decide, by decide, by decide,
    free_then_malloc hR (by decide) (by decide) (by decide) (by decide) (by decide) (by decide) (by decide)⟩

end MallocSim
