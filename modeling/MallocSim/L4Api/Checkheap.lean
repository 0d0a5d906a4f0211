import MallocSim.L3Heap.FreeListState
import MallocSim.L4Api.Free

/-!
# `mm_checkheap` on a represented heap

Each check of `mm_checkheap` (mm.c:1272-1331) evaluated on a state that
represents a heap (`Repr s H`). Every walk ends: the implicit list is the
blocks of `H` (`Shape.heapWalk_eq`), and `segment_list[i]` is the nodes of
`H.lists (some i)`, fewer than the fuel because they are distinct non-NULL
64-bit addresses (`Repr.segNodes_eq`).

Six checks then always pass: the prologue, the epilogue, the alignment and
size of every block (for a heap that starts 8 bytes past a 16-byte
boundary), the bounds and back links of the list nodes, their allocation
bits, and their `next_free` words. Two depend on the heap:

* `list_match_heap` counts the free blocks of the implicit list against the
  nodes of the ten segregated lists. Every free block is on exactly one list,
  the mini list included, so the counts agree exactly when the mini list is
  empty.
* `check_coalescing` asks the neighbours of every free block to be
  allocated. The block after always is (no two free blocks are adjacent, and
  the epilogue reads as allocated); the one before is read through
  `find_prev`, so the check passes exactly when that word has its allocation
  bit set.

Results:
- `Repr.segNodes_eq`: the checker's walk of a segregated list.
- `validPrologue_of_repr`, `validEpilogue_of_repr`, `validBlocks_of_repr`,
  `noCycles_of_repr`, `consistentPointers_of_repr`, `allFree_of_repr`: the
  six checks that pass.
- `listMatchHeap_of_repr`, `checkCoalescing_of_repr`: the two that depend on
  the heap.
-/
namespace MallocSim

/-! ## The loops over the lists -/

theorem mapM_option_eq {α β : Type} {f : α → Option β} {g : α → β} :
    ∀ {l : List α}, (∀ x ∈ l, f x = some (g x)) → l.mapM f = some (l.map g)
  | [], _ => rfl
  | x :: l, h => by
    rw [List.mapM_cons, h x (List.mem_cons_self _ _), mapM_option_eq fun y hy => h y (List.mem_cons_of_mem _ hy)]
    rfl

theorem findSome?_getD_true {l : List Nat} {f : Nat → Option Bool}
    (h : ∀ i ∈ l, f i = none ∨ f i = some true) : (l.findSome? f).getD true = true := by
  cases hf : l.findSome? f with
  | none => rfl
  | some r =>
    obtain ⟨i, hi, hfi⟩ := List.exists_of_findSome?_eq_some hf
    rcases h i hi with e | e <;> rw [e] at hfi <;> simp_all

theorem pointersWalk_eq {s : State} {xs : List Nat} (hb : ∀ x ∈ xs, s.lo ≤ x ∧ x ≤ s.heapHi) :
    ∀ {q p q' fuel : Nat}, DSeg s.mem q p xs q' 0 → xs.length < fuel →
      pointersWalk s fuel p = if xs = [] then none else some true := by
  induction xs with
  | nil =>
    rintro q p q' (_ | fuel) ⟨-, rfl⟩ hf
    · simp at hf
    · simp [pointersWalk]
  | cons x xs ih =>
    rintro q p q' (_ | fuel) ⟨hpx, hx0, -, h⟩ hf
    · simp at hf
    subst hpx
    have hx := hb p (List.mem_cons_self _ _)
    have ih' := ih (fun y hy => hb y (List.mem_cons_of_mem _ hy)) h (by simpa using hf)
    simp only [pointersWalk, if_neg hx0, if_neg (show ¬ p < s.lo by omega),
      if_neg (show ¬ p > s.heapHi by omega), List.cons_ne_nil, if_false]
    cases xs with
    | nil => simp [h.2]
    | cons y ys =>
      obtain ⟨rfl, hy0, hyx, -⟩ := h
      simp [hy0, hyx, ih']

theorem Seg.nextFree_ne {m : Mem} {p : Nat} {xs : List Nat} (h : Seg m p xs 0) (hn : xs.Nodup) :
    ∀ x ∈ xs, nextFree m x ≠ x := by
  induction xs generalizing p with
  | nil => simp
  | cons x xs ih =>
    obtain ⟨-, hx0, h⟩ := h
    obtain ⟨hx, hn⟩ := List.nodup_cons.mp hn
    intro y hy
    rcases List.mem_cons.mp hy with rfl | hy
    · cases xs with
      | nil => exact fun e => hx0 (e ▸ h)
      | cons z zs => exact fun e => hx (e ▸ h.1 ▸ List.mem_cons_self _ _)
    · exact ih h hn y hy

theorem Layout.nodup {a e : Nat} {bs : List Block} (h : Layout a bs e) : bs.Nodup :=
  h.pairwise.imp_of_mem fun hb _ hle he => by
    subst he; have := (h.bounds hb).2.2.1; simp only [Block.last] at hle; omega

/-! ## The checks -/

section Checks

variable {s : State} {H : Heap} (hR : Repr s H)
include hR

theorem Repr.heapStart_ne : s.heapStart ≠ 0 := by have := hR.shape.start; omega

theorem Repr.walk_eq : walkBlocks s = some (H.blocks.map Block.addr) := hR.shape.heapWalk_eq

theorem Repr.blocks_eq :
    H.blocks = ((walkBlocks s).getD []).map fun a => ⟨a, getSize s.mem a, getAlloc s.mem a⟩ := by
  rw [hR.walk_eq, Option.getD_some, List.map_map]
  conv_lhs => rw [← List.map_id H.blocks]
  exact List.map_congr_left fun b hb => by
    simp [(hR.shape.get_mem hb).1, (hR.shape.get_mem hb).2]

theorem Repr.list_spaced (k : Option Nat) : Spaced ((H.lists k).map Block.addr) :=
  hR.placed.spaced _ (fun c hc => ((hR.wf.mem_lists k c).mp hc).1) (hR.wf.nodup k)

theorem Repr.node_bounds {k : Option Nat} {c : Block} (hc : c ∈ H.lists k) :
    s.lo ≤ c.addr ∧ c.addr ≤ s.heapHi := by
  have hb := ((hR.wf.mem_lists k c).mp hc).1
  have := hR.shape.layout.addr_lt hb; have := (hR.shape.layout.bounds hb).1; have := hR.shape.start
  simp only [State.heapHi]; omega

/-- The checker's walk of `segment_list[i]` visits the nodes of the list. -/
theorem Repr.segNodes_eq {i : Nat} (hi : i < segListLen) :
    segNodes s i = some ((H.lists (some i)).map Block.addr) := by
  have hc := (hR.lists.seg i hi).seg
  exact hc.freeListNodes_eq (by have := (hR.list_spaced _).length_lt hc.zero_not_mem; unfold loopFuel; omega)

/-- `valid_prologue`: the word before `heap_start` reads as size 0. -/
theorem validPrologue_of_repr : validPrologue s = true := by
  have hp : extractSize (readWord s.mem (s.heapStart - 8)) = 0 := by
    rw [hR.shape.prologue]; exact extractSize_pack (by decide) (by decide) ..
  simp [validPrologue, findPrev, findPrevFooter, footerToHeader, getSize, wsize, hp]

/-- `valid_epilogue`: the walk reaches a size-0 header. -/
theorem validEpilogue_of_repr : validEpilogue s = true := by
  simp [validEpilogue, hR.walk_eq]

/-- `valid_blocks`: every payload is 16-byte aligned and every block holds at
least 16 bytes, for a heap starting 8 bytes past a 16-byte boundary. -/
theorem validBlocks_of_repr (h8 : s.heapStart % 16 = 8) : validBlocks s = true := by
  simp only [validBlocks, if_neg hR.heapStart_ne, hR.walk_eq, List.all_eq_true, List.forall_mem_map]
  intro b hb
  have := hR.shape.layout.addr_mod hb; have := (hR.shape.layout.bounds hb).2.2.1
  simp [(hR.shape.get_mem hb).1, wsize, minBlockSize]; omega

/-- `all_free`: every node of a segregated list is marked free. -/
theorem allFree_of_repr : allFree s = true := by
  simp only [allFree, List.all_eq_true, List.mem_range]
  intro i hi
  simp only [hR.segNodes_eq hi, List.all_eq_true, List.forall_mem_map]
  intro c hc
  obtain ⟨hb, hf, -⟩ := (hR.wf.mem_lists _ c).mp hc
  simp [(hR.shape.get_mem hb).2, hf]

/-- `no_cycles`: no node of a segregated list links to itself. -/
theorem noCycles_of_repr : noCycles s = true := by
  simp only [noCycles, List.all_eq_true, List.mem_range]
  intro i hi
  simp only [hR.segNodes_eq hi, List.all_eq_true, decide_eq_true_eq]
  exact (hR.lists.seg i hi).seg.nextFree_ne (hR.list_spaced _).nodup

/-- `consistent_pointers`: every back link matches and every node is in the
region, so the function returns `true` at the end of the first non-empty
list, or after the loop when all are empty. -/
theorem consistentPointers_of_repr : consistentPointers s = true := by
  refine findSome?_getD_true fun i hi => ?_
  have hi := List.mem_range.mp hi
  have hc := hR.lists.seg i hi
  rw [pointersWalk_eq (fun x hx => ?_) hc (by
    have := (hR.list_spaced _).length_lt hc.seg.zero_not_mem; unfold loopFuel; omega)]
  · split <;> simp
  · obtain ⟨c, hc, rfl⟩ := List.mem_map.mp hx
    exact hR.node_bounds hc

/-! ## Counting the free blocks -/

theorem Repr.blocks_nodup : H.blocks.Nodup := hR.shape.layout.nodup

theorem Repr.lists_perm : (listKeys.flatMap H.lists).Perm (H.blocks.filter fun b => !b.alloc) := by
  have hnd : (listKeys.flatMap H.lists).Nodup := by
    have := hR.freeLists.2.nodup
    rw [allNodes, ← List.map_flatMap] at this
    exact this.of_map _
  refine (List.perm_ext_iff_of_nodup hnd (hR.blocks_nodup.filter _)).mpr fun c => ?_
  simp only [List.mem_flatMap, List.mem_filter, hR.wf.mem_lists, Bool.not_eq_true']
  exact ⟨fun ⟨_, _, hb, hf, _⟩ => ⟨hb, hf⟩, fun ⟨hb, hf⟩ => ⟨_, listIndex_mem_keys c.size, hb, hf, rfl⟩⟩

theorem Repr.mini_nil_iff : H.lists none = [] ↔ s.miniListStart = 0 := by
  have h := hR.lists.mini
  cases hl : H.lists none with
  | nil => rw [hl] at h; exact ⟨fun _ => h, fun _ => rfl⟩
  | cons c l =>
    simp only [hl, List.map_cons] at h
    exact ⟨fun e => absurd e (List.cons_ne_nil _ _), fun e => absurd (h.1 ▸ e) h.2.1⟩

/-- `list_match_heap` passes exactly when the mini list, which it does not
count, is empty. -/
theorem listMatchHeap_of_repr : listMatchHeap s = true ↔ s.miniListStart = 0 := by
  have hcount := hR.lists_perm.length_eq
  rw [List.length_flatMap, listKeys, List.map_cons, List.sum_cons, List.map_map] at hcount
  have hheap : ((H.blocks.map Block.addr).filter fun a => !getAlloc s.mem a).length =
      (H.blocks.filter fun b => !b.alloc).length := by
    rw [List.filter_map, List.length_map]
    exact congrArg List.length (List.filter_congr fun b hb => by simp [(hR.shape.get_mem hb).2])
  have hlist : (List.range segListLen).mapM (segNodes s) =
      some ((List.range segListLen).map fun i => (H.lists (some i)).map Block.addr) :=
    mapM_option_eq fun i hi => hR.segNodes_eq (List.mem_range.mp hi)
  rw [← hR.mini_nil_iff, ← List.length_eq_zero]
  simp only [listMatchHeap, if_neg hR.heapStart_ne, hR.walk_eq, hlist, Option.map_some', hheap,
    ← hcount, List.map_map, Function.comp_def, List.length_map, decide_eq_true_eq]
  omega

theorem Repr.findNext_alloc {b : Block} (hb : b ∈ H.blocks) (hf : b.alloc = false) :
    getAlloc s.mem (findNext s.mem b.addr) = true := by
  obtain ⟨pre, post, hH, -⟩ := hR.shape.split_mem hb
  rw [findNext, (hR.shape.get_mem hb).1, (next_get hR hH).2]
  cases post with
  | nil => rfl
  | cons n post => exact (hR.wf.neighbours hH hf).2 n rfl

/-- `check_coalescing` passes exactly when the word `find_prev` reads before
every free block has its allocation bit set. -/
theorem checkCoalescing_of_repr :
    checkCoalescing s = true ↔
      ∀ b ∈ H.blocks, b.alloc = false → getAlloc s.mem (findPrev s.mem b.addr) = true := by
  simp only [checkCoalescing, if_neg hR.heapStart_ne, hR.walk_eq, List.all_eq_true,
    List.forall_mem_map]
  refine forall₂_congr fun b hb => ?_
  rw [(hR.shape.get_mem hb).2]
  cases hf : b.alloc
  · simp [hR.findNext_alloc hb hf]
  · simp

end Checks

end MallocSim
