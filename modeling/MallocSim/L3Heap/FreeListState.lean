import MallocSim.L2Machine.Calls
import MallocSim.L3Heap.ListSpec

/-!
# The free lists as a family of node sequences

`mm.c` keeps eleven free lists: the mini list from `mini_list_start` and
`segment_list[0..9]`. Read from their heads they are a family of node
sequences `L k`, `k = none` for the mini list and `k = some i` for
`segment_list[i]` (`FreeLists`): the mini list a chain along `next_free` to
NULL, each segregated list a chain whose `prev_free` links point back, the
head's to NULL. A chain is finite and visits no node twice.

`add_to_free_list(b)` puts `b` in front of the list of its size, and
`remove_from_free_list(b)` erases `b` from it keeping the order of the other
nodes, the scan of `remove_from_mini_free_list` ending at `b` within as many
steps as the list has nodes; every other list keeps its nodes and links
(`FreeLists.push`, `FreeLists.pull`). Both need the nodes of all lists, and
the `b` that is added, pairwise at least 16 bytes apart (`Spaced`), as
distinct blocks of one heap are: link words of different nodes then never
overlap. Without it an operation can break a list it does not touch: when
two lists share a node, pushing on one rewrites the shared node's
`prev_free`, which the other needs to be NULL (`shared_node_breaks`).

Results:
- `Repr.freeLists`: the lists of every represented heap are such a family.
- `FreeLists.push`, `FreeLists.pull`: the two operations on the family.
- `freeList_ops`: both, with the bound on the scan of the mini list.
- `shared_node_breaks`: two lists sharing a node.
-/
namespace MallocSim

/-! ## The family of lists -/

/-- The head of list `k`. -/
def listHead (s : State) : Option Nat → Nat
  | none => s.miniListStart
  | some i => s.segmentList i

/-- List `k` of `s` is the chain of nodes `xs`. -/
def ListAt (s : State) : Option Nat → List Nat → Prop
  | none, xs => Seg s.mem s.miniListStart xs 0
  | some i, xs => DChain s.mem (s.segmentList i) xs

instance (s : State) : (k : Option Nat) → (xs : List Nat) → Decidable (ListAt s k xs)
  | none, xs => inferInstanceAs (Decidable (Seg s.mem s.miniListStart xs 0))
  | some i, xs => inferInstanceAs (Decidable (DChain s.mem (s.segmentList i) xs))

/-- The keys of the eleven lists: the mini list, then `segment_list[0..9]`. -/
def listKeys : List (Option Nat) := none :: (List.range segListLen).map some

/-- The free lists of `s` are the node sequences `L k`. -/
def FreeLists (s : State) (L : Option Nat → List Nat) : Prop := ∀ k ∈ listKeys, ListAt s k (L k)

instance (s : State) (L : Option Nat → List Nat) : Decidable (FreeLists s L) :=
  inferInstanceAs (Decidable (∀ k ∈ listKeys, ListAt s k (L k)))

/-- The nodes of all lists. -/
def allNodes (L : Option Nat → List Nat) : List Nat := listKeys.flatMap L

theorem listIndex_mem_keys (size : Nat) : listIndex size ∈ listKeys := by
  cases h : listIndex size with
  | none => exact List.mem_cons_self _ _
  | some i => exact List.mem_cons_of_mem _ (List.mem_map_of_mem _ (List.mem_range.mpr (listIndex_lt h)))

/-! ## Spacing across lists -/

section Apart

variable {L : Option Nat → List Nat}

/-- One list of spaced lists is spaced. -/
theorem Spaced.list (h : Spaced (allNodes L)) {k : Option Nat} (hk : k ∈ listKeys) : Spaced (L k) :=
  ⟨(List.pairwise_flatMap.mp h.1).1 k hk, fun y hy => h.2 y (List.mem_flatMap.mpr ⟨k, hk, hy⟩)⟩

/-- Nodes of two lists of spaced lists are at least 16 bytes apart. -/
theorem Spaced.lists_apart (h : Spaced (allNodes L)) {k k' : Option Nat} (hk : k ∈ listKeys)
    (hk' : k' ∈ listKeys) (hne : k ≠ k') {y z : Nat} (hy : y ∈ L k) (hz : z ∈ L k') :
    y + 16 ≤ z ∨ z + 16 ≤ y :=
  (List.pairwise_flatMap.mp h.1).2.forall (by intro _ _ h x hx y hy; exact (h y hy x hx).symm) hk hk' hne
    y hy z hz

/-- Links of nodes at least 16 bytes apart do not overlap. -/
theorem links_apart {y z x : Nat} (h : y + 16 ≤ z ∨ z + 16 ≤ y) (hx : Links y x) : ¬ Links z x := by
  simp only [Links] at *; omega

end Apart

/-! ## Changing one list -/

/-- A state that holds `ys` as list `k`, and keeps the heads and the link
words of the nodes of every other list, holds the family with list `k`
replaced. -/
theorem FreeLists.update {s t : State} {L : Option Nat → List Nat} {k : Option Nat} {ys : List Nat}
    (hL : FreeLists s L) (hk : ListAt t k ys) (hhead : ∀ k', k' ≠ k → listHead t k' = listHead s k')
    (hm : ∀ k' ∈ listKeys, k' ≠ k → ∀ y ∈ L k', ∀ x, Links y x → t.mem x = s.mem x) :
    FreeLists t (Function.update L k ys) := by
  intro k' hk'
  by_cases e : k' = k
  · subst e; rw [Function.update_same]; exact hk
  rw [Function.update_noteq e]
  have hs := hL k' hk'
  have hh := hhead k' e
  cases k' with
  | none =>
    simp only [ListAt, listHead] at hs hh ⊢
    rw [hh]; exact hs.congr fun y hy x hx => hm _ hk' e y hy x ⟨hx.1, by have := hx.2; omega⟩
  | some i =>
    simp only [ListAt, listHead] at hs hh ⊢
    rw [hh]; exact hs.congr fun y hy x hx => hm _ hk' e y hy x hx

/-- Moving the mini list's head keeps the other heads. -/
theorem listHead_of_mini {s t : State} (hseg : t.segmentList = s.segmentList) :
    ∀ k, k ≠ none → listHead t k = listHead s k
  | none, e => absurd rfl e
  | some i, _ => congrFun hseg i

/-- Moving the head of `segment_list[i]` keeps the other heads. -/
theorem listHead_of_seg {s t : State} {i h : Nat} (hmini : t.miniListStart = s.miniListStart)
    (hseg : t.segmentList = Function.update s.segmentList i h) : ∀ k, k ≠ some i → listHead t k = listHead s k
  | none, _ => hmini
  | some j, e => by rw [listHead, listHead, hseg, Function.update_noteq fun h => e (congrArg some h)]

/-- In a represented heap the free lists are a family of chains whose nodes
are pairwise at least 16 bytes apart: what the operations below need. -/
theorem Repr.freeLists {s : State} {H : Heap} (hR : Repr s H) :
    FreeLists s (fun k => (H.lists k).map Block.addr) ∧ Spaced (allNodes fun k => (H.lists k).map Block.addr) := by
  refine ⟨fun k hk => ?_, ?_⟩
  · cases k with
    | none => exact hR.lists.mini
    | some i => exact hR.lists.seg i (by simpa [listKeys] using hk)
  rw [allNodes, ← List.map_flatMap]
  refine hR.placed.spaced _ (fun c hc => ?_) (List.nodup_flatMap.mpr ⟨fun k _ => hR.wf.nodup k, ?_⟩)
  · obtain ⟨k, -, hc⟩ := List.mem_flatMap.mp hc
    exact ((hR.wf.mem_lists k c).mp hc).1
  -- a free block is on the list of its size only
  have hkeys : listKeys.Nodup :=
    List.nodup_cons.mpr ⟨by simp [listKeys], (List.nodup_range _).map fun _ _ h => Option.some_inj.mp h⟩
  refine hkeys.imp fun {k k'} hne c hc hc' => hne ?_
  exact ((hR.wf.mem_lists k c).mp hc).2.2.symm.trans ((hR.wf.mem_lists k' c).mp hc').2.2

section Ops

variable {s : State} {L : Option Nat → List Nat} {b : Nat}

/-- `add_to_free_list(b)` for a non-NULL `b` at least 16 bytes from every
node puts `b` in front of the list of its size. -/
theorem FreeLists.push (hL : FreeLists s L) (hb : b ≠ 0) (hsp : Spaced (b :: allNodes L)) :
    FreeLists (addToFreeList s b)
      (Function.update L (listIndex (getSize s.mem b)) (b :: L (listIndex (getSize s.mem b)))) := by
  have hsp' : Spaced (allNodes L) := hsp.sub (List.sublist_cons_self _ _)
  -- `b` is far from every node
  have hbL : ∀ k ∈ listKeys, ∀ y ∈ L k, b + 16 ≤ y ∨ y + 16 ≤ b := fun k hk y hy =>
    hsp.apart (List.mem_cons_self _ _) (List.mem_cons_of_mem _ (List.mem_flatMap.mpr ⟨k, hk, hy⟩))
      fun e => (List.nodup_cons.mp hsp.nodup).1 (e ▸ List.mem_flatMap.mpr ⟨k, hk, hy⟩)
  have hkey := listIndex_mem_keys (getSize s.mem b)
  by_cases hmini : getSize s.mem b = minBlockSize
  · -- the mini list
    have hk : listIndex (getSize s.mem b) = none := listIndex_none.mpr hmini
    have hhead : s.miniListStart < 2 ^ 64 := by
      by_cases h0 : s.miniListStart = 0
      · rw [h0]; exact Nat.two_pow_pos 64
      · exact hsp'.2 _ (List.mem_flatMap.mpr
          ⟨none, List.mem_cons_self _ _, (hL none (List.mem_cons_self _ _)).head_mem h0⟩)
    obtain ⟨heq, hseg⟩ := addToMiniFreeList_spec (hL none (List.mem_cons_self _ _)) hb hhead
      fun y hy => by have := hbL none (List.mem_cons_self _ _) y hy; omega
    have hadd : addToFreeList s b = addToMiniFreeList s b := by simp [addToFreeList, hmini]
    rw [hadd, heq, hk]
    refine hL.update hseg (listHead_of_mini rfl) fun k' hk' e y hy x hx => writeWord_of_disjoint _ ?_
    have := links_apart (hbL k' hk' y hy).symm hx; simp only [Links] at this; omega
  · -- a segregated list
    have hk : listIndex (getSize s.mem b) = some (determineSegIndex (getSize s.mem b)) :=
      listIndex_some.mpr ⟨hmini, rfl⟩
    rw [hk] at hkey ⊢
    have hspk : Spaced (b :: L (some (determineSegIndex (getSize s.mem b)))) :=
      ⟨List.pairwise_cons.mpr ⟨hbL _ hkey, (hsp'.list hkey).1⟩, fun y hy => hsp.2 y (by
        rcases List.mem_cons.mp hy with rfl | hy
        · exact List.mem_cons_self _ _
        · exact List.mem_cons_of_mem _ (List.mem_flatMap.mpr ⟨_, hkey, hy⟩))⟩
    obtain ⟨m', heq, hch, hfp⟩ := addToSegList_spec hmini rfl (hL _ hkey) hspk hb
    rw [heq]
    refine hL.update (by simp only [ListAt, Function.update_same]; exact hch) (listHead_of_seg rfl rfl)
      fun k' hk' e y hy x hx => hfp x fun z hz => ?_
    rcases List.mem_cons.mp hz with rfl | hz
    · exact links_apart (hbL k' hk' y hy).symm hx
    · exact links_apart (hsp'.lists_apart hk' hkey e hy hz) hx

/-- `remove_from_free_list(b)` for `b` on the list of its size erases it
there; on the mini list the scan reaches `b` within as many steps as the list
has nodes. -/
theorem FreeLists.pull (hL : FreeLists s L) (hsp : Spaced (allNodes L))
    (hb : b ∈ L (listIndex (getSize s.mem b))) :
    (listIndex (getSize s.mem b) = none → (miniSearch s.mem b (L none).length s.miniListStart 0).1 = b) ∧
      FreeLists (removeFromFreeList s b)
        (Function.update L (listIndex (getSize s.mem b)) ((L (listIndex (getSize s.mem b))).erase b)) := by
  have hkey := listIndex_mem_keys (getSize s.mem b)
  have hspk := hsp.list hkey
  by_cases hmini : getSize s.mem b = minBlockSize
  · -- the mini list
    have hk : listIndex (getSize s.mem b) = none := listIndex_none.mpr hmini
    rw [hk] at hb hspk ⊢
    have hmL := hL none (List.mem_cons_self _ _)
    obtain ⟨m', h', heq, hseg, hfp⟩ := removeFromMiniFreeList_spec hmL hspk hb
    have hrem : removeFromFreeList s b = removeFromMiniFreeList s b := by simp [removeFromFreeList, hmini]
    refine ⟨fun _ => ?_, ?_⟩
    · obtain ⟨l1, l2, e, hb1, -⟩ := split_of_mem hspk.nodup hb
      rw [e] at hmL ⊢
      rw [miniSearch_eq hmL hb1 (by simp)]
    rw [hrem, heq]
    refine hL.update hseg (listHead_of_mini rfl) fun k' hk' e y hy x hx => hfp x fun z hz hzx =>
      links_apart (hsp.lists_apart hk' (List.mem_cons_self _ _) e hy hz) hx ⟨hzx.1, by have := hzx.2; omega⟩
  · -- a segregated list
    have hk : listIndex (getSize s.mem b) = some (determineSegIndex (getSize s.mem b)) :=
      listIndex_some.mpr ⟨hmini, rfl⟩
    rw [hk] at hb hspk hkey ⊢
    obtain ⟨m', h', heq, hch, hfp⟩ := removeFromSegList_spec hmini rfl (hL _ hkey) hspk hb
    refine ⟨fun h => absurd h (by simp), ?_⟩
    rw [heq]
    exact hL.update (by simp only [ListAt, Function.update_same]; exact hch) (listHead_of_seg rfl rfl)
      fun k' hk' e y hy x hx => hfp x fun z hz => links_apart (hsp.lists_apart hk' hkey e hy hz) hx

end Ops

/-- On free lists whose nodes are pairwise at least 16 bytes apart:
`add_to_free_list(b)`, for a non-NULL `b` at least 16 bytes from every node,
puts `b` in front of the list of its size and keeps every other list;
`remove_from_free_list(b)`, for `b` on the list of its size, erases it there
and keeps every other list, its scan of the mini list ending at `b` within
the list's length. The lists stay chains: finite, without repeats, with
consistent links. -/
theorem freeList_ops {s : State} {L : Option Nat → List Nat} {b : Nat} (hL : FreeLists s L) :
    (b ≠ 0 → Spaced (b :: allNodes L) →
      FreeLists (addToFreeList s b)
        (Function.update L (listIndex (getSize s.mem b)) (b :: L (listIndex (getSize s.mem b))))) ∧
    (Spaced (allNodes L) → b ∈ L (listIndex (getSize s.mem b)) →
      (listIndex (getSize s.mem b) = none → (miniSearch s.mem b (L none).length s.miniListStart 0).1 = b) ∧
      FreeLists (removeFromFreeList s b)
        (Function.update L (listIndex (getSize s.mem b)) ((L (listIndex (getSize s.mem b))).erase b))) :=
  ⟨hL.push, hL.pull⟩

/-- Free blocks of 32 bytes at 100, 200, 300 and 700 and of 16 bytes at 400,
500 and 600 on a memory otherwise zero, the first six added to the lists in
that order: `segment_list[1]` is 300, 200, 100, the mini list 600, 500, 400,
and the block at 700 is on no list. -/
def listsState : State :=
  [100, 200, 300, 400, 500, 600].foldl addToFreeList
    (initState ([(100, 32), (200, 32), (300, 32), (400, 16), (500, 16), (600, 16), (700, 32)].foldl
      (fun m b => writeWord m b.1 (pack b.2 false true false)) fun _ => 0) 0 fun _ => true)

/-- The lists of `listsState`. -/
def listsOf (k : Option Nat) : List Nat :=
  if k = some 1 then [300, 200, 100] else if k = none then [600, 500, 400] else []

/-- On `listsState`: `add_to_free_list(700)` puts the block on no list in
front of `segment_list[1]`; `remove_from_free_list(200)` takes the middle
node out of that list; `remove_from_free_list(400)` scans the mini list
past 600 and 500 and takes out its last node. -/
theorem freeList_ops_lists :
    FreeLists listsState listsOf ∧ Spaced (700 :: allNodes listsOf) ∧
      FreeLists (addToFreeList listsState 700) (Function.update listsOf (some 1) [700, 300, 200, 100]) ∧
      FreeLists (removeFromFreeList listsState 200) (Function.update listsOf (some 1) [300, 100]) ∧
      (miniSearch listsState.mem 400 3 listsState.miniListStart 0).1 = 400 ∧
      FreeLists (removeFromFreeList listsState 400) (Function.update listsOf none [600, 500]) := by
  have hL : FreeLists listsState listsOf := by decide
  have hsp : Spaced (allNodes listsOf) := by decide
  have h700 : listIndex (getSize listsState.mem 700) = some 1 := by decide
  have h200 : listIndex (getSize listsState.mem 200) = some 1 := by decide
  have h400 : listIndex (getSize listsState.mem 400) = none := by decide
  have ha := (freeList_ops (b := 700) hL).1 (by decide) (by decide)
  have hr2 := (freeList_ops (b := 200) hL).2 hsp (by rw [h200]; decide)
  have hr4 := (freeList_ops (b := 400) hL).2 hsp (by rw [h400]; decide)
  rw [h700] at ha
  rw [h200] at hr2
  rw [h400] at hr4
  exact ⟨hL, by decide, ha, hr2.2, hr4.1 rfl, hr4.2⟩

/-! ## Lists that share a node -/

/-- Two segregated lists, `segment_list[1]` and `segment_list[2]`, both
`[64]`, and a free 32-byte block at 200 on no list. -/
def sharedState : State :=
  { initState (fun x => if x = 200 then 32 else 0) 0 (fun _ => true) with
    segmentList := fun i => if i = 1 ∨ i = 2 then 64 else 0 }

/-- The lists of `sharedState`. -/
def sharedLists (k : Option Nat) : List Nat := if k = some 1 ∨ k = some 2 then [64] else []

/-- **Counterexample**: when two lists share a node, `add_to_free_list` on
one of them sets the node's `prev_free`, and the other list, still headed by
it, is no chain any more: no family of lists describes the state it leaves. -/
theorem shared_node_breaks :
    FreeLists sharedState sharedLists ∧ getSize sharedState.mem 200 = 32 ∧
      getAlloc sharedState.mem 200 = false ∧ 200 ∉ allNodes sharedLists ∧
      ¬ ∃ L, FreeLists (addToFreeList sharedState 200) L := by
  refine ⟨by decide, by decide, by decide, by decide, ?_⟩
  rintro ⟨L, hL⟩
  -- `segment_list[2]` still starts at 64, whose `prev_free` is now 200
  have h2 : DChain (addToFreeList sharedState 200).mem ((addToFreeList sharedState 200).segmentList 2) (L (some 2)) :=
    hL (some 2) (by decide)
  cases hx : L (some 2) with
  | nil => rw [hx] at h2; exact absurd h2.2 (by decide)
  | cons x xs =>
    rw [hx] at h2
    obtain ⟨rfl, -, hp, -⟩ := h2
    exact absurd hp (by decide)

end MallocSim
