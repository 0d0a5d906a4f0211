import MallocSim.L3Heap.Invariant

/-!
# The free-list operations on the abstract heap

`add_to_free_list(b)` is `Heap.push` and `remove_from_free_list(b)` is
`Heap.pull`, for a block `b` of the heap whose header holds its size: the
list of `b`'s class changes as a node sequence (`ListOps`), every other list
keeps its nodes and links, and memory changes only at link bytes of `b` and
of the nodes of its list.

What the operations need of the heap is `Placed H bs`: the list nodes are
free blocks of a layout `bs`, in the class of their list, each once. The
layout need not be the current implicit list: inside `free` the operations
run while the implicit list is being rewritten.

Results:
- `Lists.push`, `Lists.pull`: the two operations against `Heap.push`, `Heap.pull`.
- `Lists.congr`: writes away from the link bytes of list nodes keep the lists
  (`Lists.mini_congr`, `Lists.seg_congr` for one list).
-/
namespace MallocSim

/-- The nodes of the lists of `H` are free blocks of the layout `bs`, in the
class of their list, each once. -/
structure Placed (H : Heap) (bs : List Block) : Prop where
  layout : ∃ a e, 0 < a ∧ Layout a bs e ∧ e ≤ 2 ^ 64
  mem : ∀ k c, c ∈ H.lists k → c ∈ bs ∧ c.alloc = false ∧ listIndex c.size = k
  nodup : ∀ k, (H.lists k).Nodup

theorem Repr.placed {s : State} {H : Heap} (h : Repr s H) : Placed H H.blocks :=
  ⟨⟨_, _, by have := h.shape.start; omega, h.shape.layout, by have := h.shape.top; omega⟩,
    fun k c hc => (h.wf.mem_lists k c).mp hc, h.wf.nodup⟩

theorem nextField_iff {c : Block} {x : Nat} (h : c.size = 16) : NextField c.addr x ↔ LinkByte c x := by
  simp only [NextField, LinkByte, h]; omega

theorem links_iff {c : Block} {x : Nat} (h : 24 ≤ c.size) : Links c.addr x ↔ LinkByte c x := by
  simp only [Links, LinkByte]; omega

section Placed

variable {H : Heap} {bs : List Block} (hP : Placed H bs)
include hP

theorem Placed.addr_pos {b : Block} (hb : b ∈ bs) : 0 < b.addr ∧ b.addr + 16 ≤ 2 ^ 64 := by
  obtain ⟨a, e, ha, hl, he⟩ := hP.layout
  have := hl.addr_lt hb; have := (hl.bounds hb).1; omega

theorem Placed.apart {b c : Block} (hb : b ∈ bs) (hc : c ∈ bs) (hne : b ≠ c) :
    b.addr + 16 ≤ c.addr ∨ c.addr + 16 ≤ b.addr := by
  obtain ⟨a, e, -, hl, -⟩ := hP.layout
  exact hl.apart hb hc hne

theorem Placed.spaced (l : List Block) (hsub : ∀ c ∈ l, c ∈ bs) (hnd : l.Nodup) :
    Spaced (l.map Block.addr) := by
  obtain ⟨a, e, -, hl, he⟩ := hP.layout
  exact hl.spaced he hsub hnd

theorem Placed.size {k : Option Nat} {c : Block} (hc : c ∈ H.lists k) :
    (k = none → c.size = 16) ∧ ∀ i, k = some i → 32 ≤ c.size ∧ determineSegIndex c.size = i := by
  obtain ⟨a, e, -, hl, -⟩ := hP.layout
  obtain ⟨hcb, -, hk⟩ := hP.mem k c hc
  have := hl.bounds hcb
  refine ⟨fun h => listIndex_none.mp (h ▸ hk), fun i h => ?_⟩
  have := listIndex_some.mp (h ▸ hk)
  simp only [minBlockSize] at this
  exact ⟨by omega, this.2⟩

/-- The map from list nodes to header addresses commutes with erasing a node. -/
theorem Placed.map_erase {k : Option Nat} {b : Block} (hb : b ∈ bs) :
    ((H.lists k).erase b).map Block.addr = ((H.lists k).map Block.addr).erase b.addr := by
  obtain ⟨a, e, -, hl, -⟩ := hP.layout
  have key : ∀ l : List Block, (∀ c ∈ l, c ∈ bs) → (l.erase b).map Block.addr = (l.map Block.addr).erase b.addr := by
    intro l
    induction l with
    | nil => intro; rfl
    | cons c l ih =>
      intro hl'
      by_cases hcb : c = b
      · subst hcb; simp
      · have : c.addr ≠ b.addr := fun e => hcb (hl.addr_inj (hl' c (List.mem_cons_self _ _)) hb e)
        rw [List.erase_cons_tail (by simpa using hcb), List.map_cons, List.map_cons,
          List.erase_cons_tail (by simpa using this), ih fun d hd => hl' d (List.mem_cons_of_mem _ hd)]
  exact key _ fun c hc => (hP.mem k c hc).1

theorem Placed.push {b : Block} (hb : b ∈ bs) (hbf : b.alloc = false) (hbn : ∀ k, b ∉ H.lists k) :
    Placed (H.push b) bs := by
  refine ⟨hP.layout, fun k c hc => ?_, fun k => ?_⟩
  · rcases Heap.mem_push.mp hc with ⟨rfl, rfl⟩ | hc
    · exact ⟨hb, hbf, rfl⟩
    · exact hP.mem k c hc
  · simp only [Heap.push]
    by_cases hk : k = listIndex b.size
    · subst hk
      rw [Function.update_same]
      exact List.nodup_cons.mpr ⟨hbn _, hP.nodup _⟩
    · rw [Function.update_noteq hk]
      exact hP.nodup k

theorem Placed.pull (b : Block) : Placed (H.pull b) bs := by
  refine ⟨hP.layout, fun k c hc => hP.mem k c (Heap.mem_of_mem_pull hc), fun k => ?_⟩
  simp only [Heap.pull]
  by_cases hk : k = listIndex b.size
  · subst hk
    rw [Function.update_same]
    exact (hP.nodup _).erase b
  · rw [Function.update_noteq hk]
    exact hP.nodup k

theorem Placed.mem_pull {b c : Block} {k : Option Nat} :
    c ∈ (H.pull b).lists k ↔ c ∈ H.lists k ∧ c ≠ b := by
  simp only [Heap.pull]
  by_cases hk : k = listIndex b.size
  · subst hk
    rw [Function.update_same, (hP.nodup _).mem_erase_iff, and_comm]
  · rw [Function.update_noteq hk]
    exact ⟨fun h => ⟨h, fun e => hk (e ▸ (hP.mem k c h).2.2).symm⟩, fun h => h.1⟩

/-- The mini list survives a write that keeps the link bytes of its nodes. -/
theorem Lists.mini_congr {s : State} {m : Mem} (hL : Lists s H)
    (hm : ∀ c ∈ H.lists none, ∀ x, LinkByte c x → m x = s.mem x) :
    Seg m s.miniListStart ((H.lists none).map Block.addr) 0 :=
  hL.mini.congr fun y hy x hx => by
    obtain ⟨c, hc, rfl⟩ := List.mem_map.mp hy
    exact hm c hc x ((nextField_iff ((hP.size hc).1 rfl)).mp hx)

/-- A segregated list survives a write that keeps the link bytes of its nodes. -/
theorem Lists.seg_congr {s : State} {m : Mem} (hL : Lists s H) {i : Nat} (hi : i < segListLen)
    (hm : ∀ c ∈ H.lists (some i), ∀ x, LinkByte c x → m x = s.mem x) :
    DChain m (s.segmentList i) ((H.lists (some i)).map Block.addr) :=
  (hL.seg i hi).congr fun y hy x hx => by
    obtain ⟨c, hc, rfl⟩ := List.mem_map.mp hy
    exact hm c hc x ((links_iff (by have := ((hP.size hc).2 i rfl).1; omega)).mp hx)

/-- Writes away from the link bytes of every list node keep the lists. -/
theorem Lists.congr {s t : State} (hL : Lists s H) (hmini : t.miniListStart = s.miniListStart)
    (hseg : ∀ i, t.segmentList i = s.segmentList i)
    (hm : ∀ k, ∀ c ∈ H.lists k, ∀ x, LinkByte c x → t.mem x = s.mem x) : Lists t H :=
  ⟨hmini ▸ hL.mini_congr hP (hm none), fun i hi => hseg i ▸ hL.seg_congr hP hi (hm (some i))⟩

/-- A link byte of a list node of another class is no link byte of `b`. -/
theorem Placed.not_linkByte {b c : Block} {k : Option Nat} {x : Nat} (hb : b ∈ bs) (hc : c ∈ H.lists k)
    (hne : b ≠ c) (hx : LinkByte c x) : ¬ LinkByte b x := by
  obtain ⟨a, e, -, hl, -⟩ := hP.layout
  exact hl.not_linkByte (hP.mem k c hc).1 hb (Ne.symm hne) hx

/-- Link bytes of nodes of two classes are apart. -/
theorem Placed.linkByte_class {c d : Block} {k k' : Option Nat} (hc : c ∈ H.lists k) (hd : d ∈ H.lists k')
    (hne : k ≠ k') {x : Nat} (hx : LinkByte c x) : ¬ LinkByte d x :=
  hP.not_linkByte (hP.mem _ d hd).1 hc
    (fun e => hne ((hP.mem _ c hc).2.2.symm.trans (e ▸ (hP.mem _ d hd).2.2))) hx

/-- `add_to_free_list(b)` pushes `b` on the list of its class. -/
theorem Lists.push {s : State} {b : Block} (hL : Lists s H) (hb : b ∈ bs) (hbn : ∀ k, b ∉ H.lists k)
    (hsz : getSize s.mem b.addr = b.size) :
    SameFrame s (addToFreeList s b.addr) ∧ Lists (addToFreeList s b.addr) (H.push b) ∧
      ∀ x, ¬ LinkByte b x → (∀ c ∈ H.lists (listIndex b.size), ¬ LinkByte c x) →
        (addToFreeList s b.addr).mem x = s.mem x := by
  obtain ⟨hb0, hb64⟩ := hP.addr_pos hb
  have hbc : ∀ k, ∀ c ∈ H.lists k, b ≠ c := fun k c hc e => hbn k (e ▸ hc)
  by_cases hmini : b.size = 16
  · -- the mini list
    have hk : listIndex b.size = none := listIndex_none.mpr hmini
    have hadd : addToFreeList s b.addr = addToMiniFreeList s b.addr := by
      unfold addToFreeList; simp [hsz, hmini, minBlockSize]
    have hsep : ∀ y ∈ (H.lists none).map Block.addr, b.addr + 8 ≤ y ∨ y + 8 ≤ b.addr := by
      intro y hy
      obtain ⟨c, hc, rfl⟩ := List.mem_map.mp hy
      have := hP.apart hb (hP.mem _ c hc).1 (hbc _ c hc); omega
    have hhead : s.miniListStart < 2 ^ 64 := by
      by_cases h0 : s.miniListStart = 0
      · rw [h0]; exact Nat.two_pow_pos 64
      · obtain ⟨c, hc, hcs⟩ := List.mem_map.mp (hL.mini.head_mem h0)
        have := (hP.addr_pos (hP.mem _ c hc).1).2; omega
    obtain ⟨heq, hseg'⟩ := addToMiniFreeList_spec hL.mini (Nat.pos_iff_ne_zero.mp hb0) hhead hsep
    have hfr : ∀ x, ¬ LinkByte b x → (setNextFree s.mem b.addr s.miniListStart) x = s.mem x :=
      fun x hx => writeWord_of_disjoint _ (by simp only [LinkByte, hmini] at hx; omega)
    rw [hadd, heq]
    refine ⟨⟨rfl, rfl, rfl, rfl, rfl⟩, ⟨?_, fun i hi => ?_⟩, fun x h1 _ => hfr x h1⟩
    · simp only [Heap.push, hk, Function.update_same, List.map_cons]; exact hseg'
    · simp only [Heap.push, hk]
      rw [Function.update_noteq (by simp)]
      exact hL.seg_congr hP hi fun c hc x hx => hfr x (hP.not_linkByte hb hc (hbc _ c hc) hx)
  · -- a segregated list
    have hk : listIndex b.size = some (determineSegIndex b.size) := listIndex_some.mpr ⟨hmini, rfl⟩
    have hi := listIndex_lt hk
    have hb32 : 24 ≤ b.size := by
      obtain ⟨a, e, -, hl, -⟩ := hP.layout
      have := hl.bounds hb; omega
    have hsp : Spaced ((b :: H.lists (some (determineSegIndex b.size))).map Block.addr) :=
      hP.spaced _ (fun c hc => by
        rcases List.mem_cons.mp hc with rfl | hc
        exact hb; exact (hP.mem _ c hc).1) (List.nodup_cons.mpr ⟨hbn _, hP.nodup _⟩)
    obtain ⟨m', heq, hch, hfp⟩ := addToSegList_spec (by rw [hsz]; exact hmini) (by rw [hsz])
      (hL.seg _ hi) hsp (Nat.pos_iff_ne_zero.mp hb0)
    -- the bytes written are link bytes of `b` and of the old head
    have hfr : ∀ x, ¬ LinkByte b x →
        (∀ c ∈ H.lists (some (determineSegIndex b.size)), ¬ LinkByte c x) → m' x = s.mem x := by
      intro x h1 h2
      refine hfp x fun y hy => ?_
      rcases List.mem_cons.mp hy with rfl | hy
      · exact (links_iff hb32).not.mpr h1
      · obtain ⟨c, hc, rfl⟩ := List.mem_map.mp hy
        exact (links_iff (by have := ((hP.size hc).2 _ rfl).1; omega)).not.mpr (h2 c hc)
    rw [heq]
    refine ⟨⟨rfl, rfl, rfl, rfl, rfl⟩, ⟨?_, fun j hj => ?_⟩, fun x h1 h2 => hfr x h1 (hk ▸ h2)⟩
    · simp only [Heap.push, hk]
      rw [Function.update_noteq (by simp)]
      exact hL.mini_congr hP fun c hc x hx => hfr x (hP.not_linkByte hb hc (hbc _ c hc) hx)
        fun d hd => hP.linkByte_class hc hd (by simp) hx
    · simp only [Heap.push, hk]
      by_cases hji : j = determineSegIndex b.size
      · subst hji
        simp only [Function.update_same, List.map_cons]
        exact hch
      · rw [Function.update_noteq (show some j ≠ some (determineSegIndex b.size) by simpa using hji),
          Function.update_noteq hji]
        exact hL.seg_congr hP hj fun c hc x hx => hfr x (hP.not_linkByte hb hc (hbc _ c hc) hx)
          fun d hd => hP.linkByte_class hc hd (by simpa using hji) hx

/-- `remove_from_free_list(b)` erases `b` from the list of its class. -/
theorem Lists.pull {s : State} {b : Block} (hL : Lists s H) (hb : b ∈ H.lists (listIndex b.size))
    (hsz : getSize s.mem b.addr = b.size) :
    SameFrame s (removeFromFreeList s b.addr) ∧ Lists (removeFromFreeList s b.addr) (H.pull b) ∧
      ∀ x, (∀ c ∈ H.lists (listIndex b.size), ¬ LinkByte c x) →
        (removeFromFreeList s b.addr).mem x = s.mem x := by
  have hbb := (hP.mem _ b hb).1
  have hsp : ∀ k, Spaced ((H.lists k).map Block.addr) := fun k =>
    hP.spaced _ (fun c hc => (hP.mem _ c hc).1) (hP.nodup _)
  by_cases hmini : b.size = 16
  · -- the mini list
    have hk : listIndex b.size = none := listIndex_none.mpr hmini
    rw [hk] at hb ⊢
    have hrem : removeFromFreeList s b.addr = removeFromMiniFreeList s b.addr := by
      unfold removeFromFreeList; simp [hsz, hmini, minBlockSize]
    obtain ⟨m', h', heq, hseg', hfp⟩ :=
      removeFromMiniFreeList_spec hL.mini (hsp none) (List.mem_map_of_mem _ hb)
    have hfr : ∀ x, (∀ c ∈ H.lists none, ¬ LinkByte c x) → m' x = s.mem x := fun x h =>
      hfp x fun y hy => by
        obtain ⟨c, hc, rfl⟩ := List.mem_map.mp hy
        exact (nextField_iff ((hP.size hc).1 rfl)).not.mpr (h c hc)
    rw [hrem, heq]
    refine ⟨⟨rfl, rfl, rfl, rfl, rfl⟩, ⟨?_, fun i hi => ?_⟩, hfr⟩
    · simp only [Heap.pull, hk, Function.update_same]
      rw [hP.map_erase hbb]; exact hseg'
    · simp only [Heap.pull, hk]
      rw [Function.update_noteq (by simp)]
      exact hL.seg_congr hP hi fun c hc x hx => hfr x fun d hd => hP.linkByte_class hc hd (by simp) hx
  · -- a segregated list
    have hk : listIndex b.size = some (determineSegIndex b.size) := listIndex_some.mpr ⟨hmini, rfl⟩
    rw [hk] at hb ⊢
    obtain ⟨m', h', heq, hch, hfp⟩ := removeFromSegList_spec (by rw [hsz]; exact hmini) (by rw [hsz])
      (hL.seg _ (listIndex_lt hk)) (hsp _) (List.mem_map_of_mem _ hb)
    have hfr : ∀ x, (∀ c ∈ H.lists (some (determineSegIndex b.size)), ¬ LinkByte c x) → m' x = s.mem x :=
      fun x h => hfp x fun y hy => by
        obtain ⟨c, hc, rfl⟩ := List.mem_map.mp hy
        exact (links_iff (by have := ((hP.size hc).2 _ rfl).1; omega)).not.mpr (h c hc)
    rw [heq]
    refine ⟨⟨rfl, rfl, rfl, rfl, rfl⟩, ⟨?_, fun j hj => ?_⟩, hfr⟩
    · simp only [Heap.pull, hk]
      rw [Function.update_noteq (by simp)]
      exact hL.mini_congr hP fun c hc x hx => hfr x fun d hd => hP.linkByte_class hc hd (by simp) hx
    · simp only [Heap.pull, hk]
      by_cases hji : j = determineSegIndex b.size
      · subst hji
        simp only [Function.update_same]
        rw [hP.map_erase hbb]; exact hch
      · rw [Function.update_noteq (show some j ≠ some (determineSegIndex b.size) by simpa using hji),
          Function.update_noteq hji]
        exact hL.seg_congr hP hj fun c hc x hx => hfr x fun d hd =>
          hP.linkByte_class hc hd (by simpa using hji) hx

end Placed

end MallocSim
