import MallocSim.L3Heap.ListOps

/-!
# The allocator invariant

A state represents an abstract heap `H` (`Repr s H`): the list of blocks
`H.blocks`, and the free lists `H.lists k`, where `k = none` is the mini list
and `k = some i` is `segment_list[i]`. The invariant has three parts.

* `Shape`: the sentinels and the implicit list. The prologue word sits just
  before `heap_start`; the blocks lie back to back from `heap_start` to the
  epilogue at `mem_heap_hi() - 7`, each tagged with header (and footer, when
  free and not mini) whose previous-block bits come from the block before.
* `Lists`: the mini list and each segregated list is a chain in memory whose
  nodes are the headers of the blocks of `H.lists k`.
* `Heap.WF`: no two neighbours are both free, and the free blocks are
  exactly the members of the list of their size class, each once.

Results:
- `Shape.read_at`: the header at a block boundary, epilogue included.
- `prev_found`: `coalesce_block`'s step back finds the block that ends
  where the current one starts.
- `Shape.heapWalk_eq`: the forward walk of the checker visits exactly the blocks.
- `Heap.WF.spaced`: list nodes are distinct blocks, at least 16 bytes apart.
-/
namespace MallocSim

/-- The free list that holds free blocks of this size: `none` for the mini
list, `some i` for `segment_list[i]` (the dispatch of `add_to_free_list`). -/
def listIndex (size : Nat) : Option Nat :=
  if size = minBlockSize then none else some (determineSegIndex size)

/-- The abstract heap: blocks in address order and the free lists. -/
structure Heap where
  blocks : List Block
  lists : Option Nat → List Block

/-- Push `b` on the front of the list of its size. -/
def Heap.push (H : Heap) (b : Block) : Heap :=
  { H with lists := Function.update H.lists (listIndex b.size) (b :: H.lists (listIndex b.size)) }

/-- Erase `b` from the list of its size. -/
def Heap.pull (H : Heap) (b : Block) : Heap :=
  { H with lists := Function.update H.lists (listIndex b.size) ((H.lists (listIndex b.size)).erase b) }

@[simp] theorem Heap.push_blocks (H : Heap) (b : Block) : (H.push b).blocks = H.blocks := rfl

@[simp] theorem Heap.pull_blocks (H : Heap) (b : Block) : (H.pull b).blocks = H.blocks := rfl

/-- After pushing `b`, a list holds `b` (if it is `b`'s list) and its old nodes. -/
theorem Heap.mem_push {H : Heap} {b c : Block} {k : Option Nat} :
    c ∈ (H.push b).lists k ↔ c = b ∧ listIndex b.size = k ∨ c ∈ H.lists k := by
  simp only [Heap.push]
  by_cases hk : k = listIndex b.size
  · subst hk; simp
  · rw [Function.update_noteq hk]
    exact ⟨.inr, fun h => h.resolve_left fun h' => hk h'.2.symm⟩

theorem Heap.mem_of_mem_pull {H : Heap} {b c : Block} {k : Option Nat} (h : c ∈ (H.pull b).lists k) :
    c ∈ H.lists k := by
  simp only [Heap.pull] at h
  by_cases hk : k = listIndex b.size
  · subst hk
    rw [Function.update_same] at h
    exact List.mem_of_mem_erase h
  · rwa [Function.update_noteq hk] at h

/-- Coalescing is complete and the free lists hold exactly the free blocks. -/
structure Heap.WF (H : Heap) : Prop where
  noAdj : H.blocks.Chain' fun b c => b.alloc = true ∨ c.alloc = true
  mem_lists : ∀ k b, b ∈ H.lists k ↔ b ∈ H.blocks ∧ b.alloc = false ∧ listIndex b.size = k
  nodup : ∀ k, (H.lists k).Nodup

/-- The epilogue header after blocks `bs`. -/
def epilogueWord (bs : List Block) : Word :=
  pack 0 true (prevBits true false bs).1 (prevBits true false bs).2

/-- Sentinels and implicit list. -/
structure Shape (s : State) (bs : List Block) : Prop where
  start : s.lo + 8 ≤ s.heapStart
  top : s.brk ≤ 2 ^ 64
  prologue : readWord s.mem (s.heapStart - 8) = pack 0 true false false
  layout : Layout s.heapStart bs (s.brk - 8)
  marked : Marked s.mem true false bs
  epilogue : readWord s.mem (s.brk - 8) = epilogueWord bs

/-- The free lists in memory. -/
structure Lists (s : State) (H : Heap) : Prop where
  mini : Seg s.mem s.miniListStart ((H.lists none).map Block.addr) 0
  seg : ∀ i < segListLen, DChain s.mem (s.segmentList i) ((H.lists (some i)).map Block.addr)

/-- The allocator invariant: `s` represents `H`. -/
structure Repr (s : State) (H : Heap) : Prop where
  shape : Shape s H.blocks
  lists : Lists s H
  wf : H.WF

/-- `s'` keeps `s`'s heap bounds, `heap_start` and region provider. -/
structure SameFrame (s s' : State) : Prop where
  lo : s'.lo = s.lo
  brk : s'.brk = s.brk
  grant : s'.grant = s.grant
  calls : s'.calls = s.calls
  heapStart : s'.heapStart = s.heapStart

theorem SameFrame.refl (s : State) : SameFrame s s := ⟨rfl, rfl, rfl, rfl, rfl⟩

theorem SameFrame.trans {s s' s'' : State} (h : SameFrame s s') (h' : SameFrame s' s'') :
    SameFrame s s'' :=
  ⟨h'.lo.trans h.lo, h'.brk.trans h.brk, h'.grant.trans h.grant, h'.calls.trans h.calls,
    h'.heapStart.trans h.heapStart⟩

/-- `x` is a byte of a link word of the free block `b`: `next_free`, and
`prev_free` unless `b` is mini. -/
def LinkByte (b : Block) (x : Nat) : Prop := b.addr + 8 ≤ x ∧ x < b.addr + min 24 b.size

/-- `x` is no byte of a link word of a block on a free list. -/
def Heap.Unlinked (H : Heap) (x : Nat) : Prop := ∀ k, ∀ c ∈ H.lists k, ¬ LinkByte c x

/-- The payload bytes of the allocated blocks of `H`, but for the block whose
payload is at `p`, are the same in `s'` as in `s`. -/
def Heap.Keeps (H : Heap) (p : Nat) (s s' : State) : Prop :=
  ∀ c ∈ H.blocks, c.alloc = true → c.addr + 8 ≠ p → ∀ x, c.addr + 8 ≤ x → x < c.last → s'.mem x = s.mem x

/-- The lists part of the invariant reads only the lists of the heap. -/
theorem Lists.of_lists {s : State} {H H' : Heap} (h : Lists s H) (he : H'.lists = H.lists) : Lists s H' :=
  ⟨he ▸ h.mini, he ▸ h.seg⟩

/-! ## Size classes -/

theorem listIndex_none {size : Nat} : listIndex size = none ↔ size = minBlockSize := by
  unfold listIndex; split <;> simp_all

theorem listIndex_some {size i : Nat} :
    listIndex size = some i ↔ size ≠ minBlockSize ∧ determineSegIndex size = i := by
  unfold listIndex; split <;> simp_all

theorem listIndex_lt {size i : Nat} (h : listIndex size = some i) : i < segListLen :=
  (listIndex_some.mp h).2 ▸ determineSegIndex_lt size

/-! ## Reading the implicit list -/

/-- Blocks of at least 16 bytes: a layout of `n` blocks spans at least `16 n` bytes. -/
theorem Layout.length_le {a e : Nat} {bs : List Block} (h : Layout a bs e) : a + 16 * bs.length ≤ e := by
  induction bs generalizing a with
  | nil => exact Nat.le_of_eq (by simpa using h)
  | cons b bs ih =>
    have := ih h.2.2.2
    simp only [List.length_cons]
    have := h.2.1; have := h.1; omega

theorem Marked.at {m : Mem} {pa pm : Bool} {pre post : List Block} {b : Block}
    (h : Marked m pa pm (pre ++ b :: post)) :
    b.Marked m (prevBits pa pm pre).1 (prevBits pa pm pre).2 :=
  (marked_append.mp h).2.1

theorem Layout.eq {a e e' : Nat} {bs : List Block} (h : Layout a bs e) (h' : Layout a bs e') : e = e' := by
  induction bs generalizing a with
  | nil => exact h.symm.trans h'
  | cons b bs ih => exact ih h.2.2.2 h'.2.2.2

theorem Layout.right {a c e : Nat} {pre post : List Block} (h : Layout a (pre ++ post) e)
    (hl : Layout a pre c) : Layout c post e := by
  obtain ⟨c', h1, h2⟩ := layout_append.mp h
  exact hl.eq h1 ▸ h2

/-- The header at the boundary after `pre`: the next block's, or the epilogue. -/
theorem Shape.read_at {s : State} {pre post : List Block} {a : Nat} (h : Shape s (pre ++ post))
    (hl : Layout s.heapStart pre a) :
    readWord s.mem a = (post.headD ⟨a, 0, true⟩).hdr (prevBits true false pre).1
      (prevBits true false pre).2 := by
  have hr := h.layout.right hl
  cases post with
  | nil =>
    have e : a = s.brk - 8 := hr
    have := h.epilogue
    rw [List.append_nil] at this
    rw [e, this]; rfl
  | cons b post =>
    rw [← hr.1]
    exact h.marked.at.1

/-- Getters at a block boundary read the fields of the block there (the
epilogue reads as an allocated block of size 0). -/
theorem Shape.get_at {s : State} {pre post : List Block} {a : Nat} (h : Shape s (pre ++ post))
    (hl : Layout s.heapStart pre a) :
    getSize s.mem a = (post.headD ⟨a, 0, true⟩).size ∧ getAlloc s.mem a = (post.headD ⟨a, 0, true⟩).alloc ∧
      getPrevAlloc s.mem a = (prevBits true false pre).1 ∧
      getPrevMini s.mem a = (prevBits true false pre).2 := by
  have hr := h.layout.right hl
  have hs : (post.headD ⟨a, 0, true⟩).size % 16 = 0 ∧ (post.headD ⟨a, 0, true⟩).size < 2 ^ 64 := by
    cases post with
    | nil => exact ⟨rfl, Nat.two_pow_pos 64⟩
    | cons b post =>
      have := hr.2.2.2.le; have := h.top; have := hr.1
      exact ⟨hr.2.2.1, by simp only [List.headD_cons]; omega⟩
  simp only [getSize, getAlloc, getPrevAlloc, getPrevMini, h.read_at hl, Block.hdr]
  exact ⟨extractSize_pack hs.1 hs.2 .., extractAlloc_pack hs.1 hs.2 .., extractPrevAlloc_pack hs.1 hs.2 ..,
    extractPrevMini_pack hs.1 hs.2 ..⟩

/-- Every block of the heap starts at a boundary of the layout. -/
theorem Shape.split_mem {s : State} {bs : List Block} {b : Block} (h : Shape s bs) (hb : b ∈ bs) :
    ∃ pre post, bs = pre ++ b :: post ∧ Layout s.heapStart pre b.addr := by
  obtain ⟨pre, post, rfl⟩ := List.append_of_mem hb
  obtain ⟨c, h1, h2⟩ := layout_append.mp h.layout
  exact ⟨pre, post, rfl, h2.1 ▸ h1⟩

/-- The header of a block of the heap holds its size and allocation bit. -/
theorem Shape.get_mem {s : State} {bs : List Block} {b : Block} (h : Shape s bs) (hb : b ∈ bs) :
    getSize s.mem b.addr = b.size ∧ getAlloc s.mem b.addr = b.alloc := by
  obtain ⟨pre, post, rfl, hl⟩ := h.split_mem hb
  exact ⟨(h.get_at hl).1, (h.get_at hl).2.1⟩

/-- The block `P` that ends at `B`, found as `coalesce_block` finds it: 16
bytes back when `prev_mini` says `P` is mini, else through the footer just
before `B`. -/
theorem prev_found {m : Mem} {P : Block} {B : Nat} (hPB : P.addr + P.size = B) (h16 : 16 ≤ P.size)
    (hB : B ≤ 2 ^ 64) (hmini : getPrevMini m B = decide (P.size = 16))
    (hft : P.size ≠ 16 → extractSize (readWord m (B - wsize)) = P.size) :
    (if getPrevMini m B = true then B - minBlockSize else findPrev m B) = P.addr := by
  by_cases hm : P.size = 16
  · rw [if_pos (by simp [hmini, hm]), minBlockSize]; omega
  · rw [if_neg (by simp [hmini, hm])]
    simp only [findPrev, findPrevFooter, footerToHeader, hft hm, if_neg (show P.size ≠ 0 by omega)]
    simp only [wsize]; omega

/-- The forward walk from `a` over the blocks `post` stops at the epilogue. -/
theorem Shape.heapWalk_from {s : State} {pre post : List Block} {a fuel : Nat}
    (h : Shape s (pre ++ post)) (hl : Layout s.heapStart pre a) (hf : post.length < fuel) :
    heapWalk s.mem fuel a = some (post.map Block.addr) := by
  induction post generalizing pre a fuel with
  | nil =>
    obtain ⟨fuel, rfl⟩ : ∃ k, fuel = k + 1 := ⟨fuel - 1, by simp at hf; omega⟩
    simp [heapWalk, (h.get_at hl).1]
  | cons b post ih =>
    obtain ⟨fuel, rfl⟩ : ∃ k, fuel = k + 1 := ⟨fuel - 1, by simp at hf; omega⟩
    have hr := h.layout.right hl
    have hsz := (h.get_at hl).1
    simp only [List.headD_cons] at hsz
    have hl' : Layout s.heapStart (pre ++ [b]) (a + b.size) :=
      layout_append.mpr ⟨a, hl, hr.1, hr.2.1, hr.2.2.1, rfl⟩
    rw [heapWalk, hsz, if_neg (by have := hr.2.1; omega), findNext, hsz,
      ih (by simpa using h) hl' (by simpa using hf)]
    rw [← hr.1]; rfl

/-- The checker's walk from `heap_start` visits exactly the blocks. -/
theorem Shape.heapWalk_eq {s : State} {bs : List Block} (h : Shape s bs) :
    heapWalk s.mem loopFuel s.heapStart = some (bs.map Block.addr) := by
  have := h.layout.length_le; have := h.top
  exact Shape.heapWalk_from (show Shape s ([] ++ bs) from h) rfl (by unfold loopFuel; omega)

/-! ## Geometry of blocks -/

theorem Layout.addr_lt {a e : Nat} {bs : List Block} (h : Layout a bs e) {b : Block} (hb : b ∈ bs) :
    b.addr + 16 ≤ e := by
  have := h.bounds hb; simp only [Block.last] at this; omega

/-- Distinct blocks of a layout are at least 16 bytes apart. -/
theorem Layout.apart {a e : Nat} {bs : List Block} (h : Layout a bs e) {b c : Block} (hb : b ∈ bs)
    (hc : c ∈ bs) (hne : b ≠ c) : b.addr + 16 ≤ c.addr ∨ c.addr + 16 ≤ b.addr := by
  have := (h.bounds hb).2.2.1; have := (h.bounds hc).2.2.1
  rcases h.disjoint hb hc with e | e | e
  · exact absurd e hne
  all_goals simp only [Block.last] at e; omega

theorem Layout.addr_inj {a e : Nat} {bs : List Block} (h : Layout a bs e) {b c : Block} (hb : b ∈ bs)
    (hc : c ∈ bs) (he : b.addr = c.addr) : b = c := by
  by_contra hne
  have := h.apart hb hc hne; omega

/-- A payload byte of one block of a layout lies outside every other block
and the header after it. -/
theorem Layout.payload_outside {a e : Nat} {bs : List Block} (h : Layout a bs e) {b c : Block}
    (hb : b ∈ bs) (hc : c ∈ bs) (hne : b ≠ c) {x : Nat} (h1 : b.addr + 8 ≤ x) (h2 : x < b.last) :
    x < c.addr ∨ c.last + 8 ≤ x := by
  rcases h.disjoint hb hc with e | e | e
  · exact absurd e hne
  all_goals simp only [Block.last] at *; omega

/-- Blocks start at the layout's start modulo 16. -/
theorem Layout.addr_mod {a e : Nat} {bs : List Block} (h : Layout a bs e) {b : Block} (hb : b ∈ bs) :
    b.addr % 16 = a % 16 := by
  induction bs generalizing a with
  | nil => cases hb
  | cons c bs ih =>
    obtain ⟨rfl, -, h3, h4⟩ := h
    rcases List.mem_cons.mp hb with rfl | hb
    · rfl
    · rw [ih h4 hb]; omega

/-- The header addresses of distinct blocks of a layout are spaced. -/
theorem Layout.spaced {a e : Nat} {bs l : List Block} (h : Layout a bs e) (he : e ≤ 2 ^ 64)
    (hsub : ∀ c ∈ l, c ∈ bs) (hnd : l.Nodup) : Spaced (l.map Block.addr) := by
  refine ⟨List.pairwise_map.mpr (hnd.imp_of_mem fun hb hc hne => h.apart (hsub _ hb) (hsub _ hc) hne),
    fun y hy => ?_⟩
  obtain ⟨c, hc, rfl⟩ := List.mem_map.mp hy
  have := h.addr_lt (hsub c hc); omega

theorem LinkByte.bounds {b : Block} {x : Nat} (h : LinkByte b x) : b.addr + 8 ≤ x ∧ x < b.last := by
  simp only [LinkByte, Block.last] at *; omega

/-- Link bytes of distinct blocks of a layout are distinct. -/
theorem Layout.not_linkByte {a e : Nat} {bs : List Block} (h : Layout a bs e) {b c : Block} {x : Nat}
    (hb : b ∈ bs) (hc : c ∈ bs) (hne : b ≠ c) (hx : LinkByte b x) : ¬ LinkByte c x := fun hy => by
  have := hx.bounds; have := hy.bounds
  rcases h.disjoint hb hc with e | e | e
  · exact hne e
  all_goals omega

end MallocSim
