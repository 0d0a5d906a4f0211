import MallocSim.L3Heap.ListSpec

/-!
# Writing a block, and rewriting a stretch of the implicit list

`write_block(b, S, a, pa, pm)` writes three words (`writeBlock_eq`): the
header, the footer when the block is free and not mini, and the header of
the block after it, whose size and allocation bit it reads before writing
and whose previous-block bits it sets to `a` and `S = 16`. It does not
rewrite that block's footer.

Every call of the allocator replaces a stretch `run` of the implicit list by
blocks `mid` spanning the same bytes: a block freed and merged with its free
neighbours, a free block taken, a block split in two. `Shape.splice` says
what such a rewrite must establish for the invariant's `Shape` to hold
again: the new blocks tagged, the header after them carrying their bits,
and every other byte that is a tag left alone. Writes to link words of free
blocks are always allowed: no link byte is a tag (`Layout.tag_not_linkByte`).

Results:
- `writeBlock_eq`: the three words of `write_block`.
- `Shape.splice`: rewriting a stretch of the implicit list.
-/
namespace MallocSim

/-! ## `write_block` -/

section WriteBlock

variable {m : Mem} {a S : Nat} {al pa pm : Bool}

/-- The words `write_block` writes. -/
theorem writeBlock_eq (hS : 16 ≤ S) (h16 : S % 16 = 0) (hlt : S < 2 ^ 64) :
    writeBlock m a S al pa pm =
      writeWord (if al = false ∧ S ≠ 16 then
          writeWord (writeWord m a (pack S al pa pm)) (a + S - 8) (pack S al pa pm)
        else writeWord m a (pack S al pa pm))
        (a + S) (pack (getSize m (a + S)) (getAlloc m (a + S)) al (decide (S = 16))) := by
  by_cases hm : S = 16
  · subst hm
    simp (disch := omega) [writeBlock, writeMiniblock, findNext, getSize, getAlloc, minBlockSize,
      readWord_writeWord_of_disjoint]
  · have hf : a + wsize + S - dsize = a + S - 8 := by simp only [wsize, dsize]; omega
    cases al <;> simp (disch := omega) [writeBlock, hm, minBlockSize, headerToFooter, findNext, getSize,
      getAlloc, readWord_writeWord_of_disjoint, hf]

end WriteBlock

section Reads

variable {m : Mem} {a S : Nat} {al pa pm : Bool} (hS : 16 ≤ S) (h16 : S % 16 = 0) (hlt : S < 2 ^ 64)
include hS h16 hlt

theorem writeBlock_hdr : readWord (writeBlock m a S al pa pm) a = pack S al pa pm := by
  rw [writeBlock_eq hS h16 hlt]
  split_ifs <;> simp (disch := omega) only [readWord_writeWord_of_disjoint, readWord_writeWord_same]

theorem writeBlock_ftr (hf : al = false) (hs : S ≠ 16) :
    readWord (writeBlock m a S al pa pm) (a + S - 8) = pack S al pa pm := by
  rw [writeBlock_eq hS h16 hlt, if_pos ⟨hf, hs⟩]
  simp (disch := omega) only [readWord_writeWord_of_disjoint, readWord_writeWord_same]

theorem writeBlock_next :
    readWord (writeBlock m a S al pa pm) (a + S) =
      pack (getSize m (a + S)) (getAlloc m (a + S)) al (decide (S = 16)) := by
  rw [writeBlock_eq hS h16 hlt, readWord_writeWord_same]

/-- `write_block` changes only its three words; the footer is written only
for a free block that is not mini. -/
theorem writeBlock_frame {x : Nat} (h1 : x < a ∨ a + 8 ≤ x) (h2 : x < a + S ∨ a + S + 8 ≤ x)
    (h3 : al = false ∧ S ≠ 16 → x < a + S - 8 ∨ a + S ≤ x) : writeBlock m a S al pa pm x = m x := by
  rw [writeBlock_eq hS h16 hlt]
  split_ifs with h
  · have := h3 h
    simp (disch := omega) only [writeWord_of_disjoint]
  · simp (disch := omega) only [writeWord_of_disjoint]

/-- Writing a block over the same block written as allocated: only the
second write counts (the first writes no footer, and the header after the
block keeps its size and allocation bit). -/
theorem writeBlock_writeBlock {pa' pm' : Bool} :
    writeBlock (writeBlock m a S true pa' pm') a S al pa pm = writeBlock m a S al pa pm := by
  have hn : getSize (writeBlock m a S true pa' pm') (a + S) = getSize m (a + S) ∧
      getAlloc (writeBlock m a S true pa' pm') (a + S) = getAlloc m (a + S) := by
    rw [getSize, getAlloc, writeBlock_next hS h16 hlt, extractSize_pack (getSize_mod _ _) (getSize_lt _ _),
      extractAlloc_pack (getSize_mod _ _) (getSize_lt _ _)]
    exact ⟨rfl, rfl⟩
  have hin : writeBlock m a S true pa' pm' = writeWord (writeWord m a (pack S true pa' pm')) (a + S)
      (pack (getSize m (a + S)) (getAlloc m (a + S)) true (decide (S = 16))) := by
    rw [writeBlock_eq hS h16 hlt, if_neg (fun h => by cases h.1)]
  rw [writeBlock_eq hS h16 hlt (m := writeBlock m a S true pa' pm'), hn.1, hn.2, hin,
    writeBlock_eq hS h16 hlt (m := m)]
  split_ifs
  · rw [writeWord_comm (writeWord m a _) _ _ (by omega : a + S + 8 ≤ a ∨ a + 8 ≤ a + S), writeWord_writeWord_same,
      writeWord_comm (writeWord m a _) _ _ (by omega : a + S + 8 ≤ a + S - 8 ∨ a + S - 8 + 8 ≤ a + S),
      writeWord_writeWord_same]
  · rw [writeWord_comm (writeWord m a _) _ _ (by omega : a + S + 8 ≤ a ∨ a + 8 ≤ a + S), writeWord_writeWord_same,
      writeWord_writeWord_same]

end Reads

/-! ## Rewriting a stretch of the implicit list -/

theorem prevBits_append_cons (pa pm : Bool) (xs rest : List Block) (c : Block) :
    prevBits pa pm (xs ++ c :: rest) = prevBits c.alloc (decide (c.size = 16)) rest := by
  rw [prevBits_append]; rfl

/-- No link byte of a block is a tag of a block. -/
theorem Layout.tag_not_linkByte {a e : Nat} {bs : List Block} (h : Layout a bs e) {c d : Block} {x : Nat}
    (hc : c ∈ bs) (hd : d ∈ bs) (hx : LinkByte c x) : ¬ d.Tag x := fun ht => by
  have hcb := h.bounds hc
  have := hx.bounds
  have := Block.tag_bounds (h.bounds hd).2.2.1 ht
  rcases h.disjoint hc hd with rfl | e | e
  · simp only [Block.Tag, LinkByte, Block.last] at ht hx hcb
    omega
  all_goals omega

/-- Rewriting the stretch `run` of the implicit list, from `a` to `e`, into
`mid` keeps `Shape` when the new blocks are tagged, the header at `e` carries
their bits, the block after them is allocated, and no other tag byte changes. -/
theorem Shape.splice {s : State} {pre run post : List Block} {a e : Nat}
    (h : Shape s (pre ++ run ++ post)) (s' : State) (mid : List Block) (hf : SameFrame s s')
    (hpre : Layout s.heapStart pre a) (hrun : Layout a run e) (hmid : Layout a mid e)
    (hmark : Marked s'.mem (prevBits true false pre).1 (prevBits true false pre).2 mid)
    (hnext : readWord s'.mem e = (post.headD ⟨e, 0, true⟩).hdr (prevBits true false (pre ++ mid)).1
      (prevBits true false (pre ++ mid)).2)
    (hpost : ∀ c ∈ post.head?, c.alloc = true)
    (hfr : ∀ x, (x < a ∨ e + 8 ≤ x) → (∀ c ∈ pre ++ run ++ post, ¬ LinkByte c x) → s'.mem x = s.mem x) :
    Shape s' (pre ++ mid ++ post) := by
  have hl := h.layout
  have hpr : Layout s.heapStart (pre ++ run) e := layout_append.mpr ⟨a, hpre, hrun⟩
  have hpl : Layout e post (s.brk - 8) := hl.right hpr
  have hle := hpre.le
  -- bytes outside the stretch that are tags of old blocks keep their value
  have htag : ∀ d ∈ pre ++ run ++ post, ∀ x, d.Tag x → (x < a ∨ e + 8 ≤ x) → s'.mem x = s.mem x :=
    fun d hd x hx hout => hfr x hout fun c hc hcx => hl.tag_not_linkByte hc hd hcx hx
  have hmarked := h.marked
  rw [marked_append, marked_append] at hmarked
  refine ⟨hf.lo ▸ hf.heapStart ▸ h.start, hf.brk ▸ h.top, ?_, ?_, ?_, ?_⟩
  · -- the prologue
    have := h.start
    rw [hf.heapStart, readWord_congr fun x h1 h2 => hfr x (by omega) fun c hc hcx => by
      have := (hl.bounds hc).1; have := hcx.bounds; omega]
    exact h.prologue
  · rw [hf.heapStart, hf.brk]
    exact layout_append.mpr ⟨e, layout_append.mpr ⟨a, hpre, hmid⟩, hpl⟩
  · rw [marked_append, marked_append]
    refine ⟨⟨hmarked.1.1.congr hpre fun d hd x hx => htag d (by simp [hd]) x hx (by
      have := (hpre.bounds hd).2.1; have := Block.tag_bounds (hpre.bounds hd).2.2.1 hx; omega), hmark⟩, ?_⟩
    cases post with
    | nil => trivial
    | cons c rest =>
      have hc := hmarked.2
      refine ⟨⟨by rw [hpl.1]; exact hnext, fun h' => absurd (hpost c rfl) (by simp [h'])⟩, ?_⟩
      exact hc.2.congr hpl.2.2.2 fun d hd x hx => htag d (by simp [hd]) x hx (by
        have := (hpl.2.2.2.bounds hd).1; have := Block.tag_bounds (hpl.2.2.2.bounds hd).2.2.1 hx
        have := hpl.2.1; simp only [Block.last] at *; omega)
  · -- the epilogue
    rw [hf.brk]
    cases post with
    | nil =>
      have he : e = s.brk - 8 := hpl
      rw [← he, hnext]
      simp [epilogueWord, Block.hdr]
    | cons c rest =>
      have := hpl.2.1; have := hpl.2.2.2.le; have := hpl.1
      rw [readWord_congr fun x h1 h2 => hfr x (by omega) fun d hd hdx => by
        have := hdx.bounds; have := hl.bounds hd; omega, h.epilogue]
      simp only [epilogueWord, prevBits_append_cons]

end MallocSim
