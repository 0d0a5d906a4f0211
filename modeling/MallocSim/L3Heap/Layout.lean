import MallocSim.L2Machine.State

/-!
# Blocks, their layout and their boundary tags

The heap between the prologue and the epilogue is a list of blocks laid
back to back (`Layout`). Every block carries its header; a free block of at
least 32 bytes also carries a footer equal to the header (`Marked`). The
previous-block bits in a header are not stored in the abstract block: they
are computed from the block before it (`prevBits`), which is invariant 5 of
the spec.

A tag depends only on the bytes of the block's header and footer
(`Block.Tag`), so a write elsewhere keeps it (`Marked.congr`).
-/
namespace MallocSim

/-- A block of the implicit list: header address, size, allocation bit. -/
structure Block where
  addr : Nat
  size : Nat
  alloc : Bool
  deriving DecidableEq, Repr

namespace Block

/-- The address just past the block. -/
def last (b : Block) : Nat := b.addr + b.size

/-- `x` is a byte of `b`'s header, or of its footer when `b` is free and not mini. -/
def Tag (b : Block) (x : Nat) : Prop :=
  (b.addr ≤ x ∧ x < b.addr + 8) ∨
    (b.alloc = false ∧ b.size ≠ 16 ∧ b.addr + b.size - 8 ≤ x ∧ x < b.addr + b.size)

/-- The header word of `b` when the block before it has bits `pa pm`. -/
def hdr (b : Block) (pa pm : Bool) : Word := pack b.size b.alloc pa pm

/-- Header, and footer when free and not mini, as `write_block` leaves them. -/
def Marked (m : Mem) (pa pm : Bool) (b : Block) : Prop :=
  readWord m b.addr = b.hdr pa pm ∧
    (b.alloc = false → b.size ≠ 16 → readWord m (b.addr + b.size - 8) = b.hdr pa pm)

end Block

/-- `bs` lie back to back from `a` to `e`, each a multiple of 16 and at least 16 bytes. -/
def Layout : Nat → List Block → Nat → Prop
  | a, [], e => a = e
  | a, b :: bs, e => b.addr = a ∧ 16 ≤ b.size ∧ b.size % 16 = 0 ∧ Layout (a + b.size) bs e

/-- The previous-block bits seen just after `bs`, when `bs` itself sees `pa pm`. -/
def prevBits (pa pm : Bool) : List Block → Bool × Bool
  | [] => (pa, pm)
  | b :: bs => prevBits b.alloc (decide (b.size = 16)) bs

/-- Every block of `bs` is tagged, the first seeing the bits `pa pm`. -/
def Marked (m : Mem) : Bool → Bool → List Block → Prop
  | _, _, [] => True
  | pa, pm, b :: bs => b.Marked m pa pm ∧ Marked m b.alloc (decide (b.size = 16)) bs

/-! ## Splitting lists -/

theorem layout_append {a e : Nat} {xs ys : List Block} :
    Layout a (xs ++ ys) e ↔ ∃ c, Layout a xs c ∧ Layout c ys e := by
  induction xs generalizing a with
  | nil => simp [Layout]
  | cons b xs ih =>
    rw [List.cons_append]
    simp only [Layout, ih]
    constructor
    · rintro ⟨h1, h2, h3, c, h4, h5⟩; exact ⟨c, ⟨h1, h2, h3, h4⟩, h5⟩
    · rintro ⟨c, ⟨h1, h2, h3, h4⟩, h5⟩; exact ⟨h1, h2, h3, c, h4, h5⟩

theorem prevBits_append (pa pm : Bool) (xs ys : List Block) :
    prevBits pa pm (xs ++ ys) = prevBits (prevBits pa pm xs).1 (prevBits pa pm xs).2 ys := by
  induction xs generalizing pa pm with
  | nil => rfl
  | cons b xs ih => exact ih _ _

theorem marked_append {m : Mem} {pa pm : Bool} {xs ys : List Block} :
    Marked m pa pm (xs ++ ys) ↔
      Marked m pa pm xs ∧ Marked m (prevBits pa pm xs).1 (prevBits pa pm xs).2 ys := by
  induction xs generalizing pa pm with
  | nil => simp [Marked, prevBits]
  | cons b xs ih =>
    rw [List.cons_append]
    simp only [Marked, ih, prevBits, and_assoc]

theorem prevBits_concat (pa pm : Bool) (xs : List Block) (b : Block) :
    prevBits pa pm (xs ++ [b]) = (b.alloc, decide (b.size = 16)) := by
  rw [prevBits_append]; rfl

/-! ## Geometry of a layout -/

theorem Layout.le {a e : Nat} {bs : List Block} (h : Layout a bs e) : a ≤ e := by
  induction bs generalizing a with
  | nil => exact Nat.le_of_eq h
  | cons b bs ih => have := ih h.2.2.2; omega

theorem Layout.bounds {a e : Nat} {bs : List Block} (h : Layout a bs e) {b : Block}
    (hb : b ∈ bs) : a ≤ b.addr ∧ b.last ≤ e ∧ 16 ≤ b.size ∧ b.size % 16 = 0 := by
  induction bs generalizing a with
  | nil => cases hb
  | cons c bs ih =>
    obtain ⟨h1, h2, h3, h4⟩ := h
    rcases List.mem_cons.mp hb with rfl | hb
    · have := h4.le; simp only [Block.last]; omega
    · have := ih h4 hb; omega

/-- Blocks of a layout come in address order, each ending before the next starts. -/
theorem Layout.pairwise {a e : Nat} {bs : List Block} (h : Layout a bs e) :
    bs.Pairwise fun b c => b.last ≤ c.addr := by
  induction bs generalizing a with
  | nil => exact List.Pairwise.nil
  | cons b bs ih =>
    obtain ⟨h1, h2, h3, h4⟩ := h
    refine List.Pairwise.cons (fun c hc => ?_) (ih h4)
    have := (h4.bounds hc).1; simp only [Block.last]; omega

/-- Two blocks of one layout are the same block or do not overlap. -/
theorem Layout.disjoint {a e : Nat} {bs : List Block} (h : Layout a bs e) {b c : Block}
    (hb : b ∈ bs) (hc : c ∈ bs) : b = c ∨ b.last ≤ c.addr ∨ c.last ≤ b.addr := by
  induction bs generalizing a with
  | nil => cases hb
  | cons d bs ih =>
    have hp := h.pairwise
    obtain ⟨h1, h2, h3, h4⟩ := h
    rw [List.pairwise_cons] at hp
    rcases List.mem_cons.mp hb with rfl | hb' <;> rcases List.mem_cons.mp hc with rfl | hc'
    · exact .inl rfl
    · exact .inr (.inl (hp.1 c hc'))
    · exact .inr (.inr (hp.1 b hb'))
    · exact ih h4 hb' hc'

theorem Block.tag_bounds {b : Block} {x : Nat} (hs : 16 ≤ b.size) (h : b.Tag x) :
    b.addr ≤ x ∧ x < b.last := by
  simp only [Block.Tag, Block.last] at *; omega

/-! ## Frames -/

theorem Block.Marked.congr {m m' : Mem} {pa pm : Bool} {b : Block} (h : b.Marked m pa pm)
    (hs : 16 ≤ b.size) (hm : ∀ x, b.Tag x → m' x = m x) : b.Marked m' pa pm := by
  refine ⟨?_, fun h1 h2 => ?_⟩
  · rw [readWord_congr fun x h1 h2 => hm x (.inl ⟨h1, h2⟩)]; exact h.1
  · rw [readWord_congr fun x h3 h4 => hm x (.inr ⟨h1, h2, h3, by omega⟩)]; exact h.2 h1 h2

/-- Tags survive any change of memory away from the tag bytes. -/
theorem Marked.congr {m m' : Mem} {pa pm : Bool} {a e : Nat} {bs : List Block}
    (hl : Layout a bs e) (h : Marked m pa pm bs) (hm : ∀ b ∈ bs, ∀ x, b.Tag x → m' x = m x) :
    Marked m' pa pm bs := by
  induction bs generalizing a pa pm with
  | nil => trivial
  | cons b bs ih =>
    obtain ⟨h1, h2, h3, h4⟩ := hl
    exact ⟨h.1.congr h2 (hm b (List.mem_cons_self _ _)),
      ih h4 h.2 fun c hc => hm c (List.mem_cons_of_mem _ hc)⟩

/-- Tags survive any change of memory outside `[a, e)`. -/
theorem Marked.congr_outside {m m' : Mem} {pa pm : Bool} {a e : Nat} {bs : List Block}
    (hl : Layout a bs e) (h : Marked m pa pm bs) (hm : ∀ x, a ≤ x → x < e → m' x = m x) :
    Marked m' pa pm bs :=
  h.congr hl fun b hb x hx => by
    have := hl.bounds hb
    have := Block.tag_bounds this.2.2.1 hx
    exact hm x (by omega) (by omega)

end MallocSim
