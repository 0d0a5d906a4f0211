import MallocSim.L2Machine.FreeLists
import MallocSim.L3Heap.Layout

/-!
# Free lists as list segments in memory

`Seg m p xs q`: following `next_free` from `p` visits the non-NULL nodes
`xs` and arrives at `q`. `DSeg m q p xs q' p'` adds the back links of a
segregated list: each node's `prev_free` is the node before it (`q` for the
first), and the walk ends at `p'` with `q'` the last node. A whole list is a
segment ending at NULL (`Seg m p xs 0`, `DChain m p xs`).

A segment only depends on the link words of its own nodes (`Seg.congr`,
`DSeg.congr`), so a write elsewhere keeps it. Nodes of one list are at least
16 bytes apart (`Spaced`), so one node's links never overlap another's.
-/
namespace MallocSim

/-- `x` is a byte of the `next_free` word of node `y`. -/
def NextField (y x : Nat) : Prop := y + 8 ≤ x ∧ x < y + 16

/-- `x` is a byte of the `next_free` or `prev_free` word of node `y`. -/
def Links (y x : Nat) : Prop := y + 8 ≤ x ∧ x < y + 24

/-- Nodes are pairwise at least 16 bytes apart and below `2 ^ 64`. -/
def Spaced (xs : List Nat) : Prop :=
  xs.Pairwise (fun y z => y + 16 ≤ z ∨ z + 16 ≤ y) ∧ ∀ y ∈ xs, y < 2 ^ 64

instance (xs : List Nat) : Decidable (Spaced xs) :=
  inferInstanceAs (Decidable (xs.Pairwise (fun y z => y + 16 ≤ z ∨ z + 16 ≤ y) ∧ ∀ y ∈ xs, y < 2 ^ 64))

/-- `next_free` links from `p` visit `xs` and arrive at `q`. -/
def Seg (m : Mem) : Nat → List Nat → Nat → Prop
  | p, [], q => p = q
  | p, x :: xs, q => p = x ∧ x ≠ 0 ∧ Seg m (nextFree m x) xs q

/-- Doubly linked segment: from `p`, whose `prev_free` must be `q`, through
`xs`, arriving at `p'` with last node `q'`. -/
def DSeg (m : Mem) : Nat → Nat → List Nat → Nat → Nat → Prop
  | q, p, [], q', p' => q = q' ∧ p = p'
  | q, p, x :: xs, q', p' => p = x ∧ x ≠ 0 ∧ prevFree m x = q ∧ DSeg m x (nextFree m x) xs q' p'

/-- A whole segregated list from the head `p`: back link NULL at the head,
`next_free` NULL at the end. -/
def DChain (m : Mem) (p : Nat) (xs : List Nat) : Prop := DSeg m 0 p xs (xs.getLastD 0) 0

instance decSeg (m : Mem) : (p : Nat) → (xs : List Nat) → (q : Nat) → Decidable (Seg m p xs q)
  | p, [], q => inferInstanceAs (Decidable (p = q))
  | _, x :: xs, q => @instDecidableAnd _ _ _ (@instDecidableAnd _ _ _ (decSeg m (nextFree m x) xs q))

instance decDSeg (m : Mem) : (q p : Nat) → (xs : List Nat) → (q' p' : Nat) → Decidable (DSeg m q p xs q' p')
  | q, p, [], q', p' => inferInstanceAs (Decidable (q = q' ∧ p = p'))
  | _, _, x :: xs, q', p' =>
    @instDecidableAnd _ _ _ (@instDecidableAnd _ _ _ (@instDecidableAnd _ _ _ (decDSeg m x (nextFree m x) xs q' p')))

instance (m : Mem) (p : Nat) (xs : List Nat) : Decidable (DChain m p xs) :=
  inferInstanceAs (Decidable (DSeg m 0 p xs (xs.getLastD 0) 0))

/-! ## Link words after a write -/

theorem nextFree_writeWord_of_disjoint {m : Mem} {w y : Nat} (v : Word)
    (h : w + 8 ≤ y + 8 ∨ y + 16 ≤ w) : nextFree (writeWord m w v) y = nextFree m y := by
  rw [nextFree, readWord_writeWord_of_disjoint _ _ (by omega), nextFree]

theorem prevFree_writeWord_of_disjoint {m : Mem} {w y : Nat} (v : Word)
    (h : w + 8 ≤ y + 16 ∨ y + 24 ≤ w) : prevFree (writeWord m w v) y = prevFree m y := by
  rw [prevFree, readWord_writeWord_of_disjoint _ _ (by omega), prevFree]

@[simp] theorem nextFree_setNextFree_same {m : Mem} {y p : Nat} (hp : p < 2 ^ 64) :
    nextFree (setNextFree m y p) y = p := by
  rw [nextFree, setNextFree, readWord_writeWord_same, ptr_ofNat_toNat hp]

@[simp] theorem prevFree_setPrevFree_same {m : Mem} {y p : Nat} (hp : p < 2 ^ 64) :
    prevFree (setPrevFree m y p) y = p := by
  rw [prevFree, setPrevFree, readWord_writeWord_same, ptr_ofNat_toNat hp]

/-! ## Segments -/

theorem seg_append {m : Mem} {p r : Nat} {xs ys : List Nat} :
    Seg m p (xs ++ ys) r ↔ ∃ q, Seg m p xs q ∧ Seg m q ys r := by
  induction xs generalizing p with
  | nil => simp [Seg]
  | cons x xs ih =>
    rw [List.cons_append]
    simp only [Seg, ih]
    constructor
    · rintro ⟨rfl, h1, q, h2, h3⟩; exact ⟨q, ⟨rfl, h1, h2⟩, h3⟩
    · rintro ⟨q, ⟨rfl, h1, h2⟩, h3⟩; exact ⟨rfl, h1, q, h2, h3⟩

theorem dseg_append {m : Mem} {q p q'' p'' : Nat} {xs ys : List Nat} :
    DSeg m q p (xs ++ ys) q'' p'' ↔ ∃ q' p', DSeg m q p xs q' p' ∧ DSeg m q' p' ys q'' p'' := by
  induction xs generalizing q p with
  | nil =>
    simp only [List.nil_append, DSeg]
    exact ⟨fun h => ⟨q, p, ⟨rfl, rfl⟩, h⟩, fun ⟨_, _, ⟨h1, h2⟩, h⟩ => h1 ▸ h2 ▸ h⟩
  | cons x xs ih =>
    rw [List.cons_append]
    simp only [DSeg, ih]
    constructor
    · rintro ⟨rfl, h1, h2, q', p', h3, h4⟩; exact ⟨q', p', ⟨rfl, h1, h2, h3⟩, h4⟩
    · rintro ⟨q', p', ⟨rfl, h1, h2, h3⟩, h4⟩; exact ⟨rfl, h1, h2, q', p', h3, h4⟩

/-- A doubly linked segment is a singly linked one. -/
theorem DSeg.seg {m : Mem} {q p q' p' : Nat} {xs : List Nat} (h : DSeg m q p xs q' p') :
    Seg m p xs p' := by
  induction xs generalizing q p with
  | nil => exact h.2
  | cons x xs ih => exact ⟨h.1, h.2.1, ih h.2.2.2⟩

/-- The end of a doubly linked segment's back links is its last node. -/
theorem DSeg.last_eq {m : Mem} {q p q' p' : Nat} {xs : List Nat} (h : DSeg m q p xs q' p') :
    q' = xs.getLastD q := by
  induction xs generalizing q p with
  | nil => exact h.1.symm
  | cons x xs ih =>
    rw [ih h.2.2.2]
    cases xs <;> rfl

theorem Seg.congr {m m' : Mem} {p q : Nat} {xs : List Nat} (h : Seg m p xs q)
    (hm : ∀ y ∈ xs, ∀ x, NextField y x → m' x = m x) : Seg m' p xs q := by
  induction xs generalizing p with
  | nil => exact h
  | cons y xs ih =>
    obtain ⟨h1, h2, h3⟩ := h
    have e : nextFree m' y = nextFree m y := by
      simp only [nextFree]
      rw [readWord_congr fun x h4 h5 => hm y (List.mem_cons_self _ _) x ⟨h4, h5⟩]
    exact ⟨h1, h2, e ▸ ih h3 fun z hz => hm z (List.mem_cons_of_mem _ hz)⟩

theorem DSeg.congr {m m' : Mem} {q p q' p' : Nat} {xs : List Nat} (h : DSeg m q p xs q' p')
    (hm : ∀ y ∈ xs, ∀ x, Links y x → m' x = m x) : DSeg m' q p xs q' p' := by
  induction xs generalizing q p with
  | nil => exact h
  | cons y xs ih =>
    obtain ⟨h1, h2, h3, h4⟩ := h
    have hy := hm y (List.mem_cons_self _ _)
    have e1 : nextFree m' y = nextFree m y := by
      simp only [nextFree]
      rw [readWord_congr fun x h5 h6 => hy x ⟨h5, by omega⟩]
    have e2 : prevFree m' y = prevFree m y := by
      simp only [prevFree]
      rw [readWord_congr fun x h5 h6 => hy x ⟨by omega, h6⟩]
    exact ⟨h1, h2, e2 ▸ h3, e1 ▸ ih h4 fun z hz => hm z (List.mem_cons_of_mem _ hz)⟩

theorem DChain.congr {m m' : Mem} {p : Nat} {xs : List Nat} (h : DChain m p xs)
    (hm : ∀ y ∈ xs, ∀ x, Links y x → m' x = m x) : DChain m' p xs :=
  DSeg.congr h hm

/-- The nodes of a segment ending at NULL are what `freeListNodes` returns. -/
theorem Seg.freeListNodes_eq {m : Mem} {p : Nat} {xs : List Nat} (h : Seg m p xs 0)
    {fuel : Nat} (hf : xs.length < fuel) : freeListNodes m fuel p = some xs := by
  induction xs generalizing p fuel with
  | nil =>
    obtain ⟨fuel, rfl⟩ : ∃ k, fuel = k + 1 := ⟨fuel - 1, by simp at hf; omega⟩
    simp [freeListNodes, show p = 0 from h]
  | cons x xs ih =>
    obtain ⟨fuel, rfl⟩ : ∃ k, fuel = k + 1 := ⟨fuel - 1, by simp at hf; omega⟩
    obtain ⟨rfl, h1, h2⟩ := h
    simp [freeListNodes, h1, ih h2 (by simpa using hf)]

/-! ## Spacing -/

theorem Spaced.nodup {xs : List Nat} (h : Spaced xs) : xs.Nodup :=
  h.1.imp fun h' => by omega

theorem Spaced.sub {xs ys : List Nat} (h : Spaced ys) (hs : xs.Sublist ys) : Spaced xs :=
  ⟨h.1.sublist hs, fun y hy => h.2 y (hs.subset hy)⟩

theorem Spaced.apart {xs : List Nat} (h : Spaced xs) {y z : Nat} (hy : y ∈ xs) (hz : z ∈ xs)
    (hne : y ≠ z) : y + 16 ≤ z ∨ z + 16 ≤ y := by
  have := h.1
  induction xs with
  | nil => cases hy
  | cons a xs ih =>
    rw [List.pairwise_cons] at this
    rcases List.mem_cons.mp hy with rfl | hy' <;> rcases List.mem_cons.mp hz with rfl | hz'
    · exact absurd rfl hne
    · exact this.1 z hz'
    · exact (this.1 y hy').symm
    · exact ih (h.sub (List.sublist_cons_self _ _)) hy' hz' this.2

end MallocSim
