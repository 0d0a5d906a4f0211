import MallocSim.L2Machine.Calls
import MallocSim.L4Api.Grow

/-!
# `find_fit`

A 16-byte request takes the head of the mini list when there is one.
Otherwise the classes from the request's own upwards are tried in turn; in a
class's list the first block large enough anchors a window of itself and the
(at most) 20 blocks after it, and the fit is the first block of least size
among the window's blocks that are large enough (`listFit`, stated with
`List.argmin`). The code computes the window by a fold over the list's link
words (`betterFit`), here `bestFit` over the list's blocks.

Results:
- `findFit_eq`: the code's `find_fit` is the abstract search, mapped to
  addresses, in every represented heap.
- `Heap.findFit_mem`: what the search returns is a free block on the list of
  its size, large enough.
- `Heap.findFit_eq_none`: the search fails exactly when no free block is
  large enough.
-/
namespace MallocSim

/-! ## The abstract search -/

/-- The fit in one segregated list: the first block of at least `a` bytes
anchors a window of itself and the (at most) 20 blocks after it; the fit is
the first block of least size among the window's blocks of at least `a`
bytes. -/
def listFit (a : Nat) (l : List Block) : Option Block :=
  match l.dropWhile (fun c => c.size < a) with
  | [] => none
  | w => ((w.take 21).filter fun c => a ≤ c.size).argmin Block.size

/-- `find_fit(a)` on the abstract heap: the head of the mini list for a
16-byte request when it has one, else the fit in the lowest class, from
`a`'s own, whose list has a block of at least `a` bytes. -/
def Heap.findFit (H : Heap) (a : Nat) : Option Block :=
  if a = minBlockSize ∧ H.lists none ≠ [] then (H.lists none).head?
  else (List.range' (determineSegIndex a) (segListLen - determineSegIndex a)).findSome? fun i =>
    listFit a (H.lists (some i))

/-- The compare loop of `find_fit` (mm.c:986-1003) over the blocks of the
window. -/
def bestFit (a : Nat) (best : Block) : List Block → Block
  | [] => best
  | c :: cs => bestFit a (if c.size < best.size ∧ a ≤ c.size then c else best) cs

/-! ## The window -/

theorem foldl_argAux_filter (a : Nat) (best : Block) (l : List Block) :
    (l.filter fun c => a ≤ c.size).foldl (List.argAux fun b c => b.size < c.size) (some best) =
      some (bestFit a best l) := by
  induction l generalizing best with
  | nil => rfl
  | cons c cs ih =>
    by_cases hc : a ≤ c.size
    · rw [List.filter_cons_of_pos (by simpa using hc), List.foldl_cons, bestFit]
      simp only [List.argAux, hc, and_true]
      split_ifs <;> exact ih _
    · rw [List.filter_cons_of_neg (by simpa using hc), bestFit, if_neg (fun h => hc h.2)]
      exact ih _

theorem listFit_cons {a : Nat} {A : Block} {rest : List Block} (hA : a ≤ A.size) :
    listFit a (A :: rest) = some (bestFit a A (rest.take 20)) := by
  have hd : (A :: rest).dropWhile (fun c => c.size < a) = A :: rest := by
    simp [List.dropWhile, Nat.not_lt.mpr hA]
  rw [listFit, hd]
  simp only [List.take_succ_cons, List.argmin]
  rw [List.filter_cons_of_pos (by simpa using hA), List.foldl_cons]
  exact foldl_argAux_filter a A _

theorem bestFit_mem {a : Nat} {best : Block} (hb : a ≤ best.size) (l : List Block) :
    bestFit a best l ∈ best :: l ∧ a ≤ (bestFit a best l).size := by
  induction l generalizing best with
  | nil => exact ⟨List.mem_cons_self _ _, hb⟩
  | cons c l ih =>
    rw [bestFit]
    split_ifs with hc
    · obtain ⟨h1, h2⟩ := ih hc.2
      exact ⟨List.mem_cons_of_mem _ h1, h2⟩
    · obtain ⟨h1, h2⟩ := ih hb
      refine ⟨?_, h2⟩
      rcases List.mem_cons.mp h1 with e | e
      · rw [e]; exact List.mem_cons_self _ _
      · exact List.mem_cons_of_mem _ (List.mem_cons_of_mem _ e)

theorem listFit_cons_of_lt {a : Nat} {c : Block} {l : List Block} (h : c.size < a) :
    listFit a (c :: l) = listFit a l := by
  rw [listFit, listFit, List.dropWhile_cons_of_pos (by simpa using h)]

theorem listFit_eq_none {a : Nat} {l : List Block} : listFit a l = none ↔ ∀ c ∈ l, c.size < a := by
  induction l with
  | nil => simp [listFit]
  | cons c l ih =>
    by_cases hc : c.size < a
    · simp [listFit_cons_of_lt hc, ih, hc]
    · simp [listFit_cons (Nat.le_of_not_lt hc), hc]

theorem listFit_mem {a : Nat} {l : List Block} {F : Block} (h : listFit a l = some F) :
    F ∈ l ∧ a ≤ F.size := by
  induction l with
  | nil => simp [listFit] at h
  | cons c l ih =>
    by_cases hc : c.size < a
    · rw [listFit_cons_of_lt hc] at h
      exact ⟨List.mem_cons_of_mem _ (ih h).1, (ih h).2⟩
    · rw [listFit_cons (Nat.le_of_not_lt hc), Option.some.injEq] at h
      subst h
      obtain ⟨h1, h2⟩ := bestFit_mem (Nat.le_of_not_lt hc) (l.take 20)
      exact ⟨List.cons_subset_cons _ (List.take_subset _ _) h1, h2⟩

/-! ## What the search finds -/

/-- What the abstract search returns is a free block of the heap, on the
list of its size, of at least `a` bytes. -/
theorem Heap.findFit_mem {H : Heap} {a : Nat} {F : Block} (hW : H.WF) (h : H.findFit a = some F) :
    F ∈ H.lists (listIndex F.size) ∧ F ∈ H.blocks ∧ F.alloc = false ∧ a ≤ F.size := by
  unfold Heap.findFit at h
  split_ifs at h with hm
  · have hF : F ∈ H.lists none := List.mem_of_mem_head? h
    obtain ⟨h1, h2, h3⟩ := (hW.mem_lists none F).mp hF
    exact ⟨h3 ▸ hF, h1, h2, by rw [hm.1, listIndex_none.mp h3]⟩
  · obtain ⟨i, -, hi⟩ := List.exists_of_findSome?_eq_some h
    obtain ⟨hF, haF⟩ := listFit_mem hi
    obtain ⟨h1, h2, h3⟩ := (hW.mem_lists _ F).mp hF
    exact ⟨h3 ▸ hF, h1, h2, haF⟩

/-- The search fails exactly when no free block has `a` bytes, `a` a
positive multiple of 16. -/
theorem Heap.findFit_eq_none {H : Heap} {a : Nat} (hW : H.WF) (ha : a % 16 = 0) (ha0 : 0 < a) :
    H.findFit a = none ↔ ∀ b ∈ H.blocks, b.alloc = false → b.size < a := by
  constructor
  · intro h b hb hf
    by_contra hlt
    have hbl := (hW.mem_lists _ b).mpr ⟨hb, hf, rfl⟩
    unfold Heap.findFit at h
    cases hk : listIndex b.size with
    | none =>
      have h16 : b.size = minBlockSize := listIndex_none.mp hk
      rw [hk] at hbl
      have hne : H.lists none ≠ [] := List.ne_nil_of_mem hbl
      rw [if_pos ⟨by simp only [minBlockSize] at *; omega, hne⟩, List.head?_eq_none_iff] at h
      exact hne h
    | some i =>
      obtain ⟨-, rfl⟩ := listIndex_some.mp hk
      rw [hk] at hbl
      split_ifs at h with hm
      · exact hm.2 (List.head?_eq_none_iff.mp h)
      · have hi : determineSegIndex b.size ∈
            List.range' (determineSegIndex a) (segListLen - determineSegIndex a) := by
          have := determineSegIndex_mono (Nat.le_of_not_lt hlt)
          have := determineSegIndex_lt b.size
          rw [List.mem_range'_1]; simp only [segListLen]; omega
        exact hlt (listFit_eq_none.mp (List.findSome?_eq_none_iff.mp h _ hi) b hbl)
  · intro h
    cases hF : H.findFit a with
    | none => rfl
    | some F =>
      obtain ⟨-, h1, h2, h3⟩ := Heap.findFit_mem hW hF
      exact absurd (h F h1 h2) (by omega)

/-! ## The code's loops over the list -/

theorem betterFit_eq {m : Mem} {a left p : Nat} {best : Block} {xs : List Block}
    (hseg : Seg m p (xs.map Block.addr) 0) (hsz : ∀ c ∈ xs, getSize m c.addr = c.size) :
    betterFit m a left p best.size best.addr = (bestFit a best (xs.take (left + 1))).addr := by
  induction xs generalizing p left best with
  | nil => simp [betterFit, show p = 0 from hseg, bestFit]
  | cons c cs ih =>
    obtain ⟨rfl, hc0, hs⟩ := hseg
    have hb : (if c.size < best.size ∧ a ≤ c.size then c else best).size =
        if c.size < best.size ∧ c.size ≥ a then c.size else best.size := by split_ifs <;> rfl
    have ha : (if c.size < best.size ∧ a ≤ c.size then c else best).addr =
        if c.size < best.size ∧ c.size ≥ a then c.addr else best.addr := by split_ifs <;> rfl
    rw [betterFit, if_neg hc0, hsz c (List.mem_cons_self _ _)]
    cases left with
    | zero => simp only [decide_eq_true_eq, List.take_succ_cons, List.take_zero, bestFit, ha]
    | succ left =>
      simp only [decide_eq_true_eq, List.take_succ_cons, bestFit]
      rw [← hb, ← ha, ih hs fun d hd => hsz d (List.mem_cons_of_mem _ hd)]

theorem firstFit_eq {m : Mem} {a fuel p : Nat} {xs : List Block}
    (hseg : Seg m p (xs.map Block.addr) 0) (hsz : ∀ c ∈ xs, getSize m c.addr = c.size)
    (hf : xs.length < fuel) : firstFit m a fuel p = (listFit a xs).map Block.addr := by
  induction xs generalizing p fuel with
  | nil =>
    obtain ⟨fuel, rfl⟩ : ∃ k, fuel = k + 1 := ⟨fuel - 1, by simp at hf; omega⟩
    simp [firstFit, show p = 0 from hseg, listFit]
  | cons c cs ih =>
    obtain ⟨fuel, rfl⟩ : ∃ k, fuel = k + 1 := ⟨fuel - 1, by simp at hf; omega⟩
    obtain ⟨rfl, hc0, hs⟩ := hseg
    rw [firstFit, if_neg hc0, hsz c (List.mem_cons_self _ _)]
    by_cases hc : c.size ≥ a
    · rw [if_pos hc, listFit_cons hc, betterFit_eq (show Seg _ _ ((c :: cs).map Block.addr) 0 from ⟨rfl, hc0, hs⟩) hsz]
      simp [List.take_succ_cons, bestFit]
    · rw [if_neg hc, ih hs (fun d hd => hsz d (List.mem_cons_of_mem _ hd)) (by simpa using hf)]
      simp [listFit, List.dropWhile, Nat.lt_of_not_le hc]

theorem findSome?_eq_map {α β γ : Type} {f : α → Option γ} {g : α → Option β} {h : β → γ} {l : List α}
    (hfg : ∀ i ∈ l, f i = (g i).map h) : l.findSome? f = (l.findSome? g).map h := by
  induction l with
  | nil => rfl
  | cons i l ih =>
    rw [List.findSome?_cons, List.findSome?_cons, hfg i (List.mem_cons_self _ _)]
    cases g i <;> simp [ih fun j hj => hfg j (List.mem_cons_of_mem _ hj)]

/-! ## `find_fit` against the abstract search -/

theorem Repr.firstFit_seg {s : State} {H : Heap} (hR : Repr s H) (a : Nat) {i : Nat} (hi : i < segListLen) :
    firstFit s.mem a loopFuel (s.segmentList i) = (listFit a (H.lists (some i))).map Block.addr := by
  have hsub : ∀ c ∈ H.lists (some i), c ∈ H.blocks := fun c hc => ((hR.wf.mem_lists _ c).mp hc).1
  have hlen := ((hR.wf.nodup (some i)).subperm hsub).length_le
  have := hR.shape.layout.length_le; have := hR.shape.top
  exact firstFit_eq (hR.lists.seg i hi).seg (fun c hc => (hR.shape.get_mem (hsub c hc)).1)
    (by unfold loopFuel; omega)

/-- `find_fit(a)` returns the address of the abstract search's block, or
NULL when it finds none. -/
theorem findFit_eq {s : State} {H : Heap} (hR : Repr s H) (a : Nat) :
    findFit s a = ((H.findFit a).map Block.addr).getD 0 := by
  have hseg : (List.range' (determineSegIndex a) (segListLen - determineSegIndex a)).findSome?
      (fun i => firstFit s.mem a loopFuel (s.segmentList i)) =
      ((List.range' (determineSegIndex a) (segListLen - determineSegIndex a)).findSome?
        fun i => listFit a (H.lists (some i))).map Block.addr :=
    findSome?_eq_map fun i hi => hR.firstFit_seg a (by rw [List.mem_range'_1] at hi; omega)
  have hmini := hR.lists.mini
  simp only [findFit, findMiniFit, Heap.findFit]
  cases hm : H.lists none with
  | nil =>
    rw [hm] at hmini
    simp only [List.map_nil] at hmini
    simp [show s.miniListStart = 0 from hmini, hseg]
  | cons F rest =>
    rw [hm] at hmini
    obtain ⟨h1, h2, -⟩ := hmini
    by_cases ha : a = minBlockSize
    · simp [ha, h1, h2]
    · simp [ha, hseg]

end MallocSim
