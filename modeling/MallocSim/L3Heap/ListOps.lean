import MallocSim.L3Heap.Chains

/-!
# The free-list operations as operations on node sequences

Read through `Seg` and `DChain`, `add_to_mini_free_list` and
`add_to_free_list` push a node on the front of its list, and
`remove_from_mini_free_list` and `remove_from_free_list` erase it, keeping
the order of the other nodes. Each writes only link words of nodes of the
list it changes, the node it adds or removes included.

`remove_from_mini_free_list` searches the list from its head
(`miniSearch_eq`): it finds the node after as many steps as there are nodes
before it, fewer than the fuel `2 ^ 64` because the nodes are distinct
non-NULL addresses below `2 ^ 64` (`Spaced.length_lt`).

Results:
- `addToMiniFreeList_spec`, `removeFromMiniFreeList_spec`: push and erase on the mini list.
- `addToSegList_spec`, `removeFromSegList_spec`: push and erase on a segregated list.
-/
namespace MallocSim

/-! ## Nodes of a list -/

theorem Seg.zero_not_mem {m : Mem} {p q : Nat} {xs : List Nat} (h : Seg m p xs q) : 0 ∉ xs := by
  induction xs generalizing p with
  | nil => simp
  | cons x xs ih =>
    obtain ⟨-, h1, h2⟩ := h
    simp only [List.mem_cons, not_or]
    exact ⟨Ne.symm h1, ih h2⟩

/-- Distinct non-NULL addresses below `2 ^ 64` are fewer than `2 ^ 64`. -/
theorem Spaced.length_lt {xs : List Nat} (h : Spaced xs) (h0 : 0 ∉ xs) : xs.length < 2 ^ 64 := by
  have hsub : xs.toFinset ⊆ (Finset.range (2 ^ 64)).erase 0 := fun y hy => by
    rw [List.mem_toFinset] at hy
    exact Finset.mem_erase.mpr ⟨fun e => h0 (e ▸ hy), Finset.mem_range.mpr (h.2 y hy)⟩
  have hcard := Finset.card_le_card hsub
  rw [List.toFinset_card_of_nodup h.nodup,
    Finset.card_erase_of_mem (Finset.mem_range.mpr (Nat.two_pow_pos 64)), Finset.card_range] at hcard
  omega

/-- A node of a list without repeats cuts it into the nodes before it and the nodes after it. -/
theorem split_of_mem {xs : List Nat} (hn : xs.Nodup) {b : Nat} (hb : b ∈ xs) :
    ∃ l1 l2, xs = l1 ++ b :: l2 ∧ b ∉ l1 ∧ b ∉ l2 := by
  obtain ⟨l1, l2, rfl⟩ := List.append_of_mem hb
  rw [List.nodup_append] at hn
  exact ⟨l1, l2, rfl, fun h1 => hn.2.2 h1 (List.mem_cons_self _ _), (List.nodup_cons.mp hn.2.1).1⟩

theorem erase_middle {l1 l2 : List Nat} {b : Nat} (h : b ∉ l1) : (l1 ++ b :: l2).erase b = l1 ++ l2 := by
  rw [List.erase_append_right _ h, List.erase_cons_head]

/-- The link words of two nodes of a spaced list do not overlap. -/
theorem Spaced.not_links {xs : List Nat} (h : Spaced xs) {y z x : Nat} (hy : y ∈ xs) (hz : z ∈ xs)
    (hne : y ≠ z) (hx : Links y x) : x < z + 8 ∨ z + 24 ≤ x := by
  have := h.apart hy hz hne
  simp only [Links] at hx
  omega

/-! ## The mini list -/

theorem addToMiniFreeList_eq (s : State) (b : Nat) :
    addToMiniFreeList s b = { s with mem := setNextFree s.mem b s.miniListStart, miniListStart := b } := by
  unfold addToMiniFreeList
  split
  · rename_i h; rw [h]
  · rfl

/-- `add_to_mini_free_list` pushes `b` on the mini list; it writes `b`'s `next_free` only. -/
theorem addToMiniFreeList_spec {s : State} {b : Nat} {xs : List Nat}
    (h : Seg s.mem s.miniListStart xs 0) (hb : b ≠ 0) (hp : s.miniListStart < 2 ^ 64)
    (hsep : ∀ y ∈ xs, b + 8 ≤ y ∨ y + 8 ≤ b) :
    addToMiniFreeList s b = { s with mem := setNextFree s.mem b s.miniListStart, miniListStart := b } ∧
      Seg (setNextFree s.mem b s.miniListStart) b (b :: xs) 0 := by
  refine ⟨addToMiniFreeList_eq s b, rfl, hb, ?_⟩
  rw [nextFree_setNextFree_same hp]
  exact h.congr fun y hy x hx => writeWord_of_disjoint _ (by have := hsep y hy; simp only [NextField] at hx; omega)

/-- The search loop of `remove_from_mini_free_list` stops at `b` with the node before it. -/
theorem miniSearch_eq {m : Mem} {b : Nat} {l1 l2 : List Nat} {p q fuel : Nat}
    (h : Seg m p (l1 ++ b :: l2) 0) (hb : b ∉ l1) (hf : l1.length < fuel) :
    miniSearch m b fuel p q = (b, l1.getLastD q) := by
  induction l1 generalizing p q fuel with
  | nil =>
    obtain ⟨fuel, rfl⟩ : ∃ k, fuel = k + 1 := ⟨fuel - 1, by simp at hf; omega⟩
    obtain ⟨rfl, -, -⟩ := h
    simp [miniSearch]
  | cons x l1 ih =>
    obtain ⟨fuel, rfl⟩ : ∃ k, fuel = k + 1 := ⟨fuel - 1, by simp at hf; omega⟩
    rw [List.cons_append] at h
    obtain ⟨rfl, h1, h2⟩ := h
    have hxb : p ≠ b := fun e => hb (e ▸ List.mem_cons_self _ _)
    rw [miniSearch, if_pos ⟨h1, hxb⟩, ih h2 (fun h' => hb (List.mem_cons_of_mem _ h'))
      (by simpa using hf), List.getLastD_cons]

/-- `remove_from_mini_free_list` erases `b` from the mini list. It writes only
the `next_free` word of the node before `b`; NULL ends the search, so the
loop stops within the fuel. -/
theorem removeFromMiniFreeList_spec {s : State} {b : Nat} {xs : List Nat}
    (h : Seg s.mem s.miniListStart xs 0) (hsp : Spaced xs) (hb : b ∈ xs) :
    ∃ m' h', removeFromMiniFreeList s b = { s with mem := m', miniListStart := h' } ∧
      Seg m' h' (xs.erase b) 0 ∧ ∀ x, (∀ y ∈ xs, ¬ NextField y x) → m' x = s.mem x := by
  obtain ⟨l1, l2, rfl, hb1, -⟩ := split_of_mem hsp.nodup hb
  have h0 := h.zero_not_mem
  have hlen : l1.length < loopFuel := by
    have := hsp.length_lt h0
    simp only [List.length_append, List.length_cons] at this
    exact Nat.lt_of_le_of_lt (by omega) this
  obtain ⟨q, hq1, hq2⟩ := seg_append.mp h
  obtain ⟨hqb, hb0, hrest⟩ := hq2
  rw [erase_middle hb1]
  unfold removeFromMiniFreeList
  rw [miniSearch_eq h hb1 hlen]
  simp only [if_neg hb0]
  rcases l1.eq_nil_or_concat with rfl | ⟨l1, y, rfl⟩
  · -- `b` is the head: the head moves to `b`'s successor
    exact ⟨s.mem, nextFree s.mem b, by simp, hrest, fun _ _ => rfl⟩
  · -- `y` precedes `b`: `y.next_free` skips `b`
    rw [List.concat_eq_append] at *
    have hy : y ∈ l1 ++ [y] ++ b :: l2 := by simp
    have hy0 : y ≠ 0 := fun e => h0 (e ▸ hy)
    obtain ⟨r, hr1, hry, -, -⟩ := seg_append.mp hq1
    subst r
    rw [List.getLastD_concat, if_neg hy0]
    have hframe : ∀ z ∈ l1 ++ [y] ++ b :: l2, z ≠ y → ∀ x, NextField z x →
        setNextFree s.mem y (nextFree s.mem b) x = s.mem x := fun z hz hzy x hx =>
      writeWord_of_disjoint _ (by have := hsp.apart hz hy hzy; simp only [NextField] at hx; omega)
    have hdisj := (List.nodup_append.mp hsp.nodup).2.2
    have hl1 : y ∉ l1 := fun hy' =>
      (List.nodup_append.mp (List.nodup_append.mp hsp.nodup).1).2.2 hy' (List.mem_singleton_self y)
    refine ⟨setNextFree s.mem y (nextFree s.mem b), s.miniListStart, rfl, ?_, ?_⟩
    · refine seg_append.mpr ⟨nextFree s.mem b, seg_append.mpr ⟨y, hr1.congr fun z hz =>
        hframe z (by simp [hz]) (fun e => hl1 (e ▸ hz)), rfl, hy0, ?_⟩, hrest.congr fun z hz =>
        hframe z (by simp [hz]) ?_⟩
      · exact nextFree_setNextFree_same (readWord s.mem (b + 8)).isLt
      · exact fun e => hdisj (by simp : y ∈ l1 ++ [y]) (e ▸ List.mem_cons_of_mem b hz)
    · intro x hx
      exact writeWord_of_disjoint _ (by have := hx y hy; simp only [NextField] at this; omega)

/-! ## The segregated lists -/

theorem Seg.head_mem {m : Mem} {p : Nat} {xs : List Nat} (h : Seg m p xs 0) (hp : p ≠ 0) : p ∈ xs := by
  cases xs with
  | nil => exact absurd h hp
  | cons x xs => exact h.1 ▸ List.mem_cons_self _ _

theorem getLastD_mem {l : List Nat} (h : l.getLastD 0 ≠ 0) : l.getLastD 0 ∈ l := by
  rcases l.eq_nil_or_concat with rfl | ⟨l, y, rfl⟩
  · exact absurd rfl h
  · simp [List.getLastD_concat]

/-- The segregated branch of `add_to_free_list` pushes `b` on `segment_list[i]`;
it writes `b`'s links and the old head's `prev_free`. -/
theorem addToSegList_spec {s : State} {b i : Nat} {xs : List Nat}
    (hsz : getSize s.mem b ≠ minBlockSize) (hi : determineSegIndex (getSize s.mem b) = i)
    (h : DChain s.mem (s.segmentList i) xs) (hsp : Spaced (b :: xs)) (hb : b ≠ 0) :
    ∃ m', addToFreeList s b = { s with mem := m', segmentList := Function.update s.segmentList i b } ∧
      DChain m' b (b :: xs) ∧ ∀ x, (∀ y ∈ b :: xs, ¬ Links y x) → m' x = s.mem x := by
  have hb64 := hsp.2 b (List.mem_cons_self _ _)
  have hbx : b ∉ xs := (List.nodup_cons.mp hsp.nodup).1
  unfold addToFreeList
  simp only [if_neg hsz, hi]
  split
  · -- empty list: `b` becomes the only node
    rename_i h0
    obtain rfl : xs = [] := by
      cases xs with
      | nil => rfl
      | cons x xs => exact absurd (h0 ▸ h.1).symm h.2.1
    refine ⟨_, rfl, ⟨rfl, hb, ?_, rfl, ?_⟩, fun x hx => ?_⟩
    · simp (disch := omega) only [prevFree, setNextFree, setPrevFree, readWord_writeWord_of_disjoint,
        readWord_writeWord_same, ptr_ofNat_toNat]
    · simp [nextFree, setNextFree]
    · have := hx b (List.mem_cons_self _ _)
      simp only [Links] at this
      simp (disch := omega) only [setNextFree, setPrevFree, writeWord_of_disjoint]
  · -- `b` goes in front of the old head `p`
    rename_i hp0
    obtain ⟨p, rest, rfl⟩ : ∃ p rest, xs = p :: rest := by
      cases xs with
      | nil => exact absurd h.2 hp0
      | cons x xs => exact ⟨x, xs, rfl⟩
    obtain ⟨hp, hp0', hpq, htail⟩ := h
    simp only [hp] at hp0' hpq htail ⊢
    have hp64 := hsp.2 p (by simp)
    have hpx : p ∉ rest := (List.nodup_cons.mp (List.nodup_cons.mp hsp.nodup).2).1
    have hbp := hsp.apart (List.mem_cons_self _ _) (by simp) (fun e => hbx (e ▸ List.mem_cons_self _ _))
    have hfar : ∀ y ∈ rest, ∀ x, Links y x → (x < b + 8 ∨ b + 24 ≤ x) ∧ (x < p + 8 ∨ p + 24 ≤ x) :=
      fun y hy x hx => ⟨hsp.not_links (by simp [hy]) (List.mem_cons_self _ _)
        (fun e => hbx (e ▸ by simp [hy])) hx, hsp.not_links (by simp [hy]) (by simp)
        (fun e => hpx (e ▸ hy)) hx⟩
    have hnb : nextFree (setPrevFree (setPrevFree (setNextFree s.mem b p) p b) b 0) b = p := by
      simp (disch := omega) only [nextFree, setNextFree, setPrevFree, readWord_writeWord_of_disjoint,
        readWord_writeWord_same, ptr_ofNat_toNat]
    refine ⟨_, rfl, ⟨rfl, hb, ?_, ?_⟩, fun x hx => ?_⟩
    · simp (disch := omega) only [prevFree, setNextFree, setPrevFree, readWord_writeWord_of_disjoint,
        readWord_writeWord_same, ptr_ofNat_toNat]
    · rw [hnb, List.getLastD_cons, List.getLastD_cons]
      rw [List.getLastD_cons] at htail
      refine ⟨rfl, hp0', ?_, ?_⟩
      · simp (disch := omega) only [prevFree, setNextFree, setPrevFree, readWord_writeWord_of_disjoint,
          readWord_writeWord_same, ptr_ofNat_toNat]
      · have hnp : nextFree (setPrevFree (setPrevFree (setNextFree s.mem b p) p b) b 0) p = nextFree s.mem p := by
          simp (disch := omega) only [nextFree, setNextFree, setPrevFree, readWord_writeWord_of_disjoint]
        rw [hnp]
        exact htail.congr fun y hy x hx => by
          have := hfar y hy x hx
          simp (disch := omega) only [setNextFree, setPrevFree, writeWord_of_disjoint]
    · have h1 := hx b (List.mem_cons_self _ _)
      have h2 := hx p (by simp)
      simp only [Links] at h1 h2
      simp (disch := omega) only [setNextFree, setPrevFree, writeWord_of_disjoint]

theorem removeFromSegList_eq {s : State} {b i : Nat}
    (hsz : getSize s.mem b ≠ minBlockSize) (hi : determineSegIndex (getSize s.mem b) = i) :
    removeFromFreeList s b =
      let nx := nextFree s.mem b
      let q := prevFree s.mem b
      let m1 := if q ≠ 0 then setNextFree s.mem q nx else s.mem
      let m2 := if nx ≠ 0 then setPrevFree m1 nx q else m1
      { s with mem := setPrevFree (setNextFree m2 b 0) b 0,
               segmentList := Function.update s.segmentList i (if q ≠ 0 then s.segmentList i else nx) } := by
  unfold removeFromFreeList
  simp only [if_neg hsz, hi]
  split_ifs <;> simp

/-! The memory the segregated branch of `remove_from_free_list` leaves: the
node `q` before `b` now points to the node `nx` after it and back, and `b`'s
links are cleared. -/

section Unlink

variable {m : Mem} {b q nx : Nat}

theorem unlink_frame {x : Nat} (h1 : x < b + 8 ∨ b + 24 ≤ x) (h2 : q = 0 ∨ x < q + 8 ∨ q + 16 ≤ x)
    (h3 : nx = 0 ∨ x < nx + 16 ∨ nx + 24 ≤ x) :
    setPrevFree (setNextFree (if nx ≠ 0 then setPrevFree (if q ≠ 0 then setNextFree m q nx else m) nx q
      else if q ≠ 0 then setNextFree m q nx else m) b 0) b 0 x = m x := by
  simp only [setNextFree, setPrevFree]
  split_ifs <;> simp (disch := omega) only [writeWord_of_disjoint]

variable (hq64 : q < 2 ^ 64) (hnx64 : nx < 2 ^ 64)
include hq64 hnx64

theorem unlink_next (hqb : q = 0 ∨ q + 16 ≤ b ∨ b + 16 ≤ q)
    (hqnx : q = 0 ∨ nx = 0 ∨ q + 16 ≤ nx ∨ nx + 16 ≤ q) (h0 : q ≠ 0) :
    nextFree (setPrevFree (setNextFree (if nx ≠ 0 then setPrevFree (if q ≠ 0 then setNextFree m q nx else m)
      nx q else if q ≠ 0 then setNextFree m q nx else m) b 0) b 0) q = nx := by
  simp only [nextFree, setNextFree, setPrevFree]
  split_ifs <;> simp (disch := omega) only [readWord_writeWord_of_disjoint, readWord_writeWord_same,
    ptr_ofNat_toNat]

theorem unlink_prev (hnb : nx = 0 ∨ nx + 16 ≤ b ∨ b + 16 ≤ nx) (h0 : nx ≠ 0) :
    prevFree (setPrevFree (setNextFree (if nx ≠ 0 then setPrevFree (if q ≠ 0 then setNextFree m q nx else m)
      nx q else if q ≠ 0 then setNextFree m q nx else m) b 0) b 0) nx = q := by
  simp only [prevFree, setNextFree, setPrevFree]
  split_ifs <;> simp (disch := omega) only [readWord_writeWord_of_disjoint, readWord_writeWord_same,
    ptr_ofNat_toNat]

end Unlink

/-- The segregated branch of `remove_from_free_list` erases `b` from
`segment_list[i]`: its neighbours are linked to each other (or the head moves
on), and `b`'s own links are cleared. -/
theorem removeFromSegList_spec {s : State} {b i : Nat} {xs : List Nat}
    (hsz : getSize s.mem b ≠ minBlockSize) (hi : determineSegIndex (getSize s.mem b) = i)
    (h : DChain s.mem (s.segmentList i) xs) (hsp : Spaced xs) (hb : b ∈ xs) :
    ∃ m' h', removeFromFreeList s b = { s with mem := m', segmentList := Function.update s.segmentList i h' } ∧
      DChain m' h' (xs.erase b) ∧ ∀ x, (∀ y ∈ xs, ¬ Links y x) → m' x = s.mem x := by
  obtain ⟨l1, l2, rfl, hb1, hb2⟩ := split_of_mem hsp.nodup hb
  obtain ⟨q, p, h1, hpb, hb0, hprev, htail⟩ := dseg_append.mp h
  rw [removeFromSegList_eq hsz hi, erase_middle hb1]
  simp only [hprev]
  set nx := nextFree s.mem b with hnx
  set M := setPrevFree (setNextFree (if nx ≠ 0 then setPrevFree (if q ≠ 0 then setNextFree s.mem q nx
    else s.mem) nx q else (if q ≠ 0 then setNextFree s.mem q nx else s.mem)) b 0) b 0 with hM
  -- the three nodes written, and how they sit among the others
  have hq : q = l1.getLastD 0 := h1.last_eq
  have hqm : q ≠ 0 → q ∈ l1 := fun h0 => hq ▸ getLastD_mem (hq ▸ h0)
  have hnm : nx ≠ 0 → nx ∈ l2 := htail.seg.head_mem
  have hdisj := (List.nodup_append.mp hsp.nodup).2.2
  have hmem : ∀ z, z ∈ l1 ∨ z ∈ l2 → z ∈ l1 ++ b :: l2 := fun z hz => by
    rcases hz with hz | hz <;> simp [hz]
  have hapart : ∀ z w, z ∈ l1 ∨ z ∈ l2 → w ∈ l1 ∨ w ∈ l2 → z ≠ w → z + 16 ≤ w ∨ w + 16 ≤ z :=
    fun z w hz hw hne => hsp.apart (hmem z hz) (hmem w hw) hne
  have hbm : b ∈ l1 ++ b :: l2 := by simp
  have hzb : ∀ z, z ∈ l1 ∨ z ∈ l2 → z + 16 ≤ b ∨ b + 16 ≤ z := fun z hz =>
    hsp.apart (hmem z hz) hbm (fun e => by rcases hz with hz | hz <;> [exact hb1 (e ▸ hz); exact hb2 (e ▸ hz)])
  have hqn : q ≠ 0 → nx ≠ 0 → q ≠ nx := fun h0 h0' e =>
    hdisj (hqm h0) (List.mem_cons_of_mem b (e ▸ hnm h0'))
  have hq64 : q < 2 ^ 64 := hprev ▸ (readWord s.mem (b + 16)).isLt
  have hnx64 : nx < 2 ^ 64 := (readWord s.mem (b + 8)).isLt
  have hqb : q = 0 ∨ q + 16 ≤ b ∨ b + 16 ≤ q := or_iff_not_imp_left.mpr fun h0 => hzb q (.inl (hqm h0))
  have hnb : nx = 0 ∨ nx + 16 ≤ b ∨ b + 16 ≤ nx := or_iff_not_imp_left.mpr fun h0 => hzb nx (.inr (hnm h0))
  have hqnx : q = 0 ∨ nx = 0 ∨ q + 16 ≤ nx ∨ nx + 16 ≤ q := or_iff_not_imp_left.mpr fun h0 =>
    or_iff_not_imp_left.mpr fun h0' => hapart q nx (.inl (hqm h0)) (.inr (hnm h0')) (hqn h0 h0')
  -- what the final memory holds
  have M1 : ∀ x, (x < b + 8 ∨ b + 24 ≤ x) → (q = 0 ∨ x < q + 8 ∨ q + 16 ≤ x) →
      (nx = 0 ∨ x < nx + 16 ∨ nx + 24 ≤ x) → M x = s.mem x := fun _ => unlink_frame
  have M2 : q ≠ 0 → nextFree M q = nx := unlink_next hq64 hnx64 hqb hqnx
  have M3 : nx ≠ 0 → prevFree M nx = q := unlink_prev hq64 hnx64 hnb
  have Mz : ∀ z, z ∈ l1 ∨ z ∈ l2 → z ≠ q → z ≠ nx → ∀ x, Links z x → M x = s.mem x := by
    intro z hz hzq hznx x hx
    simp only [Links] at hx
    have := hzb z hz
    have hq' : q = 0 ∨ z + 16 ≤ q ∨ q + 16 ≤ z :=
      or_iff_not_imp_left.mpr fun h0 => hapart z q hz (.inl (hqm h0)) hzq
    have hn' : nx = 0 ∨ z + 16 ≤ nx ∨ nx + 16 ≤ z :=
      or_iff_not_imp_left.mpr fun h0 => hapart z nx hz (.inr (hnm h0)) hznx
    exact M1 x (by omega) (by omega) (by omega)
  have h0 : 0 ∉ l1 ++ b :: l2 := h.seg.zero_not_mem
  clear_value M nx
  refine ⟨M, _, rfl, dseg_append.mpr ⟨q, nx, ?_, ?_⟩, ?_⟩
  · -- the nodes before `b`: the last one now points past `b`
    rcases l1.eq_nil_or_concat with rfl | ⟨l1, y, rfl⟩
    · obtain ⟨rfl, -⟩ := h1
      exact ⟨rfl, by simp⟩
    rw [List.concat_eq_append] at *
    have hqy : q = y := by rw [hq, List.getLastD_concat]
    subst y
    obtain ⟨q0, p0, h11, hp0, hq0, hprevq, -, -⟩ := dseg_append.mp h1
    subst p0
    have hql : q ∉ l1 := fun h' =>
      (List.nodup_append.mp (List.nodup_append.mp hsp.nodup).1).2.2 h' (List.mem_singleton_self q)
    have hpq : prevFree M q = prevFree s.mem q := by
      have := hqb; have := hqnx
      simp only [prevFree]
      rw [readWord_congr fun x h1 h2 => M1 x (by omega) (by omega) (by omega)]
    simp only [ne_eq, hq0, not_false_eq_true, if_true]
    refine dseg_append.mpr ⟨q0, q, h11.congr fun z hz x hx => Mz z (.inl (by simp [hz]))
      (fun e => hql (e ▸ hz)) (fun e => ?_) x hx, rfl, hq0, hpq ▸ hprevq, rfl, M2 hq0⟩
    by_cases hn0 : nx = 0
    · exact h0 (by simp [← hn0, ← e, hz])
    · exact hdisj (by simp [hz]) (List.mem_cons_of_mem b (e ▸ hnm hn0))
  · -- the nodes after `b`: the first one now points back before `b`
    rcases l2 with _ | ⟨n, r⟩
    · exact ⟨by rw [List.append_nil, hq], htail.2⟩
    obtain ⟨rfl, hn0, -, hr⟩ := htail
    have hnr : nx ∉ r := (List.nodup_cons.mp ((List.nodup_append.mp hsp.nodup).2.1 |>
      List.nodup_cons.mp).2).1
    have hnn : nextFree M nx = nextFree s.mem nx := by
      have := hnb; have := hqnx
      simp only [nextFree]
      rw [readWord_congr fun x h1 h2 => M1 x (by omega) (by omega) (by omega)]
    have hL : (l1 ++ nx :: r).getLastD 0 = (l1 ++ b :: nx :: r).getLastD 0 := by simp
    refine ⟨rfl, hn0, M3 hn0, ?_⟩
    rw [hL, hnn]
    refine hr.congr fun z hz x hx => Mz z (.inr (List.mem_cons_of_mem _ hz))
      (fun e => ?_) (fun e => hnr (e ▸ hz)) x hx
    by_cases hq0 : q = 0
    · exact h0 (by simp [← hq0, ← e, hz])
    · exact hdisj (hqm hq0) (by simp [← e, hz])
  · -- the footprint: link words of `b` and of its two neighbours
    intro x hx
    have hb' := hx b hbm
    simp only [Links] at hb'
    refine M1 x (by omega) (or_iff_not_imp_left.mpr fun hq0 => ?_) (or_iff_not_imp_left.mpr fun hn0 => ?_)
    · have := hx q (hmem q (.inl (hqm hq0))); simp only [Links] at this; omega
    · have := hx nx (hmem nx (.inr (hnm hn0))); simp only [Links] at this; omega

end MallocSim
