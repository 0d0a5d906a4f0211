import MallocSim.L5Client.Refine

/-!
# Runs of `mm.c` against runs of the abstract allocator

`call_steps` matches one call of `mm.c` with one call of the abstract
allocator. Chained along a sequence of valid calls (`run_refines`), the
state `mm.c` ends in implements the state the abstract allocator ends in,
and every call returns the pointer the abstract call returns. Started from
`mm_init` on any memory (`mmInit_run_refines`), the pointers returned along
the run are those of the abstract allocator from its initial state, which
holds no memory: they depend on the base of the region, the provider's
answers and the calls, and on nothing the memory held.

Every abstract call keeps the base of the region and the heap once there is
one, and never lowers the break or the provider's count (`Alloc.Grows`). So
along any valid run of `mm.c` the heap never moves and never shrinks
(`run_grows`): `mem_heap_lo()` stays, the break only rises, and `heap_start`,
once set, stays.

The provider is asked at most once per `malloc`, `calloc` or `realloc`
and never by `free`, besides the two requests of `mm_init` while the heap is
not laid (`Alloc.requestsDue` counts those as already made, and no call
raises it by more than one). So along any valid run `mem_sbrk` is called at
most once per allocating call, plus twice when the run starts before the
heap is laid (`run_requests_le`).

Results:
- `run_refines`: a valid run of `mm.c` against the abstract run.
- `mmInit_run_refines`: the pointers of every valid run after `mm_init`.
- `Call.grows`, `Alloc.grows_run`: the abstract calls never shrink the heap.
- `run_grows`: the heap's bounds along a valid run of `mm.c`.
- `Call.requestsDue_le`, `run_requests_le`: the provider requests along a
  valid run.
-/
namespace MallocSim

/-! ## Runs -/

/-- The abstract allocator after a sequence of calls. -/
def Alloc.run (A : Alloc) : List Call → Alloc
  | [] => A
  | c :: cs => Alloc.run (c.step A).1 cs

/-- The pointers the abstract allocator returns along a sequence of calls. -/
def Alloc.results (A : Alloc) : List Call → List Nat
  | [] => []
  | c :: cs => (c.step A).2 :: Alloc.results (c.step A).1 cs

/-- The pointers `mm.c` returns along a sequence of calls (NULL for `free`). -/
def runResults (s : State) : List Call → List Nat
  | [] => []
  | c :: cs => (c.apply s).2 :: runResults (c.apply s).1 cs

/-- Along a valid run from a state implementing `A`, `mm.c` ends in a state
implementing the abstract allocator's last state, and returns the same
pointers. -/
theorem run_refines {s : State} {A : Alloc} {cs : List Call} (h : Refines s A) (hv : validRun s cs) :
    Refines (runCalls s cs) (A.run cs) ∧ runResults s cs = A.results cs := by
  induction cs generalizing s A with
  | nil => exact ⟨h, rfl⟩
  | cons c cs ih =>
    have hS := call_steps h hv.1
    obtain ⟨h1, h2⟩ := ih hS.refines hv.2
    exact ⟨h1, by rw [runResults, Alloc.results, hS.ret, h2]⟩

/-- `mm_init` on any memory, then any valid sequence of calls: `mm_init`
reports what the abstract `init` reports, and the run returns the pointers
of the abstract allocator from its initial state, ending in a state that
implements the abstract one. -/
theorem mmInit_run_refines (mem : Mem) (lo : Nat) (grant : Nat → Bool) (cs : List Call)
    (hv : validRun (mmInit (initState mem lo grant)).1 cs) :
    (mmInit (initState mem lo grant)).2 = (Alloc.init ⟨none, lo, lo, grant, 0⟩).2 ∧
      Refines (runCalls (mmInit (initState mem lo grant)).1 cs) ((Alloc.init ⟨none, lo, lo, grant, 0⟩).1.run cs) ∧
      runResults (mmInit (initState mem lo grant)).1 cs = (Alloc.init ⟨none, lo, lo, grant, 0⟩).1.results cs := by
  obtain ⟨h1, h2, -⟩ := init_refines (initState_refines mem lo grant) rfl
  exact ⟨h2, run_refines h1 hv⟩

/-- Two `malloc(24)` and a `free` of the first after `mm_init` on a zeroed
region at 4096 whose provider grants every request form a valid run. -/
theorem smallRun_valid :
    validRun (mmInit (initState (fun _ => 0) 4096 fun _ => true)).1 [.malloc 24, .malloc 24, .free 4112] := by
  decide

set_option maxRecDepth 20000 in
/-- A `malloc(24)`, a `realloc` of it to 5000 bytes, which outgrows the
first chunk, and a `free` of the moved pointer after `mm_init` on a zeroed
region at 4096 whose provider grants every request form a valid run. -/
theorem grownRun_valid :
    validRun (mmInit (initState (fun _ => 0) 4096 fun _ => true)).1 [.malloc 24, .realloc 4112 5000, .free 4144] := by
  decide

/-- Two `malloc(24)` and a `free` after `mm_init` on a zeroed region at 4096
whose provider grants every request. -/
theorem mmInit_run_refines_small :
    validRun (mmInit (initState (fun _ => 0) 4096 fun _ => true)).1 [.malloc 24, .malloc 24, .free 4112] ∧
      (mmInit (initState (fun _ => 0) 4096 fun _ => true)).2 =
        (Alloc.init ⟨none, 4096, 4096, fun _ => true, 0⟩).2 ∧
      Refines (runCalls (mmInit (initState (fun _ => 0) 4096 fun _ => true)).1 [.malloc 24, .malloc 24, .free 4112])
        ((Alloc.init ⟨none, 4096, 4096, fun _ => true, 0⟩).1.run [.malloc 24, .malloc 24, .free 4112]) ∧
      runResults (mmInit (initState (fun _ => 0) 4096 fun _ => true)).1 [.malloc 24, .malloc 24, .free 4112] =
        (Alloc.init ⟨none, 4096, 4096, fun _ => true, 0⟩).1.results [.malloc 24, .malloc 24, .free 4112] :=
  ⟨smallRun_valid, mmInit_run_refines _ _ _ _ smallRun_valid⟩

/-! ## The heap only grows -/

/-- `A'` has the base and, once there is one, the heap of `A`, and neither a
lower break nor fewer provider requests. -/
structure Alloc.Grows (A A' : Alloc) : Prop where
  lo : A'.lo = A.lo
  brk : A.brk ≤ A'.brk
  calls : A.calls ≤ A'.calls
  heap : A.heap.isSome → A'.heap.isSome

namespace Alloc

theorem Grows.refl (A : Alloc) : A.Grows A := ⟨rfl, le_rfl, le_rfl, id⟩

theorem Grows.trans {A B C : Alloc} (h : A.Grows B) (h' : B.Grows C) : A.Grows C :=
  ⟨h'.lo.trans h.lo, h.brk.trans h'.brk, h.calls.trans h'.calls, h'.heap ∘ h.heap⟩

theorem Grows.of_heap {A A' : Alloc} (h : A.Grows A') (H : Heap) : A.Grows { A' with heap := some H } :=
  ⟨h.lo, h.brk, h.calls, fun _ => rfl⟩

theorem grows_extend (A : Alloc) (H : Heap) (S : Nat) : A.Grows (A.extend H S).1 := by
  unfold Alloc.extend
  split
  · exact ⟨rfl, Nat.le_add_right _ _, Nat.le_succ _, fun _ => rfl⟩
  · exact ⟨rfl, le_rfl, Nat.le_succ _, id⟩

theorem grows_init (A : Alloc) : A.Grows A.init.1 := by
  unfold Alloc.init
  split
  · exact Grows.trans (B := { A with heap := some emptyHeap, brk := A.brk + 16, calls := A.calls + 1 })
      ⟨rfl, Nat.le_add_right _ _, Nat.le_succ _, fun _ => rfl⟩ (grows_extend _ _ _)
  · exact ⟨rfl, le_rfl, Nat.le_succ _, id⟩

theorem grows_place (A : Alloc) (H : Heap) (a : Nat) : A.Grows (A.place H a).1 := by
  unfold Alloc.place
  split
  · exact (Grows.refl A).of_heap _
  · have he := grows_extend A H (max a chunksize)
    split <;> rename_i h <;> rw [h] at he
    · exact he.of_heap _
    · exact he

theorem grows_malloc (A : Alloc) (n : Nat) : A.Grows (A.malloc n).1 := by
  have hr : A.Grows (if A.heap.isNone then A.init else (A, true)).1 := by
    split
    · exact grows_init A
    · exact Grows.refl A
  unfold Alloc.malloc
  generalize (if A.heap.isNone then A.init else (A, true)) = r at hr ⊢
  dsimp only
  split
  · split
    · exact hr.trans (grows_place _ _ _)
    · exact hr
  · exact hr

theorem grows_free (A : Alloc) (p : Nat) : A.Grows (A.free p) := by
  unfold Alloc.free
  split
  · split
    · split
      · exact Grows.refl A
      · exact (Grows.refl A).of_heap _
    · exact Grows.refl A
  · exact Grows.refl A

end Alloc

/-- Every abstract call keeps the base and the heap and never lowers the
break or the provider's count. -/
theorem Call.grows (c : Call) (A : Alloc) : A.Grows (c.step A).1 := by
  cases c with
  | malloc n => exact A.grows_malloc n
  | calloc k n =>
    simp only [Call.step, Alloc.calloc]
    split
    · exact .refl A
    · exact A.grows_malloc _
  | free p => exact A.grows_free p
  | realloc p n =>
    simp only [Call.step, Alloc.realloc]
    split
    · exact A.grows_free p
    · split
      · exact A.grows_malloc n
      · split
        · exact A.grows_malloc n
        · exact (A.grows_malloc n).trans (Alloc.grows_free _ p)

theorem Alloc.grows_run (A : Alloc) (cs : List Call) : A.Grows (A.run cs) := by
  induction cs generalizing A with
  | nil => exact .refl A
  | cons c cs ih => exact (c.grows A).trans (ih _)

/-- Along every valid run from a reachable state, `mem_heap_lo()` stays, the
break and the provider's count never decrease, and `heap_start`, once set,
stays. -/
theorem run_grows {s : State} {cs : List Call} (h : Reachable s) (hv : validRun s cs) :
    (runCalls s cs).lo = s.lo ∧ s.brk ≤ (runCalls s cs).brk ∧ s.calls ≤ (runCalls s cs).calls ∧
      (s.heapStart ≠ 0 → (runCalls s cs).heapStart = s.heapStart) := by
  obtain ⟨A, hA⟩ := h.refines
  have hR := (run_refines hA hv).1
  have hg := A.grows_run cs
  refine ⟨by rw [hR.lo, hg.lo, hA.lo], by rw [hR.brk, hA.brk]; exact hg.brk,
    by rw [hR.calls, hA.calls]; exact hg.calls, fun h0 => ?_⟩
  cases hAh : A.heap with
  | none => exact absurd (hA.heap_none hAh).1 h0
  | some H =>
    obtain ⟨H', hH'⟩ := Option.isSome_iff_exists.mp (hg.heap (by simp [hAh]))
    rw [(hR.heap_some hH').2, (hA.heap_some hAh).2, hR.lo, hg.lo, hA.lo]

set_option maxRecDepth 20000 in
/-- The bounds along the run of `grownRun_valid`, whose `realloc` has the
provider extend the heap. -/
theorem run_grows_grown :
    Reachable (mmInit (initState (fun _ => 0) 4096 fun _ => true)).1 ∧
      validRun (mmInit (initState (fun _ => 0) 4096 fun _ => true)).1 [.malloc 24, .realloc 4112 5000, .free 4144] ∧
      (mmInit (initState (fun _ => 0) 4096 fun _ => true)).1.brk < (runCalls (mmInit (initState (fun _ => 0) 4096 fun _ => true)).1 [.malloc 24, .realloc 4112 5000, .free 4144]).brk ∧
      (runCalls (mmInit (initState (fun _ => 0) 4096 fun _ => true)).1 [.malloc 24, .realloc 4112 5000, .free 4144]).lo = (mmInit (initState (fun _ => 0) 4096 fun _ => true)).1.lo ∧
      (mmInit (initState (fun _ => 0) 4096 fun _ => true)).1.brk ≤ (runCalls (mmInit (initState (fun _ => 0) 4096 fun _ => true)).1 [.malloc 24, .realloc 4112 5000, .free 4144]).brk ∧
      (mmInit (initState (fun _ => 0) 4096 fun _ => true)).1.calls ≤ (runCalls (mmInit (initState (fun _ => 0) 4096 fun _ => true)).1 [.malloc 24, .realloc 4112 5000, .free 4144]).calls ∧
      ((mmInit (initState (fun _ => 0) 4096 fun _ => true)).1.heapStart ≠ 0 → (runCalls (mmInit (initState (fun _ => 0) 4096 fun _ => true)).1 [.malloc 24, .realloc 4112 5000, .free 4144]).heapStart = (mmInit (initState (fun _ => 0) 4096 fun _ => true)).1.heapStart) :=
  ⟨.init _ _ _, grownRun_valid, by decide, run_grows (.init _ _ _) grownRun_valid⟩

/-! ## Provider requests -/

/-- The calls that may ask the provider for memory: all but `free`. -/
def Call.allocates : Call → Bool
  | .free _ => false
  | _ => true

namespace Alloc

/-- The provider's count, with the two requests of `mm_init` counted as made
while the heap is not laid. -/
def requestsDue (A : Alloc) : Nat := A.calls + if A.heap.isSome then 0 else 2

theorem extend_calls (A : Alloc) (H : Heap) (S : Nat) : (A.extend H S).1.calls = A.calls + 1 := by
  unfold Alloc.extend; split <;> rfl

theorem init_requestsDue {A : Alloc} (hA : A.heap = none) :
    A.init.1.requestsDue ≤ A.requestsDue + 1 ∧ (A.init.1.heap.isSome → A.init.1.requestsDue ≤ A.requestsDue) := by
  unfold Alloc.init
  split
  · have hc := extend_calls { A with heap := some emptyHeap, brk := A.brk + 16, calls := A.calls + 1 } emptyHeap chunksize
    have hs := (grows_extend { A with heap := some emptyHeap, brk := A.brk + 16, calls := A.calls + 1 }
      emptyHeap chunksize).heap rfl
    simp [requestsDue, hc, hs, hA]
  · simp [requestsDue, hA]

theorem place_requestsDue {A : Alloc} (hA : A.heap.isSome) (H : Heap) (a : Nat) :
    (A.place H a).1.requestsDue ≤ A.requestsDue + 1 := by
  have hc : (A.place H a).1.calls ≤ A.calls + 1 := by
    unfold Alloc.place
    split
    · exact Nat.le_succ _
    · have he := A.extend_calls H (max a chunksize)
      split <;> rename_i h <;> rw [h] at he <;> simp only at he ⊢ <;> omega
  simp only [requestsDue, hA, (A.grows_place H a).heap hA]
  omega

theorem malloc_requestsDue (A : Alloc) (n : Nat) : (A.malloc n).1.requestsDue ≤ A.requestsDue + 1 := by
  have hr : (if A.heap.isNone then A.init else (A, true)).1.requestsDue ≤ A.requestsDue + 1 ∧
      ((if A.heap.isNone then A.init else (A, true)).1.heap.isSome →
        (if A.heap.isNone then A.init else (A, true)).1.requestsDue ≤ A.requestsDue) := by
    cases hA : A.heap
    · simpa [hA] using init_requestsDue hA
    · simp
  unfold Alloc.malloc
  generalize (if A.heap.isNone then A.init else (A, true)) = r at hr ⊢
  dsimp only
  split
  · rename_i H hH
    have hs : r.1.heap.isSome := by rw [hH]; rfl
    split
    · exact (place_requestsDue hs H _).trans (Nat.succ_le_succ (hr.2 hs))
    · exact (hr.2 hs).trans (Nat.le_succ _)
  · exact hr.1

theorem free_requestsDue (A : Alloc) (p : Nat) : (A.free p).requestsDue = A.requestsDue := by
  unfold Alloc.free
  split
  · rename_i H hH
    split
    · split
      · rfl
      · simp [requestsDue, hH]
    · rfl
  · rfl

end Alloc

/-- Each abstract call asks the provider at most once, and `free` never. -/
theorem Call.requestsDue_le (c : Call) (A : Alloc) :
    (c.step A).1.requestsDue ≤ A.requestsDue + if c.allocates then 1 else 0 := by
  cases c with
  | malloc n => exact A.malloc_requestsDue n
  | calloc k n =>
    simp only [Call.step, Alloc.calloc, Call.allocates, if_true]
    split
    · exact Nat.le_succ _
    · exact A.malloc_requestsDue _
  | free p => exact (A.free_requestsDue p).le
  | realloc p n =>
    simp only [Call.step, Alloc.realloc, Call.allocates, if_true]
    split
    · exact (A.free_requestsDue p).le.trans (Nat.le_succ _)
    · split
      · exact A.malloc_requestsDue n
      · split
        · exact A.malloc_requestsDue n
        · exact ((A.malloc n).1.free_requestsDue p).le.trans (A.malloc_requestsDue n)

theorem Alloc.requestsDue_run (A : Alloc) (cs : List Call) :
    (A.run cs).requestsDue ≤ A.requestsDue + (cs.filter Call.allocates).length := by
  induction cs generalizing A with
  | nil => exact Nat.le_add_right _ _
  | cons c cs ih =>
    have h1 := c.requestsDue_le A
    have h2 := ih (c.step A).1
    simp only [Alloc.run, List.filter_cons]
    split <;> rename_i hc <;> simp only [hc, if_true, if_false, Bool.false_eq_true, List.length_cons] at h1 ⊢ <;> omega

/-- Along every valid run from a reachable state, `mem_sbrk` is called at
most once per `malloc`, `calloc` or `realloc` of the run and never by
`free`, plus the two requests of `mm_init` when the run starts before the
heap is laid. -/
theorem run_requests_le {s : State} {cs : List Call} (h : Reachable s) (hv : validRun s cs) :
    (runCalls s cs).calls ≤ s.calls + (cs.filter Call.allocates).length + if s.heapStart = 0 then 2 else 0 := by
  obtain ⟨A, hA⟩ := h.refines
  have hR := (run_refines hA hv).1
  have hd := A.requestsDue_run cs
  have hst : (if A.heap.isSome then 0 else 2) = if s.heapStart = 0 then 2 else 0 := by
    cases hAh : A.heap with
    | none => simp [(hA.heap_none hAh).1]
    | some H => simp [(hA.heap_some hAh).2]
  simp only [Alloc.requestsDue, hst] at hd
  rw [hR.calls, hA.calls]
  omega

set_option maxRecDepth 20000 in
/-- The requests along the run of `grownRun_valid`: one more than
`mm_init`'s, made by its `realloc`. -/
theorem run_requests_le_grown :
    Reachable (mmInit (initState (fun _ => 0) 4096 fun _ => true)).1 ∧
      validRun (mmInit (initState (fun _ => 0) 4096 fun _ => true)).1 [.malloc 24, .realloc 4112 5000, .free 4144] ∧
      (runCalls (mmInit (initState (fun _ => 0) 4096 fun _ => true)).1 [.malloc 24, .realloc 4112 5000, .free 4144]).calls = (mmInit (initState (fun _ => 0) 4096 fun _ => true)).1.calls + 1 ∧
      (runCalls (mmInit (initState (fun _ => 0) 4096 fun _ => true)).1 [.malloc 24, .realloc 4112 5000, .free 4144]).calls ≤ (mmInit (initState (fun _ => 0) 4096 fun _ => true)).1.calls + ([.malloc 24, .realloc 4112 5000, .free 4144].filter Call.allocates).length +
          if (mmInit (initState (fun _ => 0) 4096 fun _ => true)).1.heapStart = 0 then 2 else 0 :=
  ⟨.init _ _ _, grownRun_valid, by decide, run_requests_le (.init _ _ _) grownRun_valid⟩

end MallocSim
