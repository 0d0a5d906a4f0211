import MallocSim.L2Machine.Calls

/-!
# Requests near `SIZE_MAX` get a block smaller than asked for

`malloc` sizes a request as `asize = round_up(size + wsize, dsize)`
(mm.c:1409), in `size_t` arithmetic. For `size ≥ 2^64 - 23` the sum wraps,
in the addition or inside `round_up`, and `asize` is 0 or 16: `find_fit`
then hands out a block whose payload is at most 8 bytes, and `malloc`
returns it as if the request had been met. With `asize = 0`, `split_block`
also rewrites the whole chosen block as free and puts it back on its list
while `malloc` returns its payload. Nothing in `malloc` (or in `calloc`,
whose overflow check only guards the product, or `realloc`) refuses such a
size.

Spec clause: "if `allocate(n)` returns p, the payload region starting at p
has at least n writable bytes".

Counterexample: `mm_init` on an empty region at 4096 whose provider grants
every request, then `malloc(2^64 - 1)`: it returns the payload of a 16-byte
block, whose payload size is 8.

Fix: refuse (return NULL for) any `size > SIZE_MAX - 23` before rounding.

Results:
- `asize_le_of_wrap`: every size from `2^64 - 23` on gets `asize ≤ 16`.
- `malloc_huge_short_payload`: the counterexample on a reachable state.
-/
namespace MallocSim.Bugs.RoundUpWrap

/-- `asize` for the largest `size_t` requests: the computation wraps to 0 or
16. -/
theorem asize_le_of_wrap {n : Nat} (h1 : 2 ^ 64 - 23 ≤ n) (h2 : n < 2 ^ 64) :
    roundUp ((n + wsize) % 2 ^ 64) dsize ≤ 16 := by
  simp only [roundUp, wsize, dsize, Nat.reducePow] at *
  omega

/-- The heap right after `mm_init` on a zeroed region at 4096. -/
def afterInit : State := (mmInit (initState (fun _ => 0) 4096 fun _ => true)).1

/-- **Counterexample**: from a reachable state, `malloc(2^64 - 1)` returns a
non-NULL payload of an allocated block with 8 payload bytes. -/
theorem malloc_huge_short_payload :
    Reachable afterInit ∧ afterInit.heapStart ≠ 0 ∧
      (malloc afterInit (2 ^ 64 - 1)).2 = 4112 ∧
      getAlloc (malloc afterInit (2 ^ 64 - 1)).1.mem 4104 = true ∧
      getPayloadSize (malloc afterInit (2 ^ 64 - 1)).1.mem 4104 = 8 :=
  ⟨.init _ _ _, by decide, by decide, by decide, by decide⟩

end MallocSim.Bugs.RoundUpWrap
