import Mathlib

/-!
# Block header codec (`pack`, `extract_*`, size rounding, size classes)

`mm.c` keeps a block's size and three status bits in one `word_t`
(`uint64_t`): bit 0 is the block's own allocation bit, bit 1 says whether
the block before it is allocated (`prev_alloc`), bit 2 whether that block is
a 16-byte mini block (`prev_mini`). Sizes are multiples of 16, so
`extract_size` masks the low nibble. Words are `BitVec 64`; sizes and
addresses are `Nat`, and `size_t` arithmetic that can wrap is written with
an explicit `% 2 ^ 64`.

Results:
* `toNat_pack`: for a size that is a multiple of 16 and fits 64 bits, the
  packed word, read as a number, is the size plus the flag bits.
* `extractSize_pack`, `extractAlloc_pack`, `extractPrevAlloc_pack`,
  `extractPrevMini_pack`: each field reads back what was packed.
* `pack_roundtrip`: all four at once, and bit 3 of a header is clear.
* `roundUp_of_lt`: `round_up` below the wrap is the least multiple above.
* `determineSegIndex_mono`: the size class never decreases with the size.
-/
namespace MallocSim

/-- `word_t` -/
abbrev Word := BitVec 64

/-- `wsize`: word and header size (bytes). -/
def wsize : Nat := 8

/-- `dsize`: double word size (bytes). -/
def dsize : Nat := 16

/-- `min_block_size`, set to `dsize` by the mini-block design. -/
def minBlockSize : Nat := 16

/-- `chunksize`: the default heap extension. -/
def chunksize : Nat := 4096

def allocMask : Word := 0x1
def prevAllocMask : Word := 0x2
def prevMiniMask : Word := 0x4
def sizeMask : Word := ~~~0xF

/-- mirrors mm.c:209-211 (`round_up`, in `size_t`: the sum wraps; the
product of `n` and the quotient cannot). -/
def roundUp (size n : Nat) : Nat := n * ((size + (n - 1)) % 2 ^ 64 / n)

/-- mirrors mm.c:225-242 -/
def pack (size : Nat) (alloc prevAlloc prevMini : Bool) : Word :=
  let word : Word := BitVec.ofNat 64 size
  let word := if alloc then word ||| allocMask else word
  let word := if prevAlloc then word ||| prevAllocMask else word
  if prevMini then word ||| prevMiniMask else word

/-- mirrors mm.c:253-255 -/
def extractSize (word : Word) : Nat := (word &&& sizeMask).toNat

/-- mirrors mm.c:343-345 -/
def extractAlloc (word : Word) : Bool := (word &&& allocMask) != 0

/-- mirrors mm.c:355-358 -/
def extractPrevAlloc (word : Word) : Bool := ((word &&& prevAllocMask) >>> 1) != 0

/-- mirrors mm.c:367-370 -/
def extractPrevMini (word : Word) : Bool := ((word &&& prevMiniMask) >>> 2) != 0

/-- mirrors mm.c:575-599 (`SEG_LIST_LEN = 10` classes with upper bounds
16, 32, ..., 4096 and a last class for everything larger). -/
def determineSegIndex (size : Nat) : Nat :=
  if size ≤ 16 then 0
  else if size ≤ 32 then 1
  else if size ≤ 64 then 2
  else if size ≤ 128 then 3
  else if size ≤ 256 then 4
  else if size ≤ 512 then 5
  else if size ≤ 1024 then 6
  else if size ≤ 2048 then 7
  else if size ≤ 4096 then 8
  else 9

/-! ## Packing as arithmetic -/

/-- The three status bits as a number below 8. -/
def flags (alloc prevAlloc prevMini : Bool) : Nat :=
  alloc.toNat + 2 * prevAlloc.toNat + 4 * prevMini.toNat

theorem flags_lt (a pa pm : Bool) : flags a pa pm < 2 ^ 4 := by
  cases a <;> cases pa <;> cases pm <;> decide

theorem pack_eq_or (s : Nat) (a pa pm : Bool) :
    pack s a pa pm = BitVec.ofNat 64 s ||| BitVec.ofNat 64 (flags a pa pm) := by
  cases a <;> cases pa <;> cases pm <;>
    simp [pack, flags, allocMask, prevAllocMask, prevMiniMask, BitVec.or_assoc]

theorem toNat_pack {s : Nat} (hs : s % 16 = 0) (hlt : s < 2 ^ 64) (a pa pm : Bool) :
    (pack s a pa pm).toNat = s + flags a pa pm := by
  have hf := flags_lt a pa pm
  have hq : s = 2 ^ 4 * (s / 16) := by omega
  rw [pack_eq_or, BitVec.toNat_or, BitVec.toNat_ofNat, BitVec.toNat_ofNat,
    Nat.mod_eq_of_lt hlt, Nat.mod_eq_of_lt (by omega), hq, ← Nat.mul_add_lt_is_or hf]

/-- Masking bit `k` and shifting it down reads bit `k` as a number. -/
theorem and_two_pow_shiftRight (x k : Nat) : (x &&& 2 ^ k) >>> k = x / 2 ^ k % 2 := by
  apply Nat.eq_of_testBit_eq
  intro i
  have h2 : x / 2 ^ k % 2 = x / 2 ^ k % 2 ^ 1 := rfl
  rw [h2, Nat.testBit_mod_two_pow, ← Nat.shiftRight_eq_div_pow, Nat.testBit_shiftRight,
    Nat.testBit_shiftRight, Nat.testBit_and, Nat.testBit_two_pow]
  by_cases hi : i = 0 <;> simp [hi]

theorem extractSize_eq (w : Word) : extractSize w = w.toNat / 16 * 16 := by
  have hw := w.isLt
  have hm : 2 ^ 64 - 1 - 15 = 2 ^ 4 * (2 ^ 60 - 1) := rfl
  have hx : w.toNat / 16 * 16 = 2 ^ 4 * (w.toNat >>> 4) := by
    rw [Nat.shiftRight_eq_div_pow]; omega
  simp only [extractSize, sizeMask, BitVec.toNat_and, BitVec.toNat_not, BitVec.toNat_ofNat]
  rw [show (15 : Word).toNat = 15 from rfl, hm, hx]
  apply Nat.eq_of_testBit_eq
  intro i
  simp only [Nat.testBit_and, Nat.testBit_mul_pow_two, Nat.testBit_two_pow_sub_one,
    Nat.testBit_shiftRight]
  by_cases h4 : 4 ≤ i
  · have e : 4 + (i - 4) = i := by omega
    by_cases h64 : i < 64
    · simp [h4, e, show i - 4 < 60 by omega]
    · have : w.toNat.testBit i = false :=
        Nat.testBit_lt_two_pow (Nat.lt_of_lt_of_le hw (Nat.pow_le_pow_right (by decide) (by omega)))
      simp [this, e]
  · simp [h4]

theorem extractAlloc_eq (w : Word) : extractAlloc w = decide (w.toNat % 2 = 1) := by
  have h : (w &&& allocMask).toNat = w.toNat % 2 := by
    simp [allocMask]
  apply Bool.eq_iff_iff.mpr
  rw [extractAlloc, bne_iff_ne, ne_eq, BitVec.toNat_eq, h, decide_eq_true_iff]
  rw [show (0 : Word).toNat = 0 from rfl]
  omega

theorem extractPrevAlloc_eq (w : Word) : extractPrevAlloc w = decide (w.toNat / 2 % 2 = 1) := by
  have h : ((w &&& prevAllocMask) >>> 1).toNat = w.toNat / 2 % 2 := by
    simpa [prevAllocMask] using and_two_pow_shiftRight w.toNat 1
  apply Bool.eq_iff_iff.mpr
  rw [extractPrevAlloc, bne_iff_ne, ne_eq, BitVec.toNat_eq, h, decide_eq_true_iff]
  rw [show (0 : Word).toNat = 0 from rfl]
  omega

theorem extractPrevMini_eq (w : Word) : extractPrevMini w = decide (w.toNat / 4 % 2 = 1) := by
  have h : ((w &&& prevMiniMask) >>> 2).toNat = w.toNat / 4 % 2 := by
    simpa [prevMiniMask] using and_two_pow_shiftRight w.toNat 2
  apply Bool.eq_iff_iff.mpr
  rw [extractPrevMini, bne_iff_ne, ne_eq, BitVec.toNat_eq, h, decide_eq_true_iff]
  rw [show (0 : Word).toNat = 0 from rfl]
  omega

/-- A size read from a header is a multiple of 16 below `2 ^ 64`. -/
theorem extractSize_mod (w : Word) : extractSize w % 16 = 0 := by
  rw [extractSize_eq]; exact Nat.mul_mod_left _ _

theorem extractSize_lt (w : Word) : extractSize w < 2 ^ 64 := by
  rw [extractSize_eq]; have := w.isLt; omega

/-! ## Round trips -/

section RoundTrip

variable {s : Nat} (hs : s % 16 = 0) (hlt : s < 2 ^ 64) (a pa pm : Bool)
include hs hlt

@[simp] theorem extractSize_pack : extractSize (pack s a pa pm) = s := by
  rw [extractSize_eq, toNat_pack hs hlt]
  have := flags_lt a pa pm
  omega

@[simp] theorem extractAlloc_pack : extractAlloc (pack s a pa pm) = a := by
  rw [extractAlloc_eq, toNat_pack hs hlt]
  cases a <;> cases pa <;> cases pm <;> simp [flags] <;> omega

@[simp] theorem extractPrevAlloc_pack : extractPrevAlloc (pack s a pa pm) = pa := by
  rw [extractPrevAlloc_eq, toNat_pack hs hlt]
  cases a <;> cases pa <;> cases pm <;> simp [flags] <;> omega

@[simp] theorem extractPrevMini_pack : extractPrevMini (pack s a pa pm) = pm := by
  rw [extractPrevMini_eq, toNat_pack hs hlt]
  cases a <;> cases pa <;> cases pm <;> simp [flags] <;> omega

/-- Each field reads back what `pack` was given, and bit 3 stays clear: the
status bits sit below it and the size, a multiple of 16, above it. -/
theorem pack_roundtrip :
    extractSize (pack s a pa pm) = s ∧ extractAlloc (pack s a pa pm) = a ∧
      extractPrevAlloc (pack s a pa pm) = pa ∧ extractPrevMini (pack s a pa pm) = pm ∧
      (pack s a pa pm).getLsbD 3 = false := by
  refine ⟨extractSize_pack hs hlt a pa pm, extractAlloc_pack hs hlt a pa pm,
    extractPrevAlloc_pack hs hlt a pa pm, extractPrevMini_pack hs hlt a pa pm, ?_⟩
  have hf : flags a pa pm < 8 := by cases a <;> cases pa <;> cases pm <;> decide
  rw [BitVec.getLsbD, toNat_pack hs hlt, Nat.testBit_to_div_mod, decide_eq_false_iff_not]
  omega

end RoundTrip

/-- The header `mm_init`'s first extension writes: a free 4096-byte block
after the allocated prologue. -/
theorem pack_roundtrip_chunk :
    4096 % 16 = 0 ∧ 4096 < 2 ^ 64 ∧ extractSize (pack 4096 false true false) = 4096 ∧
      extractAlloc (pack 4096 false true false) = false ∧
      extractPrevAlloc (pack 4096 false true false) = true ∧
      extractPrevMini (pack 4096 false true false) = false ∧ (pack 4096 false true false).getLsbD 3 = false :=
  ⟨rfl, by decide, pack_roundtrip (by decide) (by decide) false true false⟩

/-- Two packed words are equal exactly when their fields are. -/
theorem pack_inj {s s' : Nat} (hs : s % 16 = 0) (hlt : s < 2 ^ 64) (hs' : s' % 16 = 0)
    (hlt' : s' < 2 ^ 64) {a pa pm a' pa' pm' : Bool}
    (h : pack s a pa pm = pack s' a' pa' pm') : s = s' ∧ a = a' ∧ pa = pa' ∧ pm = pm' := by
  refine ⟨?_, ?_, ?_, ?_⟩
  · simpa only [extractSize_pack hs hlt, extractSize_pack hs' hlt'] using congrArg extractSize h
  · simpa only [extractAlloc_pack hs hlt, extractAlloc_pack hs' hlt'] using congrArg extractAlloc h
  · simpa only [extractPrevAlloc_pack hs hlt, extractPrevAlloc_pack hs' hlt'] using
      congrArg extractPrevAlloc h
  · simpa only [extractPrevMini_pack hs hlt, extractPrevMini_pack hs' hlt'] using
      congrArg extractPrevMini h

/-! ## `round_up` and the size classes -/

theorem roundUp_of_lt {x n : Nat} (h : x + (n - 1) < 2 ^ 64) :
    roundUp x n = n * ((x + (n - 1)) / n) := by
  rw [roundUp, Nat.mod_eq_of_lt h]

/-- A multiple of 16 below the wrap is its own rounding. -/
theorem roundUp_dsize {x : Nat} (h16 : x % 16 = 0) (h : x + 15 < 2 ^ 64) : roundUp x dsize = x := by
  rw [roundUp_of_lt (by simp only [dsize]; omega)]; simp only [dsize]; omega

/-- The class `determine_seg_index` picks for each size range. -/
theorem determineSegIndex_cases (x : Nat) :
    (x ≤ 16 ∧ determineSegIndex x = 0) ∨
    (16 < x ∧ x ≤ 32 ∧ determineSegIndex x = 1) ∨
    (32 < x ∧ x ≤ 64 ∧ determineSegIndex x = 2) ∨
    (64 < x ∧ x ≤ 128 ∧ determineSegIndex x = 3) ∨
    (128 < x ∧ x ≤ 256 ∧ determineSegIndex x = 4) ∨
    (256 < x ∧ x ≤ 512 ∧ determineSegIndex x = 5) ∨
    (512 < x ∧ x ≤ 1024 ∧ determineSegIndex x = 6) ∨
    (1024 < x ∧ x ≤ 2048 ∧ determineSegIndex x = 7) ∨
    (2048 < x ∧ x ≤ 4096 ∧ determineSegIndex x = 8) ∨
    (4096 < x ∧ determineSegIndex x = 9) := by
  unfold determineSegIndex
  by_cases h1 : x ≤ 16
  · rw [if_pos h1]; exact .inl ⟨h1, rfl⟩
  rw [if_neg h1]; refine .inr ?_
  by_cases h2 : x ≤ 32
  · rw [if_pos h2]; exact .inl ⟨by omega, h2, rfl⟩
  rw [if_neg h2]; refine .inr ?_
  by_cases h3 : x ≤ 64
  · rw [if_pos h3]; exact .inl ⟨by omega, h3, rfl⟩
  rw [if_neg h3]; refine .inr ?_
  by_cases h4 : x ≤ 128
  · rw [if_pos h4]; exact .inl ⟨by omega, h4, rfl⟩
  rw [if_neg h4]; refine .inr ?_
  by_cases h5 : x ≤ 256
  · rw [if_pos h5]; exact .inl ⟨by omega, h5, rfl⟩
  rw [if_neg h5]; refine .inr ?_
  by_cases h6 : x ≤ 512
  · rw [if_pos h6]; exact .inl ⟨by omega, h6, rfl⟩
  rw [if_neg h6]; refine .inr ?_
  by_cases h7 : x ≤ 1024
  · rw [if_pos h7]; exact .inl ⟨by omega, h7, rfl⟩
  rw [if_neg h7]; refine .inr ?_
  by_cases h8 : x ≤ 2048
  · rw [if_pos h8]; exact .inl ⟨by omega, h8, rfl⟩
  rw [if_neg h8]; refine .inr ?_
  by_cases h9 : x ≤ 4096
  · rw [if_pos h9]; exact .inl ⟨by omega, h9, rfl⟩
  rw [if_neg h9]; exact .inr ⟨by omega, rfl⟩

theorem determineSegIndex_lt (x : Nat) : determineSegIndex x < 10 := by
  have := determineSegIndex_cases x
  omega

theorem determineSegIndex_mono {x y : Nat} (h : x ≤ y) :
    determineSegIndex x ≤ determineSegIndex y := by
  have := determineSegIndex_cases x
  have := determineSegIndex_cases y
  omega

end MallocSim
