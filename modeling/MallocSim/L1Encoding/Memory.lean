import MallocSim.L1Encoding.Header

/-!
# Byte memory, 64-bit words and pointers

The process memory is one byte per address. `mm.c` reads and writes
headers, footers and free-list pointers as 8-byte words (`word_t`,
`block_t *`); a word is the little-endian value of eight bytes. Clients
write bytes into their payloads, and `realloc`/`calloc` use `memcpy` and
`memset`, so every write the program can make is one of `writeWord`,
`memcpy`, `memset` or a single byte store.

Results:
* `readWord_writeWord_same`, `readWord_writeWord_of_disjoint`: a word reads
  back what was written at its address and is untouched by a write to
  eight bytes that do not overlap it.
* `readWord_memcpy_of_disjoint`, `readWord_memset_of_disjoint`,
  `readWord_store_of_disjoint`: the same frame for the byte writers.
* `writeWord_writeWord_same`, `writeWord_comm`: a write replaces an earlier
  one to the same word and commutes with one to another word.
* `ptr_ofNat_toNat`: a pointer below `2 ^ 64` survives the round trip
  through a word.
-/
namespace MallocSim

/-- A byte. -/
abbrev Byte := BitVec 8

/-- The process memory, one byte per address. -/
abbrev Mem := Nat → Byte

/-- The little-endian word at `a`. -/
def readWord (m : Mem) (a : Nat) : Word :=
  BitVec.ofNat 64 ((m a).toNat + (m (a + 1)).toNat * 2 ^ 8 + (m (a + 2)).toNat * 2 ^ 16 +
    (m (a + 3)).toNat * 2 ^ 24 + (m (a + 4)).toNat * 2 ^ 32 + (m (a + 5)).toNat * 2 ^ 40 +
    (m (a + 6)).toNat * 2 ^ 48 + (m (a + 7)).toNat * 2 ^ 56)

/-- Store the word `w` at `a`, least significant byte first. -/
def writeWord (m : Mem) (a : Nat) (w : Word) : Mem := fun b =>
  if a ≤ b ∧ b < a + 8 then BitVec.ofNat 8 (w.toNat / 2 ^ (8 * (b - a))) else m b

/-- A client's one-byte store `*(char *)b = v`. -/
def store (m : Mem) (b : Nat) (v : Byte) : Mem := fun x => if x = b then v else m x

/-- `memcpy(dst, src, n)` on non-overlapping ranges. -/
def memcpy (m : Mem) (dst src n : Nat) : Mem := fun b =>
  if dst ≤ b ∧ b < dst + n then m (src + (b - dst)) else m b

/-- `memset(dst, c, n)`. -/
def memset (m : Mem) (dst : Nat) (c : Byte) (n : Nat) : Mem := fun b =>
  if dst ≤ b ∧ b < dst + n then c else m b

/-- A pointer stored as a word. -/
def ptrWord (p : Nat) : Word := BitVec.ofNat 64 p

/-! ## Reading back -/

theorem writeWord_of_disjoint {m : Mem} {a b : Nat} (w : Word) (h : b < a ∨ a + 8 ≤ b) :
    writeWord m a w b = m b := by
  simp only [writeWord]
  rw [if_neg (by omega)]

@[simp] theorem readWord_writeWord_same (m : Mem) (a : Nat) (w : Word) :
    readWord (writeWord m a w) a = w := by
  have hw := w.isLt
  apply BitVec.eq_of_toNat_eq
  simp only [readWord, writeWord, BitVec.toNat_ofNat]
  simp (disch := omega) only [if_pos, Nat.add_sub_cancel_left, Nat.sub_self]
  simp only [BitVec.toNat_ofNat, Nat.mul_zero, Nat.pow_zero, Nat.div_one, Nat.reducePow,
    Nat.reduceMul]
  omega

theorem readWord_writeWord_of_disjoint (m : Mem) {a b : Nat} (w : Word)
    (h : a + 8 ≤ b ∨ b + 8 ≤ a) : readWord (writeWord m a w) b = readWord m b := by
  simp only [readWord]
  simp (disch := omega) only [writeWord_of_disjoint]

/-- Word reads only see the eight bytes they cover. -/
theorem readWord_congr {m m' : Mem} {a : Nat} (h : ∀ b, a ≤ b → b < a + 8 → m' b = m b) :
    readWord m' a = readWord m a := by
  simp only [readWord]
  simp (disch := omega) only [h]

theorem readWord_store_of_disjoint (m : Mem) {a b : Nat} (v : Byte) (h : b < a ∨ a + 8 ≤ b) :
    readWord (store m b v) a = readWord m a :=
  readWord_congr fun x h1 h2 => if_neg (by omega)

theorem readWord_memcpy_of_disjoint (m : Mem) {a dst src n : Nat}
    (h : a + 8 ≤ dst ∨ dst + n ≤ a) : readWord (memcpy m dst src n) a = readWord m a :=
  readWord_congr fun x h1 h2 => if_neg (by omega)

theorem readWord_memset_of_disjoint (m : Mem) {a dst n : Nat} (c : Byte)
    (h : a + 8 ≤ dst ∨ dst + n ≤ a) : readWord (memset m dst c n) a = readWord m a :=
  readWord_congr fun x h1 h2 => if_neg (by omega)

/-! ## Writes over writes -/

/-- A second write to the same word replaces the first. -/
@[simp] theorem writeWord_writeWord_same (m : Mem) (a : Nat) (v w : Word) :
    writeWord (writeWord m a v) a w = writeWord m a w := by
  funext b
  simp only [writeWord]
  split_ifs <;> rfl

/-- Writes to words that do not overlap commute. -/
theorem writeWord_comm (m : Mem) {a b : Nat} (v w : Word) (h : a + 8 ≤ b ∨ b + 8 ≤ a) :
    writeWord (writeWord m a v) b w = writeWord (writeWord m b w) a v := by
  funext x
  simp only [writeWord]
  split_ifs <;> first | rfl | omega

@[simp] theorem ptr_ofNat_toNat {p : Nat} (h : p < 2 ^ 64) : (ptrWord p).toNat = p := by
  rw [ptrWord, BitVec.toNat_ofNat, Nat.mod_eq_of_lt h]

end MallocSim
