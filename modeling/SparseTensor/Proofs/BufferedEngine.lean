/-
# An engine with a buffer

The engine produces four blocks at a time and hands out their words.  A double word is taken from
the buffer at once if it can be, and from two buffers if the first one holds only its low half;
bytes are taken from as many words as the buffer has left.  The engine holds the number of the block
behind its buffer, and its position is reckoned from there.

It is lawful: buffering is not seen from outside, wherever draws of different widths have left the
engine in its buffer, and whether the numbers of the blocks have started again or not.
-/
import SparseTensor.Proofs.Engines

namespace SparseTensor

/-- An engine with a buffer of four blocks.  What is in the buffer is given by the key and the
number of the block behind it. -/
structure Buffered where
  key : Key
  /-- The number of the block behind the buffer. -/
  next : UInt64
  /-- The number of words of the buffer that have been handed out. -/
  drawn : Nat
  inside : drawn ≤ 64

namespace Buffered

/-- The engine at the start of the stream of a seed: nothing is in the buffer. -/
def ofSeed (seed : UInt64) : Buffered := ⟨Key.ofSeed seed, 0, 64, Nat.le_refl 64⟩

/-- The number of the block of a word of the buffer. -/
def block (b : Buffered) (i : Nat) : UInt64 := b.next - 4 + (i / 16).toUInt64

/-- A word of the buffer. -/
def held (b : Buffered) (i : Nat) : UInt32 := (b.key.block (b.block i)).toList.getD (i % 16) 0

/-- The number of words in front of the next one. -/
def position (b : Buffered) : Nat := 16 * (b.block b.drawn).toNat + b.drawn % 16

/-- The same stream from a position on: the buffer begins with the block of the position. -/
def moveTo (p : Nat) (b : Buffered) : Buffered :=
  ⟨b.key, (p / 16).toUInt64 + 4, p % 16, by omega⟩

/-- The next four blocks. -/
def refill (b : Buffered) : Buffered := ⟨b.key, b.next + 4, 0, Nat.zero_le 64⟩

/-- The engine with words in its buffer. -/
def filled (b : Buffered) : Buffered := if b.drawn < 64 then b else b.refill

/-- The engine behind some words of the buffer. -/
def skip (b : Buffered) (n : Nat) : Buffered :=
  ⟨b.key, b.next, min (b.drawn + n) 64, Nat.min_le_right _ _⟩

/-- The next word. -/
def word (b : Buffered) : UInt32 × Buffered :=
  let c := b.filled
  (c.held c.drawn, c.skip 1)

/-- The next two words as one, the low half first. -/
def doubleWord (b : Buffered) : UInt64 × Buffered :=
  let join (high low : UInt32) : UInt64 := high.toUInt64 <<< 32 ||| low.toUInt64
  if b.drawn < 63 then (join (b.held (b.drawn + 1)) (b.held b.drawn), b.skip 2)
  else if 64 ≤ b.drawn then (join (b.refill.held 1) (b.refill.held 0), b.refill.skip 2)
  else (join (b.refill.held 0) (b.held 63), b.refill.skip 1)

/-- The next `n` words of the buffer. -/
def heldWords (b : Buffered) (n : Nat) : List UInt32 :=
  (List.range n).map fun i => b.held (b.drawn + i)

/-- The next `n` bytes, from as many words of the buffer as there are, and on from the next buffer,
in at most `rounds` rounds. -/
def bytesFrom : Nat → Nat → Buffered → List UInt8 × Buffered
  | 0, _, b => ([], b)
  | rounds + 1, n, b =>
    if n = 0 then ([], b)
    else
      let c := b.filled
      let count := min (64 - c.drawn) ((n + 3) / 4)
      let bytes := (c.heldWords count).flatMap fun w => Reader.littleEndian 4 w.toNat
      let (rest, after) := bytesFrom rounds (n - 4 * count) (c.skip count)
      (bytes.take n ++ rest, after)

instance : Engine Buffered where
  ofSeed := ofSeed
  key := key
  position := position
  moveTo := moveTo
  word := word
  doubleWord := doubleWord
  bytes n := bytesFrom n n

variable {b : Buffered}

/-! ## Words -/

theorem drawn_filled (b : Buffered) : b.filled.drawn < 64 := by
  unfold filled
  split
  · assumption
  · exact Nat.zero_lt_succ 63

theorem filled_of_lt (h : b.drawn < 64) : b.filled = b := if_pos h

theorem key_filled (b : Buffered) : b.filled.key = b.key := by
  unfold filled
  split <;> rfl

/-- Words of the buffer are handed out one after another. -/
theorem skip_skip (b : Buffered) (m n : Nat) : (b.skip m).skip n = b.skip (m + n) := by
  simp only [skip]
  congr 1
  omega

theorem drawn_skip {n : Nat} (h : b.drawn + n ≤ 64) : (b.skip n).drawn = b.drawn + n :=
  Nat.min_eq_left h

/-- Behind the last word of a block stands the first one of the next block, whose number may be
zero again. -/
theorem block_succ_of_last {i : Nat} (last : i % 16 = 15) : b.block (i + 1) = b.block i + 1 := by
  have quotient : (i + 1) / 16 = i / 16 + 1 := by omega
  rw [block, block, quotient, Nat.toUInt64_eq, Nat.toUInt64_eq, UInt64.ofNat_add, UInt64.add_assoc]
  rfl

/-- Behind any other word stands one of the same block. -/
theorem block_succ_of_ne {i : Nat} (inner : i % 16 ≠ 15) : b.block (i + 1) = b.block i := by
  have quotient : (i + 1) / 16 = i / 16 := by omega
  rw [block, block, quotient]

/-- Filling the buffer does not move the engine. -/
theorem position_filled (b : Buffered) : b.filled.position = b.position := by
  unfold filled
  split
  · rfl
  · rename_i empty
    have drawn : b.drawn = 64 := Nat.le_antisymm b.inside (Nat.not_lt.1 empty)
    have before : b.refill.block 0 = b.next := by simp [block, refill]
    have behind : b.block 64 = b.next := by simp [block]
    simp only [position, drawn, behind]
    show 16 * (b.refill.block 0).toNat + 0 % 16 = _
    rw [before]

/-- The next word of the buffer is that of the stream. -/
theorem held_drawn (b : Buffered) : b.held b.drawn = b.key.word b.position := by
  have number : b.position / 16 = (b.block b.drawn).toNat := by
    rw [position]
    omega
  have place : b.position % 16 = b.drawn % 16 := by
    rw [position]
    omega
  rw [Key.word, number, place, held]
  simp

/-- Behind a word of the buffer the engine is one word further.  The next word may be in the next
block, and the block behind the last one is the first. -/
theorem position_skip (h : b.drawn < 64) :
    (b.skip 1).position = (b.position + 1) % streamLength := by
  have bound := (b.block b.drawn).toNat_lt
  have drawn : (b.skip 1).drawn = b.drawn + 1 := drawn_skip h
  have same : (b.skip 1).block (b.drawn + 1) = b.block (b.drawn + 1) := rfl
  simp only [position, drawn, same, streamLength, UInt64.size]
  by_cases last : b.drawn % 16 = 15
  · rw [block_succ_of_last last, UInt64.toNat_add, UInt64.toNat_one]
    omega
  · rw [block_succ_of_ne last]
    omega

/-- A double word is two words, wherever the first of them stands in the buffer. -/
theorem doubleWord_eq (b : Buffered) : b.doubleWord =
    (b.word.2.word.1.toUInt64 <<< 32 ||| b.word.1.toUInt64, b.word.2.word.2) := by
  have refilled : b.refill.drawn = 0 := rfl
  rcases Nat.lt_trichotomy b.drawn 63 with before | last | behind
  · have drawn : (b.skip 1).drawn = b.drawn + 1 := drawn_skip (by omega)
    have first : b.filled = b := filled_of_lt (by omega)
    have second : (b.skip 1).filled = b.skip 1 := filled_of_lt (by omega)
    rw [doubleWord, if_pos before]
    simp only [word, first, second, skip_skip, drawn]
    rfl
  · have first : b.filled = b := filled_of_lt (by omega)
    have second : (b.skip 1).filled = b.refill := by
      have drawn : (b.skip 1).drawn = b.drawn + 1 := drawn_skip (by omega)
      rw [filled, if_neg (by omega)]
      rfl
    rw [doubleWord, if_neg (by omega), if_neg (by omega)]
    simp only [word, first, second, refilled, last]
  · have first : b.filled = b.refill := if_neg (by omega)
    have drawn : (b.refill.skip 1).drawn = 1 := rfl
    have second : (b.refill.skip 1).filled = b.refill.skip 1 := filled_of_lt (by omega)
    rw [doubleWord, if_neg (by omega), if_pos (Nat.succ_le_of_lt behind)]
    simp only [word, first, second, refilled, drawn]
    rfl

/-! ## Bytes -/

/-- As many words as the buffer has left are taken from it. -/
theorem words_eq_heldWords {n : Nat} (h : b.drawn + n ≤ 64) :
    Engine.words n b = (b.heldWords n, b.skip n) := by
  induction n generalizing b with
  | zero =>
      have same : b.skip 0 = b := by
        simp only [skip, Nat.add_zero, Nat.min_eq_left b.inside]
      rw [same]
      rfl
  | succ n ih =>
      have first : b.filled = b := filled_of_lt (by omega)
      have drawn : (b.skip 1).drawn = b.drawn + 1 := drawn_skip (by omega)
      have behind : (b.skip 1).skip n = b.skip (n + 1) := by
        rw [skip_skip, Nat.add_comm]
      have next : Engine.word b = (b.held b.drawn, b.skip 1) := by
        show b.word = _
        rw [word, first]
      have others : (b.skip 1).heldWords n =
          (List.range n).map fun i => b.held (b.drawn + (i + 1)) := by
        rw [heldWords, drawn]
        refine List.map_congr_left fun i _ => ?_
        rw [Nat.add_assoc, Nat.add_comm 1 i]
        rfl
      rw [Engine.words, next]
      dsimp only
      rw [ih (by omega), behind, others, heldWords, List.range_succ_eq_map]
      simp [Function.comp_def]

/-- The buffer is filled before words are taken. -/
theorem words_filled (b : Buffered) {n : Nat} (h : n ≠ 0) :
    Engine.words n b.filled = Engine.words n b := by
  obtain ⟨n, rfl⟩ := Nat.exists_eq_succ_of_ne_zero h
  have same : Engine.word b.filled = Engine.word b := by
    show b.filled.word = b.word
    rw [word, word, filled_of_lt b.drawn_filled]
  rw [Engine.words, Engine.words, same]

/-- Each word has four bytes. -/
theorem length_wordBytes (words : List UInt32) :
    (words.flatMap fun w => Reader.littleEndian 4 w.toNat).length = 4 * words.length := by
  induction words with
  | nil => rfl
  | cons w words ih =>
      rw [List.flatMap_cons, List.length_append, ih, Reader.length_littleEndian, List.length_cons]
      omega

/-- Bytes are taken from words, by induction on the rounds: each of them takes what the buffer has
left, or all the words that are still needed. -/
theorem bytesFrom_eq {rounds n : Nat} (h : n ≤ rounds) (b : Buffered) : bytesFrom rounds n b =
    (((Engine.words ((n + 3) / 4) b).1.flatMap fun w => Reader.littleEndian 4 w.toNat).take n,
      (Engine.words ((n + 3) / 4) b).2) := by
  induction rounds generalizing n b with
  | zero =>
      obtain rfl : n = 0 := Nat.le_zero.1 h
      rfl
  | succ rounds ih =>
      rw [bytesFrom]
      by_cases none : n = 0
      · subst none
        rfl
      rw [if_neg none]
      -- the words that this round takes, and those that are left for the rounds behind it
      let c := b.filled
      let count := min (64 - c.drawn) ((n + 3) / 4)
      let rest := (n - 4 * count + 3) / 4
      have room : c.drawn < 64 := b.drawn_filled
      have total : (n + 3) / 4 = count + rest := by omega
      have taken : Engine.words count c = (c.heldWords count, c.skip count) :=
        words_eq_heldWords (by omega)
      have split : Engine.words ((n + 3) / 4) b =
          (c.heldWords count ++ (Engine.words rest (c.skip count)).1,
            (Engine.words rest (c.skip count)).2) := by
        rw [← words_filled b (by omega), total, Engine.words_add, taken]
      have length : ((c.heldWords count).flatMap fun w =>
          Reader.littleEndian 4 w.toNat).length = 4 * count := by
        rw [length_wordBytes, heldWords, List.length_map, List.length_range]
      show (_ ++ (bytesFrom rounds (n - 4 * count) (c.skip count)).1,
        (bytesFrom rounds (n - 4 * count) (c.skip count)).2) = _
      rw [ih (by omega), split, List.flatMap_append, List.take_append, length]

/-- The stream of a seed begins at the first position. -/
theorem position_ofSeed (seed : UInt64) : (ofSeed seed).position = 0 := by
  have first : (ofSeed seed).block 64 = 0 := by
    show (0 : UInt64) - 4 + 4 = 0
    decide
  simp only [position]
  rw [show (ofSeed seed).drawn = 64 from rfl, first]
  rfl

/-- Moving goes to every position of the stream. -/
theorem position_moveTo {p : Nat} (inside : p < streamLength) (b : Buffered) :
    (b.moveTo p).position = p := by
  have number : p / 16 < 2 ^ 64 := by
    simp only [streamLength, UInt64.size] at inside
    omega
  have first : (p % 16) / 16 = 0 := by omega
  have block : (b.moveTo p).block (p % 16) = (p / 16).toUInt64 := by
    simp [block, moveTo, first]
  show 16 * ((b.moveTo p).block (p % 16)).toNat + p % 16 % 16 = p
  rw [block, Nat.toUInt64_eq, UInt64.toNat_ofNat_of_lt' number]
  omega

instance : LawfulEngine Buffered where
  key_ofSeed _ := rfl
  position_ofSeed := position_ofSeed
  key_moveTo _ _ := rfl
  position_moveTo inside b := position_moveTo inside b
  fst_word b := by
    show b.filled.held b.filled.drawn = b.key.word b.position
    rw [held_drawn, position_filled, key_filled]
  key_word b := b.key_filled
  position_word b := by
    show (b.filled.skip 1).position = (b.position + 1) % streamLength
    rw [position_skip b.drawn_filled, position_filled]
  fst_doubleWord b := congrArg Prod.fst b.doubleWord_eq
  agrees_doubleWord b := congrArg Prod.snd b.doubleWord_eq ▸ .refl _
  fst_bytes n b := congrArg Prod.fst (bytesFrom_eq (Nat.le_refl n) b)
  agrees_bytes n b := congrArg Prod.snd (bytesFrom_eq (Nat.le_refl n) b) ▸ .refl _

end Buffered

end SparseTensor
