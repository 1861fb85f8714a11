/-
# Blocks of the random stream

The stream of a seed is cut into blocks of sixteen words.  A block mixes four fixed words, a key
of eight words and its own number in eight rounds, each of which works on the columns of a
square of words and then on its diagonals.  The key comes from the seed by a linear recurrence
whose states are scrambled.
-/

namespace SparseTensor

/-- Rotate the bits of a word to the left. -/
def rotateLeft (w : UInt32) (n : UInt32) : UInt32 :=
  (w <<< n) ||| (w >>> (32 - n))

/-- Rotate the bits of a word to the right. -/
def rotateRight (w : UInt32) (n : UInt32) : UInt32 :=
  (w >>> n) ||| (w <<< ((32 - n) % 32))

/-- Four words side by side. -/
structure Row where
  a : UInt32
  b : UInt32
  c : UInt32
  d : UInt32
  deriving DecidableEq, Repr

namespace Row

/-- The sums of the words of two rows. -/
def add (r s : Row) : Row := ⟨r.a + s.a, r.b + s.b, r.c + s.c, r.d + s.d⟩

/-- Mix a row into another and rotate the words of the result to the left. -/
def mix (r s : Row) (n : UInt32) : Row :=
  ⟨rotateLeft (r.a ^^^ s.a) n, rotateLeft (r.b ^^^ s.b) n, rotateLeft (r.c ^^^ s.c) n,
    rotateLeft (r.d ^^^ s.d) n⟩

/-- Move the words of a row one place to the left, the first behind the last. -/
def turn (r : Row) : Row := ⟨r.b, r.c, r.d, r.a⟩

/-- The words of a row. -/
def toList (r : Row) : List UInt32 := [r.a, r.b, r.c, r.d]

end Row

/-- A square of words, row by row. -/
structure Square where
  top : Row
  upper : Row
  lower : Row
  bottom : Row
  deriving DecidableEq, Repr

namespace Square

/-- Mix the words of each column. -/
def mixColumns (s : Square) : Square :=
  let top := s.top.add s.upper
  let bottom := s.bottom.mix top 16
  let lower := s.lower.add bottom
  let upper := s.upper.mix lower 12
  let top := top.add upper
  let bottom := bottom.mix top 8
  let lower := lower.add bottom
  let upper := upper.mix lower 7
  ⟨top, upper, lower, bottom⟩

/-- Mix the words of each column and then those of each diagonal. -/
def doubleRound (s : Square) : Square :=
  let s := s.mixColumns
  let s := mixColumns ⟨s.top, s.upper.turn, s.lower.turn.turn, s.bottom.turn.turn.turn⟩
  ⟨s.top, s.upper.turn.turn.turn, s.lower.turn.turn, s.bottom.turn⟩

/-- The sums of the words of two squares. -/
def add (s t : Square) : Square :=
  ⟨s.top.add t.top, s.upper.add t.upper, s.lower.add t.lower, s.bottom.add t.bottom⟩

/-- The words of a square, row by row. -/
def toList (s : Square) : List UInt32 :=
  s.top.toList ++ s.upper.toList ++ s.lower.toList ++ s.bottom.toList

end Square

/-- The key of a stream. -/
structure Key where
  first : Row
  second : Row
  deriving DecidableEq, Repr

namespace Key

/-- The state of the recurrence after `state`. -/
def nextState (state : UInt64) : UInt64 :=
  state * 6364136223846793005 + 11634580027462260723

/-- The word that a state of the recurrence yields. -/
def scramble (state : UInt64) : UInt32 :=
  let folded := (((state >>> 18) ^^^ state) >>> 27).toUInt32
  rotateRight folded (state >>> 59).toUInt32

/-- The row that four states after `state` yield, and the last of them. -/
def row (state : UInt64) : Row × UInt64 :=
  let s := nextState state
  let t := nextState s
  let u := nextState t
  let v := nextState u
  (⟨scramble s, scramble t, scramble u, scramble v⟩, v)

/-- The key of the stream of a seed. -/
def ofSeed (seed : UInt64) : Key :=
  let (first, state) := row seed
  ⟨first, (row state).1⟩

/-- The words that every block starts from. -/
def constants : Row := ⟨0x61707865, 0x3320646e, 0x79622d32, 0x6b206574⟩

/-- The block with a number. -/
def block (key : Key) (number : UInt64) : Square :=
  let start : Square :=
    ⟨constants, key.first, key.second, ⟨number.toUInt32, (number >>> 32).toUInt32, 0, 0⟩⟩
  start.doubleRound.doubleRound.doubleRound.doubleRound.add start

end Key

end SparseTensor
