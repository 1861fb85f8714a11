/-
# Generators

A generator is a seed and a position in the stream of that seed, counted in words.  Drawing
moves the position on; after the last word of the stream it returns to the first.  Generators
are equal when they will draw the same from here on.
-/
import SparseTensor.Archive
import SparseTensor.Random.Block
import SparseTensor.Bytes.Reader

namespace SparseTensor

/-- The number of words in a stream: sixteen in each of 2 ^ 64 blocks. -/
def streamLength : Nat := 16 * UInt64.size

/-- A seed and a position in its stream. -/
structure Generator where
  seed : UInt64
  position : Fin streamLength
  deriving DecidableEq

namespace Generator

/-- The generator at the start of the stream of a seed. -/
def ofSeed (seed : UInt64) : Generator := ⟨seed, ⟨0, by decide⟩⟩

/-- The generator for a seed, where zero asks for a seed that comes from `entropy`. -/
def new (seed entropy : UInt64) : Generator :=
  ofSeed (if seed ≠ 0 then seed else if entropy ≠ 0 then entropy else 1)

/-- The position behind a position. -/
def successor (p : Fin streamLength) : Fin streamLength :=
  ⟨(p.val + 1) % streamLength, Nat.mod_lt _ (by decide)⟩

/-- The word at a position of a stream. -/
def wordAt (seed : UInt64) (p : Fin streamLength) : UInt32 :=
  let block := (Key.ofSeed seed).block (p.val / 16).toUInt64
  block.toList.getD (p.val % 16) 0

/-- The next word. -/
def next32 (g : Generator) : UInt32 × Generator :=
  (wordAt g.seed g.position, { g with position := successor g.position })

/-- The next two words as one, the low half first. -/
def next64 (g : Generator) : UInt64 × Generator :=
  let (low, g) := g.next32
  let (high, g) := g.next32
  (high.toUInt64 <<< 32 ||| low.toUInt64, g)

/-- The next 53 bits as a fraction below one. -/
def nextReal (g : Generator) : Float × Generator :=
  let (bits, g) := g.next64
  ((bits >>> 11).toFloat * Float.ofBits 0x3CA0000000000000, g)

/-- The bytes of the next `n` words. -/
def nextWords : Nat → List UInt8 → Generator → List UInt8 × Generator
  | 0, bytes, g => (bytes.reverse, g)
  | n + 1, bytes, g =>
    let (word, g) := g.next32
    nextWords n ((Reader.littleEndian 4 word.toNat).reverse ++ bytes) g

/-- The next `n` bytes.  What is left of the last word is lost. -/
def nextBytes (n : Nat) (g : Generator) : List UInt8 × Generator :=
  let (bytes, g) := nextWords ((n + 3) / 4) [] g
  (bytes.take n, g)

/-- Do the same draw `n` times, behind the results in `before`, which are held last to first. -/
def repeated {α : Type} (draw : Generator → α × Generator) :
    Nat → List α → Generator → List α × Generator
  | 0, before, g => (before.reverse, g)
  | n + 1, before, g =>
    let (a, g) := draw g
    repeated draw n (a :: before) g

/-! ## Archives -/

/-- The kind of the archive of a generator. -/
def archiveKind : String := "Random"

/-- The archive of a generator: the position stands in two words, the high one first. -/
def toArchive (g : Generator) : Archive :=
  Archive.ofList archiveKind
    [("seed", .scalar g.seed),
      ("position",
        .list [(g.position.val / UInt64.size).toUInt64, (g.position.val % UInt64.size).toUInt64])]

/-- The generator of an archive. -/
def ofArchive (a : Archive) : Except Fault Generator := do
  a.expectKind archiveKind
  let seed ← a.scalar "seed"
  match ← a.list "position" with
  | [high, low] =>
    let position := high.toNat * UInt64.size + low.toNat
    if inside : position < streamLength then return ⟨seed, ⟨position, inside⟩⟩
    else throw (.corrupt (.positionBeyondStream position))
  | words => throw (.corrupt (.positionWords words.length))

end Generator

end SparseTensor
