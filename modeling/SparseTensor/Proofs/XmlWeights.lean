/-
# XML records weigh no less than archives

Tags and text are cut out of the bytes, and a reference is longer than the character that it stands
for.  So what is read from the pieces of a record weighs no more than they do (`Piece.weight`).  A
field is paid for by the tag that opens it and by its text, before it gets into the archive
(`Progress.Within`): one piece after another adds to what there is to spend.
-/
import SparseTensor.Proofs.Weights
import SparseTensor.Proofs.XmlRecords

namespace SparseTensor

/-! ## Pieces -/

namespace Xml

variable {bytes rest : List UInt8}

/-- The number of bytes from which a piece can give something to an archive. -/
def Piece.weight : Piece → Nat
  | .text bytes => bytes.length
  | .opening tag | .empty tag => tag.length + 2
  | .closing _ | .characterData | .ignored => 0

end Xml

namespace XmlRecord

variable {a b : Archive} {n : Nat}

/-- How far a record has been read, with no more weight than was paid for. -/
def Progress.Within : Progress → Nat → Prop
  | .outside, _ => True
  | .inArchive a, n => a.Within n
  | .inField a f, n => ∃ m, a.Within m ∧ m + f.name.toList.length + f.text.length + 2 ≤ n

/-- What a piece leads to, with no more weight than was paid for. -/
def Outcome.Within : Outcome → Nat → Prop
  | .goOn p, n => p.Within n
  | .complete a, n => a.Within n

end XmlRecord

end SparseTensor
