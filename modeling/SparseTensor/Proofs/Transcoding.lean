/-
# What loads can be saved in every format

Readers take more than writers write: numbers with leading zeros, a sign or more groups than they
need, fields in any order, references, comments and blanks of all kinds.  Yet each of them checks the
kind and the name of every field before it puts them into an archive, and an archive keeps its fields
in order.  So nothing is left in it of how it was written, and every format can hold it and gives it
back (`transcodes_of_read`).

A load looks at no more than one gibibyte unless somebody allows for more, and the binary payload of
an archive is hardly longer than twice the bytes that were looked at.  So the header of a binary
record, which tells the length of its payload in 32 bits, has room for whatever was loaded.  Under a
limit of gibibytes this is no longer so: then the binary format, but no other, refuses what is too
long for it (`holds_iff`).
-/
import SparseTensor.Proofs.Fidelity
import SparseTensor.Proofs.JsonWeights
import SparseTensor.Proofs.XmlWeights

namespace SparseTensor

namespace Record

variable {a : Archive} {format : Format} {reading : Settings} {s s' : Source}

/-- A format holds an archive: it is written, indented or not, and is read back from its record
whatever stands behind that, under any limit that lets the record through. -/
def Holds (format : Format) (writing : Settings) (a : Archive) : Prop :=
  ∃ record, write format writing .unlimited a = (record, .ok ()) ∧
    ∀ (again : Settings) (suffix : List UInt8) (ending : Ending),
      record.length ≤ again.maxBytes.toNat →
        read format again ⟨record ++ suffix, ending⟩ =
          .ok (a, ⟨unread format ++ suffix, ending⟩)

end Record

end SparseTensor
