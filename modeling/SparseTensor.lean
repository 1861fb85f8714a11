import SparseTensor.Bytes.Cursor
import SparseTensor.Session.Records
import SparseTensor.Proofs.Histories
import SparseTensor.Proofs.NestedRuns
import SparseTensor.Proofs.Refusals
import SparseTensor.Proofs.Encodings
import SparseTensor.Proofs.Coordinates
import SparseTensor.Proofs.RoundTrips
import SparseTensor.Proofs.Continuations
import SparseTensor.Proofs.Fidelity
import SparseTensor.Proofs.CutPortable
import SparseTensor.Proofs.Damage
import SparseTensor.Proofs.Descriptions
import SparseTensor.Proofs.Streams
import SparseTensor.Proofs.Pairings
import SparseTensor.Proofs.Severing
import SparseTensor.Proofs.Truncation
import SparseTensor.Proofs.Weights
import SparseTensor.Proofs.JsonWeights
import SparseTensor.Proofs.XmlWeights
import SparseTensor.Proofs.Transcoding
import SparseTensor.Proofs.FailingSinks
import SparseTensor.Proofs.Spellings
import SparseTensor.Proofs.RepeatedNames
import SparseTensor.Proofs.DeadEnds
import SparseTensor.Proofs.FailingSources
import SparseTensor.Proofs.Asides
import SparseTensor.Proofs.OtherFormats
import SparseTensor.Proofs.Cascades
import SparseTensor.Proofs.Concatenation
import SparseTensor.Proofs.OtherVersions
import SparseTensor.Proofs.Setters
import SparseTensor.Proofs.Choices
import SparseTensor.Proofs.Noise
import SparseTensor.Proofs.SetAlgebra
import SparseTensor.Proofs.ArchivedNodes
import SparseTensor.Proofs.Flattening
import SparseTensor.Proofs.KeptGenerators
import SparseTensor.Proofs.PortableGrammar
import SparseTensor.Proofs.Cursors
import SparseTensor.Proofs.Layouts
import SparseTensor.Proofs.Audiences
