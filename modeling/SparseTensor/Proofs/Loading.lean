/-
# What saving reads and loading creates

Saving writes the record of an archive; a node is saved as what it shows, whether it is canonical or
a view (`save_eq`).

A load reads an archive, and then creates what the archive describes: a canonical node, behind all
others, or a generator.  The two steps fail for reasons of their own, which `Record.readAs` puts
together, and nothing is created if one of them fails: `load_eq` and `loadGenerator_eq` say so of
every source.

The node that is created has the cells of the record as its only encoding, and nobody hears it
(`Node.IsRestored`).
-/
import SparseTensor.Proofs.Openings
import SparseTensor.Session.Records

namespace SparseTensor

variable {α β : Type}

/-! ## What a record describes -/

/-- Read a record from a source: what `describe` takes its archive for, and the source behind. -/
def Record.readAs (describe : Archive → Except Fault β) (format : Format) (settings : Settings)
    (source : Source) : Except Fault (β × Source) := do
  let (a, rest) ← read format settings source
  return (← describe a, rest)

section

variable {describe : Archive → Except Fault β} {format : Format} {settings : Settings}
  {source rest : Source} {a : Archive}

theorem Record.readAs_of_error {fault : Fault}
    (failed : read format settings source = .error fault) :
    readAs describe format settings source = .error fault := by
  rw [readAs, failed]
  rfl

theorem Record.readAs_of_ok (found : read format settings source = .ok (a, rest)) :
    readAs describe format settings source = (describe a).map (·, rest) := by
  simp only [readAs, found, bind, Except.bind]
  cases describe a <;> rfl

end

/-! ## Restored nodes -/

/-- The node that a snapshot describes. -/
def Snapshot.node (s : Snapshot) : Node α :=
  { Node.canonical s.shape with cache := .ofSparse s.cells }

/-- A canonical node that nobody hears, all of whose encodings denote one set of cells. -/
structure Node.IsRestored (n : Node α) : Prop where
  role : n.role = .canonical
  live : n.orphaned = false
  available : n.available = true
  registrations : n.registrations = []
  held : n.cache.isStale = false
  denotes : ∃ S, n.cache.Denotes n.shape S

/-- A set of cells describes such a node. -/
theorem Snapshot.isRestored_node {s : Snapshot} (set : Sparse.IsSet s.shape.size s.cells) :
    (s.node : Node α).IsRestored where
  role := rfl
  live := rfl
  available := rfl
  registrations := rfl
  held := rfl
  denotes := ⟨_, (Cache.holds_ofSparse set).denotes⟩

/-! ## Nodes -/

namespace Forest

/-- An archive that has a record is saved as this record. -/
theorem saveArchive_eq {format : Format} {settings : Settings} {a : Archive} {record : List UInt8}
    (encoded : Record.encode format settings a = .ok record) (f : Forest α) :
    saveArchive format settings .unlimited a f =
      .ok record (f.noteAll [.savedRecord a.kind a.fields.length format]) := by
  unfold saveArchive
  rw [Record.write, encoded]
  rfl

/-- A node is saved as the cells that it shows. -/
theorem save_eq {f : Forest α} (sound : f.Sound) {id : NodeId} {n : Node α} {cells : Sparse}
    (found : f.available? id = some n) (shows : f.shown id = .ok cells) {format : Format}
    {settings : Settings} {record : List UInt8}
    (encoded : Record.encode format settings (Snapshot.toArchive ⟨n.shape, cells⟩) = .ok record) :
    ∃ g, save id format settings .unlimited f = .ok record g ∧ f.Reads g := by
  have read := read_eq sound found Cache.renders_readSparse
  rw [shows] at read
  obtain ⟨g, read, reads⟩ := read
  have seen : snapshot id f = .ok ⟨n.shape, cells⟩ g :=
    (bind_of_ok (lent_of_some found)).trans (bind_of_ok read)
  exact ⟨_, (bind_of_ok seen).trans (saveArchive_eq encoded g), .note _ reads⟩

variable (f : Forest α) (format : Format) (settings : Settings) (source : Source)

/-- An archive is loaded exactly if it is read. -/
theorem loadArchive_eq : loadArchive format settings source f =
    match Record.read format settings source with
    | .ok (a, rest) => .ok (a, rest) (f.noteAll [.loadedRecord a.kind a.fields.length format])
    | .error fault => .error fault f := by
  unfold loadArchive
  cases Record.read format settings source with
  | ok found => rfl
  | error fault => rfl

/-- What is made of an archive that is loaded depends on what `describe` takes it for, and on
nothing that the load has changed. -/
theorem loadArchive_then {γ : Type} (describe : Archive → Except Fault β)
    (make : Archive → Call α γ) (answer : Forest α → β → γ) (after : Forest α → β → Forest α)
    (makes : ∀ h a, make a h = match describe a with
      | .ok b => .ok (answer h b) (after h b)
      | .error fault => .error fault h) :
    ∃ h : Forest α, h.nodes = f.nodes ∧
      (do let (a, rest) ← loadArchive format settings source
          return (← make a, rest)) f =
        match Record.readAs describe format settings source with
        | .ok (b, rest) => .ok (answer h b, rest) (after h b)
        | .error fault => .error fault h := by
  have loaded := f.loadArchive_eq format settings source
  cases read : Record.read format settings source with
  | error fault =>
      rw [read] at loaded
      rw [Record.readAs_of_error read]
      exact ⟨f, rfl, bind_of_error loaded⟩
  | ok found =>
      obtain ⟨a, rest⟩ := found
      rw [read] at loaded
      rw [Record.readAs_of_ok read]
      have made := makes (f.noteAll [.loadedRecord a.kind a.fields.length format]) a
      refine ⟨f.noteAll [.loadedRecord a.kind a.fields.length format], rfl, ?_⟩
      cases described : describe a with
      | error fault =>
          rw [described] at made
          exact (bind_of_ok loaded).trans (bind_of_error made)
      | ok b =>
          rw [described] at made
          exact (bind_of_ok loaded).trans (bind_of_ok made)

/-- A node is created if a record describes one. -/
theorem load_eq : match Record.readAs Snapshot.ofArchive format settings source with
    | .ok (s, rest) => ∃ g, load format settings source f = .ok (f.nodes.size, rest) g ∧
        g.nodes = f.nodes.push s.node
    | .error fault => ∃ g, load format settings source f = .error fault g ∧ g.nodes = f.nodes := by
  obtain ⟨h, same, loaded⟩ := f.loadArchive_then format settings source Snapshot.ofArchive adopt
    (fun h _ => h.nodes.size) (fun h s => h.push s.node) fun h a => by
      have adopted := adopt_eq h a
      cases described : Snapshot.ofArchive a <;> rw [described] at adopted <;> exact adopted
  cases read : Record.readAs Snapshot.ofArchive format settings source with
  | error fault =>
      rw [read] at loaded
      exact ⟨h, loaded, same⟩
  | ok found =>
      rw [read, same] at loaded
      exact ⟨h.push found.1.node, loaded, congrArg (Array.push · found.1.node) same⟩

/-! ## Generators -/

/-- Load a generator. -/
def loadGenerator : Call α (Generator × Source) := do
  let (a, rest) ← loadArchive format settings source
  return (← settle (Generator.ofArchive a), rest)

/-- A generator is made if a record describes one. -/
theorem loadGenerator_eq : match Record.readAs Generator.ofArchive format settings source with
    | .ok (r, rest) => ∃ g, loadGenerator format settings source f = .ok (r, rest) g ∧
        g.nodes = f.nodes
    | .error fault => ∃ g, loadGenerator format settings source f = .error fault g ∧
        g.nodes = f.nodes := by
  obtain ⟨h, same, loaded⟩ := f.loadArchive_then format settings source Generator.ofArchive
    (fun a => settle (Generator.ofArchive a)) (fun _ r => r) (fun h _ => h) fun h a => by
      cases Generator.ofArchive a <;> rfl
  cases read : Record.readAs Generator.ofArchive format settings source with
  | error fault =>
      rw [read] at loaded
      exact ⟨h, loaded, same⟩
  | ok found =>
      rw [read] at loaded
      exact ⟨h, loaded, same⟩

end Forest

namespace Session

/-- A session loads a generator and gives it its name. -/
theorem loadGenerator_eq (s : Session) (name : String) (format : Format) (settings : Settings)
    (source : Source) : loadGenerator name ⟨format.code, settings⟩ source s =
      match Forest.loadGenerator format settings source s.forest with
      | .ok (r, rest) forest =>
        .ok (r, rest) { s with forest, generators := s.generators.set name r }
      | .error fault forest => .error (.failed fault) { s with forest } := by
  have coded : Record.formatOfCode format.code = .ok format := by
    rw [Record.formatOfCode, Format.ofCode?_code]
  unfold loadGenerator Forest.loadGenerator
  rw [coded, bind_of_ok (show settle (.ok format) s = .ok format s from rfl)]
  cases loaded : Forest.loadArchive format settings source s.forest with
  | error fault forest =>
      have failed : onForest (Forest.loadArchive format settings source) s =
          .error (.failed fault) { s with forest } := by
        rw [onForest, loaded]
      rw [bind_of_error failed, bind_of_error loaded]
  | ok found forest =>
      obtain ⟨a, rest⟩ := found
      have answered : onForest (Forest.loadArchive format settings source) s =
          .ok (a, rest) { s with forest } := by
        rw [onForest, loaded]
      rw [bind_of_ok answered, bind_of_ok loaded]
      dsimp only
      cases Generator.ofArchive a <;> rfl

end Session

end SparseTensor
