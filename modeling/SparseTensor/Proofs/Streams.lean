/-
# Records in a row

Records are written one behind another and loaded in the same order.  A reader stops in front of the
line end of a JSON or XML record, and the next load skips it (`Record.read_leftover`); it counts as
little for the limit as the line end that is left behind the next record, so records that fit on
their own fit in a row.

What is saved is the value of an item (`Item.Has`): a canonical node has one at all times, and a
view that is no orphan has one between two commands (`Item.Live.exists_has`).  `loadAll_records` is
the induction over the loads: each leaves the end of its own record in front of the next, and keeps
what was loaded before.  `records_are_loaded_in_order` puts saving in front of it.
-/
import Mathlib.Data.List.Forall2
import SparseTensor.Proofs.Descriptions
import SparseTensor.Proofs.Loading
import SparseTensor.Proofs.Roots
import SparseTensor.Proofs.RoundTrips

namespace SparseTensor

variable {α : Type}

/-! ## One record behind another -/

namespace Record

variable {a : Archive} {format : Format} {writing : Settings} {record : List UInt8}

/-- What stands in front of a reader after some loads: nothing before the first, and then the end of
the record that was read last. -/
def leftover (format : Format) : Nat → List UInt8
  | 0 => []
  | _ + 1 => unread format

theorem leftover_cases (format : Format) (n : Nat) :
    leftover format n = [] ∨ leftover format n = unread format := by
  cases n with
  | zero => exact .inl rfl
  | succ n => exact .inr rfl

/-- An archive has a record if the payload fits in the length field of a binary record. -/
theorem exists_encode (fits : format = .binary → (Binary.payload a).length < UInt32.size)
    (writing : Settings) : ∃ record, encode format writing a = .ok record := by
  cases format with
  | binary => exact ⟨_, if_pos (fits rfl)⟩
  | portable => exact ⟨_, rfl⟩
  | json => exact ⟨_, rfl⟩
  | xml => exact ⟨_, rfl⟩

/-- A binary record has a payload that fits. -/
theorem fits_of_encode (encoded : encode format writing a = .ok record) :
    format = .binary → (Binary.payload a).length < UInt32.size := by
  rintro rfl
  refine Classical.byContradiction fun long => ?_
  rw [encode, Binary.encode] at encoded
  simp only [if_neg long] at encoded
  cases encoded

/-- Behind the end of another record a record is read as its archive, and its own end is left in
front of what comes next. -/
theorem read_leftover (encoded : encode format writing a = .ok record)
    (valid : isValidName a.kind = true ∧ ∀ entry ∈ a.fields, isValidName entry.1 = true)
    {reading : Settings} (room : record.length ≤ reading.maxBytes.toNat) (n : Nat)
    (suffix : List UInt8) (ending : Ending) :
    read format reading ⟨leftover format n ++ (record ++ suffix), ending⟩ =
      .ok (a, ⟨unread format ++ suffix, ending⟩) := by
  obtain ⟨front, same, decoded⟩ := decode_front valid.1 valid.2 (fits_of_encode encoded) writing
  obtain rfl := Except.ok.inj (encoded.symm.trans same)
  have lead := leftover_cases format n
  -- what is left of the record before is no longer than what is left of this one
  have short : (leftover format n ++ front).length ≤ reading.maxBytes.toNat := by
    rw [List.length_append] at room ⊢
    rcases lead with lead | lead <;> rw [lead]
    · simp only [List.length_nil]
      omega
    · omega
  have together : ∀ (suffix : List UInt8) (ending : Ending),
      decode format reading ⟨leftover format n ++ front ++ suffix, ending⟩ = .ok (a, suffix) := by
    intro suffix ending
    rw [List.append_assoc]
    exact decoded reading (leftover format n) suffix ending lead room
  have behind := read_of_decode together short (unread format ++ suffix) ending
  rwa [List.append_assoc, ← List.append_assoc front] at behind

end Record

/-! ## Values and items -/

/-- What a record keeps: the shape and the cells of a node, or a generator. -/
inductive Value
  | node (s : Snapshot)
  | generator (r : Generator)

/-- Something to save, or what is made of it by loading: a node of a forest, or a generator. -/
inductive Item
  | node (id : NodeId)
  | generator (r : Generator)

/-- The kinds of items. -/
inductive Kind
  | node
  | generator

/-- The archive of a value. -/
def Value.archive : Value → Archive
  | node s => s.toArchive
  | generator r => r.toArchive

/-- The names in the archive of a value are valid. -/
theorem Value.isValidName_archive (v : Value) : isValidName v.archive.kind = true ∧
    ∀ entry ∈ v.archive.fields, isValidName entry.1 = true := by
  cases v with
  | node s => exact s.isValidName_toArchive
  | generator r => exact r.isValidName_toArchive

namespace Item

/-- The kind of an item. -/
def kind : Item → Kind
  | node _ => .node
  | generator _ => .generator

/-- An item has a value: a node that can be used shows cells, in its own shape. -/
inductive Has (f : Forest α) : Item → Value → Prop
  | node {id : NodeId} {n : Node α} {cells : Sparse} :
    f.available? id = some n → f.shown id = .ok cells → Has f (.node id) (.node ⟨n.shape, cells⟩)
  | generator (r : Generator) : Has f (.generator r) (.generator r)

/-- A node that nobody hears and that is no view, if the item is a node. -/
def IsRestored (f : Forest α) : Item → Prop
  | node id => ∃ n, f.nodes[id]? = some n ∧ n.IsRestored
  | generator _ => True

/-- Save an item to a sink: what this has accepted. -/
def saveTo (format : Format) (settings : Settings) (sink : Sink) :
    Item → Forest.Call α (List UInt8)
  | node id => Forest.save id format settings sink
  | generator r => Forest.saveArchive format settings sink r.toArchive

/-- Save an item: the record. -/
def save (format : Format) (settings : Settings) (item : Item) : Forest.Call α (List UInt8) :=
  item.saveTo format settings .unlimited

variable {f : Forest α} {item : Item} {v : Value}

/-- An item is saved as its value. -/
theorem save_eq (sound : f.Sound) (has : item.Has f v) {format : Format} {settings : Settings}
    {record : List UInt8} (encoded : Record.encode format settings v.archive = .ok record) :
    ∃ g, item.save format settings f = .ok record g := by
  cases has with
  | node found shows =>
      obtain ⟨g, saved, -⟩ := Forest.save_eq sound found shows encoded
      exact ⟨g, saved⟩
  | generator r => exact ⟨_, Forest.saveArchive_eq encoded f⟩

end Item

/-! ## Items with a value -/

/-- Items that can be saved: a canonical node at all times, a view that is no orphan between two
commands, as long as the views are registered with their parents, and a generator. -/
inductive Item.Live : Situation α → Item → Prop
  | canonical {s : Situation α} {id : NodeId} {n : Node α} : s.forest.available? id = some n →
    n.role = .canonical → Live s (.node id)
  | view {f : Forest α} {id : NodeId} {n : Node α} : f.InPlace → f.available? id = some n →
    n.orphaned = false → Live (.quiet f) (.node id)
  | generator {s : Situation α} (r : Generator) : Live s (.generator r)

/-- A node that is no orphan shows cells, by induction on the way up: a view that holds no encoding
is registered with its parent, which is there for it and no orphan either. -/
theorem Situation.Whole.exists_shown {f : Forest α} (whole : (Situation.quiet f).Whole)
    {id : NodeId} {n : Node α} (found : f.available? id = some n) (live : n.orphaned = false) :
    ∃ cells, f.shown id = .ok cells := by
  induction id using Nat.strongRecOn generalizing n with
  | ind id ih =>
      have roles := whole.linked.canonical_or_linked found live
      obtain ⟨found, -⟩ := Option.filter_eq_some_iff.1 found
      cases fresh : n.isFresh with
      | true => exact ⟨_, Forest.shown_of_isFresh found live fresh⟩
      | false =>
          rcases roles with role | ⟨link, role⟩
          · have held := whole.ordered.forest.sound.canonical found role
            rw [fresh] at held
            cases held
          · obtain ⟨p, parent, parentLive, -⟩ := whole.linked.exists_parent found role
            have older := (whole.ordered.forest.sound.linked found role).1
            obtain ⟨cells, shown⟩ := ih link.parent older parent parentLive
            obtain ⟨hp, lent⟩ := Option.filter_eq_some_iff.1 parent
            refine ⟨cells, Eq.trans ?_ shown⟩
            exact Forest.shown_of_stale found live fresh role older
              (whole.held.isAlive hp (.inl lent))

/-- Items that can be saved have a value. -/
theorem Item.Live.exists_has {s : Situation α} {item : Item} (live : item.Live s)
    (reached : Reached (G := Generator) (fun _ _ => True) s) : ∃ v, item.Has s.forest v := by
  cases live with
  | @canonical _ id n found role =>
      have there := (Option.filter_eq_some_iff.1 found).1
      have noOrphan := (reached.rooted.2.unlinked there).2 role
      have fresh := reached.ordered.forest.sound.canonical there role
      exact ⟨_, .node found (Forest.shown_of_isFresh there noOrphan fresh)⟩
  | @view f id n inPlace found noOrphan =>
      obtain ⟨cells, shows⟩ := (reached.whole inPlace).exists_shown found noOrphan
      exact ⟨_, .node found shows⟩
  | generator r => exact ⟨_, .generator r⟩

/-! ## Loading one item -/

/-- Load an item of a kind. -/
def Kind.load (format : Format) (settings : Settings) (source : Source) :
    Kind → Forest.Call α (Item × Source)
  | node => do
    let (id, rest) ← Forest.load format settings source
    return (.node id, rest)
  | generator => do
    let (r, rest) ← Forest.loadGenerator format settings source
    return (.generator r, rest)

/-- An item is what a value is loaded as. -/
inductive Value.Loaded (f : Forest α) : Value → Item → Prop
  | node {s : Snapshot} {id : NodeId} : Sparse.IsSet s.shape.size s.cells →
    f.nodes[id]? = some s.node → Loaded f (.node s) (.node id)
  | generator (r : Generator) : Loaded f (.generator r) (.generator r)

/-- Nothing that is in a forest is lost or changed. -/
def Forest.Extends (f g : Forest α) : Prop :=
  ∀ (id : NodeId) (n : Node α), f.nodes[id]? = some n → g.nodes[id]? = some n

namespace Value

variable {f g : Forest α} {v : Value} {item : Item}

/-- What is loaded stays what it is. -/
theorem Loaded.mono (h : v.Loaded f item) (kept : f.Extends g) : v.Loaded g item := by
  cases h with
  | node set found => exact .node set (kept _ _ found)
  | generator r => exact .generator r

/-- An item that is loaded has the value that was saved, and is a canonical node or a generator. -/
theorem Loaded.has (h : v.Loaded f item) : item.Has f v ∧ item.IsRestored f := by
  cases h with
  | @node s id set found =>
      have restored := Snapshot.isRestored_node (α := α) set
      have there : f.available? id = some s.node :=
        Option.filter_eq_some_iff.2 ⟨found, restored.available⟩
      have shows : f.shown id = .ok s.cells := by
        rw [Forest.shown_of_isFresh found restored.live rfl]
        exact congrArg Except.ok (Node.cells_eq (Cache.holds_ofSparse set) rfl)
      exact ⟨.node there shows, s.node, found, restored⟩
  | generator r => exact ⟨.generator r, trivial⟩

/-- A value whose archive is read is loaded. -/
theorem load_eq (has : item.Has f v) (sound : f.Sound) {format : Format} {reading : Settings}
    {source rest : Source} (read : Record.read format reading source = .ok (v.archive, rest))
    (h : Forest α) :
    ∃ loaded g, item.kind.load format reading source h = .ok (loaded, rest) g ∧
      v.Loaded g loaded ∧ h.Extends g := by
  cases has with
  | @node id n cells found shows =>
      have set := Forest.isSet_shown sound (Option.filter_eq_some_iff.1 found).1 shows
      have described : Record.readAs Snapshot.ofArchive format reading source =
          .ok (⟨n.shape, cells⟩, rest) := by
        rw [Record.readAs_of_ok read, archive, Snapshot.ofArchive_toArchive _ set]
        rfl
      have loaded := h.load_eq format reading source
      rw [described] at loaded
      obtain ⟨g, loaded, nodes⟩ := loaded
      refine ⟨_, g, bind_of_ok loaded, .node set ?_, fun _ _ => Forest.getElem?_of_push nodes⟩
      rw [nodes, Array.getElem?_push_size]
  | generator r =>
      have described : Record.readAs Generator.ofArchive format reading source = .ok (r, rest) := by
        rw [Record.readAs_of_ok read, archive, Generator.ofArchive_toArchive]
        rfl
      have loaded := h.loadGenerator_eq format reading source
      rw [described] at loaded
      obtain ⟨g, loaded, nodes⟩ := loaded
      exact ⟨_, g, bind_of_ok loaded, .generator r, fun id n found => nodes ▸ found⟩

end Value

/-! ## Loading one after another -/

/-- Load items of some kinds, one behind another. -/
def loadAll (format : Format) (settings : Settings) : List Kind → Source →
    Forest.Call α (List Item × Source)
  | [], source => return ([], source)
  | kind :: kinds, source => do
    let (item, rest) ← kind.load format settings source
    let (items, rest) ← loadAll format settings kinds rest
    return (item :: items, rest)

/-- An item at some point of a run, and the value that it has there. -/
structure Original (α : Type) where
  situation : Situation α
  reached : Reached (G := Generator) (fun _ _ => True) situation
  item : Item
  value : Value
  has : item.Has situation.forest value

namespace Original

variable {format : Format} {writing : Settings} {originals : List (Original α)}
  {records : List (List UInt8)}

/-- An item is saved as a record of its value. -/
def IsSavedAs (format : Format) (writing : Settings) (o : Original α) (record : List UInt8) :
    Prop :=
  Record.encode format writing o.value.archive = .ok record ∧
    ∃ g, o.item.save format writing o.situation.forest = .ok record g

/-- Items are saved if their payloads fit in the length fields of binary records. -/
theorem exists_records (originals : List (Original α))
    (fits : format = .binary → ∀ o ∈ originals,
      (Binary.payload o.value.archive).length < UInt32.size) (writing : Settings) :
    ∃ records, List.Forall₂ (IsSavedAs format writing) originals records := by
  induction originals with
  | nil => exact ⟨[], .nil⟩
  | cons o originals ih =>
      obtain ⟨record, encoded⟩ :=
        Record.exists_encode (fun binary => fits binary o List.mem_cons_self) writing
      have saved := Item.save_eq o.reached.ordered.forest.sound o.has encoded
      obtain ⟨records, others⟩ := ih fun binary p hp => fits binary p (List.mem_cons_of_mem o hp)
      exact ⟨record :: records, .cons ⟨encoded, saved⟩ others⟩

/-- Records are as long as the values demand. -/
theorem length_le_of_saved (saved : List.Forall₂ (IsSavedAs format writing) originals records)
    {limit : Nat} (short : ∀ o ∈ originals,
      (Record.encode format writing o.value.archive).toOption.all (·.length ≤ limit) = true) :
    ∀ record ∈ records, record.length ≤ limit := by
  induction saved with
  | nil => exact List.forall_mem_nil _
  | cons saved _ ih =>
      obtain ⟨first, others⟩ := List.forall_mem_cons.1 short
      rw [saved.1] at first
      exact List.forall_mem_cons.2 ⟨of_decide_eq_true first, ih others⟩

/-- Records in a row are loaded one behind another, by induction on their number: each load finds
the end of the record before it and leaves the end of its own. -/
theorem loadAll_records (saved : List.Forall₂ (IsSavedAs format writing) originals records)
    {reading : Settings} (room : ∀ record ∈ records, record.length ≤ reading.maxBytes.toNat)
    (n : Nat) (suffix : List UInt8) (ending : Ending) (f : Forest α) :
    ∃ loaded g, loadAll format reading (originals.map fun o => o.item.kind)
        ⟨Record.leftover format n ++ (records.flatten ++ suffix), ending⟩ f =
          .ok (loaded, ⟨Record.leftover format (n + originals.length) ++ suffix, ending⟩) g ∧
      f.Extends g ∧ List.Forall₂ (fun o item => o.value.Loaded g item) originals loaded := by
  induction saved generalizing n f with
  | nil => exact ⟨[], f, rfl, fun _ _ found => found, .nil⟩
  | @cons o record originals records saved _ ih =>
      have read := Record.read_leftover saved.1 o.value.isValidName_archive
        (room record List.mem_cons_self) n (records.flatten ++ suffix) ending
      rw [← List.append_assoc record] at read
      obtain ⟨item, g, first, loaded, kept⟩ :=
        Value.load_eq o.has o.reached.ordered.forest.sound read f
      obtain ⟨items, h, others, kept', loaded'⟩ :=
        ih (fun r hr => room r (List.mem_cons_of_mem record hr)) (n + 1) g
      refine ⟨item :: items, h, ?_, fun id m found => kept' id m (kept id m found),
        .cons (loaded.mono kept') loaded'⟩
      have count : n + 1 + originals.length = n + (originals.length + 1) := by omega
      rw [count] at others
      rw [List.map_cons, loadAll, List.flatten_cons, List.length_cons]
      exact (bind_of_ok first).trans (bind_of_ok others)

end Original

/-- Items that can be saved have a value.  They are saved, each at some point of a run, and their
records written one behind another.  Loading them in order gives back their values: a node becomes a
canonical node of the same shape that shows the same cells, also if it was a view, and a generator
the same generator.  After any number of loads the reader stands in front of the next record, or of
the line end that the record before it has left. -/
theorem records_are_loaded_in_order (format : Format) :
    (∀ s : Situation α, Reached (G := Generator) (fun _ _ => True) s →
      ∀ item : Item, item.Live s → ∃ v, item.Has s.forest v) ∧
    ∀ originals : List (Original α),
      (format = .binary → ∀ o ∈ originals,
        (Binary.payload o.value.archive).length < UInt32.size) →
      ∀ writing : Settings,
        ∃ records, List.Forall₂ (Original.IsSavedAs format writing) originals records ∧
          ∀ reading : Settings, (∀ record ∈ records, record.length ≤ reading.maxBytes.toNat) →
            ∀ n ≤ originals.length, ∀ (suffix : List UInt8) (ending : Ending) (f : Forest α),
              ∃ loaded g, loadAll format reading ((originals.take n).map fun o => o.item.kind)
                  ⟨records.flatten ++ suffix, ending⟩ f =
                    .ok (loaded, ⟨Record.leftover format n ++ ((records.drop n).flatten ++ suffix),
                      ending⟩) g ∧
                List.Forall₂ (fun o item => item.Has g o.value ∧ item.IsRestored g)
                  (originals.take n) loaded := by
  refine ⟨fun s reached item live => live.exists_has reached, fun originals fits writing => ?_⟩
  obtain ⟨records, saved⟩ := Original.exists_records originals fits writing
  refine ⟨records, saved, fun reading room n inside suffix ending f => ?_⟩
  have room' : ∀ record ∈ records.take n, record.length ≤ reading.maxBytes.toNat :=
    fun record hr => room record (List.mem_of_mem_take hr)
  obtain ⟨loaded, g, all, -, values⟩ := Original.loadAll_records (List.forall₂_take n saved) room'
    0 ((records.drop n).flatten ++ suffix) ending f
  refine ⟨loaded, g, ?_, values.imp fun _ _ h => h.has⟩
  rw [List.length_take_of_le inside, Nat.zero_add] at all
  have row : records.flatten = (records.take n).flatten ++ (records.drop n).flatten := by
    rw [← List.flatten_append, List.take_append_drop]
  rw [row, List.append_assoc]
  exact all

/-- A run that comes to a view, which has not read its parent yet. -/
theorem exists_stale_view : ∃ f : Forest Unit,
    Reached (G := Generator) (fun _ _ => True) (.quiet f) ∧
      (∃ n, f.nodes[1]? = some n ∧ n.role.isView = true ∧ n.isFresh = false) ∧
      (Item.node 1).Live (.quiet f) ∧
      (Item.node 1).Has f (.node ⟨⟨[2, 2], by decide, by simp, by decide⟩, [1, 2]⟩) := by
  let shape : Shape := ⟨[2, 2], by decide, by simp, by decide⟩
  let parent : Node Unit := (Snapshot.node ⟨shape, [1, 2]⟩).subscribe (.view 1)
  let f : Forest Unit := ⟨#[parent, .view shape ⟨0, 0⟩], [], []⟩
  have created : Reached (α := Unit) (G := Generator) (fun s move => move.Tactful s) _ :=
    Reached.start.next (by rintro _ _ ⟨⟩) (.call (.create [2, 2]) rfl)
  have changed := created.next (by rintro _ _ ⟨⟩) (.call (.mutate 0 (.setSparse [1, 2])) rfl)
  have finished := changed.next (by trivial) .finish
  have viewed := finished.next (by rintro _ _ ⟨⟩) (.call (.view 0) rfl)
  have reached : Reached (G := Generator) (fun s move => move.Tactful s) (.quiet f) :=
    viewed.next (by trivial) .forget
  refine ⟨f, reached.mono fun _ _ _ => trivial, ⟨_, rfl, rfl, rfl⟩, .view reached.inPlace rfl rfl,
    @Item.Has.node _ _ 1 (.view shape ⟨0, 0⟩) _ rfl ?_⟩
  rw [@Forest.shown_of_stale _ _ 1 (.view shape ⟨0, 0⟩) ⟨0, 0⟩ rfl rfl rfl rfl (by decide) rfl]
  exact @Forest.shown_of_isFresh _ _ 0 parent rfl rfl rfl

/-- A generator and a view that has not read its parent, loaded from binary records, and from JSON
records under a limit that the second of them just meets. -/
theorem records_are_loaded_in_order_generator_and_view :
    ∃ o p : Original Unit, o.value = .generator ⟨7, ⟨3, by decide⟩⟩ ∧
      p.value = .node ⟨⟨[2, 2], by decide, by simp, by decide⟩, [1, 2]⟩ ∧
      (∃ n, p.situation.forest.nodes[1]? = some n ∧ n.role.isView = true ∧ n.isFresh = false) ∧
      (p.item.Live p.situation ∧ ∃ v, p.item.Has p.situation.forest v) ∧
      (∃ records, List.Forall₂ (Original.IsSavedAs .binary .compact) [o, p] records ∧
        ∃ (loaded : List Item) (g : Forest Unit), loadAll .binary .compact [.generator, .node]
            ⟨records.flatten ++ [0x3C], .fails .other⟩ .empty =
              .ok (loaded, ⟨[0x3C], .fails .other⟩) g ∧
          List.Forall₂ (fun o item => item.Has g o.value ∧ item.IsRestored g) [o, p] loaded) ∧
      ∃ records, List.Forall₂ (Original.IsSavedAs .json .humanReadable) [o, p] records ∧
        ∃ (loaded : List Item) (g : Forest Unit),
          loadAll .json (Settings.withMaxBytes .compact 167) [.generator, .node]
            ⟨records.flatten ++ [0x3C], .fails .other⟩ .empty =
              .ok (loaded, ⟨Text.bytes "\n" ++ [0x3C], .fails .other⟩) g ∧
          List.Forall₂ (fun o item => item.Has g o.value ∧ item.IsRestored g) [o, p] loaded := by
  obtain ⟨f, reached, isView, live, has⟩ := exists_stale_view
  have valued := (records_are_loaded_in_order .binary).1 (.quiet f) reached (.node 1) live
  let r : Generator := ⟨7, ⟨3, by decide⟩⟩
  let cells : Snapshot := ⟨⟨[2, 2], by decide, by simp, by decide⟩, [1, 2]⟩
  have payloads : (Binary.payload r.toArchive).length < UInt32.size ∧
      (Binary.payload cells.toArchive).length < UInt32.size := by decide +kernel
  have sizes : ∀ a ∈ [r.toArchive, cells.toArchive],
      (Record.encode .binary .compact a).toOption.all (·.length ≤ 41) ∧
        (Record.encode .json .humanReadable a).toOption.all (·.length ≤ 167) := by decide +kernel
  let o : Original Unit := ⟨.quiet f, reached, .generator r, .generator r, .generator r⟩
  let p : Original Unit := ⟨.quiet f, reached, .node 1, .node cells, has⟩
  have fits : ∀ q ∈ [o, p], (Binary.payload q.value.archive).length < UInt32.size :=
    List.forall_mem_cons.2 ⟨payloads.1, List.forall_mem_singleton.2 payloads.2⟩
  -- whatever the format, records within the limit are loaded in the order in which they were saved
  have run : ∀ {format : Format} {writing reading : Settings} {limit : Nat},
      (∀ a ∈ [r.toArchive, cells.toArchive],
        (Record.encode format writing a).toOption.all (·.length ≤ limit) = true) →
      limit ≤ reading.maxBytes.toNat →
      ∃ records, List.Forall₂ (Original.IsSavedAs format writing) [o, p] records ∧
        ∃ (loaded : List Item) (g : Forest Unit), loadAll format reading [.generator, .node]
            ⟨records.flatten ++ [0x3C], .fails .other⟩ .empty =
              .ok (loaded, ⟨Record.unread format ++ [0x3C], .fails .other⟩) g ∧
          List.Forall₂ (fun o item => item.Has g o.value ∧ item.IsRestored g) [o, p] loaded := by
    intro format writing reading limit sizes room
    obtain ⟨records, saved, loads⟩ :=
      (records_are_loaded_in_order format).2 [o, p] (fun _ => fits) writing
    have short := Original.length_le_of_saved saved (List.forall_mem_cons.2
      ⟨sizes _ List.mem_cons_self, List.forall_mem_singleton.2
        (sizes _ (List.mem_cons_of_mem _ List.mem_cons_self))⟩)
    have loaded := loads reading (fun record hr => Nat.le_trans (short record hr) room) 2
      (Nat.le_refl 2) [0x3C] (.fails .other) .empty
    have behind : records.drop 2 = [] :=
      List.drop_of_length_le (Nat.le_of_eq saved.length_eq.symm)
    rw [behind] at loaded
    exact ⟨records, saved, loaded⟩
  exact ⟨o, p, rfl, rfl, isView, ⟨live, valued⟩, run (fun a ha => (sizes a ha).1) (by decide),
    run (fun a ha => (sizes a ha).2) (by decide)⟩

end SparseTensor
