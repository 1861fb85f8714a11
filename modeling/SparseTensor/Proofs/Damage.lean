/-
# What loading can come to

Loading reads bytes that anybody may have written.  If the source ends without failing, whatever
goes wrong is the fault of the record: it is damaged, or it is of another version
(`Fault.isDamage`).  No stream is blamed, and no argument: what a shape, a set of cells or a read
past the end of a payload is refused for is told as a damage of the record.

`OnlyDamage` says so of a computation, and passes on to whatever is put together from such
computations.  Reading a binary payload is the exception, where bytes may be asked for that are
not there (`Reader.Bounded`).

Only the steps that look at the version of a record can find another one.  Behind them a record can
only be damaged (`OnlyCorrupt`).
-/
import SparseTensor.Proofs.Loading

namespace SparseTensor

variable {α β : Type}

/-! ## Damage -/

/-- Faults of a record: it is damaged, or of another version. -/
def Fault.isDamage : Fault → Bool
  | corrupt _ | versionMismatch _ => true
  | _ => false

/-- The fault of a damaged record. -/
def Fault.isCorrupt : Fault → Bool
  | corrupt _ => true
  | _ => false

/-- Every failure is of some sort. -/
def Only (sort : Fault → Bool) : Except Fault α → Prop
  | .ok _ => True
  | .error fault => sort fault = true

/-- The record is to blame for every failure. -/
abbrev OnlyDamage (e : Except Fault α) : Prop := Only Fault.isDamage e

/-- Every failure says that the record is damaged. -/
abbrev OnlyCorrupt (e : Except Fault α) : Prop := Only Fault.isCorrupt e

namespace Only

variable {sort : Fault → Bool} {e : Except Fault α}

theorem ok (a : α) : Only sort (.ok a) := trivial

/-- What a failure tells is of the sort. -/
theorem of_eq_error (h : Only sort e) {fault : Fault} (failed : e = .error fault) :
    sort fault = true := by
  rw [failed] at h
  exact h

/-- One part after another. -/
theorem bind {k : α → Except Fault β} (first : Only sort e) (second : ∀ a, Only sort (k a)) :
    Only sort (e >>= k) := by
  cases e with
  | error fault => exact first
  | ok a => exact second a

theorem map {k : α → β} (h : Only sort e) : Only sort (e.map k) := by
  cases e with
  | error fault => exact h
  | ok a => trivial

/-- One part or another. -/
theorem ite {p : Prop} [Decidable p] {first second : Except Fault α} (h : Only sort first)
    (h' : Only sort second) : Only sort (if p then first else second) := by
  split
  · exact h
  · exact h'

/-- The same for each of some items. -/
theorem mapM {k : α → Except Fault β} (h : ∀ a, Only sort (k a)) (items : List α) :
    Only sort (items.mapM k) := by
  induction items with
  | nil => exact ok []
  | cons a rest ih =>
      rw [List.mapM_cons]
      exact (h a).bind fun b => ih.bind fun bs => ok (b :: bs)

/-- Items taken in one after another. -/
theorem foldlM {k : β → α → Except Fault β} (h : ∀ b a, Only sort (k b a)) (items : List α)
    (b : β) : Only sort (items.foldlM k b) := by
  induction items generalizing b with
  | nil => exact ok b
  | cons a rest ih =>
      rw [List.foldlM_cons]
      exact (h b a).bind ih

end Only

theorem onlyDamage_corrupt (cause : Corruption) :
    OnlyDamage (.error (.corrupt cause) : Except Fault α) := rfl

/-- What a failure tells is a damage. -/
theorem OnlyDamage.isDamage {e : Except Fault α} (h : OnlyDamage e) {fault : Fault}
    (failed : e = .error fault) : fault.isDamage = true :=
  h.of_eq_error failed

theorem onlyCorrupt_corrupt (cause : Corruption) :
    OnlyCorrupt (.error (.corrupt cause) : Except Fault α) := rfl

namespace OnlyCorrupt

variable {e : Except Fault α}

/-- A failure names what is damaged. -/
theorem exists_corrupt (h : OnlyCorrupt e) {fault : Fault} (failed : e = .error fault) :
    ∃ cause, fault = .corrupt cause := by
  rw [failed] at h
  cases fault with
  | corrupt cause => exact ⟨cause, rfl⟩
  | _ => cases h

/-- The record is to blame for what is damaged. -/
theorem onlyDamage (h : OnlyCorrupt e) : OnlyDamage e := by
  cases e with
  | ok a => trivial
  | error fault =>
      obtain ⟨cause, rfl⟩ := h.exists_corrupt rfl
      rfl

end OnlyCorrupt

/-! ## Archives -/

namespace Archive

theorem onlyCorrupt_add (a : Archive) (name : String) (field : Field) :
    OnlyCorrupt (a.add name field) := by
  unfold add
  exact .ite (onlyCorrupt_corrupt _) (.ite (onlyCorrupt_corrupt _) (Only.ok _))

theorem onlyCorrupt_expectKind (a : Archive) (kind : String) : OnlyCorrupt (a.expectKind kind) := by
  unfold expectKind
  exact .ite (Only.ok ()) (onlyCorrupt_corrupt _)

theorem onlyCorrupt_scalar (a : Archive) (name : String) : OnlyCorrupt (a.scalar name) := by
  unfold scalar
  split
  · exact Only.ok _
  · exact onlyCorrupt_corrupt _
  · exact onlyCorrupt_corrupt _

theorem onlyCorrupt_list (a : Archive) (name : String) : OnlyCorrupt (a.list name) := by
  unfold list
  split
  · exact Only.ok _
  · exact onlyCorrupt_corrupt _
  · exact onlyCorrupt_corrupt _

end Archive

/-- Dimensions and cells that make no value say that the record is damaged. -/
theorem Snapshot.onlyCorrupt_ofArchive (a : Archive) : OnlyCorrupt (ofArchive a) := by
  have narrowed : ∀ damage values, OnlyCorrupt (narrow damage values) := by
    intro damage values
    exact .mapM (fun v => .ite (Only.ok _) (onlyCorrupt_corrupt _)) values
  refine (a.onlyCorrupt_expectKind _).bind fun _ => ?_
  refine (a.onlyCorrupt_list _).bind fun dims => (narrowed _ dims).bind fun dims => ?_
  refine (a.onlyCorrupt_list _).bind fun cells => (narrowed _ cells).bind fun cells => ?_
  split
  · exact onlyCorrupt_corrupt _
  · split
    · exact onlyCorrupt_corrupt _
    · exact Only.ok _

/-- Dimensions and cells that make no value are a damage of the record. -/
theorem Snapshot.onlyDamage_ofArchive (a : Archive) : OnlyDamage (ofArchive a) :=
  (onlyCorrupt_ofArchive a).onlyDamage

/-- A position that no stream has says that the record is damaged. -/
theorem Generator.onlyCorrupt_ofArchive (a : Archive) : OnlyCorrupt (ofArchive a) := by
  refine (a.onlyCorrupt_expectKind _).bind fun _ => ?_
  refine (a.onlyCorrupt_scalar _).bind fun seed => (a.onlyCorrupt_list _).bind fun words => ?_
  split
  · dsimp only
    split
    · exact Only.ok _
    · exact onlyCorrupt_corrupt _
  · exact onlyCorrupt_corrupt _

/-- A position that no stream has is a damage of the record. -/
theorem Generator.onlyDamage_ofArchive (a : Archive) : OnlyDamage (ofArchive a) :=
  (onlyCorrupt_ofArchive a).onlyDamage

/-! ## Binary records -/

namespace Reader

/-- Failures of a reader: the record is damaged, or there are no more bytes. -/
def Bounded (r : Reader α) : Prop :=
  ∀ bytes, match r bytes with
    | .ok _ _ => True
    | .error fault _ => fault = .outOfBounds ∨ fault.isCorrupt = true

theorem bounded_pure (a : α) : Bounded (pure a) := fun _ => trivial

theorem bounded_corrupt (cause : Corruption) : Bounded (throw (.corrupt cause) : Reader α) :=
  fun _ => .inr rfl

/-- One part after another. -/
theorem Bounded.bind {r : Reader α} {k : α → Reader β} (first : Bounded r)
    (second : ∀ a, Bounded (k a)) : Bounded (r >>= k) := by
  intro bytes
  have here := first bytes
  cases result : r bytes with
  | ok a rest =>
      rw [bind_of_ok result]
      exact second a rest
  | error fault rest =>
      rw [result] at here
      rw [bind_of_error result]
      exact here

theorem bounded_byte : Bounded byte := by
  intro bytes
  cases bytes with
  | nil => exact .inl rfl
  | cons b rest => trivial

theorem bounded_take (n : Nat) : Bounded (take n) := by
  intro bytes
  unfold take
  split
  · rename_i found
    split at found
    · cases found
      trivial
    · cases found
  · rename_i found
    split at found
    · cases found
    · cases found
      exact .inl rfl

theorem bounded_varint : Bounded varint := by
  suffices ∀ index value, Bounded (varintFrom index value) from this 0 0
  intro index value bytes
  induction bytes generalizing index value with
  | nil => exact .inl rfl
  | cons b rest ih =>
      rw [varintFrom]
      by_cases overflow : index = 9 ∧ 1 < b
      · rw [if_pos overflow]
        exact .inr rfl
      · rw [if_neg overflow]
        by_cases more : continues b = true
        · simp only [if_pos more]
          exact ih _ _
        · simp only [if_neg more]

theorem bounded_count : Bounded count := by
  -- between the number and its check the reader only looks at how much is left
  refine bounded_varint.bind fun n => Bounded.bind (fun _ => trivial) fun left => ?_
  split
  · exact bounded_pure _
  · exact bounded_corrupt _

theorem bounded_text : Bounded text := by
  refine bounded_count.bind fun n => (bounded_take n).bind fun bytes => ?_
  split
  · exact bounded_pure _
  · exact bounded_corrupt _

end Reader

namespace Binary

open Reader

theorem bounded_varints (n : Nat) (before : List UInt64) : Bounded (varints n before) := by
  induction n generalizing before with
  | zero => exact fun _ => trivial
  | succ n ih =>
      intro bytes
      have first := bounded_varint bytes
      rw [varints]
      cases result : varint bytes with
      | ok value rest => exact ih _ rest
      | error fault rest =>
          rw [result] at first
          exact first

theorem bounded_field (name : String) : Bounded (field name) := by
  refine bounded_byte.bind fun tag => ?_
  split
  · exact bounded_varint.bind fun value => bounded_pure _
  split
  · refine bounded_count.bind fun n => (bounded_varints n []).bind fun values => ?_
    exact bounded_pure _
  · exact bounded_corrupt _

theorem bounded_entry (a : Archive) : Bounded (entry a) := by
  refine bounded_text.bind fun name => (bounded_field name).bind fun value => ?_
  have added := a.onlyCorrupt_add name value
  split
  · exact bounded_pure _
  · rename_i found
    exact fun _ => .inr (added.of_eq_error found)

theorem bounded_entries (n : Nat) (a : Archive) : Bounded (entries n a) := by
  induction n generalizing a with
  | zero => exact fun _ => trivial
  | succ n ih =>
      intro bytes
      have first := bounded_entry a bytes
      rw [entries]
      cases result : entry a bytes with
      | ok extended rest => exact ih extended rest
      | error fault rest =>
          rw [result] at first
          exact first

theorem bounded_archive : Bounded archive := by
  refine bounded_text.bind fun kind => ?_
  split
  · exact bounded_corrupt _
  · refine bounded_count.bind fun n => (bounded_entries n _).bind fun a => ?_
    refine Bounded.bind (fun _ => trivial) fun left => ?_
    split
    · exact bounded_pure _
    · exact bounded_corrupt _

/-- A payload that ends too early is damaged. -/
theorem onlyCorrupt_ofPayload (bytes : List UInt8) : OnlyCorrupt (ofPayload bytes) := by
  have read := bounded_archive bytes
  unfold ofPayload
  split
  · exact Only.ok _
  · exact onlyCorrupt_corrupt _
  · -- any fault but running out of bytes, which the case above tells as a damage
    rename_i other found
    rw [found] at read
    exact read.resolve_left other

theorem onlyDamage_payloadLength (limit : UInt64) (bytes : List UInt8) :
    OnlyDamage (payloadLength limit bytes) :=
  .ite (onlyDamage_corrupt _) (.ite rfl (.ite (onlyDamage_corrupt _) (Only.ok _)))

theorem onlyDamage_decode (settings : Settings) (bytes : List UInt8) :
    OnlyDamage (decode settings (.ofBytes bytes)) := by
  refine .ite (onlyDamage_corrupt _) ?_
  refine (onlyDamage_payloadLength _ _).bind fun length => ?_
  refine .ite (onlyDamage_corrupt _) ?_
  exact (onlyCorrupt_ofPayload _).onlyDamage.bind fun a => Only.ok _

end Binary

/-! ## Portable records -/

namespace Portable

theorem onlyCorrupt_lineWords (bytes : List UInt8) : OnlyCorrupt (lineWords bytes) := by
  unfold lineWords
  split
  · exact Only.ok _
  · exact onlyCorrupt_corrupt _

theorem onlyCorrupt_number (token : Option (List Char)) (what : String) :
    OnlyCorrupt (number token what) := by
  unfold number
  split
  · exact onlyCorrupt_corrupt _
  · split
    · exact Only.ok _
    · exact onlyCorrupt_corrupt _

theorem onlyDamage_headerKind (words : List (List Char)) : OnlyDamage (headerKind words) := by
  refine .ite (onlyDamage_corrupt _) ?_
  refine (onlyCorrupt_number _ _).onlyDamage.bind fun version => ?_
  refine .ite (onlyDamage_corrupt _) (.ite rfl ?_)
  split
  · exact onlyDamage_corrupt _
  · exact .ite (Only.ok _) (onlyDamage_corrupt _)
  · exact onlyDamage_corrupt _

theorem onlyCorrupt_field (name : String) (words : List (List Char)) :
    OnlyCorrupt (field name words) := by
  unfold field
  split
  · refine (onlyCorrupt_number _ _).bind fun value => ?_
    exact .ite (Only.ok _) (onlyCorrupt_corrupt _)
  · refine (onlyCorrupt_number _ _).bind fun count => ?_
    refine (Only.mapM (fun word => onlyCorrupt_number _ _) _).bind fun values => ?_
    exact .ite (Only.ok _) (onlyCorrupt_corrupt _)
  · exact onlyCorrupt_corrupt _

theorem onlyCorrupt_entry (a : Archive) (words : List (List Char)) :
    OnlyCorrupt (entry a words) := by
  unfold entry
  split
  · exact onlyCorrupt_corrupt _
  · exact (onlyCorrupt_field _ _).bind fun value => a.onlyCorrupt_add _ value

/-- The fields of a record, by induction on the lines that are left. -/
theorem onlyCorrupt_entries (a : Archive) (bytes : List UInt8) :
    OnlyCorrupt (entries .ends a bytes) := by
  induction bytes using (measure List.length).wf.induction generalizing a with
  | h bytes ih =>
      rw [entries.eq_def]
      split
      · rename_i front rest line
        refine (onlyCorrupt_lineWords front).bind fun words => .ite (Only.ok _) ?_
        refine (onlyCorrupt_entry a words).bind fun extended => ?_
        exact ih rest (length_rest_lt line) extended
      · rename_i front _ _
        refine (onlyCorrupt_lineWords front).bind fun words => .ite (Only.ok _) ?_
        exact (onlyCorrupt_entry a words).bind fun _ => onlyCorrupt_corrupt _
      · exact onlyCorrupt_corrupt _
      · rename_i never _
        cases never

/-- A record, by induction on the blank lines in front of it. -/
theorem onlyDamage_decode (bytes : List UInt8) : OnlyDamage (decode (.ofBytes bytes)) := by
  unfold decode
  induction bytes using (measure List.length).wf.induction with
  | h bytes ih =>
      rw [record.eq_def]
      split
      · rename_i front rest line
        refine (onlyCorrupt_lineWords front).onlyDamage.bind fun words => ?_
        refine .ite (ih rest (length_rest_lt line)) ?_
        exact (onlyDamage_headerKind words).bind fun kind =>
          (onlyCorrupt_entries _ rest).onlyDamage
      · rename_i front _ _
        refine (onlyCorrupt_lineWords front).onlyDamage.bind fun words => .ite (onlyDamage_corrupt _) ?_
        exact (onlyDamage_headerKind words).bind fun _ => onlyDamage_corrupt _
      · exact onlyDamage_corrupt _
      · rename_i never _
        cases never

end Portable

/-! ## JSON records -/

namespace JsonRecord

theorem onlyDamage_checkedMembers (value : Json) : OnlyDamage (checkedMembers value) := by
  unfold checkedMembers
  split
  · split
    · refine .ite (onlyDamage_corrupt _) ?_
      split
      · exact onlyDamage_corrupt _
      · exact .ite (Only.ok _) rfl
    · exact onlyDamage_corrupt _
  · exact onlyDamage_corrupt _

theorem onlyDamage_ofJson (value : Json) : OnlyDamage (ofJson value) := by
  refine (onlyDamage_checkedMembers value).bind fun members => ?_
  split
  · exact onlyDamage_corrupt _
  · refine .ite (onlyDamage_corrupt _) ?_
    exact .foldlM (fun a entry => (a.onlyCorrupt_add entry.1 entry.2).onlyDamage) _ _

theorem onlyDamage_decode (bytes : List UInt8) : OnlyDamage (decode (.ofBytes bytes)) := by
  unfold decode
  split
  · exact (onlyDamage_ofJson _).bind fun a => Only.ok _
  · exact onlyDamage_corrupt _
  · exact onlyDamage_corrupt _
  · rename_i never
    cases never

end JsonRecord

/-! ## XML records -/

theorem Xml.onlyCorrupt_rawValue (name : String) (bytes : List UInt8) :
    OnlyCorrupt (rawValue name bytes) := by
  induction bytes using (measure List.length).wf.induction with
  | h bytes ih =>
      rw [rawValue.eq_def]
      split
      · exact onlyCorrupt_corrupt _
      · exact onlyCorrupt_corrupt _
      · rename_i rest found
        exact .ite (Only.ok _) (ih rest (length_nextAttribute_lt found))

theorem Xml.onlyCorrupt_attributeValue (tag : List UInt8) (name : String) :
    OnlyCorrupt (attributeValue tag name) := by
  refine (onlyCorrupt_rawValue name _).bind fun value => ?_
  split
  · exact Only.ok _
  · exact onlyCorrupt_corrupt _

namespace XmlRecord

theorem onlyDamage_openArchive (tag : List UInt8) : OnlyDamage (openArchive tag) := by
  refine (Xml.onlyCorrupt_attributeValue tag _).onlyDamage.bind fun format => ?_
  refine .ite (onlyDamage_corrupt _) ?_
  refine (Xml.onlyCorrupt_attributeValue tag _).onlyDamage.bind fun version => ?_
  split
  · exact onlyDamage_corrupt _
  · refine .ite rfl ?_
    refine (Xml.onlyCorrupt_attributeValue tag _).onlyDamage.bind fun kind => ?_
    exact .ite (Only.ok _) (onlyDamage_corrupt _)

theorem onlyCorrupt_openField (e : Element) (tag : List UInt8) :
    OnlyCorrupt (openField e tag) := by
  refine (Xml.onlyCorrupt_attributeValue tag _).bind fun name => .ite (Only.ok _) ?_
  refine (Xml.onlyCorrupt_attributeValue tag _).bind fun count => ?_
  split
  · exact Only.ok _
  · exact onlyCorrupt_corrupt _

theorem onlyCorrupt_number (name : String) (word : List Char) : OnlyCorrupt (number name word) := by
  unfold number
  split
  · exact Only.ok _
  · exact onlyCorrupt_corrupt _

theorem onlyCorrupt_closeField (a : Archive) (f : OpenField) : OnlyCorrupt (closeField a f) := by
  refine Only.bind ?_ fun value => a.onlyCorrupt_add _ value
  unfold OpenField.field
  split
  · exact (onlyCorrupt_number _ _).map
  · refine (Only.mapM (onlyCorrupt_number f.name) _).bind fun values => ?_
    exact .ite (Only.ok _) (onlyCorrupt_corrupt _)

theorem onlyCorrupt_unexpected (name : List UInt8) : OnlyCorrupt (unexpected name) :=
  onlyCorrupt_corrupt _

/-- A tag that opens an element is damaged, if it is not that of an archive. -/
theorem onlyCorrupt_onOpening (tag : List UInt8) {p : Progress} (inside : p ≠ .outside) :
    OnlyCorrupt (onOpening tag p) := by
  unfold onOpening
  split
  · exact absurd rfl inside
  · split
    · exact (onlyCorrupt_openField _ tag).bind fun f => Only.ok _
    · exact (onlyCorrupt_openField _ tag).bind fun f => Only.ok _
    · exact onlyCorrupt_unexpected _
  · exact onlyCorrupt_unexpected _

theorem onlyDamage_onOpening (tag : List UInt8) (p : Progress) : OnlyDamage (onOpening tag p) := by
  cases p with
  | outside =>
      rw [onOpening]
      split
      · exact (onlyDamage_openArchive tag).bind fun a => Only.ok _
      · exact (onlyCorrupt_unexpected _).onlyDamage
  | inArchive a => exact OnlyCorrupt.onlyDamage (onlyCorrupt_onOpening tag nofun)
  | inField a f => exact OnlyCorrupt.onlyDamage (onlyCorrupt_onOpening tag nofun)

/-- A tag that is an element is damaged, if it is not that of an archive. -/
theorem onlyCorrupt_onEmpty (tag : List UInt8) {p : Progress} (inside : p ≠ .outside) :
    OnlyCorrupt (onEmpty tag p) := by
  have closed : ∀ (e : Element) (a : Archive), OnlyCorrupt (do
      return Outcome.goOn (.inArchive (← closeField a (← openField e tag)))) := fun e a =>
    (onlyCorrupt_openField e tag).bind fun f =>
      (onlyCorrupt_closeField a f).bind fun extended => Only.ok _
  unfold onEmpty
  split
  · exact absurd rfl inside
  · split
    · exact closed .scalar _
    · exact closed .list _
    · exact onlyCorrupt_unexpected _
  · exact onlyCorrupt_unexpected _

theorem onlyDamage_onEmpty (tag : List UInt8) (p : Progress) : OnlyDamage (onEmpty tag p) := by
  cases p with
  | outside =>
      rw [onEmpty]
      split
      · exact (onlyDamage_openArchive tag).bind fun a => Only.ok _
      · exact (onlyCorrupt_unexpected _).onlyDamage
      · exact (onlyCorrupt_unexpected _).onlyDamage
  | inArchive a => exact OnlyCorrupt.onlyDamage (onlyCorrupt_onEmpty tag nofun)
  | inField a f => exact OnlyCorrupt.onlyDamage (onlyCorrupt_onEmpty tag nofun)

theorem onlyCorrupt_onClosing (name : List UInt8) (p : Progress) :
    OnlyCorrupt (onClosing name p) := by
  unfold onClosing
  split
  · exact onlyCorrupt_corrupt _
  · exact .ite (Only.ok _) (onlyCorrupt_corrupt _)
  · refine .ite ?_ (onlyCorrupt_corrupt _)
    exact (onlyCorrupt_closeField _ _).bind fun extended => Only.ok _

theorem onlyCorrupt_onText (bytes : List UInt8) (p : Progress) : OnlyCorrupt (onText bytes p) := by
  unfold onText
  split
  · split
    · exact Only.ok _
    · exact onlyCorrupt_corrupt _
  · exact onlyCorrupt_corrupt _

theorem onlyDamage_onPiece (piece : Xml.Piece) (p : Progress) : OnlyDamage (onPiece piece p) := by
  cases piece with
  | text bytes => exact (onlyCorrupt_onText bytes p).onlyDamage
  | opening tag => exact onlyDamage_onOpening tag p
  | empty tag => exact onlyDamage_onEmpty tag p
  | closing name => exact (onlyCorrupt_onClosing name p).onlyDamage
  | characterData => exact onlyDamage_corrupt _
  | ignored => exact Only.ok _

/-- Pieces, by induction on the bytes that are left. -/
theorem onlyDamage_pieces (p : Progress) (bytes : List UInt8) :
    OnlyDamage (pieces .ends p bytes) := by
  induction bytes using (measure List.length).wf.induction generalizing p with
  | h bytes ih =>
      rw [pieces.eq_def]
      split
      · rename_i piece rest found
        refine (onlyDamage_onPiece piece p).bind fun outcome => ?_
        split
        · exact ih rest (Xml.length_next_lt found) _
        · exact Only.ok _
      · exact onlyDamage_corrupt _
      · rename_i text _ _
        exact (onlyCorrupt_onText text p).onlyDamage.bind fun _ => onlyDamage_corrupt _
      · exact onlyDamage_corrupt _
      · exact onlyDamage_corrupt _
      · rename_i never _ _
        cases never

theorem onlyDamage_decode (bytes : List UInt8) : OnlyDamage (decode (.ofBytes bytes)) :=
  onlyDamage_pieces .outside _

end XmlRecord

/-! ## Records -/

/-- A source that ends is cut to one that ends. -/
theorem Source.limit_ofBytes (bytes : List UInt8) (n : Nat) :
    (ofBytes bytes).limit n = ofBytes (bytes.take n) := by
  rw [limit]
  split
  · rfl
  · rename_i short
    have whole : bytes.take n = bytes :=
      List.take_of_length_le (Nat.le_of_lt (Nat.lt_of_not_le short))
    rw [whole]

namespace Record

theorem onlyDamage_decode (format : Format) (settings : Settings) (bytes : List UInt8) :
    OnlyDamage (decode format settings (.ofBytes bytes)) := by
  cases format with
  | binary => exact Binary.onlyDamage_decode settings bytes
  | portable => exact Portable.onlyDamage_decode bytes
  | json => exact JsonRecord.onlyDamage_decode bytes
  | xml => exact XmlRecord.onlyDamage_decode bytes

/-- Whatever the bytes are, only the record is to blame for what is not read. -/
theorem onlyDamage_readAs {describe : Archive → Except Fault β}
    (described : ∀ a, OnlyDamage (describe a)) (format : Format) (settings : Settings)
    (bytes : List UInt8) : OnlyDamage (readAs describe format settings (.ofBytes bytes)) := by
  have read : OnlyDamage (read format settings (.ofBytes bytes)) := by
    rw [Record.read, Source.limit_ofBytes]
    exact (onlyDamage_decode format settings _).bind fun found => Only.ok _
  exact read.bind fun found => (described found.1).bind fun b => Only.ok _

/-- What is read as a snapshot describes a node in order. -/
theorem isRestored_of_readAs {format : Format} {settings : Settings} {source rest : Source}
    {s : Snapshot} (h : readAs Snapshot.ofArchive format settings source = .ok (s, rest)) :
    (s.node : Node α).IsRestored := by
  obtain ⟨⟨a, rest⟩, -, h⟩ := exists_of_bind_eq_ok h
  obtain ⟨_, described, h⟩ := exists_of_bind_eq_ok h
  cases h
  exact Snapshot.isRestored_node (Snapshot.isSet_of_ofArchive described)

end Record

/-! ## Loads -/

/-- Whatever bytes are loaded, in whatever format and with whatever settings: a load creates a
canonical node in order, or a generator at a position of its stream, or else it fails, tells that
the record is damaged or of another version, and creates nothing. -/
theorem loading_blames_only_the_record (bytes : List UInt8) (format : Format)
    (settings : Settings) :
    (∀ f : Forest α, match Forest.load format settings (.ofBytes bytes) f with
      | .ok (id, _) g => id = f.nodes.size ∧ ∃ n, n.IsRestored ∧ g.nodes = f.nodes.push n
      | .error fault g => fault.isDamage = true ∧ g.nodes = f.nodes) ∧
    ∀ (name : String) (s : Session),
      match Session.loadGenerator name ⟨format.code, settings⟩ (.ofBytes bytes) s with
      | .ok (r, _) t => r.position.val < 2 ^ 68 ∧ t.generators = s.generators.set name r
      | .error refusal t => (∃ fault, refusal = .failed fault ∧ fault.isDamage = true) ∧
          t.generators = s.generators := by
  constructor
  · intro f
    have loaded := f.load_eq format settings (.ofBytes bytes)
    have damaged := Record.onlyDamage_readAs Snapshot.onlyDamage_ofArchive format settings bytes
    cases read : Record.readAs Snapshot.ofArchive format settings (.ofBytes bytes) with
    | ok found =>
        obtain ⟨s, rest⟩ := found
        rw [read] at loaded
        obtain ⟨g, created, nodes⟩ := loaded
        rw [created]
        exact ⟨rfl, s.node, Record.isRestored_of_readAs read, nodes⟩
    | error fault =>
        rw [read] at loaded
        obtain ⟨g, failed, nodes⟩ := loaded
        rw [failed]
        exact ⟨damaged.isDamage read, nodes⟩
  · intro name s
    rw [s.loadGenerator_eq]
    have loaded := s.forest.loadGenerator_eq format settings (.ofBytes bytes)
    have damaged := Record.onlyDamage_readAs Generator.onlyDamage_ofArchive format settings bytes
    cases read : Record.readAs Generator.ofArchive format settings (.ofBytes bytes) with
    | ok found =>
        obtain ⟨r, rest⟩ := found
        rw [read] at loaded
        obtain ⟨g, made, -⟩ := loaded
        rw [made]
        exact ⟨r.position.isLt, rfl⟩
    | error fault =>
        rw [read] at loaded
        obtain ⟨g, failed, -⟩ := loaded
        rw [failed]
        exact ⟨⟨fault, rfl, damaged.isDamage read⟩, rfl⟩

end SparseTensor
