/-
# Sinks that fail

A sink that accepts some bytes and then fails holds exactly these bytes of a record, whatever it is
that is saved, and the save fails with an error of the sink (`failing_sinks_hold_the_front`).

A format does not hand over its record in one piece.  It makes calls, each with some bytes, and the
failure can be met in any of them.  `Sink.deliver` makes the calls one after another, and for every
way to cut the record into calls (`Record.IsCutInto`) it comes to what `Record.write` says
(`Record.write_eq_deliver`): the calls before the failing one have been accepted as a whole, and the
failing one up to the limit.

The kind of the failure is the sink's own, but for the calls with the elements of an XML record, which
report every kind as `other` (`Record.reportedAs`).
-/
import SparseTensor.Proofs.Streams

namespace SparseTensor

variable {α : Type}

/-! ## Calls -/

/-- A call with bytes for a sink, and the kind as which it reports a failure. -/
structure Handing where
  bytes : List UInt8
  report : IoKind → IoKind

/-- All bytes of some calls. -/
def Handing.all (calls : List Handing) : List UInt8 :=
  calls.flatMap Handing.bytes

theorem Handing.all_singleton (call : Handing) : all [call] = call.bytes :=
  List.append_nil call.bytes

namespace Sink

/-- A sink that has accepted `n` more bytes. -/
def behind (s : Sink) (n : Nat) : Sink :=
  ⟨s.limit.map fun (left, kind) => (left - n, kind)⟩

/-- Make calls one after another, up to the first that fails: what the sink has accepted then, and
the failure as it is reported. -/
def deliver (s : Sink) : List Handing → List UInt8 × Option IoKind
  | [] => ([], none)
  | call :: calls =>
    match s.failure? call.bytes with
    | some kind => (s.accepted call.bytes, some (call.report kind))
    | none =>
      let (held, failure) := (s.behind call.bytes.length).deliver calls
      (call.bytes ++ held, failure)

variable {s : Sink} {bytes more : List UInt8}

/-- A sink that does not fail has accepted everything. -/
theorem accepted_of_failure?_eq_none (whole : s.failure? bytes = none) :
    s.accepted bytes = bytes := by
  obtain ⟨limit⟩ := s
  cases limit with
  | none => rfl
  | some limit =>
      obtain ⟨n, kind⟩ := limit
      simp only [failure?] at whole
      split at whole
      · rename_i enough
        exact List.take_of_length_le enough
      · cases whole

/-- What fails in front fails in the same place if more bytes follow. -/
theorem accepted_append_of_failure {kind : IoKind} (failed : s.failure? bytes = some kind)
    (more : List UInt8) : s.accepted (bytes ++ more) = s.accepted bytes ∧
      s.failure? (bytes ++ more) = some kind := by
  obtain ⟨limit⟩ := s
  cases limit with
  | none => cases failed
  | some limit =>
      obtain ⟨n, own⟩ := limit
      simp only [failure?] at failed
      split at failed
      · cases failed
      rename_i short
      obtain rfl := Option.some.inj failed
      have before : n ≤ bytes.length := by omega
      constructor
      · exact List.take_append_of_le_length before
      · refine if_neg ?_
        rw [List.length_append]
        omega

/-- Behind bytes that it has accepted a sink goes on with a lower limit. -/
theorem accepted_append_of_whole (whole : s.failure? bytes = none) (more : List UInt8) :
    s.accepted (bytes ++ more) = bytes ++ (s.behind bytes.length).accepted more ∧
      s.failure? (bytes ++ more) = (s.behind bytes.length).failure? more := by
  obtain ⟨limit⟩ := s
  cases limit with
  | none => exact ⟨rfl, rfl⟩
  | some limit =>
      obtain ⟨n, kind⟩ := limit
      simp only [failure?] at whole
      split at whole
      swap
      · cases whole
      rename_i enough
      constructor
      · show (bytes ++ more).take n = bytes ++ more.take (n - bytes.length)
        rw [List.take_append, List.take_of_length_le enough]
      · show (if (bytes ++ more).length ≤ n then none else some kind) =
          if more.length ≤ n - bytes.length then none else some kind
        have same : (bytes ++ more).length ≤ n ↔ more.length ≤ n - bytes.length := by
          rw [List.length_append]
          omega
        simp only [same]

/-- Calls that report failures in one way come to what a single call with all their bytes comes to,
by induction on the calls. -/
theorem deliver_of_report {report : IoKind → IoKind} {calls : List Handing}
    (reports : ∀ call ∈ calls, call.report = report) :
    s.deliver calls = (s.accepted (Handing.all calls),
      (s.failure? (Handing.all calls)).map report) := by
  induction calls generalizing s with
  | nil =>
      obtain ⟨limit⟩ := s
      cases limit with
      | none => rfl
      | some limit =>
          show ([], none) = (([] : List UInt8).take limit.1, _)
          rw [List.take_nil]
          rfl
  | cons call calls ih =>
      obtain ⟨first, others⟩ := List.forall_mem_cons.1 reports
      have all : Handing.all (call :: calls) = call.bytes ++ Handing.all calls := rfl
      rw [all, deliver]
      cases met : s.failure? call.bytes with
      | some kind =>
          obtain ⟨held, failed⟩ := accepted_append_of_failure met (Handing.all calls)
          rw [held, failed, first]
          rfl
      | none =>
          obtain ⟨held, failed⟩ := accepted_append_of_whole met (Handing.all calls)
          rw [held, failed, ih others]

/-- Calls behind others are made unless one of the others fails. -/
theorem deliver_append (calls others : List Handing) : s.deliver (calls ++ others) =
    match s.deliver calls with
    | (held, some kind) => (held, some kind)
    | (held, none) =>
      let (more, failure) := (s.behind held.length).deliver others
      (held ++ more, failure) := by
  induction calls generalizing s with
  | nil =>
      have same : s.behind 0 = s := by
        obtain ⟨limit⟩ := s
        cases limit <;> rfl
      show s.deliver others =
        ([] ++ ((s.behind 0).deliver others).1, ((s.behind 0).deliver others).2)
      rw [same]
      rfl
  | cons call calls ih =>
      rw [List.cons_append, deliver, deliver]
      cases s.failure? call.bytes with
      | some kind => rfl
      | none =>
          rw [ih]
          cases inner : (s.behind call.bytes.length).deliver calls with
          | mk held failure =>
              cases failure with
              | some kind => rfl
              | none =>
                  -- what a sink still takes does not depend on where the calls before are cut
                  have further : (s.behind call.bytes.length).behind held.length =
                      s.behind (call.bytes ++ held).length := by
                    obtain ⟨limit⟩ := s
                    cases limit with
                    | none => rfl
                    | some limit =>
                        obtain ⟨n, kind⟩ := limit
                        show (⟨some (n - call.bytes.length - held.length, kind)⟩ : Sink) =
                          ⟨some (n - (call.bytes ++ held).length, kind)⟩
                        rw [List.length_append, Nat.sub_sub]
                  simp only [further, List.append_assoc]

end Sink

/-! ## Records in calls -/

namespace Record

variable {a : Archive} {format : Format} {settings : Settings} {record : List UInt8}

/-- The calls by which a record can be written: any calls with its bytes, each of which reports
failures as they are, but for the calls with the elements of an XML record. -/
def IsCutInto (format : Format) (settings : Settings) (a : Archive) (record : List UInt8)
    (calls : List Handing) : Prop :=
  match format with
  | .xml => ∃ elements line, calls = elements ++ line ∧
      (Handing.all elements = XmlRecord.element settings a ∧
        ∀ call ∈ elements, call.report = fun _ => .other) ∧
      Handing.all line = Text.bytes "\n" ∧ ∀ call ∈ line, call.report = id
  | _ => Handing.all calls = record ∧ ∀ call ∈ calls, call.report = id

/-- An XML record in two calls: the elements, and the line end. -/
theorem isCutInto_two_calls (a : Archive) (settings : Settings) :
    IsCutInto .xml settings a (XmlRecord.encode settings a)
      [⟨XmlRecord.element settings a, fun _ => .other⟩, ⟨Text.bytes "\n", id⟩] := by
  refine ⟨[⟨XmlRecord.element settings a, fun _ => .other⟩], [⟨Text.bytes "\n", id⟩], rfl,
    ⟨?_, ?_⟩, ?_, ?_⟩
  · exact Handing.all_singleton _
  · exact List.forall_mem_singleton.2 rfl
  · exact Handing.all_singleton _
  · exact List.forall_mem_singleton.2 rfl

/-- What a record comes to in a sink does not depend on the calls by which it is written. -/
theorem write_eq_deliver (encoded : encode format settings a = .ok record) {calls : List Handing}
    (cut : IsCutInto format settings a record calls) (sink : Sink) :
    write format settings sink a = ((sink.deliver calls).1,
      match (sink.deliver calls).2 with
      | none => .ok ()
      | some kind => .error (.io kind)) := by
  have plain : format ≠ .xml → Handing.all calls = record ∧
      (∀ call ∈ calls, call.report = id) ∧
      ∀ kind, reportedKind format settings sink a kind = kind := by
    intro ne
    cases format with
    | xml => exact absurd rfl ne
    | _ => exact ⟨cut.1, cut.2, fun _ => rfl⟩
  rw [write, encoded]
  by_cases same : format = .xml
  · subst same
    obtain ⟨elements, line, rfl, ⟨inside, asOther⟩, behind, asIs⟩ := cut
    obtain rfl := Except.ok.inj encoded
    rw [Sink.deliver_append, Sink.deliver_of_report asOther, inside, XmlRecord.encode]
    cases met : sink.failure? (XmlRecord.element settings a) with
    | some kind =>
        obtain ⟨held, failed⟩ := Sink.accepted_append_of_failure met (Text.bytes "\n")
        simp only [held, failed, reportedKind, met]
        rfl
    | none =>
        obtain ⟨held, failed⟩ := Sink.accepted_append_of_whole met (Text.bytes "\n")
        simp only [held, failed, reportedKind, met, Option.map_none,
          Sink.accepted_of_failure?_eq_none met]
        rw [Sink.deliver_of_report asIs, behind, Option.map_id]
        rfl
  · obtain ⟨all, asIs, own⟩ := plain same
    rw [Sink.deliver_of_report asIs, all, Option.map_id]
    simp only [own]
    rfl

/-- The kind that is reported of a sink that fails behind `n` bytes: its own, but `other` for
everything that is met inside the elements of an XML record. -/
def reportedAs (format : Format) (settings : Settings) (a : Archive) (n : Nat) (kind : IoKind) :
    IoKind :=
  if format = .xml ∧ n < (XmlRecord.element settings a).length then .other else kind

theorem reportedKind_eq (format : Format) (settings : Settings) (n : Nat) (a : Archive)
    (kind : IoKind) :
    reportedKind format settings ⟨some (n, kind)⟩ a kind = reportedAs format settings a n kind := by
  cases format with
  | xml =>
      by_cases enough : (XmlRecord.element settings a).length ≤ n
      · have met : (⟨some (n, kind)⟩ : Sink).failure? (XmlRecord.element settings a) = none :=
          if_pos enough
        rw [reportedAs, if_neg fun inside => Nat.not_lt.2 enough inside.2]
        simp only [reportedKind, met]
        rfl
      · have met : (⟨some (n, kind)⟩ : Sink).failure? (XmlRecord.element settings a) = some kind :=
          if_neg enough
        rw [reportedAs, if_pos ⟨rfl, Nat.lt_of_not_le enough⟩]
        simp only [reportedKind, met]
        rfl
  | _ => rfl

/-- A sink that fails before the end of a record holds the front of the record. -/
theorem write_of_short (encoded : encode format settings a = .ok record) {n : Nat} {kind : IoKind}
    (short : n < record.length) : write format settings ⟨some (n, kind)⟩ a =
      (record.take n, .error (.io (reportedAs format settings a n kind))) := by
  have failed : (⟨some (n, kind)⟩ : Sink).failure? record = some kind :=
    if_neg (Nat.not_le.2 short)
  simp only [write, encoded, failed, reportedKind_eq]
  rfl

end Record

/-! ## Saving -/

/-- A save whose record is not accepted fails like the write, and nothing is noted. -/
theorem Forest.saveArchive_of_error {format : Format} {settings : Settings} {sink : Sink}
    {a : Archive} {held : List UInt8} {fault : Fault}
    (failed : Record.write format settings sink a = (held, .error fault)) (f : Forest α) :
    saveArchive format settings sink a f = .error fault f := by
  unfold saveArchive
  rw [failed]
  rfl

/-- An item whose record is not accepted is not saved.  It has been read, and nothing else has
happened. -/
theorem Item.saveTo_of_error {f : Forest α} (sound : f.Sound) {item : Item} {v : Value}
    (has : item.Has f v) {format : Format} {settings : Settings} {sink : Sink}
    {held : List UInt8} {fault : Fault}
    (failed : Record.write format settings sink v.archive = (held, .error fault)) :
    ∃ g, item.saveTo format settings sink f = .error fault g ∧ f.Reads g := by
  cases has with
  | @node id n cells found shows =>
      have read := Forest.read_eq sound found Cache.renders_readSparse
      rw [shows] at read
      obtain ⟨g, read, reads⟩ := read
      have seen : Forest.snapshot id f = .ok ⟨n.shape, cells⟩ g :=
        (bind_of_ok (Forest.lent_of_some found)).trans (bind_of_ok read)
      refine ⟨g, ?_, reads⟩
      exact (bind_of_ok seen).trans (Forest.saveArchive_of_error failed g)
  | generator r => exact ⟨f, Forest.saveArchive_of_error failed f, .refl⟩

/-- A sink accepts `n` bytes and then fails, before the end of the record of an archive.  It holds the
first `n` bytes of the record, whatever the calls are by which the record is written, and the save
fails with an error of the sink: of the sink's own kind, or `other` if the sink failed inside the
elements of an XML record.  In this way fail the saves of all archives and of everything that can be
saved, which is only read. -/
theorem failing_sinks_hold_the_front (format : Format) (settings : Settings) (n : Nat)
    (kind : IoKind) :
    (∀ (a : Archive) (record : List UInt8), Record.encode format settings a = .ok record →
      n < record.length →
        Record.write format settings ⟨some (n, kind)⟩ a =
          (record.take n, .error (.io (Record.reportedAs format settings a n kind))) ∧
        (∀ calls, Record.IsCutInto format settings a record calls →
          Sink.deliver ⟨some (n, kind)⟩ calls =
            (record.take n, some (Record.reportedAs format settings a n kind))) ∧
        ∀ f : Forest α, Forest.saveArchive format settings ⟨some (n, kind)⟩ a f =
          .error (.io (Record.reportedAs format settings a n kind)) f) ∧
    ∀ s : Situation α, Reached (G := Generator) (fun _ _ => True) s → ∀ item : Item,
      (item.Live s → ∃ v, item.Has s.forest v) ∧
      ∀ v record, item.Has s.forest v → Record.encode format settings v.archive = .ok record →
        n < record.length →
          ∃ g, item.saveTo format settings ⟨some (n, kind)⟩ s.forest =
              .error (.io (Record.reportedAs format settings v.archive n kind)) g ∧
            s.forest.Reads g := by
  constructor
  · intro a record encoded short
    have wrote : Record.write format settings ⟨some (n, kind)⟩ a = _ :=
      Record.write_of_short encoded short
    refine ⟨wrote, fun calls cut => ?_, fun f => Forest.saveArchive_of_error wrote f⟩
    have delivered := (Record.write_eq_deliver encoded cut ⟨some (n, kind)⟩).symm.trans wrote
    obtain ⟨held, told⟩ := Prod.mk.inj delivered
    apply Prod.ext
    · exact held
    · cases failure : (Sink.deliver ⟨some (n, kind)⟩ calls).2 with
      | none =>
          rw [failure] at told
          cases told
      | some reported =>
          rw [failure] at told
          cases told
          rfl
  · intro s reached item
    constructor
    · intro live
      exact live.exists_has reached
    · intro v record has encoded short
      exact Item.saveTo_of_error reached.ordered.forest.sound has
        (Record.write_of_short encoded short)

/-- The XML record of a view in a sink that fails inside the first tag, and in one that fails in front
of the line end. -/
theorem failing_sinks_hold_the_front_of_view :
    ∃ (f : Forest Unit) (v : Value), (Item.node 1).Has f v ∧
      (XmlRecord.encode .compact v.archive).length = 187 ∧
      (∃ g, (Item.node 1).saveTo .xml .compact ⟨some (5, .brokenPipe)⟩ f =
        .error (.io .other) g ∧ f.Reads g) ∧
      (∃ g, (Item.node 1).saveTo .xml .compact ⟨some (186, .brokenPipe)⟩ f =
        .error (.io .brokenPipe) g ∧ f.Reads g) ∧
      Sink.deliver ⟨some (186, .brokenPipe)⟩
          [⟨XmlRecord.element .compact v.archive, fun _ => .other⟩, ⟨Text.bytes "\n", id⟩] =
        ((XmlRecord.encode .compact v.archive).take 186, some .brokenPipe) := by
  obtain ⟨f, reached, -, -, has⟩ := exists_stale_view
  have length : (XmlRecord.element .compact
        (Snapshot.toArchive ⟨⟨[2, 2], by decide, by simp, by decide⟩, [1, 2]⟩)).length = 186 ∧
      (XmlRecord.encode .compact
        (Snapshot.toArchive ⟨⟨[2, 2], by decide, by simp, by decide⟩, [1, 2]⟩)).length = 187 := by
    decide +kernel
  -- from here on the value counts by the lengths of its record only
  generalize same : Value.node ⟨⟨[2, 2], by decide, by simp, by decide⟩, [1, 2]⟩ = v at has
  have length : (XmlRecord.element .compact v.archive).length = 186 ∧
      (XmlRecord.encode .compact v.archive).length = 187 := same ▸ length
  have inside : Record.reportedAs .xml .compact v.archive 5 .brokenPipe = .other :=
    if_pos ⟨rfl, by rw [length.1]; decide⟩
  have behind : Record.reportedAs .xml .compact v.archive 186 .brokenPipe = .brokenPipe :=
    if_neg fun short => absurd short.2 (by rw [length.1]; decide)
  have early := failing_sinks_hold_the_front (α := Unit) .xml .compact 5 .brokenPipe
  have late := failing_sinks_hold_the_front (α := Unit) .xml .compact 186 .brokenPipe
  obtain ⟨g, saved, reads⟩ := (early.2 (.quiet f) reached (.node 1)).2 v _ has rfl
    (by rw [length.2]; decide)
  obtain ⟨h, saved', reads'⟩ := (late.2 (.quiet f) reached (.node 1)).2 v _ has rfl
    (by rw [length.2]; decide)
  obtain ⟨-, calls, -⟩ := late.1 v.archive _ rfl (by rw [length.2]; decide)
  rw [inside] at saved
  rw [behind] at saved' calls
  refine ⟨f, v, has, length.2, ⟨g, saved, reads⟩, ⟨h, saved', reads'⟩, ?_⟩
  exact calls _ (Record.isCutInto_two_calls _ _)

/-- The kind of a failure inside the elements of an XML record is lost. -/
theorem xml_elements_report_other :
    let a := Archive.ofList "Sample" [("a", .scalar 1)]
    ∃ record, Record.encode .xml .compact a = .ok record ∧ 5 < record.length ∧
      Record.write .xml .compact ⟨some (5, .brokenPipe)⟩ a = (record.take 5, .error (.io .other)) ∧
      Fault.io .other ≠ Fault.io .brokenPipe := by
  intro a
  have length : 5 < (XmlRecord.element .compact a).length ∧
      5 < (XmlRecord.encode .compact a).length := by decide +kernel
  have told : Record.reportedAs .xml .compact a 5 .brokenPipe = .other :=
    if_pos ⟨rfl, length.1⟩
  have wrote : Record.write .xml .compact ⟨some (5, .brokenPipe)⟩ a = _ :=
    Record.write_of_short rfl length.2
  rw [told] at wrote
  exact ⟨_, rfl, length.2, wrote, nofun⟩

end SparseTensor
