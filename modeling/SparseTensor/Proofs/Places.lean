/-
# Places between pieces

A reader goes through a record piece by piece.  It arrives at a place between two of them
(`Arrives`), and what it does from there on depends on what stands behind the place and on the point
that it has reached, on nothing else (`Between.decode`).

What stands behind the place may also be changed: the pieces in front of it stay as they are
(`Xml.exists_front_of_next`), so the reader arrives at the same point of the changed record
(`Between.change`).  There are two things to see to.  Text is a piece only in front of markup, and the
front of a record must not come to look like a byte order mark.
-/
import SparseTensor.Proofs.Joints

namespace SparseTensor

namespace Xml

/-! ## Pieces and what is behind them -/

variable {bytes left : List UInt8} {p : Piece}

/-- What a cut takes is cut in the same way alone. -/
theorem cut_front {σ : Type} {step : σ → UInt8 → Option σ} {state : σ}
    {before content : List UInt8} (h : cut step state before bytes = some (content, left)) :
    ∃ front, bytes = front ++ left ∧ cut step state before front = some (content, []) := by
  induction bytes generalizing state before with
  | nil => cases h
  | cons b bytes ih =>
    rw [cut] at h
    split at h
    · rename_i stops
      cases h
      exact ⟨[b], rfl, by rw [cut, stops]⟩
    · rename_i goesOn
      obtain ⟨front, rfl, found⟩ := ih h
      exact ⟨b :: front, rfl, by rw [cut, goesOn]; exact found⟩

theorem ofCut_front {σ : Type} {step : σ → UInt8 → Option σ} {state : σ} {before : List UInt8}
    {piece? : List UInt8 → Option Piece}
    (h : ofCut (cut step state before bytes) piece? = .piece p left) :
    ∃ front, bytes = front ++ left ∧
      ofCut (cut step state before front) piece? = .piece p [] := by
  obtain ⟨content, found⟩ := ofCut_eq_piece h
  obtain ⟨front, split, alone⟩ := cut_front found
  refine ⟨front, split, ?_⟩
  rw [found, ofCut] at h
  rw [alone, ofCut]
  split at h
  · cases h
    rfl
  · cases h

/-- A cut takes at least one byte. -/
theorem ofCut_front_cons {σ : Type} {step : σ → UInt8 → Option σ} {state : σ}
    {before : List UInt8} {piece? : List UInt8 → Option Piece} {b : UInt8}
    (h : ofCut (cut step state before (b :: bytes)) piece? = .piece p left) :
    ∃ front, bytes = front ++ left ∧
      ofCut (cut step state before (b :: front)) piece? = .piece p [] := by
  obtain ⟨front, split, alone⟩ := ofCut_front h
  cases front with
  | nil => cases alone
  | cons c front =>
    obtain ⟨rfl, rfl⟩ := List.cons.inj split
    exact ⟨front, rfl, alone⟩

theorem declaration_front (h : declaration bytes = .piece p left) :
    ∃ front, bytes = front ++ left ∧ declaration front = .piece p [] := by
  cases bytes with
  | nil => cases h
  | cons b bytes =>
    simp only [declaration] at h
    by_cases data : b = '['.toUInt8
    · rw [if_pos data] at h
      obtain ⟨front, rfl, alone⟩ := ofCut_front_cons h
      refine ⟨b :: front, rfl, ?_⟩
      simp only [declaration]
      rw [if_pos data]
      exact alone
    rw [if_neg data] at h
    by_cases comment : b = '-'.toUInt8
    · rw [if_pos comment] at h
      obtain ⟨front, rfl, alone⟩ := ofCut_front_cons h
      refine ⟨b :: front, rfl, ?_⟩
      simp only [declaration]
      rw [if_neg data, if_pos comment]
      exact alone
    rw [if_neg comment] at h
    by_cases documentType : upperByte b = 'D'.toUInt8
    · rw [if_pos documentType] at h
      obtain ⟨front, rfl, alone⟩ := ofCut_front_cons h
      refine ⟨b :: front, rfl, ?_⟩
      simp only [declaration]
      rw [if_neg data, if_neg comment, if_pos documentType]
      exact alone
    · rw [if_neg documentType] at h
      cases h

theorem markup_front (h : markup bytes = .piece p left) :
    ∃ front, bytes = front ++ left ∧ markup front = .piece p [] := by
  cases bytes with
  | nil => cases h
  | cons b bytes =>
    rw [markup] at h
    by_cases mark : b = '!'.toUInt8
    · rw [if_pos mark] at h
      obtain ⟨front, rfl, alone⟩ := declaration_front h
      exact ⟨b :: front, rfl, by rw [markup, if_pos mark]; exact alone⟩
    rw [if_neg mark] at h
    by_cases instruction : b = '?'.toUInt8
    · rw [if_pos instruction] at h
      obtain ⟨front, rfl, alone⟩ := ofCut_front h
      exact ⟨b :: front, rfl, by rw [markup, if_neg mark, if_pos instruction]; exact alone⟩
    · rw [if_neg instruction] at h
      obtain ⟨front, rfl, alone⟩ := ofCut_front_cons h
      exact ⟨b :: front, rfl, by rw [markup, if_neg mark, if_neg instruction]; exact alone⟩

/-- A piece is the same whatever stands behind it.  Only text needs markup there. -/
theorem exists_front_of_next (h : next bytes = .piece p left) :
    ∃ front, bytes = front ++ left ∧
      ∀ other, (left.head? = some opener → other.head? = some opener) →
        next (front ++ other) = .piece p other := by
  have whole := (List.takeWhile_append_dropWhile (p := Text.isBlankByte) (l := bytes)).symm
  have blank : ∀ b ∈ bytes.takeWhile Text.isBlankByte, Text.isBlankByte b = true := fun b hb =>
    List.all_eq_true.1 List.all_takeWhile b hb
  have first := List.head?_dropWhile_not Text.isBlankByte bytes
  cases behind : bytes.dropWhile Text.isBlankByte with
  | nil =>
    rw [next, behind] at h
    cases h
  | cons b rest =>
    rw [next, behind] at h
    rw [behind] at whole first
    have solid : Text.isBlankByte b = false := first
    simp only at h
    -- markup ends by itself, and text where the next markup begins
    by_cases opens : b = opener
    · rw [if_pos opens] at h
      obtain ⟨front, rfl, alone⟩ := markup_front h
      refine ⟨bytes.takeWhile Text.isBlankByte ++ b :: front, ?_, fun other _ => ?_⟩
      · rw [List.append_assoc]
        exact whole
      · rw [List.append_assoc, next_blanks_append blank, List.cons_append, next,
          List.dropWhile_cons_of_neg (by simp [solid])]
        simp only [if_pos opens]
        rw [markup_append (alone ▸ .piece p []), alone]
        rfl
    · rw [if_neg opens] at h
      have run : ∀ c ∈ rest.takeWhile isTextByte, isTextByte c = true := fun c hc =>
        List.all_eq_true.1 List.all_takeWhile c hc
      have parts := (List.takeWhile_append_dropWhile (p := isTextByte) (l := rest)).symm
      have ends := List.head?_dropWhile_not isTextByte rest
      cases marked : rest.dropWhile isTextByte with
      | nil =>
        rw [marked] at h
        cases h
      | cons c others =>
        rw [marked] at h parts ends
        obtain rfl : c = opener := by simpa [isTextByte] using ends
        cases h
        refine ⟨bytes.takeWhile Text.isBlankByte ++ b :: rest.takeWhile isTextByte, ?_,
          fun other starts => ?_⟩
        · rw [List.append_assoc, List.cons_append, ← parts]
          exact whole
        · obtain ⟨more, rfl⟩ := List.head?_eq_some_iff.1 (starts rfl)
          rw [List.append_assoc, next_blanks_append blank]
          exact next_text_append solid opens run more

end Xml

namespace XmlRecord

variable {ending : Ending} {p q : Progress} {bytes before after rest : List UInt8}

/-! ## Between pieces -/

/-- A reader at some point in front of some bytes arrives at another point, in front of the rest of
them. -/
inductive Arrives : Progress → List UInt8 → Progress → List UInt8 → Prop
  | here {p : Progress} {bytes : List UInt8} : Arrives p bytes p bytes
  | piece {p further q : Progress} {piece : Xml.Piece} {bytes left rest : List UInt8} :
    Xml.next bytes = .piece piece left → onPiece piece p = .ok (.goOn further) →
      Arrives further left q rest → Arrives p bytes q rest

theorem Arrives.trans {r : Progress} {left : List UInt8} (h : Arrives p bytes q rest)
    (h' : Arrives q rest r left) : Arrives p bytes r left := by
  induction h with
  | here => exact h'
  | piece found step _ ih => exact .piece found step (ih h')

/-- It goes on from where it has arrived. -/
theorem Arrives.pieces (h : Arrives p bytes q rest) (ending : Ending) :
    pieces ending p bytes = pieces ending q rest := by
  induction h with
  | here => rfl
  | piece found step _ ih =>
    rw [pieces_of_piece found, step]
    exact ih

/-- It arrives at the same point if something else stands there, by induction on the pieces in front.
Text among them still has to have markup behind it. -/
theorem Arrives.exists_front (h : Arrives p bytes q rest) :
    ∃ front, bytes = front ++ rest ∧
      ∀ other, (rest.head? = some Xml.opener → other.head? = some Xml.opener) →
        Arrives p (front ++ other) q other := by
  induction h with
  | here => exact ⟨[], rfl, fun _ _ => .here⟩
  | @piece p further q piece bytes left rest found step _ ih =>
    obtain ⟨back, rfl, others⟩ := ih
    obtain ⟨front, rfl, first⟩ := Xml.exists_front_of_next found
    refine ⟨front ++ back, (List.append_assoc front back rest).symm, fun other starts => ?_⟩
    rw [List.append_assoc]
    refine .piece (first (back ++ other) ?_) step (others other starts)
    cases back with
    | nil => exact starts
    | cons b back => exact id

/-- Reading goes on from what is found next, and looks at nothing else. -/
theorem pieces_of_next_eq {other : List UInt8} (same : Xml.next bytes = Xml.next other)
    (p : Progress) : pieces ending p bytes = pieces ending p other := by
  by_cases piece : ∃ piece left, Xml.next other = .piece piece left
  · obtain ⟨piece, left, found⟩ := piece
    rw [pieces_of_piece found, pieces_of_piece (same.trans found)]
  · -- where there is no piece the two readings end, and in the same way
    have none : ∀ piece left, Xml.next bytes ≠ .piece piece left := fun _ _ found =>
      piece ⟨_, _, same.symm.trans found⟩
    rw [pieces.eq_def, pieces.eq_def ending p other]
    split
    · rename_i found
      exact absurd found (none _ _)
    all_goals split <;> simp_all

/-- A place between pieces of a record: a reader of the record arrives there, or at blanks in front of
it. -/
def Between (q : Progress) (before after : List UInt8) : Prop :=
  ∃ blanks, (∀ b ∈ blanks, Text.isBlankByte b = true) ∧
    Arrives .outside (dropMark (before ++ after)) q (blanks ++ after)

theorem Between.of_arrives (h : Arrives .outside (dropMark (before ++ after)) q after) :
    Between q before after :=
  ⟨[], List.forall_mem_nil _, h⟩

/-- What stands behind such a place is read from the point that has been reached. -/
theorem Between.decode (h : Between q before after) (ending : Ending) :
    decode ⟨before ++ after, ending⟩ = pieces ending q after := by
  obtain ⟨blanks, blank, arrives⟩ := h
  exact (arrives.pieces ending).trans (pieces_of_next_eq (Xml.next_blanks_append blank after) q)

/-- No byte order mark stands in front of a piece that can be the first of a record. -/
theorem dropMark_of_piece {piece : Xml.Piece} {left : List UInt8} {outcome : Outcome}
    (found : Xml.next bytes = .piece piece left) (step : onPiece piece .outside = .ok outcome) :
    dropMark bytes = bytes := by
  rw [dropMark, if_neg]
  intro marked
  obtain ⟨rest, rfl⟩ := List.isPrefixOf_iff_prefix.1 marked
  -- the bytes of the mark would be text
  rw [byteOrderMark_eq, Xml.next, List.cons_append, List.dropWhile_cons_of_neg (by decide)] at found
  simp only [if_neg (show ¬ (0xEF : UInt8) = Xml.opener by decide)] at found
  split at found
  · cases found
  · cases found
    cases step

/-- A mark is dropped from whatever it stands in front of. -/
theorem dropMark_mark (bytes : List UInt8) : dropMark (byteOrderMark ++ bytes) = bytes := by
  rw [dropMark, if_pos (List.isPrefixOf_iff_prefix.2 (List.prefix_append _ _)), List.drop_left]

/-- The mark that is dropped from a record, if there is one. -/
theorem exists_mark (bytes : List UInt8) :
    ∃ mark, bytes = mark ++ dropMark bytes ∧ (mark = byteOrderMark ∨ mark = []) := by
  by_cases marked : byteOrderMark <+: bytes
  · obtain ⟨others, rfl⟩ := marked
    exact ⟨byteOrderMark, by rw [dropMark_mark], .inl rfl⟩
  · refine ⟨[], ?_, .inr rfl⟩
    rw [dropMark, if_neg fun early => marked (List.isPrefixOf_iff_prefix.1 early)]
    rfl

/-- Nothing is dropped from a record that a reader gets on with. -/
theorem Arrives.dropMark_eq (h : Arrives .outside bytes q rest)
    (fits : q = .outside → ∃ left, Xml.next rest = .piece .ignored left) :
    dropMark bytes = bytes := by
  cases h with
  | here =>
    obtain ⟨left, found⟩ := fits rfl
    exact dropMark_of_piece found rfl
  | piece found step _ => exact dropMark_of_piece found step

/-- Whatever stands behind a place, it is a place between the same pieces.  If there may be none, then
a piece that is passed over has to be the next one. -/
theorem Between.change (h : Between q before after) {other : List UInt8}
    (starts : after.head? = some Xml.opener → other.head? = some Xml.opener)
    (fits : q = .outside → ∃ left, Xml.next other = .piece .ignored left) :
    Between q before other := by
  obtain ⟨blanks, blank, arrives⟩ := h
  obtain ⟨mark, whole, kind⟩ := exists_mark (before ++ after)
  obtain ⟨front, split, others⟩ := arrives.exists_front
  have parts : before = mark ++ (front ++ blanks) := by
    rw [split, ← List.append_assoc front, ← List.append_assoc mark] at whole
    exact List.append_cancel_right whole
  have arrives' : Arrives .outside (front ++ (blanks ++ other)) q (blanks ++ other) := by
    apply others
    cases blanks with
    | nil => exact starts
    | cons b blanks => exact id
  refine ⟨blanks, blank, ?_⟩
  suffices same : dropMark (before ++ other) = front ++ (blanks ++ other) by
    rw [same]
    exact arrives'
  rw [parts, List.append_assoc, List.append_assoc]
  rcases kind with rfl | rfl
  · exact dropMark_mark _
  · apply arrives'.dropMark_eq
    intro outside
    obtain ⟨left, found⟩ := fits outside
    exact ⟨left, (Xml.next_blanks_append blank other).trans found⟩

end XmlRecord

end SparseTensor
