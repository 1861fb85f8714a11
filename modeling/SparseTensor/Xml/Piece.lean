/-
# Pieces of XML

XML is text between pieces of markup: tags, character data, and pieces without meaning here,
such as comments.  `next` finds the piece at the front of some bytes.

Every kind of markup has an end of its own, found by a machine that runs over the bytes and
stops: a tag ends at the first `>` outside quotes, a comment at a `>` behind two dashes.
-/
import SparseTensor.Text.Blank
import SparseTensor.Text.Utf8

namespace SparseTensor.Xml

/-- The byte that markup starts with. -/
def opener : UInt8 := '<'.toUInt8

/-- The byte that markup ends with. -/
def closer : UInt8 := '>'.toUInt8

/-- A piece. -/
inductive Piece
  /-- Text, without the blanks around it and never empty. -/
  | text (bytes : List UInt8)
  /-- A tag that opens an element: its name and its attributes. -/
  | opening (tag : List UInt8)
  /-- A tag that opens an element and closes it. -/
  | empty (tag : List UInt8)
  /-- A tag that closes the element of a name. -/
  | closing (name : List UInt8)
  | characterData
  /-- A comment, an instruction, a declaration. -/
  | ignored
  deriving DecidableEq, Repr

/-- Some bytes without the blanks behind them. -/
def trimEnd (bytes : List UInt8) : List UInt8 :=
  (bytes.reverse.dropWhile Text.isBlankByte).reverse

/-! ## Where markup ends -/

/-- Run a machine over some bytes until it stops: the bytes before that point, and those behind
the one on which it stops.  `before` holds the bytes it has passed, last to first. -/
def cut {σ : Type} (step : σ → UInt8 → Option σ) (state : σ) (before : List UInt8) :
    List UInt8 → Option (List UInt8 × List UInt8)
  | [] => none
  | b :: rest =>
    match step state b with
    | none => some (before.reverse, rest)
    | some next => cut step next (b :: before) rest

/-- A tag ends outside quotes.  The state is the quote that is open. -/
def tagStep : Option UInt8 → UInt8 → Option (Option UInt8)
  | none, b =>
    if b = closer then none
    else if b = '"'.toUInt8 ∨ b = '\''.toUInt8 then some (some b)
    else some none
  | some mark, b => some (if b = mark then none else some mark)

/-- Markup that ends where what was passed says so.  The state is what was passed, last to
first. -/
def closedBehind (isEnd : List UInt8 → Bool) (passed : List UInt8) (b : UInt8) :
    Option (List UInt8) :=
  if b = closer ∧ isEnd passed then none else some (b :: passed)

/-- A comment ends behind two dashes that are not those it starts with. -/
def endsComment : List UInt8 → Bool
  | a :: b :: _ :: _ :: _ => a == '-'.toUInt8 && b == '-'.toUInt8
  | _ => false

/-- Character data ends behind two brackets. -/
def endsCharacterData : List UInt8 → Bool
  | a :: b :: _ => a == ']'.toUInt8 && b == ']'.toUInt8
  | _ => false

/-- An instruction ends behind a question mark. -/
def endsInstruction : List UInt8 → Bool
  | a :: _ => a == '?'.toUInt8
  | [] => false

/-- A document type ends where as many pieces of markup are closed as were opened inside.  The
state is the number of those that are open. -/
def documentTypeStep (openPieces : Nat) (b : UInt8) : Option Nat :=
  if b = opener then some (openPieces + 1)
  else if b = closer then
    match openPieces with
    | 0 => none
    | n + 1 => some n
  else some openPieces

/-- What is left behind a cut is shorter than what there was. -/
theorem length_cut_lt {σ : Type} {step : σ → UInt8 → Option σ} {state : σ}
    {before bytes content rest : List UInt8}
    (h : cut step state before bytes = some (content, rest)) : rest.length < bytes.length := by
  induction bytes generalizing state before with
  | nil => cases h
  | cons b bytes ih =>
    unfold cut at h
    split at h
    · cases h
      exact Nat.lt_succ_self _
    · exact Nat.lt_succ_of_lt (ih h)

/-! ## The next piece -/

/-- What is found at the front of some bytes. -/
inductive Next
  /-- A piece, and the bytes behind it. -/
  | piece (p : Piece) (rest : List UInt8)
  /-- Text up to the end of the bytes. -/
  | lastText (bytes : List UInt8)
  /-- Nothing but blanks. -/
  | nothing
  /-- Markup that the bytes do not close. -/
  | unfinished
  /-- Markup of no kind that there is. -/
  | malformed

/-- The piece that a cut makes of markup, if there is an end to cut at. -/
def ofCut (found : Option (List UInt8 × List UInt8)) (piece? : List UInt8 → Option Piece) : Next :=
  match found with
  | none => .unfinished
  | some (content, rest) =>
    match piece? content with
    | some p => .piece p rest
    | none => .malformed

/-- The piece that a tag is. -/
def tagPiece (content : List UInt8) : Piece :=
  if content.head? = some '/'.toUInt8 then .closing (trimEnd content.tail)
  else if content.getLast? = some '/'.toUInt8 then .empty content.dropLast
  else .opening content

/-- A comment starts with two dashes. -/
def commentPiece? (content : List UInt8) : Option Piece :=
  if (Text.bytes "--").isPrefixOf content then some .ignored else none

/-- Character data starts with a bracket on each side of a word. -/
def characterDataPiece? (content : List UInt8) : Option Piece :=
  if (Text.bytes "[CDATA[").isPrefixOf content then some .characterData else none

/-- An ASCII letter in upper case. -/
def upperByte (b : UInt8) : UInt8 :=
  if 0x61 ≤ b ∧ b ≤ 0x7A then b - 0x20 else b

/-- A document type starts with a word in either case and names something. -/
def documentTypePiece? (content : List UInt8) : Option Piece :=
  if (content.take 7).map upperByte = Text.bytes "DOCTYPE" ∧
      !(content.drop 7).all Text.isBlankByte then some .ignored
  else none

/-- The piece behind an opener and an exclamation mark. -/
def declaration (bytes : List UInt8) : Next :=
  match bytes with
  | [] => .unfinished
  | b :: _ =>
    if b = '['.toUInt8 then
      ofCut (cut (closedBehind endsCharacterData) [] [] bytes) characterDataPiece?
    else if b = '-'.toUInt8 then ofCut (cut (closedBehind endsComment) [] [] bytes) commentPiece?
    else if upperByte b = 'D'.toUInt8 then
      ofCut (cut documentTypeStep 0 [] bytes) documentTypePiece?
    else .malformed

/-- An instruction has a question mark at its end that is not the one it starts with. -/
def instructionPiece? (content : List UInt8) : Option Piece :=
  if content.isEmpty then none else some .ignored

/-- The piece behind an opener. -/
def markup : List UInt8 → Next
  | [] => .unfinished
  | b :: rest =>
    if b = '!'.toUInt8 then declaration rest
    else if b = '?'.toUInt8 then
      ofCut (cut (closedBehind endsInstruction) [b] [] rest) instructionPiece?
    else ofCut (cut tagStep none [] (b :: rest)) fun content => some (tagPiece content)

/-- A byte of text. -/
def isTextByte (b : UInt8) : Bool := b ≠ opener

/-- The piece at the front of some bytes, behind any blanks. -/
def next (bytes : List UInt8) : Next :=
  match bytes.dropWhile Text.isBlankByte with
  | [] => .nothing
  | b :: rest =>
    if b = opener then markup rest
    else
      let text := trimEnd (b :: rest.takeWhile isTextByte)
      match rest.dropWhile isTextByte with
      | [] => .lastText text
      | behind => .piece (.text text) behind

/-! ## Pieces take up bytes -/

/-- A piece that is cut out leaves what the cut leaves. -/
theorem ofCut_eq_piece {found : Option (List UInt8 × List UInt8)}
    {piece? : List UInt8 → Option Piece} {p : Piece} {rest : List UInt8}
    (h : ofCut found piece? = .piece p rest) : ∃ content, found = some (content, rest) := by
  unfold ofCut at h
  split at h
  · cases h
  · split at h
    · cases h
      exact ⟨_, rfl⟩
    · cases h

/-- What is left behind a declaration is shorter than what there was. -/
theorem length_declaration_lt {bytes rest : List UInt8} {p : Piece}
    (h : declaration bytes = .piece p rest) : rest.length < bytes.length := by
  unfold declaration at h
  split at h
  · cases h
  · split at h
    · obtain ⟨_, found⟩ := ofCut_eq_piece h
      exact length_cut_lt found
    split at h
    · obtain ⟨_, found⟩ := ofCut_eq_piece h
      exact length_cut_lt found
    split at h
    · obtain ⟨_, found⟩ := ofCut_eq_piece h
      exact length_cut_lt found
    · cases h

/-- What is left behind markup is shorter than what there was. -/
theorem length_markup_lt {bytes rest : List UInt8} {p : Piece}
    (h : markup bytes = .piece p rest) : rest.length < bytes.length := by
  unfold markup at h
  split at h
  · cases h
  · split at h
    · exact Nat.lt_succ_of_lt (length_declaration_lt h)
    split at h
    · obtain ⟨_, found⟩ := ofCut_eq_piece h
      exact Nat.lt_succ_of_lt (length_cut_lt found)
    · obtain ⟨_, found⟩ := ofCut_eq_piece h
      exact length_cut_lt found

/-- What is left behind a piece is shorter than what there was. -/
theorem length_next_lt {bytes rest : List UInt8} {p : Piece} (h : next bytes = .piece p rest) :
    rest.length < bytes.length := by
  have blanks := (List.dropWhile_suffix (l := bytes) Text.isBlankByte).length_le
  unfold next at h
  split at h
  · cases h
  · rename_i b behind left
    simp only [left, List.length_cons] at blanks
    split at h
    · have := length_markup_lt h
      omega
    · have texts := (List.dropWhile_suffix (l := behind) isTextByte).length_le
      split at h
      · cases h
      · cases h
        omega

end SparseTensor.Xml
