/-
# Comments and instructions

A reader passes over comments and instructions.  So one of them can be put in between any two pieces
of a record, wherever these stand, and the record is read as before (`Between.insert`).

Inside the text of a list it depends.  A comment splits the text into two runs, the blanks at the
ends of a run are trimmed, and the runs are joined with nothing in between.  If blanks were all that
stood between two numbers, these become one number, and the list is one number too short for its
count (`Joint.decode_of_solid`).  Only white space that is no blank to a tag reader, or is written as a
reference, survives at the joint (`Joint.decode_of_parted`).
-/
import SparseTensor.Proofs.Places
import SparseTensor.Proofs.RepeatedNames

namespace SparseTensor

/-! ## Asides -/

namespace Xml

/-- A comment or an instruction: it goes up to the first mark of its end. -/
inductive IsAside : List UInt8 → Prop
  | comment {content : List UInt8} : ¬ ascii ['-', '-', '>'] <:+: content →
    IsAside (ascii ['<', '!', '-', '-'] ++ (content ++ ascii ['-', '-', '>']))
  | instruction {content : List UInt8} : ¬ ascii ['?', '>'] <:+: '?'.toUInt8 :: content →
    IsAside (ascii ['<', '?'] ++ (content ++ ascii ['?', '>']))

/-- Markup goes on as long as no mark of its end has been passed. -/
theorem foldlM_closedBehind {isEnd : List UInt8 → Bool} {content passed : List UInt8}
    (goesOn : ∀ front back, content = front ++ closer :: back →
      isEnd (front.reverse ++ passed) = false) :
    content.foldlM (closedBehind isEnd) passed = some (content.reverse ++ passed) := by
  induction content generalizing passed with
  | nil => rfl
  | cons b content ih =>
    have step : closedBehind isEnd passed b = some (b :: passed) := by
      rw [closedBehind, if_neg]
      rintro ⟨rfl, ends⟩
      have open' := goesOn [] content rfl
      rw [List.reverse_nil, List.nil_append, ends] at open'
      cases open'
    rw [List.foldlM_cons, step]
    show content.foldlM (closedBehind isEnd) (b :: passed) = _
    rw [ih, List.reverse_cons, List.append_assoc]
    · rfl
    · intro front back split
      have further := goesOn (b :: front) back (by rw [split]; rfl)
      rwa [List.reverse_cons, List.append_assoc] at further

/-- A mark does not reach into bytes without its last one. -/
theorem infix_of_infix_append {mark content tail : List UInt8} {b : UInt8} (outside : b ∉ tail)
    (h : mark ++ [b] <:+: content ++ tail) : mark ++ [b] <:+: content := by
  obtain ⟨front, back, same⟩ := h
  rcases List.append_eq_append_iff.1 same with ⟨more, whole, -⟩ | ⟨more, whole, behind⟩
  · exact ⟨front, more, whole.symm⟩
  · rcases List.eq_nil_or_concat more with rfl | ⟨more, c, rfl⟩
    · rw [List.append_nil] at whole
      exact ⟨front, [], by rw [List.append_nil, whole]⟩
    · -- otherwise the last byte of the mark would be one of the tail
      rw [List.concat_eq_append, ← List.append_assoc, ← List.append_assoc] at whole
      obtain rfl := List.singleton_inj.1 (List.append_inj' whole rfl).2
      apply absurd _ outside
      rw [behind]
      simp

/-- The mark at the end of a comment stands behind the two bytes of its start. -/
theorem exists_of_endsComment {passed : List UInt8} (h : endsComment passed = true) :
    ∃ a b front, passed.reverse = a :: b :: (front ++ ascii ['-', '-']) := by
  unfold endsComment at h
  split at h
  · rename_i a b c d others
    simp only [Bool.and_eq_true, beq_iff_eq] at h
    obtain ⟨rfl, rfl⟩ := h
    have start : ∃ a b front, others.reverse ++ [d, c] = a :: b :: front := by
      rcases others.reverse with _ | ⟨a, _ | ⟨b, front⟩⟩
      · exact ⟨d, c, [], rfl⟩
      · exact ⟨a, d, [c], rfl⟩
      · exact ⟨a, b, front ++ [d, c], rfl⟩
    obtain ⟨a, b, front, start⟩ := start
    refine ⟨a, b, front, ?_⟩
    have whole := congrArg (· ++ ascii ['-', '-']) start
    simpa using whole
  · cases h

/-- The mark at the end of an instruction. -/
theorem exists_of_endsInstruction {passed : List UInt8} (h : endsInstruction passed = true) :
    ∃ front, passed.reverse = front ++ ['?'.toUInt8] := by
  unfold endsInstruction at h
  split at h
  · rename_i a others
    obtain rfl := beq_iff_eq.1 h
    exact ⟨others.reverse, List.reverse_cons⟩
  · cases h

/-- A comment goes up to the first mark of its end. -/
theorem cut_comment {content : List UInt8} (h : ¬ ascii ['-', '-', '>'] <:+: content)
    (rest : List UInt8) :
    cut (closedBehind endsComment) [] []
        (ascii ['-', '-'] ++ (content ++ ascii ['-', '-']) ++ closer :: rest) =
      some (ascii ['-', '-'] ++ (content ++ ascii ['-', '-']), rest) := by
  refine cut_append (foldlM_closedBehind fun front back split => ?_) ?_ [] rest
  · rw [← Bool.not_eq_true]
    intro ends
    obtain ⟨a, b, before, passed⟩ := exists_of_endsComment ends
    rw [List.append_nil, List.reverse_reverse] at passed
    rw [passed] at split
    have inside : content ++ ascii ['-', '-'] = before ++ ascii ['-', '-'] ++ closer :: back :=
      (List.cons.inj (List.cons.inj split).2).2
    apply h
    apply @infix_of_infix_append (ascii ['-', '-']) content (ascii ['-', '-']) closer (by decide)
    exact ⟨before, back, by rw [inside]; simp⟩
  · apply if_pos
    refine ⟨rfl, ?_⟩
    rw [List.append_nil, List.reverse_append, List.reverse_append]
    rcases content.reverse with _ | ⟨a, _ | ⟨b, others⟩⟩
    · rfl
    · rfl
    · rfl

/-- An instruction goes up to the first mark of its end, which is not made of the one at its
start. -/
theorem cut_instruction {content : List UInt8} (h : ¬ ascii ['?', '>'] <:+: '?'.toUInt8 :: content)
    (rest : List UInt8) :
    cut (closedBehind endsInstruction) ['?'.toUInt8] [] (content ++ ['?'.toUInt8] ++ closer :: rest) =
      some (content ++ ['?'.toUInt8], rest) := by
  refine cut_append (foldlM_closedBehind fun front back split => ?_) ?_ [] rest
  · rw [← Bool.not_eq_true]
    intro ends
    obtain ⟨before, passed⟩ := exists_of_endsInstruction ends
    rw [List.reverse_append, List.reverse_reverse, List.reverse_singleton,
      List.singleton_append] at passed
    have inside : '?'.toUInt8 :: content ++ ['?'.toUInt8] =
        before ++ ['?'.toUInt8] ++ closer :: back := by
      rw [← passed, List.cons_append, split]
      rfl
    apply h
    apply @infix_of_infix_append ['?'.toUInt8] ('?'.toUInt8 :: content) ['?'.toUInt8] closer
      (by decide)
    exact ⟨before, back, by rw [inside]; simp⟩
  · apply if_pos
    refine ⟨rfl, ?_⟩
    rw [List.reverse_append]
    rfl

/-- A comment or an instruction is a piece that is passed over, behind any blanks. -/
theorem IsAside.next {aside : List UInt8} (h : IsAside aside) (rest : List UInt8) :
    next (aside ++ rest) = .piece .ignored rest := by
  cases h with
  | @comment content absent =>
    have found := cut_comment absent rest
    have same : ascii ['<', '!', '-', '-'] ++ (content ++ ascii ['-', '-', '>']) ++ rest =
        opener :: '!'.toUInt8 ::
          (ascii ['-', '-'] ++ (content ++ ascii ['-', '-']) ++ closer :: rest) := by
      simp [opener, closer]
    rw [same, Xml.next, List.dropWhile_cons_of_neg (by decide)]
    simp only [if_pos]
    rw [markup, if_pos rfl]
    show ofCut (cut (closedBehind endsComment) [] [] _) commentPiece? = _
    rw [found]
    rfl
  | @instruction content absent =>
    have found := cut_instruction absent rest
    have same : ascii ['<', '?'] ++ (content ++ ascii ['?', '>']) ++ rest =
        opener :: '?'.toUInt8 :: (content ++ ['?'.toUInt8] ++ closer :: rest) := by
      simp [opener, closer]
    rw [same, Xml.next, List.dropWhile_cons_of_neg (by decide)]
    simp only [if_pos]
    rw [markup, if_neg (by decide), if_pos rfl, found, ofCut, instructionPiece?,
      if_neg (by simp)]

end Xml

namespace XmlRecord

variable {ending : Ending} {a b : Archive} {f g : OpenField} {q : Progress}
  {bytes before after aside rest : List UInt8}

/-! ## Between pieces -/

/-- A comment or an instruction between two pieces changes nothing. -/
theorem Between.insert (h : Between q before after) (skipped : Xml.IsAside aside)
    (ending : Ending) :
    XmlRecord.decode ⟨before ++ (aside ++ after), ending⟩ =
      XmlRecord.decode ⟨before ++ after, ending⟩ := by
  have found := skipped.next after
  have opens : (aside ++ after).head? = some Xml.opener := by
    cases skipped <;> rfl
  have place : Between q before (aside ++ after) := h.change (fun _ => opens) fun _ => ⟨after, found⟩
  rw [place.decode, h.decode, pieces_of_piece found]
  rfl

/-! ## Inside the text of a field -/

/-- The words of a list are all numbers, or one of them is refused. -/
theorem mapM_number_cases (name : String) (words : List (List Char)) :
    (∃ values, words.mapM (number name) = .ok values ∧ values.length = words.length) ∨
      ∃ word, words.mapM (number name) = .error (.corrupt (.invalidNumber word name)) := by
  induction words with
  | nil => exact .inl ⟨[], rfl, rfl⟩
  | cons word words ih =>
    rw [List.mapM_cons]
    cases read : Numeral.word64? word with
    | none =>
      refine .inr ⟨String.ofList word, ?_⟩
      rw [number, read]
      rfl
    | some v =>
      have first : number name word = .ok v := by rw [number, read]
      rw [first]
      rcases ih with ⟨values, others, length⟩ | ⟨other, refused⟩
      · refine .inl ⟨v :: values, ?_, congrArg Nat.succ length⟩
        rw [others]
        rfl
      · refine .inr ⟨other, ?_⟩
        rw [refused]
        rfl

/-- A list that is closed has as many words as it announced. -/
theorem length_words_of_field {n : UInt64} (isList : f.count = some n) {text : List Char}
    {value : Field} (valued : OpenField.field { f with text } = .ok value) :
    (Text.words text).length = n.toNat := by
  simp only [OpenField.field, isList] at valued
  obtain ⟨values, read, valued⟩ := exists_of_bind_eq_ok valued
  split at valued
  · rename_i counted
    rcases mapM_number_cases f.name (Text.words text) with ⟨others, same, length⟩ | ⟨word, other⟩
    · obtain rfl := Except.ok.inj (read.symm.trans same)
      exact length.symm.trans counted
    · cases read.symm.trans other
  · cases valued

/-- A list with another number of words than it announced is refused. -/
theorem exists_corrupt_of_words {n : UInt64} (isList : f.count = some n) {text : List Char}
    (other : (Text.words text).length ≠ n.toNat) :
    ∃ cause, OpenField.field { f with text } = .error (.corrupt cause) ∧
      (cause = .countMismatch f.name n (Text.words text).length ∨
        ∃ word, cause = .invalidNumber word f.name) := by
  simp only [OpenField.field, isList]
  rcases mapM_number_cases f.name (Text.words text) with ⟨values, read, length⟩ | ⟨word, refused⟩
  · refine ⟨_, ?_, .inl rfl⟩
    simp only [read, bind, Except.bind]
    rw [if_neg (length ▸ other), length]
    rfl
  · refine ⟨_, ?_, .inr ⟨word, rfl⟩⟩
    simp only [refused, bind, Except.bind]

/-- Only the words of a list matter. -/
theorem closeField_of_words {n : UInt64} (isList : f.count = some n) {s t : List Char}
    (same : Text.words s = Text.words t) (a : Archive) :
    closeField a { f with text := s } = closeField a { f with text := t } := by
  simp only [closeField, OpenField.field, isList, same]

/-- What is behind a place inside a field adds to its text, whatever this is. -/
theorem Content.retext (h : Content f bytes g rest) :
    ∃ more, ∀ text, Content { f with text } bytes { f with text := text ++ more } rest := by
  induction h with
  | ignored found _ ih =>
    obtain ⟨more, behind⟩ := ih
    exact ⟨more, fun text => .ignored found (behind text)⟩
  | @text f g run bytes left rest s found meant _ ih =>
    obtain ⟨more, behind⟩ := ih
    refine ⟨s ++ more, fun text => .text found meant ?_⟩
    rw [← List.append_assoc]
    exact behind (text ++ s)
  | closing found same =>
    refine ⟨[], fun text => ?_⟩
    rw [List.append_nil]
    exact .closing found same

/-- If a record is complete, then what is behind a place inside a field adds to its text, closes it
and goes on from there. -/
theorem exists_of_pieces_inField (h : pieces ending (.inField b f) bytes = .ok (a, rest)) :
    ∃ more behind, ∀ text, pieces ending (.inField b { f with text }) bytes =
      (closeField b { f with text := text ++ more }).bind fun c =>
        pieces ending (.inArchive c) behind := by
  obtain ⟨g, value, behind, fields, content, -⟩ := spells_of_pieces h
  obtain ⟨more, content⟩ := content.retext
  exact ⟨more, behind, fun text => (content text).pieces ending b⟩

variable {n : UInt64} {u v w w' w'' gap behind : List UInt8} {x y : List Char}

/-- A run of text is added to the text of a field, without the blanks behind it. -/
theorem pieces_run (run : Xml.Run u x) (blank : ∀ b ∈ w, Text.isBlankByte b = true) :
    pieces ending (.inField b f) (u ++ (w ++ Xml.opener :: behind)) =
      pieces ending (.inField b { f with text := f.text ++ x }) (Xml.opener :: behind) := by
  rw [pieces_of_piece (run.next blank behind), onPiece, onText, run.meant]
  rfl

/-- Two runs with an aside between them are added one after the other, without any blanks. -/
theorem pieces_runs (skipped : Xml.IsAside aside) (left : Xml.Run u x) (right : Xml.Run v y)
    (blank : ∀ b ∈ w, Text.isBlankByte b = true) (blank' : ∀ b ∈ w', Text.isBlankByte b = true)
    (blank'' : ∀ b ∈ w'', Text.isBlankByte b = true) :
    pieces ending (.inField b f)
        (u ++ (w ++ (aside ++ (w' ++ (v ++ (w'' ++ Xml.opener :: behind)))))) =
      pieces ending (.inField b { f with text := f.text ++ x ++ y }) (Xml.opener :: behind) := by
  obtain ⟨start, opens⟩ : ∃ start, aside = Xml.opener :: start := by
    cases skipped <;> exact ⟨_, rfl⟩
  have first := @pieces_run ending b f _ _ (start ++ (w' ++ (v ++ (w'' ++ Xml.opener :: behind))))
    _ left blank
  rw [← List.cons_append, ← opens, pieces_of_piece (skipped.next _)] at first
  rw [first]
  show pieces ending (.inField b { f with text := f.text ++ x }) _ = _
  rw [pieces_of_next_eq (Xml.next_blanks_append blank' _), pieces_run right blank'']

/-- A place in the text of a list, among the blanks between two runs that stand for `x` and `y`.
`gap` are the blanks on both sides of the place. -/
inductive Joint (f : OpenField) (n : UInt64) (x y : List Char) :
    List UInt8 → List UInt8 → List UInt8 → Prop
  | mk {b : Archive} {front u w w' v w'' behind : List UInt8} : f.count = some n →
    Between (.inField b f) front
      (u ++ (w ++ (w' ++ (v ++ (w'' ++ Xml.opener :: behind))))) →
    Xml.Run u x → Xml.Run v y → (∀ b ∈ w, Text.isBlankByte b = true) →
    (∀ b ∈ w', Text.isBlankByte b = true) → (∀ b ∈ w'', Text.isBlankByte b = true) →
    Joint f n x y (w ++ w') (front ++ (u ++ w)) (w' ++ (v ++ (w'' ++ Xml.opener :: behind)))

theorem Joint.isList (h : Joint f n x y gap before after) : f.count = some n := by
  cases h
  assumption

/-- Something stands on both sides of the place. -/
theorem Joint.ne_nil (h : Joint f n x y gap before after) : x ≠ [] ∧ y ≠ [] := by
  obtain ⟨-, -, left, right, -, -, -⟩ := h
  exact ⟨Xml.text?_ne_nil left.nonempty left.meant, Xml.text?_ne_nil right.nonempty right.meant⟩

/-- The field is closed with the same text but for the blanks at the joint, which an aside takes
away. -/
theorem Joint.exists_texts (joint : Joint f n x y gap before after)
    (skipped : Xml.IsAside aside) (decoded : decode ⟨before ++ after, ending⟩ = .ok (a, rest)) :
    ∃ (b : Archive) (blanks more : List Char)
      (goOn : Archive → Except Fault (Archive × List UInt8)),
      (blanks = [] ↔ gap = []) ∧ (∀ c ∈ blanks, Text.isBlank c = true) ∧
      decode ⟨before ++ after, ending⟩ =
        (closeField b { f with text := f.text ++ x ++ (blanks ++ (y ++ more)) }).bind goOn ∧
      decode ⟨before ++ (aside ++ after), ending⟩ =
        (closeField b { f with text := f.text ++ x ++ (y ++ more) }).bind goOn := by
  obtain @⟨b, front, u, w, w', v, w'', behind, -, place, left, right, blank, blank', blank''⟩ := joint
  have gapBlank : ∀ c ∈ w ++ w', Text.isBlankByte c = true := fun c hc =>
    (List.mem_append.1 hc).elim (blank c) (blank' c)
  obtain ⟨blanks, empty, white, run⟩ := left.append right gapBlank
  -- without the aside the two runs are one piece of text
  have plain : decode ⟨front ++ (u ++ w) ++ (w' ++ (v ++ (w'' ++ Xml.opener :: behind))), ending⟩ =
      pieces ending (.inField b { f with text := f.text ++ (x ++ (blanks ++ y)) })
        (Xml.opener :: behind) := by
    have whole := place.decode ending
    have joined := @pieces_run ending b f _ _ behind _ run blank''
    simp only [List.append_assoc] at whole joined ⊢
    exact whole.trans joined
  -- with it they are two
  have parts : decode ⟨front ++ (u ++ w) ++ (aside ++
      (w' ++ (v ++ (w'' ++ Xml.opener :: behind)))), ending⟩ =
      pieces ending (.inField b { f with text := f.text ++ x ++ y }) (Xml.opener :: behind) := by
    have place' : Between (.inField b f) front
        (u ++ (w ++ (aside ++ (w' ++ (v ++ (w'' ++ Xml.opener :: behind)))))) := by
      -- what stands behind the front starts with the same text
      obtain ⟨c, others, rfl⟩ := List.exists_cons_of_ne_nil left.nonempty
      exact place.change id nofun
    have whole := place'.decode ending
    rw [pieces_runs skipped left right blank blank' blank''] at whole
    simp only [List.append_assoc] at whole ⊢
    exact whole
  obtain ⟨more, later, closes⟩ := exists_of_pieces_inField (plain.symm.trans decoded)
  refine ⟨b, blanks, more, fun c => pieces ending (.inArchive c) later, empty, white, ?_, ?_⟩
  · rw [plain]
    refine (closes _).trans ?_
    simp only [List.append_assoc]
  · rw [parts]
    refine (closes _).trans ?_
    simp only [List.append_assoc]

/-- With white space that is left at the joint, or none that could be lost, the words stay as they
are. -/
theorem Joint.decode_of_parted (joint : Joint f n x y gap before after)
    (skipped : Xml.IsAside aside) (decoded : decode ⟨before ++ after, ending⟩ = .ok (a, rest))
    (kept : gap = [] ∨ Text.Parted x y) :
    decode ⟨before ++ (aside ++ after), ending⟩ = .ok (a, rest) := by
  obtain ⟨left, right⟩ := joint.ne_nil
  obtain ⟨b, blanks, more, goOn, empty, white, plain, parts⟩ := joint.exists_texts skipped decoded
  rw [parts, ← decoded, plain]
  by_cases none : blanks = []
  · rw [none]
    rfl
  · have parted := kept.resolve_left fun gone => none (empty.2 gone)
    have words := Text.words_append ((Text.parted_append_iff left right f.text more).2 parted)
    rw [closeField_of_words joint.isList]
    rw [Text.words_append_gap none white]
    exact words

/-- Without, two numbers become one, and the list is refused. -/
theorem Joint.decode_of_solid (joint : Joint f n x y gap before after)
    (skipped : Xml.IsAside aside) (decoded : decode ⟨before ++ after, ending⟩ = .ok (a, rest))
    (some : gap ≠ []) (solid : ¬ Text.Parted x y) :
    ∃ cause, decode ⟨before ++ (aside ++ after), ending⟩ = .error (.corrupt cause) ∧
      (cause = .countMismatch f.name n (n.toNat - 1) ∨
        ∃ word, cause = .invalidNumber word f.name) := by
  obtain ⟨left, right⟩ := joint.ne_nil
  obtain ⟨b, blanks, more, goOn, empty, white, plain, parts⟩ := joint.exists_texts skipped decoded
  rw [plain] at decoded
  obtain ⟨c, closed, -⟩ := exists_of_bind_eq_ok decoded
  obtain ⟨value, valued, -⟩ := exists_field_of_closeField closed
  have counted := length_words_of_field joint.isList valued
  rw [Text.words_append_gap ((not_congr empty).2 some) white] at counted
  obtain ⟨front, v, w, back, first, second, joined⟩ := Text.words_append_of_solid
    ((not_congr (Text.parted_append_iff left right f.text more)).2 solid)
  rw [first, second] at counted
  simp only [List.length_append, List.length_cons, List.length_nil] at counted
  have fewer : (Text.words (f.text ++ x ++ (y ++ more))).length = n.toNat - 1 := by
    rw [joined]
    simp only [List.length_append, List.length_cons]
    omega
  obtain ⟨cause, refused, kinds⟩ := exists_corrupt_of_words joint.isList
    (show (Text.words (f.text ++ x ++ (y ++ more))).length ≠ n.toNat by omega)
  rw [fewer] at kinds
  refine ⟨cause, ?_, kinds⟩
  rw [parts, closeField, refused]
  rfl

/-! ## Written lists -/

open Xml (ascii tagBytes)

variable {kind name : String} {values : List UInt64}

/-- Numbers that are written are a run of text. -/
theorem run_numbersText (ne : values ≠ []) :
    Xml.Run (ascii (numbersText values)) (numbersText values) where
  nonempty := by simp [ascii, numbersText_ne_nil ne]
  first _ found := isBlankByte_of_ends (.inl found)
  last _ found := isBlankByte_of_ends (.inr found)
  text := Xml.forall_mem_ascii (Q := fun c => c = ' ' ∨ Text.isPlain c = true)
    (fun c hc => ⟨ascii_numbersText values c hc, mem_numbersText values c hc⟩) (by decide)
  meant := text?_numbersText values

/-- There is a single blank between the numbers of two lists that are written as one. -/
theorem numbersText_append {more : List UInt64} (ne : values ≠ []) (ne' : more ≠ []) :
    numbersText (values ++ more) = numbersText values ++ ' ' :: numbersText more := by
  induction values with
  | nil => exact absurd rfl ne
  | cons v values ih =>
    cases values with
    | nil =>
      obtain ⟨w, more, rfl⟩ := List.exists_cons_of_ne_nil ne'
      simp [numbersText, List.intercalate_cons_cons, List.intercalate_singleton]
    | cons w values =>
      have others := ih (List.cons_ne_nil w values)
      simp only [numbersText, List.cons_append, List.map_cons, List.intercalate_cons_cons]
        at others ⊢
      rw [others]
      simp

/-- There are digits on both sides of a joint between two lists. -/
theorem not_parted_numbersText {more : List UInt64} (ne : values ≠ []) (ne' : more ≠ []) :
    ¬ Text.Parted (numbersText values) (numbersText more) := by
  rintro (last | first)
  · have found := List.getLast?_eq_some_getLast (numbersText_ne_nil ne)
    rw [found, Option.all_some, Text.isBlank_of_isPlain (isPlain_of_ends (.inr found))] at last
    cases last
  · have found := List.head?_eq_some_head (numbersText_ne_nil ne')
    rw [found, Option.all_some, Text.isBlank_of_isPlain (isPlain_of_ends (.inl found))] at first
    cases first

/-- A written record up to its fields. -/
def archiveFront (pretty : Bool) (kind : String) : List UInt8 :=
  ascii declarationText ++ (breakBytes pretty 0 ++ openingBytes .archive (archiveAttributes kind))

/-- A written record up to the numbers of a list that is its first field. -/
def listFront (pretty : Bool) (kind name : String) (values : List UInt64) : List UInt8 :=
  archiveFront pretty kind ++
    (breakBytes pretty 1 ++ openingBytes .list (fieldAttributes name (.list values)))

/-- A written record from the end of its first field. -/
def listBack (pretty : Bool) (fields : List (String × Field)) : List UInt8 :=
  closingBytes .list ++ (fields.flatMap (fieldBytes pretty) ++
    (breakBytes pretty 0 ++ closingBytes .archive))

/-- The archive is open where its fields start. -/
theorem arrives_archiveFront (valid : isValidName kind = true) (pretty : Bool)
    (after : List UInt8) :
    Arrives .outside (dropMark (archiveFront pretty kind ++ after))
      (.inArchive (Archive.empty kind)) after := by
  have mark := dropMark_declaration (List.forall_mem_nil _)
    (breakBytes pretty 0 ++ (openingBytes .archive (archiveAttributes kind) ++ after))
  have declared := next_declaration (List.forall_mem_nil _)
    (breakBytes pretty 0 ++ (openingBytes .archive (archiveAttributes kind) ++ after))
  have found := Xml.next_opening (@isBlankByte_of_mem_breakBytes pretty 0)
    (Element.isValidName_name .archive) (isValidName_of_mem_archiveAttributes kind)
    (by simp [archiveAttributes]) after
  have opens : onPiece (.opening (tagBytes Element.archive.name (archiveAttributes kind)))
      .outside = .ok (.goOn (.inArchive (Archive.empty kind))) := by
    rw [onPiece, onOpening, ofTag?_tagBytes, openArchive_tagBytes, if_pos valid]
    rfl
  rw [List.nil_append] at mark declared
  simp only [archiveFront, List.append_assoc]
  rw [mark]
  refine .piece declared rfl ?_
  rw [openingBytes_append]
  exact .piece found opens .here

/-- The list is open where its numbers start. -/
theorem arrives_listFront (valid : isValidName kind = true) (short : values.length < 2 ^ 64)
    (pretty : Bool) (after : List UInt8) :
    Arrives .outside (dropMark (listFront pretty kind name values ++ after))
      (.inField (Archive.empty kind) (opened name (.list values))) after := by
  have found := Xml.next_opening (@isBlankByte_of_mem_breakBytes pretty 1)
    (Element.isValidName_name .list) (isValidName_of_mem_fieldAttributes name (.list values))
    (by simp [fieldAttributes]) after
  have counted : (Field.list values).numbers.length < 2 ^ 64 := short
  have opens : onPiece (.opening (tagBytes Element.list.name
      (fieldAttributes name (.list values)))) (.inArchive (Archive.empty kind)) =
        .ok (.goOn (.inField (Archive.empty kind) (opened name (.list values)))) :=
    onOpening_tagBytes (openField_tagBytes name counted)
  simp only [listFront, List.append_assoc]
  refine (arrives_archiveFront valid pretty _).trans ?_
  rw [openingBytes_append]
  exact .piece found opens .here

/-- The blank between two numbers of a written list is a place inside its text. -/
theorem joint_written {more : List UInt64} (valid : isValidName kind = true)
    (short : (values ++ more).length < 2 ^ 64) (ne : values ≠ []) (ne' : more ≠ [])
    (pretty : Bool) (fields : List (String × Field)) :
    Joint (opened name (.list (values ++ more))) (values ++ more).length.toUInt64
      (numbersText values) (numbersText more) [0x20]
      (listFront pretty kind name (values ++ more) ++ (ascii (numbersText values) ++ [0x20]))
      (ascii (numbersText more) ++ listBack pretty fields) := by
  rw [listBack, closingBytes_append]
  exact @Joint.mk _ _ _ _ _ _ _ [0x20] [] _ [] _ rfl (.of_arrives (arrives_listFront valid short pretty _))
    (run_numbersText ne) (run_numbersText ne') (by simp [Text.isBlankByte])
    (List.forall_mem_nil _) (List.forall_mem_nil _)

/-- A written record without an aside is read back. -/
theorem decode_listFront {more : List UInt64} {fields : List (String × Field)}
    (valid : isValidName kind = true)
    (names : ∀ entry ∈ (name, .list (values ++ more)) :: fields, isValidName entry.1 = true)
    (different : (((name, .list (values ++ more)) :: fields).map Prod.fst).Nodup)
    (countable : ∀ entry ∈ (name, .list (values ++ more)) :: fields,
      entry.2.numbers.length < 2 ^ 64)
    (ne : values ≠ []) (ne' : more ≠ []) (pretty : Bool) (ending : Ending) :
    decode ⟨listFront pretty kind name (values ++ more) ++ (ascii (numbersText values) ++ [0x20]) ++
        (ascii (numbersText more) ++ listBack pretty fields), ending⟩ =
      .ok (Archive.ofList kind ((name, .list (values ++ more)) :: fields), []) := by
  have spells : Record.Spells .xml .compact ending kind ((name, .list (values ++ more)) :: fields)
      (elementOf pretty kind ((name, .list (values ++ more)) :: fields) ++ []) [] :=
    spells_elementOf valid countable pretty []
  have same : listFront pretty kind name (values ++ more) ++
      (ascii (numbersText values) ++ [0x20]) ++
        (ascii (numbersText more) ++ listBack pretty fields) =
      elementOf pretty kind ((name, .list (values ++ more)) :: fields) ++ [] := by
    have content : contentText pretty (.list (values ++ more)) =
        numbersText values ++ ' ' :: numbersText more := by
      rw [contentText, if_neg (by simp [Field.numbers, ne]), Field.numbers,
        numbersText_append ne ne']
    simp only [elementOf, archiveFront, listFront, listBack, List.flatMap_cons, fieldBytes, content,
      fieldElement, Xml.ascii_append, Xml.ascii_cons, List.append_assoc, List.append_nil]
    rfl
  rw [same]
  exact Record.decode_of_nodup spells names different (by decide)

/-- No list that is written survives a comment or an instruction behind one of its blanks. -/
theorem corrupt_of_written_list {more : List UInt64} {fields : List (String × Field)}
    (valid : isValidName kind = true)
    (names : ∀ entry ∈ (name, .list (values ++ more)) :: fields, isValidName entry.1 = true)
    (different : (((name, .list (values ++ more)) :: fields).map Prod.fst).Nodup)
    (countable : ∀ entry ∈ (name, .list (values ++ more)) :: fields,
      entry.2.numbers.length < 2 ^ 64)
    (ne : values ≠ []) (ne' : more ≠ []) (skipped : Xml.IsAside aside) (pretty : Bool)
    (ending : Ending) :
    ∃ cause, decode ⟨listFront pretty kind name (values ++ more) ++
        (ascii (numbersText values) ++ [0x20]) ++
          (aside ++ (ascii (numbersText more) ++ listBack pretty fields)), ending⟩ =
      .error (.corrupt cause) := by
  have decoded := decode_listFront valid names different countable ne ne' pretty ending
  have joint : Joint (opened name (.list (values ++ more))) _ _ _ _ _ _ :=
    joint_written valid (countable _ List.mem_cons_self) ne ne' pretty fields
  obtain ⟨cause, refused, -⟩ := joint.decode_of_solid skipped decoded (List.cons_ne_nil _ _)
    (not_parted_numbersText ne ne')
  exact ⟨cause, refused⟩

/-! ## Anywhere in a record -/

/-- A comment or an instruction is put into the bytes of a record.  Between two pieces, and so between
any two elements, it changes nothing: not what is read, and not how the reading fails.  Inside the
text of a list, among the blanks between two runs, a record that is accepted is read as before if
there were no such blanks, or if other white space stands next to them.  Otherwise it is refused,
since the numbers on both sides become one: either this is none, or there is one too few. -/
theorem decode_with_aside (skipped : Xml.IsAside aside) (ending : Ending) :
    (∀ q before after, Between q before after →
      decode ⟨before ++ (aside ++ after), ending⟩ = decode ⟨before ++ after, ending⟩) ∧
    ∀ f n x y gap before after, Joint f n x y gap before after →
      ∀ a rest, decode ⟨before ++ after, ending⟩ = .ok (a, rest) →
        (gap = [] ∨ Text.Parted x y →
          decode ⟨before ++ (aside ++ after), ending⟩ = .ok (a, rest)) ∧
        (gap ≠ [] → ¬ Text.Parted x y → ∃ cause,
          decode ⟨before ++ (aside ++ after), ending⟩ = .error (.corrupt cause) ∧
            (cause = .countMismatch f.name n (n.toNat - 1) ∨
              ∃ word, cause = .invalidNumber word f.name)) := by
  constructor
  · intro q before after place
    exact place.insert skipped ending
  · intro f n x y gap before after joint a rest decoded
    exact ⟨joint.decode_of_parted skipped decoded, joint.decode_of_solid skipped decoded⟩

/-- An instruction between the tags of an archive and of its list, and one behind the blank between
the numbers of the list. -/
theorem decode_with_aside_in_list :
    let aside := ascii ['<', '?'] ++ (ascii ['p'] ++ ascii ['?', '>'])
    let front := archiveFront true "S"
    let open' := breakBytes true 1 ++ openingBytes .list (fieldAttributes "a" (.list [1, 2]))
    let one := ascii (numbersText [1]) ++ [0x20]
    let two := ascii (numbersText [2]) ++ listBack true []
    decode ⟨front ++ (aside ++ (open' ++ (one ++ two))), .ends⟩ =
        .ok (Archive.ofList "S" [("a", .list [1, 2])], []) ∧
      ∃ cause, decode ⟨front ++ open' ++ one ++ (aside ++ two), .ends⟩ =
        .error (.corrupt cause) := by
  intro aside front open' one two
  have skipped : Xml.IsAside aside := .instruction (by decide +kernel)
  have valid : isValidName "S" = true := by decide
  have decoded : decode ⟨front ++ open' ++ one ++ two, .ends⟩ =
      .ok (Archive.ofList "S" [("a", .list [1, 2])], []) :=
    @decode_listFront "S" "a" [1] [2] [] valid (by decide) (by decide) (by decide) (by decide)
      (by decide) true .ends
  have joint : Joint (opened "a" (.list [1, 2])) 2 (numbersText [1]) (numbersText [2]) [0x20]
      (front ++ open' ++ one) two :=
    @joint_written "S" "a" [1] [2] valid (by decide) (by decide) (by decide) true []
  have place : Between (.inArchive (Archive.empty "S")) front (open' ++ (one ++ two)) :=
    .of_arrives (arrives_archiveFront valid true _)
  obtain ⟨between, inside⟩ := decode_with_aside skipped .ends
  constructor
  · rw [between _ _ _ place]
    simpa only [List.append_assoc] using decoded
  · obtain ⟨cause, refused, -⟩ := (inside _ _ _ _ _ _ _ joint _ _ decoded).2
      (List.cons_ne_nil _ _) (not_parted_numbersText (by decide) (by decide))
    exact ⟨cause, refused⟩

/-- A comment behind the blank between two numbers makes a record with them unreadable. -/
theorem comment_joins_numbers :
    let front := listFront false "S" "a" [1, 2]
    let one := ascii (numbersText [1]) ++ [0x20]
    let two := ascii (numbersText [2]) ++ listBack false []
    decode ⟨front ++ one ++ two, .ends⟩ = .ok (Archive.ofList "S" [("a", .list [1, 2])], []) ∧
      ∃ cause, decode ⟨front ++ one ++
        ((ascii ['<', '!', '-', '-'] ++ (ascii ['c'] ++ ascii ['-', '-', '>'])) ++ two), .ends⟩ =
          .error (.corrupt cause) := by
  have skipped : Xml.IsAside (ascii ['<', '!', '-', '-'] ++ (ascii ['c'] ++ ascii ['-', '-', '>'])) :=
    .comment fun inside => absurd inside.length_le (by decide)
  have valid : isValidName "S" = true := by decide
  constructor
  · exact @decode_listFront "S" "a" [1] [2] [] valid (by decide) (by decide) (by decide)
      (by decide) (by decide) false .ends
  · exact @corrupt_of_written_list _ "S" "a" [1] [2] [] valid (by decide) (by decide) (by decide)
      (by decide) (by decide) skipped false .ends

end XmlRecord

end SparseTensor
