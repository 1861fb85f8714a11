/-
# Tags are read back

A tag ends at the first `>` outside quotes, and an attribute at its closing quote.  Neither stands
in a name or in a value that is escaped, so the reader finds the tags that were written and in
them the attributes (`next_opening`, `next_closing`, `attributeValue_tagBytes`).
-/
import SparseTensor.Proofs.PlainText
import SparseTensor.Record.Xml

namespace SparseTensor.Xml

/-- An ASCII text as bytes. -/
def ascii (s : List Char) : List UInt8 := s.map Char.toUInt8

@[simp] theorem ascii_nil : ascii [] = [] := rfl

@[simp] theorem ascii_cons (c : Char) (s : List Char) : ascii (c :: s) = c.toUInt8 :: ascii s := rfl

@[simp] theorem ascii_append (s t : List Char) : ascii (s ++ t) = ascii s ++ ascii t :=
  List.map_append

/-! ## Where tags end -/

/-- A machine that runs over some bytes and stops at the next one cuts there. -/
theorem cut_append {σ : Type} {step : σ → UInt8 → Option σ} {content : List UInt8}
    {state last : σ} {b : UInt8} (runs : content.foldlM step state = some last)
    (stops : step last b = none) (before rest : List UInt8) :
    cut step state before (content ++ b :: rest) = some (before.reverse ++ content, rest) := by
  induction content generalizing state before with
  | nil =>
      obtain rfl : state = last := Option.some.inj runs
      simp [cut, stops]
  | cons c content ih =>
      rw [List.foldlM_cons] at runs
      obtain ⟨next, first, runs⟩ := Option.bind_eq_some_iff.1 runs
      rw [List.cons_append, cut, first]
      simp only
      rw [ih runs]
      simp

/-- Content of a tag after which no quote is open. -/
def Quiet (content : List UInt8) : Prop :=
  content.foldlM tagStep none = some none

/-- Quiet contents may be put together. -/
theorem Quiet.append {front back : List UInt8} (h : Quiet front) (h' : Quiet back) :
    Quiet (front ++ back) := by
  rw [Quiet, List.foldlM_append, h]
  exact h'

/-- Bytes that neither end a tag nor open a quote are quiet. -/
theorem quiet_of_forall {content : List UInt8}
    (h : ∀ b ∈ content, b ≠ closer ∧ b ≠ '"'.toUInt8 ∧ b ≠ '\''.toUInt8) : Quiet content := by
  induction content with
  | nil => rfl
  | cons b content ih =>
      obtain ⟨noCloser, noDouble, noSingle⟩ := h b List.mem_cons_self
      have step : tagStep none b = some none := by
        rw [tagStep, if_neg noCloser, if_neg (by simp [noDouble, noSingle])]
      rw [Quiet, List.foldlM_cons, step]
      exact ih fun c hc => h c (List.mem_cons_of_mem b hc)

/-- A mark around a value, of either kind. -/
def IsMark (b : UInt8) : Prop :=
  b = '"'.toUInt8 ∨ b = '\''.toUInt8

/-- What stands between two marks is quiet with them. -/
theorem quiet_quoted {mark : UInt8} (quotes : IsMark mark) {value : List UInt8}
    (h : ∀ b ∈ value, b ≠ mark) : Quiet (mark :: (value ++ [mark])) := by
  have opens : tagStep none mark = some (some mark) := by
    rcases quotes with rfl | rfl <;> rfl
  have inside : value.foldlM tagStep (some mark) = some (some mark) := by
    induction value with
    | nil => rfl
    | cons b value ih =>
        have step : tagStep (some mark) b = some (some mark) := by
          rw [tagStep, if_neg (h b List.mem_cons_self)]
        rw [List.foldlM_cons, step]
        exact ih fun c hc => h c (List.mem_cons_of_mem b hc)
  rw [Quiet, List.foldlM_cons, opens]
  show (value ++ [mark]).foldlM tagStep (some mark) = _
  rw [List.foldlM_append, inside]
  show [mark].foldlM tagStep (some mark) = _
  rw [List.foldlM_cons, tagStep, if_pos rfl]
  rfl

/-- The next piece is a tag, if one stands behind any blanks. -/
theorem next_tag {blanks : List UInt8} (blank : ∀ b ∈ blanks, Text.isBlankByte b = true)
    {b : UInt8} {tag : List UInt8} (quiet : Quiet (b :: tag)) (noDeclaration : b ≠ '!'.toUInt8)
    (noInstruction : b ≠ '?'.toUInt8) (rest : List UInt8) :
    next (blanks ++ opener :: (b :: tag ++ closer :: rest)) =
      .piece (tagPiece (b :: tag)) rest := by
  have found := cut_append quiet (b := closer) (by decide) [] rest
  rw [next, List.dropWhile_append_of_pos blank, List.dropWhile_cons_of_neg (by decide)]
  simp only [if_pos]
  rw [List.cons_append] at found ⊢
  rw [markup, if_neg noDeclaration, if_neg noInstruction, found]
  rfl

/-! ## Text -/

/-- Nothing is trimmed behind a byte that is not blank. -/
theorem trimEnd_of_solid {bytes : List UInt8}
    (h : ∀ b, bytes.getLast? = some b → Text.isBlankByte b = false) : trimEnd bytes = bytes := by
  rw [trimEnd]
  cases last : bytes.reverse with
  | nil => rw [← List.reverse_reverse bytes, last]; rfl
  | cons b rest =>
      have solid := h b (by rw [List.getLast?_eq_head?_reverse, last]; rfl)
      rw [List.dropWhile_cons_of_neg (by simp [solid]), ← last, List.reverse_reverse]

/-- Text goes up to the next markup, whatever this is. -/
theorem next_text_append {b : UInt8} {run : List UInt8} (first : Text.isBlankByte b = false)
    (text : b ≠ opener) (inside : ∀ c ∈ run, isTextByte c = true) (more : List UInt8) :
    next (b :: run ++ opener :: more) = .piece (.text (trimEnd (b :: run))) (opener :: more) := by
  rw [List.cons_append, next, List.dropWhile_cons_of_neg (by simp [first])]
  simp only [if_neg text]
  rw [List.takeWhile_append_of_pos inside, List.dropWhile_append_of_pos inside,
    List.takeWhile_cons_of_neg (by decide), List.dropWhile_cons_of_neg (by decide),
    List.append_nil]

/-- The next piece is text, if it stands in front of a tag. -/
theorem next_text {b : UInt8} {bytes : List UInt8} (first : Text.isBlankByte b = false)
    (last : ∀ c, (b :: bytes).getLast? = some c → Text.isBlankByte c = false)
    (text : ∀ c ∈ b :: bytes, c ≠ opener) (rest : List UInt8) :
    next (b :: bytes ++ opener :: rest) = .piece (.text (b :: bytes)) (opener :: rest) := by
  have inside : ∀ c ∈ bytes, isTextByte c = true := fun c hc =>
    decide_eq_true (text c (List.mem_cons_of_mem b hc))
  rw [next_text_append first (text b List.mem_cons_self) inside, trimEnd_of_solid last]

/-! ## Attributes -/

/-- ASCII characters satisfy as bytes what each of them can be checked for. -/
theorem forall_mem_ascii {P : UInt8 → Prop} {Q : Char → Prop} {s : List Char}
    (h : ∀ c ∈ s, c.toNat < 128 ∧ Q c) (check : ∀ n < 128, Q (Char.ofNat n) →
      P (Char.ofNat n).toUInt8) : ∀ b ∈ ascii s, P b := by
  intro b hb
  obtain ⟨c, hc, rfl⟩ := List.mem_map.1 hb
  obtain ⟨ascii, q⟩ := h c hc
  exact Text.forall_ascii (P := fun c => Q c → P c.toUInt8) check ascii q

/-- No double quote is written as it is. -/
theorem ne_quote_of_mem_escape {s : List Char} {c : Char} (h : c ∈ escape s) : c ≠ '"' := by
  obtain ⟨d, -, hc⟩ := List.mem_flatMap.1 h
  unfold escapedChar at hc
  split at hc
  · rename_i name found
    obtain ⟨before, after, split, -⟩ := List.lookup_eq_some_iff.1 found
    have checked : entities.all (fun entry =>
        ('&' :: entry.2.toList ++ [';']).all fun c => c ≠ '"') = true := by decide
    have entity := List.all_eq_true.1 checked (d, name) (by simp [split])
    simpa using List.all_eq_true.1 entity c hc
  · rename_i absent
    obtain rfl := List.mem_singleton.1 hc
    rintro rfl
    simp [entities] at absent

/-- The bytes of a value between its quotes. -/
def valueBytes (value : List Char) : List UInt8 :=
  Text.bytes (String.ofList (escape value))

/-- A value ends at the next double quote. -/
theorem ne_quote_of_mem_valueBytes {value : List Char} {b : UInt8} (h : b ∈ valueBytes value) :
    b ≠ '"'.toUInt8 := by
  rintro rfl
  obtain ⟨c, hc, ascii, same⟩ := Text.toUInt8_mem_of_mem_bytes h (by decide)
  exact ne_quote_of_mem_escape hc (Text.forall_ascii
    (P := fun c => c.toUInt8 = '"'.toUInt8 → c = '"') (by decide) ascii same)

/-- A written value is read as what it stands for. -/
theorem text?_valueBytes (value : List Char) : text? (valueBytes value) = some value := by
  rw [text?, valueBytes, Text.ofBytes?_bytes, Option.bind_some, String.toList_ofList,
    unescape_escape]

/-- Characters that are not written as references are written as they are. -/
theorem escape_eq {s : List Char} (h : ∀ c ∈ s, escapedChar c = [c]) : escape s = s := by
  induction s with
  | nil => rfl
  | cons c s ih =>
      rw [escape] at ih ⊢
      rw [List.flatMap_cons, h c List.mem_cons_self, ih fun d hd => h d (List.mem_cons_of_mem c hd)]
      rfl

/-- The bytes of an attribute. -/
def attributeBytes (a : String × List Char) : List UInt8 :=
  0x20 :: (Text.bytes a.1 ++ '='.toUInt8 :: '"'.toUInt8 ::
    (valueBytes a.2 ++ ['"'.toUInt8]))

/-- A valid name has bytes, all of them plain. -/
theorem bytes_of_isValidName {name : String} (h : isValidName name = true) :
    Text.bytes name = ascii name.toList ∧ Text.bytes name ≠ [] ∧
      ∀ b ∈ Text.bytes name, Text.isPlainByte b = true := by
  have plain := Text.plain_of_isValidName h
  have same : Text.bytes name = ascii name.toList := by
    rw [ascii, ← plain.bytes, String.ofList_toList]
  refine ⟨same, ?_, fun b hb => plain.isPlainByte (by rwa [same] at hb)⟩
  rw [same]
  simpa [ascii] using plain.nonempty

/-- A byte of a name. -/
theorem isNameByte_of_isPlainByte {b : UInt8} (h : Text.isPlainByte b = true) :
    isNameByte b = true := by
  simp [isNameByte, isSolid, Text.isBlankByte_of_isPlainByte h,
    Text.ne_of_isPlainByte h (d := '='.toUInt8) (by decide)]

/-- A name goes up to an equals sign or to the blanks in front of it, and the value is what stands
between two marks. -/
theorem nextAttribute_append {gap name before after value : List UInt8} {mark : UInt8}
    (gapBlank : ∀ b ∈ gap, Text.isBlankByte b = true) (ne : name ≠ [])
    (inside : ∀ b ∈ name, isNameByte b = true)
    (beforeBlank : ∀ b ∈ before, Text.isBlankByte b = true)
    (afterBlank : ∀ b ∈ after, Text.isBlankByte b = true) (quotes : IsMark mark)
    (closed : ∀ b ∈ value, b ≠ mark) (rest : List UInt8) :
    nextAttribute (gap ++ (name ++ (before ++ '='.toUInt8 ::
        (after ++ mark :: (value ++ mark :: rest))))) = .pair name value rest := by
  obtain ⟨b, others, rfl⟩ := List.exists_cons_of_ne_nil ne
  have solid : Text.isBlankByte b = false := by
    simpa [isSolid] using (Bool.and_eq_true_iff.1 (inside b List.mem_cons_self)).1
  have namesBehind : ∀ c ∈ others, isNameByte c = true := fun c hc =>
    inside c (List.mem_cons_of_mem b hc)
  have ends : ∀ more : List UInt8, ∃ c left, before ++ '='.toUInt8 :: more = c :: left ∧
      isNameByte c = false := by
    intro more
    cases before with
    | nil => exact ⟨'='.toUInt8, more, rfl, by decide⟩
    | cons c before =>
        refine ⟨c, before ++ '='.toUInt8 :: more, rfl, ?_⟩
        simp [isNameByte, isSolid, beforeBlank c List.mem_cons_self]
  obtain ⟨c, left, same, stops⟩ := ends (after ++ mark :: (value ++ mark :: rest))
  have noMark : ∀ c ∈ value, decide (c ≠ mark) = true := fun c hc => decide_eq_true (closed c hc)
  have markSolid : Text.isBlankByte mark = false := by
    rcases quotes with rfl | rfl <;> decide
  rw [nextAttribute, List.dropWhile_append_of_pos gapBlank, List.cons_append,
    List.dropWhile_cons_of_neg (by simp [solid])]
  simp only
  rw [List.takeWhile_append_of_pos namesBehind, List.dropWhile_append_of_pos namesBehind, same,
    List.takeWhile_cons_of_neg (by simp [stops]), List.dropWhile_cons_of_neg (by simp [stops]),
    List.append_nil, ← same, assignment, List.dropWhile_append_of_pos beforeBlank,
    List.dropWhile_cons_of_neg (by decide)]
  simp only
  rw [if_neg (by decide), List.dropWhile_append_of_pos afterBlank,
    List.dropWhile_cons_of_neg (by simp [markSolid])]
  simp only
  refine (if_pos quotes).trans ?_
  rw [quotedValue, List.dropWhile_append_of_pos noMark, List.takeWhile_append_of_pos noMark]
  simp

/-- The next attribute is the one that was written. -/
theorem nextAttribute_attributeBytes {a : String × List Char}
    (h : isValidName a.1 = true) (rest : List UInt8) :
    nextAttribute (attributeBytes a ++ rest) =
      .pair (Text.bytes a.1) (valueBytes a.2) rest := by
  obtain ⟨-, nonempty, plain⟩ := bytes_of_isValidName h
  have next := @nextAttribute_append [0x20] _ [] [] _ _
    (List.forall_mem_singleton.2 (by decide)) nonempty
    (fun b hb => isNameByte_of_isPlainByte (plain b hb)) (List.forall_mem_nil _)
    (List.forall_mem_nil _) (.inl rfl) (fun b (hb : b ∈ valueBytes a.2) =>
      ne_quote_of_mem_valueBytes hb) rest
  simpa [attributeBytes] using next

/-- The wanted attribute is the first, or it is looked for behind the first. -/
theorem rawValue_of_pair {name : String} {bytes found value rest : List UInt8}
    (first : nextAttribute bytes = .pair found value rest) :
    rawValue name bytes =
      if found = Text.bytes name then .ok value else rawValue name rest := by
  rw [rawValue.eq_def]
  split
  · rename_i other
    cases first.symm.trans other
  · rename_i other
    cases first.symm.trans other
  · rename_i other
    cases first.symm.trans other
    rfl

/-- A written attribute is found under its name. -/
theorem rawValue_flatMap {attributes : List (String × List Char)}
    (h : ∀ a ∈ attributes, isValidName a.1 = true) {name : String} {value : List Char}
    (found : attributes.lookup name = some value) :
    rawValue name (attributes.flatMap attributeBytes) = .ok (valueBytes value) := by
  induction attributes with
  | nil => cases found
  | cons a attributes ih =>
      have first := nextAttribute_attributeBytes (h a List.mem_cons_self)
        (attributes.flatMap attributeBytes)
      rw [List.flatMap_cons, rawValue_of_pair first]
      obtain ⟨other, text⟩ := a
      by_cases same : name = other
      · subst same
        rw [List.lookup_cons_self] at found
        rw [if_pos rfl, Option.some.inj found]
      · have different : Text.bytes other ≠ Text.bytes name := by
          intro equal
          have back := congrArg Text.ofBytes? equal
          rw [Text.ofBytes?_bytes, Text.ofBytes?_bytes] at back
          exact same (Option.some.inj back).symm
        rw [List.lookup_cons, beq_eq_false_iff_ne.2 same] at found
        rw [if_neg different]
        exact ih (fun b hb => h b (List.mem_cons_of_mem _ hb)) found

/-! ## Tags -/

/-- The bytes of a tag that opens an element, between its brackets. -/
def tagBytes (name : String) (attributes : List (String × List Char)) : List UInt8 :=
  Text.bytes name ++ attributes.flatMap attributeBytes

variable {name : String} {attributes : List (String × List Char)}

/-- A tag is cut into its name and its attributes at the first blank. -/
theorem tagName_append (valid : isValidName name = true) {behind : List UInt8}
    (blank : ∀ b, behind.head? = some b → isSolid b = false) :
    tagName (Text.bytes name ++ behind) = Text.bytes name ∧
      tagAttributes (Text.bytes name ++ behind) = behind := by
  have solid : ∀ b ∈ Text.bytes name, isSolid b = true := fun b hb => by
    simp [isSolid, Text.isBlankByte_of_isPlainByte ((bytes_of_isValidName valid).2.2 b hb)]
  rw [tagName, tagAttributes, List.takeWhile_append_of_pos solid,
    List.dropWhile_append_of_pos solid]
  cases behind with
  | nil => exact ⟨List.append_nil _, rfl⟩
  | cons b behind =>
      have stops := blank b rfl
      rw [List.takeWhile_cons_of_neg (by simp [stops]),
        List.dropWhile_cons_of_neg (by simp [stops]), List.append_nil]
      exact ⟨rfl, rfl⟩

/-- Attributes start with a blank, which ends the name in front of them. -/
theorem isSolid_of_head? {b : UInt8}
    (first : (attributes.flatMap attributeBytes).head? = some b) : isSolid b = false := by
  cases attributes with
  | nil => cases first
  | cons a attributes =>
      obtain rfl := Option.some.inj first
      decide

/-- The name of a written tag. -/
theorem tagName_tagBytes (valid : isValidName name = true) :
    tagName (tagBytes name attributes) = Text.bytes name :=
  (tagName_append valid fun _ => isSolid_of_head?).1

/-- The attributes of a written tag. -/
theorem tagAttributes_tagBytes (valid : isValidName name = true) :
    tagAttributes (tagBytes name attributes) = attributes.flatMap attributeBytes :=
  (tagName_append valid fun _ => isSolid_of_head?).2

/-- A written attribute of a tag is read back. -/
theorem attributeValue_tagBytes (valid : isValidName name = true)
    (h : ∀ a ∈ attributes, isValidName a.1 = true) {wanted : String} {value : List Char}
    (found : attributes.lookup wanted = some value) :
    attributeValue (tagBytes name attributes) wanted = .ok value := by
  rw [attributeValue, tagAttributes_tagBytes valid, rawValue_flatMap h found]
  simp only [bind, Except.bind, text?_valueBytes]
  rfl

/-- Valid names are quiet. -/
theorem quiet_name (valid : isValidName name = true) : Quiet (Text.bytes name) := by
  refine quiet_of_forall fun b hb => ?_
  have plain := (bytes_of_isValidName valid).2.2 b hb
  exact ⟨Text.ne_of_isPlainByte plain (by decide), Text.ne_of_isPlainByte plain (by decide),
    Text.ne_of_isPlainByte plain (by decide)⟩

/-- Written tags are quiet. -/
theorem quiet_tagBytes (valid : isValidName name = true)
    (h : ∀ a ∈ attributes, isValidName a.1 = true) : Quiet (tagBytes name attributes) := by
  refine (quiet_name valid).append ?_
  induction attributes with
  | nil => rfl
  | cons a attributes ih =>
      have quoted := quiet_quoted (.inl rfl) fun b (hb : b ∈ valueBytes a.2) =>
        ne_quote_of_mem_valueBytes hb
      have others := ih fun b hb => h b (List.mem_cons_of_mem a hb)
      have blank : Quiet [0x20] := rfl
      have assignment : Quiet ['='.toUInt8] := rfl
      have named := quiet_name (h a List.mem_cons_self)
      have whole := (((blank.append named).append assignment).append quoted).append others
      rw [List.flatMap_cons, attributeBytes]
      simpa using whole

/-! ## Tags as pieces -/

/-- A tag with attributes opens an element. -/
theorem tagPiece_tagBytes (valid : isValidName name = true) (ne : attributes ≠ []) :
    tagPiece (tagBytes name attributes) = .opening (tagBytes name attributes) := by
  obtain ⟨-, nonempty, plain⟩ := bytes_of_isValidName valid
  obtain ⟨b, others, same⟩ := List.exists_cons_of_ne_nil nonempty
  have first : b ≠ '/'.toUInt8 :=
    Text.ne_of_isPlainByte (plain b (same ▸ List.mem_cons_self)) (by decide)
  have last : (tagBytes name attributes).getLast? = some '"'.toUInt8 := by
    obtain ⟨front, a, rfl⟩ := (List.eq_nil_or_concat attributes).resolve_left ne
    rw [tagBytes, List.concat_eq_append, List.flatMap_append, List.flatMap_singleton,
      attributeBytes]
    simp [List.getLast?_append, List.getLast?_cons]
  rw [tagPiece, if_neg, if_neg]
  · rw [last]
    decide
  · rw [tagBytes, same]
    simpa using first

/-- The next piece is a written opening tag. -/
theorem next_opening {blanks : List UInt8} (blank : ∀ b ∈ blanks, Text.isBlankByte b = true)
    (valid : isValidName name = true) (h : ∀ a ∈ attributes, isValidName a.1 = true)
    (ne : attributes ≠ []) (rest : List UInt8) :
    next (blanks ++ opener :: (tagBytes name attributes ++ closer :: rest)) =
      .piece (.opening (tagBytes name attributes)) rest := by
  obtain ⟨-, nonempty, plain⟩ := bytes_of_isValidName valid
  obtain ⟨b, others, same⟩ := List.exists_cons_of_ne_nil nonempty
  have first := plain b (same ▸ List.mem_cons_self)
  have quiet := quiet_tagBytes valid h
  rw [← tagPiece_tagBytes valid ne]
  rw [tagBytes, same] at quiet ⊢
  exact next_tag blank quiet (Text.ne_of_isPlainByte first (by decide))
    (Text.ne_of_isPlainByte first (by decide)) rest

/-- The next piece is a written closing tag. -/
theorem next_closing {blanks : List UInt8} (blank : ∀ b ∈ blanks, Text.isBlankByte b = true)
    (valid : isValidName name = true) (rest : List UInt8) :
    next (blanks ++ opener :: ('/'.toUInt8 :: Text.bytes name ++ closer :: rest)) =
      .piece (.closing (Text.bytes name)) rest := by
  have plain := (bytes_of_isValidName valid).2.2
  have slash : Quiet ['/'.toUInt8] := rfl
  have quiet : Quiet ('/'.toUInt8 :: Text.bytes name) := slash.append (quiet_name valid)
  have trimmed : trimEnd (Text.bytes name) = Text.bytes name :=
    trimEnd_of_solid fun b hb =>
      Text.isBlankByte_of_isPlainByte (plain b (List.mem_of_getLast? hb))
  rw [next_tag blank quiet (by decide) (by decide), tagPiece, List.head?_cons, if_pos rfl,
    List.tail_cons, trimmed]

end SparseTensor.Xml
