/-
# Texts that are joined

The text of an element reaches a reader in runs, each without the blanks around it, and is put
together from them with nothing in between.  Where two runs meet there are two possibilities.  If
there is white space on either side of the joint, the words of the whole are those of the two parts
(`words_append`).  If not, the last word of one part and the first of the other become a single word
(`words_append_of_solid`), so that there is one word less than before.

References do not reach across a joint: each part is a text of its own (`text?_append`).
-/
import SparseTensor.Proofs.Continuations
import SparseTensor.Proofs.CutPortable

namespace SparseTensor

/-! ## Words -/

namespace Text

variable {s t : List Char} {c d : Char}

/-- White space on a side of the joint between two texts, or nothing. -/
def Parted (s t : List Char) : Prop :=
  s.getLast?.all isBlank = true ∨ t.head?.all isBlank = true

instance (s t : List Char) : Decidable (Parted s t) :=
  inferInstanceAs (Decidable (_ ∨ _))

/-- A blank stands between the words on both sides of it.  What words there are in a text follows
from this. -/
theorem words_append_blank (blank : isBlank c = true) (s t : List Char) :
    words (s ++ c :: t) = words s ++ words t := by
  rw [words, List.splitOnP_append_cons s t blank, List.filter_append]
  rfl

/-- Blanks in front of a text are not part of its words. -/
theorem words_blanks_append (blank : ∀ c ∈ s, isBlank c = true) (t : List Char) :
    words (s ++ t) = words t := by
  induction s with
  | nil => rfl
  | cons c s ih =>
    have first : words ([] ++ c :: (s ++ t)) = [] ++ words (s ++ t) :=
      words_append_blank (blank c List.mem_cons_self) [] (s ++ t)
    apply first.trans
    apply ih
    exact fun d hd => blank d (List.mem_cons_of_mem c hd)

/-- No word reaches across white space. -/
theorem words_append (h : Parted s t) : words (s ++ t) = words s ++ words t := by
  rcases h with last | first
  · cases found : s.getLast? with
    | none =>
      obtain rfl := List.getLast?_eq_none_iff.1 found
      rfl
    | some c =>
      obtain ⟨front, rfl⟩ := List.getLast?_eq_some_iff.1 found
      have blank : isBlank c = true := by simpa [found] using last
      rw [List.append_assoc, List.singleton_append, words_append_blank blank,
        words_append_blank blank]
      show _ = (words front ++ []) ++ words t
      rw [List.append_nil]
  · cases found : t.head? with
    | none =>
      obtain rfl := List.head?_eq_none_iff.1 found
      rw [List.append_nil]
      exact (List.append_nil _).symm
    | some c =>
      obtain ⟨back, rfl⟩ := List.head?_eq_some_iff.1 found
      have blank : isBlank c = true := by simpa [found] using first
      have back : words (c :: back) = words back := words_append_blank blank [] back
      rw [words_append_blank blank, back]

/-- Blanks stand between the words on both sides of them. -/
theorem words_append_gap {gap : List Char} (ne : gap ≠ [])
    (white : ∀ c ∈ gap, isBlank c = true) (s t : List Char) :
    words (s ++ (gap ++ t)) = words s ++ words t := by
  obtain ⟨c, gap, rfl⟩ := List.exists_cons_of_ne_nil ne
  rw [List.cons_append, words_append_blank (white c List.mem_cons_self),
    words_blanks_append fun d hd => white d (List.mem_cons_of_mem c hd)]

/-- Whether there is white space at a joint is seen from what is next to it. -/
theorem parted_append_iff (left : s ≠ []) (right : t ≠ []) (front back : List Char) :
    Parted (front ++ s) (t ++ back) ↔ Parted s t := by
  have last : (front ++ s).getLast? = s.getLast? := by
    rw [List.getLast?_append, List.getLast?_eq_some_getLast left]
    rfl
  have first : (t ++ back).head? = t.head? := by
    obtain ⟨c, t, rfl⟩ := List.exists_cons_of_ne_nil right
    rfl
  rw [Parted, Parted, last, first]

/-- A text up to its first blank. -/
theorem exists_first_run (s : List Char) : ∃ run back, s = run ++ back ∧
    (∀ c ∈ run, isBlank c = false) ∧ back.head?.all isBlank = true := by
  refine ⟨s.takeWhile (!isBlank ·), s.dropWhile (!isBlank ·),
    List.takeWhile_append_dropWhile.symm, ?_, ?_⟩
  · intro c hc
    simpa using List.all_eq_true.1 List.all_takeWhile c hc
  · have stops := List.head?_dropWhile_not (!isBlank ·) s
    cases found : (s.dropWhile (!isBlank ·)).head? with
    | none => rfl
    | some c =>
      rw [found] at stops
      simpa using stops

/-- A text from behind its last blank. -/
theorem exists_last_run (s : List Char) : ∃ front run, s = front ++ run ∧
    (∀ c ∈ run, isBlank c = false) ∧ front.getLast?.all isBlank = true := by
  obtain ⟨run, back, split, solid, stops⟩ := exists_first_run s.reverse
  refine ⟨back.reverse, run.reverse, ?_, ?_, ?_⟩
  · rw [← List.reverse_append, ← split, List.reverse_reverse]
  · intro c hc
    exact solid c (List.mem_reverse.1 hc)
  · rwa [List.getLast?_reverse]

/-- Where there is no white space at a joint, two words become one. -/
theorem words_append_of_solid (h : ¬ Parted s t) : ∃ front v w back,
    words s = front ++ [v] ∧ words t = w :: back ∧ words (s ++ t) = front ++ (v ++ w) :: back := by
  obtain ⟨front, v, rfl, solid, parted⟩ := exists_last_run s
  obtain ⟨w, back, rfl, solid', parted'⟩ := exists_first_run t
  have left : v ≠ [] := by
    rintro rfl
    rw [List.append_nil] at h
    exact h (.inl parted)
  have right : w ≠ [] := by
    rintro rfl
    exact h (.inr parted')
  have whole : ∀ c ∈ v ++ w, isBlank c = false := fun c hc =>
    (List.mem_append.1 hc).elim (solid c) (solid' c)
  refine ⟨words front, v, w, words back, ?_, ?_, ?_⟩
  · rw [words_append (.inl parted), words_of_solid solid, if_neg left]
  · rw [words_append (.inr parted'), words_of_solid solid', if_neg right]
    rfl
  · have split : front ++ v ++ (w ++ back) = front ++ ((v ++ w) ++ back) := by
      simp only [List.append_assoc]
    rw [split, words_append (.inl parted), words_append (.inr parted'), words_of_solid whole,
      if_neg (by simp [left])]
    rfl

end Text

/-! ## References -/

namespace Xml

variable {u v w rest : List UInt8} {x y : List Char}

/-- The characters in front are not looked at again. -/
theorem unescapeOnto_eq_map (before s : List Char) :
    unescapeOnto before s = (unescape s).map (before.reverse ++ ·) := by
  suffices h : ∀ front back, unescapeOnto (front ++ back) s =
      (unescapeOnto front s).map (back.reverse ++ ·) from h [] before
  induction s using (measure List.length).wf.induction with
  | h s ih =>
    intro front back
    cases s with
    | nil => simp [unescapeOnto]
    | cons c s =>
      rw [unescapeOnto.eq_def, unescapeOnto.eq_def front]
      simp only
      split
      · exact ih s (Nat.lt_succ_self _) (c :: front) back
      have inside := (List.dropWhile_suffix (l := s) isInsideReference).length_le
      split
      · rename_i behind left
        rw [left, List.length_cons] at inside
        split
        · exact ih behind (Nat.lt_succ_of_lt inside) (_ :: front) back
        · rfl
      · rfl

/-- Two texts are read one behind the other, by induction on what is left of the first. -/
theorem unescape_append {s t : List Char} (first : unescape s = some x)
    (second : unescape t = some y) : unescape (s ++ t) = some (x ++ y) := by
  suffices h : ∀ before, unescapeOnto before s = some x →
      unescapeOnto before (s ++ t) = some (x ++ y) from h [] first
  clear first
  induction s using (measure List.length).wf.induction with
  | h s ih =>
    intro before first
    cases s with
    | nil =>
      rw [unescapeOnto] at first
      cases first
      rw [List.nil_append, unescapeOnto_eq_map, second]
      rfl
    | cons c s =>
      rw [unescapeOnto.eq_def] at first
      rw [List.cons_append, unescapeOnto.eq_def]
      simp only at first ⊢
      split at first
      · rename_i plain
        rw [if_pos plain]
        exact ih s (Nat.lt_succ_self _) _ first
      rename_i reference
      rw [if_neg reference]
      have inside := (List.dropWhile_suffix (l := s) isInsideReference).length_le
      split at first
      · rename_i behind left
        rw [left, List.length_cons] at inside
        -- the reference ends in the first text already
        have ends := dropWhile_append_of_eq_cons left t
        rw [takeWhile_append_of_dropWhile_eq_cons left]
        split
        · rename_i other
          obtain rfl := (List.cons.inj (ends.symm.trans other)).2
          split at first
          · exact ih behind (Nat.lt_succ_of_lt inside) _ first
          · cases first
        · rename_i none
          exact absurd ends (none _)
      · cases first

/-- A text that is not empty stands for some characters. -/
theorem unescape_ne_nil {s : List Char} (ne : s ≠ []) (h : unescape s = some x) : x ≠ [] := by
  have grows : ∀ c t, unescapeOnto [c] t = some x → x ≠ [] := by
    intro c t found
    rw [unescapeOnto_eq_map] at found
    obtain ⟨z, -, rfl⟩ := Option.map_eq_some_iff.1 found
    exact List.cons_ne_nil c z
  obtain ⟨c, s, rfl⟩ := List.exists_cons_of_ne_nil ne
  rw [unescape, unescapeOnto.eq_def] at h
  simp only at h
  split at h
  · exact grows _ _ h
  split at h
  · split at h
    · exact grows _ _ h
    · cases h
  · cases h

/-- Two texts in bytes are read one behind the other. -/
theorem text?_append (first : text? u = some x) (second : text? v = some y) :
    text? (u ++ v) = some (x ++ y) := by
  obtain ⟨s, read, first⟩ := Option.bind_eq_some_iff.1 first
  obtain ⟨t, read', second⟩ := Option.bind_eq_some_iff.1 second
  have joined := Text.bytes_ofList_append s.toList t.toList
  rw [String.ofList_toList, String.ofList_toList, Text.bytes_of_ofBytes? read,
    Text.bytes_of_ofBytes? read'] at joined
  rw [text?, ← joined, Text.ofBytes?_bytes, Option.bind_some, String.toList_ofList]
  exact unescape_append first second

@[simp] theorem text?_nil : text? [] = some [] := by decide +kernel

/-- Bytes that are a text stand for some characters. -/
theorem text?_ne_nil (ne : u ≠ []) (h : text? u = some x) : x ≠ [] := by
  obtain ⟨s, read, h⟩ := Option.bind_eq_some_iff.1 h
  refine unescape_ne_nil (fun none => ?_) h
  have bytes := Text.bytes_of_ofBytes? read
  rw [String.toList_eq_nil_iff.1 none] at bytes
  exact ne bytes.symm

/-- Only no bytes at all stand for the empty text. -/
theorem eq_nil_iff_of_text? (h : text? u = some x) : x = [] ↔ u = [] := by
  constructor
  · intro none
    exact Decidable.byContradiction fun some => text?_ne_nil some h none
  · rintro rfl
    exact Option.some.inj (h.symm.trans text?_nil)

/-- Blanks stand for white space. -/
theorem exists_text?_of_blanks (blank : ∀ b ∈ w, Text.isBlankByte b = true) :
    ∃ gap, text? w = some gap ∧ ∀ c ∈ gap, Text.isBlank c = true := by
  induction w with
  | nil => exact ⟨[], text?_nil, nofun⟩
  | cons b w ih =>
    obtain ⟨gap, read, white⟩ := ih fun d hd => blank d (List.mem_cons_of_mem b hd)
    have one : ∃ c, text? [b] = some [c] ∧ Text.isBlank c = true := by
      have kinds := blank b List.mem_cons_self
      simp only [Text.isBlankByte, Bool.or_eq_true, beq_iff_eq] at kinds
      rcases kinds with ((rfl | rfl) | rfl) | rfl
      · exact ⟨' ', by decide +kernel, by decide⟩
      · exact ⟨'\t', by decide +kernel, by decide⟩
      · exact ⟨'\n', by decide +kernel, by decide⟩
      · exact ⟨'\r', by decide +kernel, by decide⟩
    obtain ⟨c, first, kind⟩ := one
    refine ⟨c :: gap, text?_append first read, ?_⟩
    intro d hd
    rcases List.mem_cons.1 hd with rfl | hd
    · exact kind
    · exact white d hd

/-! ## Runs of text -/

/-- Bytes without markup and without blanks at their ends, and the characters that they stand
for. -/
structure Run (u : List UInt8) (x : List Char) : Prop where
  nonempty : u ≠ []
  first : ∀ b, u.head? = some b → Text.isBlankByte b = false
  last : ∀ b, u.getLast? = some b → Text.isBlankByte b = false
  text : ∀ b ∈ u, b ≠ opener
  meant : text? u = some x

/-- Blanks in front of a piece are not part of it. -/
theorem next_blanks_append (blank : ∀ b ∈ w, Text.isBlankByte b = true) (bytes : List UInt8) :
    next (w ++ bytes) = next bytes := by
  rw [next, List.dropWhile_append_of_pos blank]
  rfl

/-- Blanks are no markup. -/
theorem ne_opener_of_isBlankByte {b : UInt8} (blank : Text.isBlankByte b = true) : b ≠ opener := by
  rintro rfl
  exact absurd blank (by decide)

/-- Blanks behind a run are trimmed. -/
theorem Run.trimEnd_append (h : Run u x) (blank : ∀ b ∈ w, Text.isBlankByte b = true) :
    trimEnd (u ++ w) = u := by
  have trimmed := trimEnd_of_solid h.last
  rw [trimEnd] at trimmed ⊢
  rw [List.reverse_append, List.dropWhile_append_of_pos fun b hb => blank b (List.mem_reverse.1 hb)]
  exact trimmed

/-- A run in front of markup is a piece, without the blanks behind it. -/
theorem Run.next (h : Run u x) (blank : ∀ b ∈ w, Text.isBlankByte b = true)
    (rest : List UInt8) : next (u ++ (w ++ opener :: rest)) = .piece (.text u) (opener :: rest) := by
  have trimmed := h.trimEnd_append blank
  obtain ⟨b, u, rfl⟩ := List.exists_cons_of_ne_nil h.nonempty
  have inside : ∀ c ∈ u ++ w, isTextByte c = true := by
    intro c hc
    apply decide_eq_true
    rcases List.mem_append.1 hc with hc | hc
    · exact h.text c (List.mem_cons_of_mem b hc)
    · exact ne_opener_of_isBlankByte (blank c hc)
  have piece := next_text_append (h.first b rfl) (h.text b List.mem_cons_self) inside rest
  rw [← List.cons_append, trimmed, List.append_assoc] at piece
  exact piece

/-- Runs with blanks between them are a run. -/
theorem Run.append (h : Run u x) (h' : Run v y) (blank : ∀ b ∈ w, Text.isBlankByte b = true) :
    ∃ gap, (gap = [] ↔ w = []) ∧ (∀ c ∈ gap, Text.isBlank c = true) ∧
      Run (u ++ (w ++ v)) (x ++ (gap ++ y)) := by
  obtain ⟨gap, read, white⟩ := exists_text?_of_blanks blank
  refine ⟨gap, eq_nil_iff_of_text? read, white, ?_, ?_, ?_, ?_, ?_⟩
  · simp [h.nonempty]
  · intro b found
    apply h.first
    obtain ⟨c, u, rfl⟩ := List.exists_cons_of_ne_nil h.nonempty
    exact found
  · intro b found
    apply h'.last
    rw [← List.append_assoc, List.getLast?_append,
      List.getLast?_eq_some_getLast h'.nonempty] at found
    rw [List.getLast?_eq_some_getLast h'.nonempty]
    exact found
  · intro b hb
    rcases List.mem_append.1 hb with hb | hb
    · exact h.text b hb
    rcases List.mem_append.1 hb with hb | hb
    · exact ne_opener_of_isBlankByte (blank b hb)
    · exact h'.text b hb
  · exact text?_append h.meant (text?_append read h'.meant)

end Xml

end SparseTensor
