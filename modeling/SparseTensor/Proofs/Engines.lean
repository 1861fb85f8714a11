/-
# Engines behind generators

A generator draws from an engine.  An engine may produce its words in advance, a buffer at a time,
and so its state is more than a seed and a position; but it can be asked for its position, and moved
to any.  `LawfulEngine` is what is taken for granted of it: the words come from the blocks of its
key, one after another, the position counts them and starts again behind the last block, and wider
draws are made of words.

What is drawn is drawn by a program that asks an engine for words and goes on with them
(`Program`).  Engines that agree on their keys and positions cannot be told apart by any program
(`Program.run_eq_of_agrees`), whatever else they hold.  A generator is such an engine itself, and
each of its draws is a program (`Draw.exists_program`).
-/
import SparseTensor.Random.Sample

namespace SparseTensor

/-! ## Engines -/

/-- The word at a position of the stream of a key. -/
def Key.word (key : Key) (position : Nat) : UInt32 :=
  (key.block (position / 16).toUInt64).toList.getD (position % 16) 0

/-- What a generator asks of an engine. -/
class Engine (R : Type) where
  /-- The engine at the start of the stream of a seed. -/
  ofSeed : UInt64 → R
  key : R → Key
  /-- The number of words in front of the next one. -/
  position : R → Nat
  /-- The same stream from a position on. -/
  moveTo : Nat → R → R
  word : R → UInt32 × R
  doubleWord : R → UInt64 × R
  bytes : Nat → R → List UInt8 × R

namespace Engine

variable {R S : Type} [Engine R] [Engine S]

/-- Engines agree if they are at the same place of the same stream. -/
structure Agrees (r : R) (s : S) : Prop where
  key : key r = key s
  position : position r = position s

/-- The next `n` words, and the engine behind them. -/
def words : Nat → R → List UInt32 × R
  | 0, r => ([], r)
  | n + 1, r => ((word r).1 :: (words n (word r).2).1, (words n (word r).2).2)

/-- The first words, and those behind them. -/
theorem words_add (m n : Nat) (r : R) : words (m + n) r =
    ((words m r).1 ++ (words n (words m r).2).1, (words n (words m r).2).2) := by
  induction m generalizing r with
  | zero => simp [words]
  | succ m ih =>
      rw [Nat.succ_add, words, ih]
      rfl

end Engine

/-- What is known of an engine.  After the last word of its stream it returns to the first. -/
class LawfulEngine (R : Type) [Engine R] : Prop where
  key_ofSeed (seed : UInt64) : Engine.key (Engine.ofSeed seed : R) = Key.ofSeed seed
  position_ofSeed (seed : UInt64) : Engine.position (Engine.ofSeed seed : R) = 0
  key_moveTo (p : Nat) (r : R) : Engine.key (Engine.moveTo p r) = Engine.key r
  position_moveTo {p : Nat} (inside : p < streamLength) (r : R) :
    Engine.position (Engine.moveTo p r) = p
  fst_word (r : R) : (Engine.word r).1 = (Engine.key r).word (Engine.position r)
  key_word (r : R) : Engine.key (Engine.word r).2 = Engine.key r
  position_word (r : R) :
    Engine.position (Engine.word r).2 = (Engine.position r + 1) % streamLength
  fst_doubleWord (r : R) : (Engine.doubleWord r).1 =
    (Engine.word (Engine.word r).2).1.toUInt64 <<< 32 ||| (Engine.word r).1.toUInt64
  agrees_doubleWord (r : R) :
    Engine.Agrees (Engine.doubleWord r).2 (Engine.word (Engine.word r).2).2
  fst_bytes (n : Nat) (r : R) : (Engine.bytes n r).1 =
    ((Engine.words ((n + 3) / 4) r).1.flatMap fun w => Reader.littleEndian 4 w.toNat).take n
  agrees_bytes (n : Nat) (r : R) :
    Engine.Agrees (Engine.bytes n r).2 (Engine.words ((n + 3) / 4) r).2

namespace Engine

variable {R S : Type} [Engine R] [LawfulEngine R] [Engine S] [LawfulEngine S] {r : R} {s : S}

namespace Agrees

theorem refl {T : Type} [Engine T] (t : T) : Agrees t t := ⟨rfl, rfl⟩

theorem symm {T U : Type} [Engine T] [Engine U] {t : T} {u : U} (h : Agrees t u) : Agrees u t :=
  ⟨h.key.symm, h.position.symm⟩

theorem trans {T U V : Type} [Engine T] [Engine U] [Engine V] {t : T} {u : U} {v : V}
    (h : Agrees t u) (h' : Agrees u v) : Agrees t v :=
  ⟨h.key.trans h'.key, h.position.trans h'.position⟩

/-- Engines that agree have the same next word, and agree behind it. -/
theorem word (h : Agrees r s) :
    (Engine.word r).1 = (Engine.word s).1 ∧ Agrees (Engine.word r).2 (Engine.word s).2 := by
  refine ⟨?_, ?_, ?_⟩
  · rw [LawfulEngine.fst_word, LawfulEngine.fst_word, h.key, h.position]
  · rw [LawfulEngine.key_word, LawfulEngine.key_word, h.key]
  · rw [LawfulEngine.position_word, LawfulEngine.position_word, h.position]

/-- Engines that agree have the same next words, and agree behind them. -/
theorem words (h : Agrees r s) (n : Nat) :
    (words n r).1 = (words n s).1 ∧ Agrees (words n r).2 (words n s).2 := by
  induction n generalizing r s with
  | zero => exact ⟨rfl, h⟩
  | succ n ih =>
      obtain ⟨same, after⟩ := h.word
      obtain ⟨others, behind⟩ := ih after
      exact ⟨List.cons_eq_cons.2 ⟨same, others⟩, behind⟩

/-- Engines that agree have the same next double word, and agree behind it. -/
theorem doubleWord (h : Agrees r s) : (Engine.doubleWord r).1 = (Engine.doubleWord s).1 ∧
    Agrees (Engine.doubleWord r).2 (Engine.doubleWord s).2 := by
  obtain ⟨low, after⟩ := h.word
  obtain ⟨high, behind⟩ := after.word
  constructor
  · rw [LawfulEngine.fst_doubleWord, LawfulEngine.fst_doubleWord, low, high]
  · exact ((LawfulEngine.agrees_doubleWord r).trans behind).trans
      (LawfulEngine.agrees_doubleWord s).symm

/-- Engines that agree have the same next bytes, and agree behind them. -/
theorem bytes (h : Agrees r s) (n : Nat) : (Engine.bytes n r).1 = (Engine.bytes n s).1 ∧
    Agrees (Engine.bytes n r).2 (Engine.bytes n s).2 := by
  obtain ⟨same, behind⟩ := h.words ((n + 3) / 4)
  constructor
  · rw [LawfulEngine.fst_bytes, LawfulEngine.fst_bytes, same]
  · exact ((LawfulEngine.agrees_bytes n r).trans behind).trans (LawfulEngine.agrees_bytes n s).symm

end Agrees

end Engine

/-! ## Programs -/

/-- What is drawn from an engine: it is asked for words, and what comes then depends on them. -/
inductive Program (β : Type) : Type
  | done (b : β)
  | word (next : UInt32 → Program β)
  | doubleWord (next : UInt64 → Program β)
  | bytes (n : Nat) (next : List UInt8 → Program β)

namespace Program

variable {β γ R S : Type} [Engine R] [Engine S]

/-- Carry out a program on an engine. -/
def run : Program β → R → β × R
  | done b, r => (b, r)
  | word next, r => (next (Engine.word r).1).run (Engine.word r).2
  | doubleWord next, r => (next (Engine.doubleWord r).1).run (Engine.doubleWord r).2
  | bytes n next, r => (next (Engine.bytes n r).1).run (Engine.bytes n r).2

/-- One program after another. -/
def bind : Program β → (β → Program γ) → Program γ
  | done b, k => k b
  | word next, k => word fun w => (next w).bind k
  | doubleWord next, k => doubleWord fun w => (next w).bind k
  | bytes n next, k => bytes n fun bs => (next bs).bind k

/-- The second program goes on where the first one ends. -/
theorem run_bind (p : Program β) (k : β → Program γ) (r : R) :
    (p.bind k).run r = (k (p.run r).1).run (p.run r).2 := by
  induction p generalizing r with
  | done b => rfl
  | word next ih => exact ih _ _
  | doubleWord next ih => exact ih _ _
  | bytes n next ih => exact ih _ _

/-- No program tells engines apart that agree, by induction on what it asks for. -/
theorem run_eq_of_agrees [LawfulEngine R] [LawfulEngine S] (p : Program β) {r : R} {s : S}
    (h : Engine.Agrees r s) :
    (p.run r).1 = (p.run s).1 ∧ Engine.Agrees (p.run r).2 (p.run s).2 := by
  induction p generalizing r s with
  | done b => exact ⟨rfl, h⟩
  | word next ih =>
      obtain ⟨same, after⟩ := h.word
      rw [run, run, same]
      exact ih _ after
  | doubleWord next ih =>
      obtain ⟨same, after⟩ := h.doubleWord
      rw [run, run, same]
      exact ih _ after
  | bytes n next ih =>
      obtain ⟨same, after⟩ := h.bytes n
      rw [run, run, same]
      exact ih _ after

end Program

/-! ## Generators as engines -/

namespace Generator

/-- A generator holds nothing but what an engine can be asked for. -/
instance : Engine Generator where
  ofSeed := ofSeed
  key g := Key.ofSeed g.seed
  position g := g.position.val
  moveTo p g := { g with position := ⟨p % streamLength, Nat.mod_lt _ (by decide)⟩ }
  word := next32
  doubleWord := next64
  bytes := nextBytes

/-- The bytes of the next words stand behind those that were there before. -/
theorem nextWords_eq (n : Nat) (before : List UInt8) (g : Generator) :
    nextWords n before g =
      (before.reverse ++ (Engine.words n g).1.flatMap fun w => Reader.littleEndian 4 w.toNat,
        (Engine.words n g).2) := by
  induction n generalizing before g with
  | zero => simp [nextWords, Engine.words]
  | succ n ih =>
      show nextWords n ((Reader.littleEndian 4 g.next32.1.toNat).reverse ++ before) g.next32.2 = _
      rw [ih]
      simp [Engine.words, Engine.word]

instance : LawfulEngine Generator where
  key_ofSeed _ := rfl
  position_ofSeed _ := rfl
  key_moveTo _ _ := rfl
  position_moveTo inside _ := Nat.mod_eq_of_lt inside
  fst_word _ := rfl
  key_word _ := rfl
  position_word _ := rfl
  fst_doubleWord _ := rfl
  agrees_doubleWord _ := .refl _
  fst_bytes n g := by
    show (nextBytes n g).1 = _
    rw [nextBytes, nextWords_eq]
    rfl
  agrees_bytes n g := by
    show Engine.Agrees (nextBytes n g).2 _
    rw [nextBytes, nextWords_eq]
    exact .refl _

/-- Drawing words keeps the seed. -/
theorem seed_words (n : Nat) (g : Generator) : (Engine.words n g).2.seed = g.seed := by
  induction n generalizing g with
  | zero => rfl
  | succ n ih => exact ih _

/-- A program keeps the seed. -/
theorem seed_run {β : Type} (p : Program β) (g : Generator) : (p.run g).2.seed = g.seed := by
  induction p generalizing g with
  | done b => rfl
  | word next ih => exact ih _ _
  | doubleWord next ih => exact ih _ _
  | bytes n next ih =>
      have drawn : (Engine.bytes n g).2 = (Engine.words ((n + 3) / 4) g).2 := by
        show (nextBytes n g).2 = _
        rw [nextBytes, nextWords_eq]
      rw [Program.run, ih, drawn, seed_words]

/-! ## Draws are programs -/

variable {β γ : Type}

/-- A draw asks for words, and for nothing else that a generator holds. -/
def IsProgram (draw : Generator → β × Generator) : Prop :=
  ∃ p : Program β, ∀ g, p.run g = draw g

theorem isProgram_done (b : β) : IsProgram fun g => (b, g) :=
  ⟨.done b, fun _ => rfl⟩

/-- One draw after another. -/
theorem IsProgram.bind {draw : Generator → β × Generator} {k : β → Generator → γ × Generator}
    (first : IsProgram draw) (second : ∀ b, IsProgram (k b)) :
    IsProgram fun g => k (draw g).1 (draw g).2 := by
  obtain ⟨p, run⟩ := first
  obtain ⟨q, runs⟩ := Classical.axiomOfChoice second
  refine ⟨p.bind q, fun g => ?_⟩
  rw [Program.run_bind, run, runs]

/-- The result of a draw is passed on. -/
theorem IsProgram.map {draw : Generator → β × Generator} (first : IsProgram draw) (f : β → γ) :
    IsProgram fun g => (f (draw g).1, (draw g).2) :=
  first.bind (k := fun b g => (f b, g)) fun b => isProgram_done (f b)

/-- One draw or another. -/
theorem IsProgram.ite {p : Prop} [Decidable p] {draw other : Generator → β × Generator}
    (first : IsProgram draw) (second : IsProgram other) :
    IsProgram fun g => if p then draw g else other g := by
  by_cases h : p
  · simpa only [if_pos h] using first
  · simpa only [if_neg h] using second

theorem isProgram_next32 : IsProgram next32 := ⟨.word .done, fun _ => rfl⟩

theorem isProgram_next64 : IsProgram next64 := ⟨.doubleWord .done, fun _ => rfl⟩

theorem isProgram_nextBytes (n : Nat) : IsProgram (nextBytes n) := ⟨.bytes n .done, fun _ => rfl⟩

theorem isProgram_nextReal : IsProgram nextReal :=
  isProgram_next64.map fun bits => (bits >>> 11).toFloat * Float.ofBits 0x3CA0000000000000

theorem isProgram_drawInZone (bound zone : UInt32) (left : Nat) :
    IsProgram (drawInZone bound zone left) := by
  induction left with
  | zero => exact isProgram_done 0
  | succ left ih =>
      let product (word : UInt32) : UInt64 := word.toUInt64 * bound.toUInt64
      exact isProgram_next32.bind (k := fun word g => if (product word).toUInt32 ≤ zone
          then ((product word >>> 32).toUInt32, g) else drawInZone bound zone left g)
        fun word => (isProgram_done _).ite ih

theorem isProgram_uniformBelow (bound : UInt32) : IsProgram (uniformBelow bound) :=
  (isProgram_done 0).ite (isProgram_drawInZone _ _ _)

theorem isProgram_shuffle {α : Type} (items : Array α) : IsProgram (shuffle items) := by
  have upTo : ∀ (i : Nat) (items : Array α), IsProgram (shuffleUpTo i items) := by
    intro i
    induction i with
    | zero => exact isProgram_done
    | succ i ih =>
        exact fun items => (isProgram_uniformBelow (i + 2).toUInt32).bind
          (k := fun j : UInt32 => shuffleUpTo i (items.swapIfInBounds (i + 1) j.toNat))
          fun j => ih _
  exact upTo _ items

theorem isProgram_sampleInPlace (length amount : Nat) :
    IsProgram (sampleInPlace length amount) := by
  have shuffled : ∀ (left position : Nat) (places : Array Nat),
      IsProgram (partialShuffle position left places) := by
    intro left
    induction left with
    | zero => exact fun _ places => isProgram_done places
    | succ left ih =>
        exact fun position places => (isProgram_uniformBelow (places.size - position).toUInt32).bind
          (k := fun pick : UInt32 => partialShuffle (position + 1) left
            (places.swapIfInBounds position (position + pick.toNat))) fun pick => ih _ _
  exact (shuffled amount 0 _).map fun places => (places.extract 0 amount).toList

theorem isProgram_sampleGrowing (length amount : Nat) :
    IsProgram (sampleGrowing length amount) := by
  have grown : ∀ (left new : Nat) (drawn : List Nat),
      IsProgram (growFrom (decide (50 ≤ amount)) new left drawn) := by
    intro left
    induction left with
    | zero => exact fun _ drawn => isProgram_done drawn
    | succ left ih =>
        exact fun new drawn => (isProgram_uniformBelow (new + 1).toUInt32).bind
          (k := fun pick : UInt32 => growFrom _ (new + 1) left (grow _ drawn new pick.toNat))
          fun pick => ih _ _
  exact (grown amount (length - amount) []).bind
    (k := fun drawn g => if decide (50 ≤ amount) = true
      then ((shuffle drawn.toArray g).1.toList, (shuffle drawn.toArray g).2) else (drawn, g))
    fun drawn => ((isProgram_shuffle drawn.toArray).map Array.toList).ite (isProgram_done drawn)

theorem isProgram_sampleRejecting (length amount : Nat) :
    IsProgram (sampleRejecting length amount) := by
  have unseen : ∀ (bound zone : UInt32) (seen : Array Bool) (left : Nat),
      IsProgram (drawUnseen seen bound zone left) := by
    intro bound zone seen left
    induction left with
    | zero => exact isProgram_done 0
    | succ left ih =>
        exact (isProgram_drawInZone bound zone streamLength).bind
          (k := fun pick g => if seen.getD pick.toNat false = true
            then drawUnseen seen bound zone left g else (pick.toNat, g))
          fun pick => ih.ite (isProgram_done pick.toNat)
  have rejecting : ∀ (bound zone : UInt32) (left : Nat) (seen : Array Bool) (drawn : List Nat),
      IsProgram (rejectFrom bound zone left seen drawn) := by
    intro bound zone left
    induction left with
    | zero => exact fun _ drawn => isProgram_done drawn.reverse
    | succ left ih =>
        exact fun seen drawn => (unseen bound zone seen streamLength).bind
          (k := fun place => rejectFrom bound zone left (seen.setIfInBounds place true)
            (place :: drawn)) fun place => ih _ _
  exact rejecting _ _ amount _ []

theorem isProgram_samplePlaces (length amount : Nat) :
    IsProgram (samplePlaces length amount) := by
  unfold samplePlaces
  cases Method.choose length amount with
  | inPlace => exact isProgram_sampleInPlace length amount
  | growing => exact isProgram_sampleGrowing length amount
  | rejecting => exact isProgram_sampleRejecting length amount

end Generator

/-- The draws that a generator offers. -/
inductive Draw : Type → Type 1
  | word : Draw UInt32
  | doubleWord : Draw UInt64
  | bytes (n : Nat) : Draw (List UInt8)
  | real : Draw Float
  | below (bound : UInt32) : Draw UInt32
  | shuffle {α : Type} (items : Array α) : Draw (Array α)
  | sample (population : Array UInt32) (count : Nat) : Draw (Except Fault (List UInt32))

namespace Draw

variable {β : Type}

/-- Draw from a generator.  Where this is left is known after a sample that is refused, too. -/
def call : Draw β → Generator → β × Generator
  | word, g => g.next32
  | doubleWord, g => g.next64
  | bytes n, g => g.nextBytes n
  | real, g => g.nextReal
  | below bound, g => g.uniformBelow bound
  | shuffle items, g => g.shuffle items
  | sample population count, g =>
    match Generator.sample population count g with
    | .ok drawn g => (.ok drawn, g)
    | .error fault g => (.error fault, g)

/-- Each draw is a program. -/
theorem exists_program (d : Draw β) : ∃ p : Program β, ∀ g : Generator, p.run g = d.call g := by
  cases d with
  | word => exact Generator.isProgram_next32
  | doubleWord => exact Generator.isProgram_next64
  | bytes n => exact Generator.isProgram_nextBytes n
  | real => exact Generator.isProgram_nextReal
  | below bound => exact Generator.isProgram_uniformBelow bound
  | shuffle items => exact Generator.isProgram_shuffle items
  | sample population count =>
      show Generator.IsProgram (call (sample population count))
      by_cases few : population.size < count
      · have refused : call (sample population count) = fun g =>
            (.error (.argument (.invalidValue (.sampleSize count population.size))), g) := by
          funext g
          rw [call, Generator.sample, if_pos few]
          rfl
        rw [refused]
        exact Generator.isProgram_done _
      · have drawn : call (sample population count) = fun g =>
            (.ok ((g.samplePlaces population.size count).1.map fun p => population.getD p 0),
              (g.samplePlaces population.size count).2) := by
          funext g
          rw [call, Generator.sample, if_neg few]
          rfl
        rw [drawn]
        exact (Generator.isProgram_samplePlaces population.size count).map fun places =>
          Except.ok (places.map fun p => population.getD p 0)

end Draw

end SparseTensor
