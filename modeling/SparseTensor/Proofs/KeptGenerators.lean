/-
# Generators that are kept and resumed

A generator that is kept is a seed and an engine.  Its archive holds the seed and the position of
the engine, and not what the engine has buffered; it is resumed by an engine for the seed that is
moved to the position.

`Kept.StandsAt` says that the engine is where a generator is.  Every kept generator stands at one
(`Kept.Arises.exists_standsAt`), so its position is one of the stream, and what is resumed stands at
the same one: no program tells them apart (`kept_generators_resume`).
-/
import SparseTensor.Proofs.ArchivedNodes
import SparseTensor.Proofs.BufferedEngine

namespace SparseTensor

/-! ## Archives of generators -/

/-- An archive describes a generator with some seed, at the position with some high and low word. -/
structure Archive.DescribesGenerator (a : Archive) (seed high low : UInt64) : Prop where
  kind : a.kind = "Random"
  seed : a.get? "seed" = some (.scalar seed)
  position : a.get? "position" = some (.list [high, low])
  inside : high.toNat < 16

namespace Generator

variable {a : Archive} {g : Generator}

/-- Two words are a position of the stream exactly if the high one is below sixteen. -/
theorem words_lt_streamLength_iff (high low : UInt64) :
    high.toNat * UInt64.size + low.toNat < streamLength ↔ high.toNat < 16 := by
  have := low.toNat_lt
  simp only [streamLength, UInt64.size]
  omega

/-- An archive is read as a generator exactly if it describes it. -/
theorem ofArchive_eq_ok_iff : ofArchive a = .ok g ↔ ∃ high low : UInt64,
    a.DescribesGenerator g.seed high low ∧
      high.toNat * UInt64.size + low.toNat = g.position.val := by
  constructor
  · intro h
    unfold ofArchive at h
    obtain ⟨_, kind, h⟩ := exists_of_bind_eq_ok h
    obtain ⟨seed, seeded, h⟩ := exists_of_bind_eq_ok h
    obtain ⟨words, position, h⟩ := exists_of_bind_eq_ok h
    split at h
    · rename_i high low
      dsimp only at h
      split at h
      · rename_i inside
        cases h
        exact ⟨high, low, ⟨Archive.expectKind_eq_ok_iff.1 kind, Archive.scalar_eq_ok_iff.1 seeded,
          Archive.list_eq_ok_iff.1 position, (words_lt_streamLength_iff high low).1 inside⟩, rfl⟩
      · cases h
    · cases h
  · rintro ⟨high, low, described, same⟩
    exact ofArchive_of_words (Archive.expectKind_eq_ok_iff.2 described.kind)
      (Archive.scalar_eq_ok_iff.2 described.seed) (Archive.list_eq_ok_iff.2 described.position) same

end Generator

/-! ## Generators that are kept -/

/-- A seed and the engine that was made from it. -/
structure Kept (R : Type) where
  seed : UInt64
  engine : R

namespace Kept

variable {R β : Type} [Engine R]

/-- The generator for a seed, where zero asks for a seed that comes from `entropy`. -/
def new (seed entropy : UInt64) : Kept R :=
  let seed := (Generator.new seed entropy).seed
  ⟨seed, Engine.ofSeed seed⟩

/-- The number of words in front of the next one. -/
def position (k : Kept R) : Nat :=
  Engine.position k.engine

/-- Carry out a program. -/
def run (k : Kept R) (p : Program β) : β × Kept R :=
  let (b, engine) := p.run k.engine
  (b, { k with engine })

/-- Whether two generators have the same seed and the same position. -/
def equal (k l : Kept R) : Bool :=
  k.seed == l.seed && k.position == l.position

/-- The archive of a generator: the position stands in two words, the high one first. -/
def toArchive (k : Kept R) : Archive :=
  Archive.ofList Generator.archiveKind
    [("seed", .scalar k.seed),
      ("position",
        .list [(k.position / UInt64.size).toUInt64, (k.position % UInt64.size).toUInt64])]

/-- Resume at a generator: an engine for its seed is moved to its position. -/
def resume (g : Generator) : Kept R :=
  ⟨g.seed, Engine.moveTo g.position.val (Engine.ofSeed g.seed)⟩

/-- Resume at the generator of an archive. -/
def ofArchive (a : Archive) : Except Fault (Kept R) := do
  return resume (← Generator.ofArchive a)

/-- The generators that arise.  A copy is the same generator, so copying does not count. -/
inductive Arises : Kept R → Prop
  | new (seed entropy : UInt64) : Arises (new seed entropy)
  | loaded {a : Archive} {k : Kept R} : ofArchive a = .ok k → Arises k
  | drawn {β : Type} (p : Program β) {k : Kept R} : Arises k → Arises (k.run p).2

/-- A kept generator is where a generator is. -/
structure StandsAt (k : Kept R) (g : Generator) : Prop where
  seed : k.seed = g.seed
  agrees : Engine.Agrees k.engine g

variable {k l : Kept R} {g : Generator}

/-- The archive of a kept generator is that of the generator it stands at. -/
theorem StandsAt.toArchive_eq (h : k.StandsAt g) : k.toArchive = g.toArchive := by
  have position : k.position = g.position.val := h.agrees.position
  rw [toArchive, position, h.seed]
  rfl

/-- Generators that stand at the same one are equal. -/
theorem StandsAt.equal_eq_true (hk : k.StandsAt g) (hl : l.StandsAt g) : k.equal l = true := by
  have position : k.position = l.position := hk.agrees.position.trans hl.agrees.position.symm
  simp [equal, hk.seed, hl.seed, position]

variable [LawfulEngine R]

/-- What is resumed stands where it was resumed. -/
theorem standsAt_resume (g : Generator) : (resume g : Kept R).StandsAt g := by
  refine ⟨rfl, ?_, LawfulEngine.position_moveTo g.position.isLt _⟩
  rw [resume, LawfulEngine.key_moveTo, LawfulEngine.key_ofSeed]
  rfl

/-- A program finds the same from a kept generator as from the one it stands at, and they stand
together again behind it. -/
theorem StandsAt.run (h : k.StandsAt g) (p : Program β) :
    (k.run p).1 = (p.run g).1 ∧ (k.run p).2.StandsAt (p.run g).2 := by
  obtain ⟨same, after⟩ := p.run_eq_of_agrees h.agrees
  exact ⟨same, h.seed.trans (Generator.seed_run p g).symm, after⟩

/-- What is loaded is resumed at a generator. -/
theorem exists_of_ofArchive {a : Archive} (h : ofArchive a = .ok k) :
    ∃ g, Generator.ofArchive a = .ok g ∧ k.StandsAt g := by
  obtain ⟨g, read, h⟩ := exists_of_bind_eq_ok h
  cases h
  exact ⟨g, read, standsAt_resume g⟩

/-- Every generator that arises stands at one, by induction on how it arises. -/
theorem Arises.exists_standsAt (h : k.Arises) : ∃ g, k.StandsAt g := by
  induction h with
  | new seed entropy =>
      refine ⟨Generator.new seed entropy, rfl, ?_, ?_⟩
      · exact LawfulEngine.key_ofSeed _
      · exact LawfulEngine.position_ofSeed _
  | loaded read =>
      obtain ⟨g, -, stands⟩ := exists_of_ofArchive read
      exact ⟨g, stands⟩
  | drawn p _ ih =>
      obtain ⟨g, stands⟩ := ih
      exact ⟨_, (stands.run p).2⟩

/-- The archive of a kept generator is loaded as one that stands at the same place. -/
theorem StandsAt.exists_ofArchive (h : k.StandsAt g) :
    ∃ l : Kept R, ofArchive k.toArchive = .ok l ∧ l.StandsAt g := by
  refine ⟨resume g, ?_, standsAt_resume g⟩
  rw [ofArchive, h.toArchive_eq, g.ofArchive_toArchive]
  rfl

/-- A generator is loaded from an archive exactly if the archive describes one. -/
theorem exists_ofArchive_iff {a : Archive} : (∃ k : Kept R, ofArchive a = .ok k) ↔
    ∃ seed high low, a.DescribesGenerator seed high low := by
  constructor
  · rintro ⟨k, h⟩
    obtain ⟨g, read, -⟩ := exists_of_ofArchive h
    obtain ⟨high, low, described, -⟩ := Generator.ofArchive_eq_ok_iff.1 read
    exact ⟨g.seed, high, low, described⟩
  · rintro ⟨seed, high, low, described⟩
    have inside := (Generator.words_lt_streamLength_iff high low).2 described.inside
    have read : Generator.ofArchive a = .ok ⟨seed, ⟨_, inside⟩⟩ :=
      Generator.ofArchive_eq_ok_iff.2 ⟨high, low, described, rfl⟩
    exact ⟨resume ⟨seed, ⟨_, inside⟩⟩, by rw [ofArchive, read]; rfl⟩

/-- A generator is loaded with the seed and at the position of the archive. -/
theorem eq_of_ofArchive {a : Archive} (h : ofArchive a = .ok k) {seed high low : UInt64}
    (described : a.DescribesGenerator seed high low) :
    k.seed = seed ∧ k.position = high.toNat * 2 ^ 64 + low.toNat := by
  obtain ⟨g, read, stands⟩ := exists_of_ofArchive h
  obtain ⟨high', low', described', same⟩ := Generator.ofArchive_eq_ok_iff.1 read
  have seeded := Option.some.inj (described'.seed.symm.trans described.seed)
  have words := Option.some.inj (described'.position.symm.trans described.position)
  injection seeded with seeded
  injection words with words
  obtain ⟨rfl, rfl⟩ : high' = high ∧ low' = low := by simpa using words
  exact ⟨stands.seed.trans seeded, stands.agrees.position.trans same.symm⟩

end Kept

/-- A generator that is kept is at a position of the stream, wherever its draws have left it, also
behind the end of the stream.  It is loaded again from its archive and equals what is loaded, and
no program tells them apart, nor from the generator they stand at.  Each draw is such a program.
What an archive is loaded as is what it describes. -/
theorem kept_generators_resume {R : Type} [Engine R] [LawfulEngine R] :
    (∀ k : Kept R, k.Arises → k.position < 2 ^ 68 ∧ ∃ (g : Generator) (l : Kept R),
      k.toArchive = g.toArchive ∧ Kept.ofArchive k.toArchive = .ok l ∧ l.equal k = true ∧
        ∀ (β : Type) (p : Program β), (l.run p).1 = (k.run p).1 ∧ (k.run p).1 = (p.run g).1 ∧
          (l.run p).2.equal (k.run p).2 = true) ∧
    (∀ (β : Type) (d : Draw β), ∃ p : Program β, ∀ g : Generator, p.run g = d.call g) ∧
    ∀ a : Archive,
      ((∃ k : Kept R, Kept.ofArchive a = .ok k) ↔
        ∃ seed high low, a.DescribesGenerator seed high low) ∧
      ∀ (k : Kept R) (seed high low : UInt64), Kept.ofArchive a = .ok k →
        a.DescribesGenerator seed high low →
          k.seed = seed ∧ k.position = high.toNat * 2 ^ 64 + low.toNat := by
  refine ⟨fun k arises => ?_, fun _ d => d.exists_program, fun a =>
    ⟨Kept.exists_ofArchive_iff, fun k seed high low h described =>
      Kept.eq_of_ofArchive h described⟩⟩
  obtain ⟨g, stands⟩ := arises.exists_standsAt
  obtain ⟨l, loaded, stands'⟩ := stands.exists_ofArchive
  have position : k.position = g.position.val := stands.agrees.position
  refine ⟨position ▸ g.position.isLt, g, l, stands.toArchive_eq, loaded,
    stands'.equal_eq_true stands, fun β p => ?_⟩
  obtain ⟨same, after⟩ := stands.run p
  obtain ⟨same', after'⟩ := stands'.run p
  exact ⟨same'.trans same.symm, same, after'.equal_eq_true after⟩

/-- A generator is loaded in front of the last word of its stream, draws a double word, and resumes
behind the first word. -/
theorem kept_generators_resume_behind_end :
    let a : Archive :=
      .ofList "Random" [("seed", .scalar 9), ("position", .list [15, 0xFFFFFFFFFFFFFFFF])]
    ∃ k past l : Kept Buffered, Kept.ofArchive a = .ok k ∧ k.position = 2 ^ 68 - 1 ∧
      past = (k.run (.doubleWord .done)).2 ∧ past.position = 1 ∧
        Kept.ofArchive past.toArchive = .ok l ∧ l.equal past = true ∧
          (l.run (.word .done)).1 = (past.run (.word .done)).1 := by
  intro a
  obtain ⟨resumes, -, archives⟩ := @kept_generators_resume Buffered _ _
  have described : a.DescribesGenerator 9 15 0xFFFFFFFFFFFFFFFF :=
    ⟨rfl, by decide, by decide, by decide⟩
  obtain ⟨k, read⟩ := (archives a).1.2 ⟨_, _, _, described⟩
  have last : k.position = 2 ^ 68 - 1 := ((archives a).2 k _ _ _ read described).2
  have arises : (k.run (.doubleWord .done)).2.Arises := (Kept.Arises.loaded read).drawn _
  obtain ⟨-, g, l, -, loaded, equal, same⟩ := resumes _ arises
  refine ⟨k, _, l, read, last, rfl, ?_, loaded, equal, (same _ _).1⟩
  show Engine.position (Engine.doubleWord k.engine).2 = 1
  rw [(LawfulEngine.agrees_doubleWord k.engine).position, LawfulEngine.position_word,
    LawfulEngine.position_word, show Engine.position k.engine = 2 ^ 68 - 1 from last]
  decide

end SparseTensor
