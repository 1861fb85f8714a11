/-
# Readers

A reader takes what it needs from the front of some bytes and says what is left.  What is left
is known after a failure too: a read of a fixed number of bytes that fails has taken none, a
compound read keeps what its parts took before the failing one.

Machine words are written lowest byte first.
-/
import SparseTensor.Calls
import SparseTensor.Fault
import SparseTensor.Text.Utf8

namespace SparseTensor

/-- A read from the front of some bytes: its state is what is left of them. -/
abbrev Reader (α : Type) : Type :=
  EStateM Fault (List UInt8) α

namespace Reader

variable {α β : Type}

/-! ## Fixed numbers of bytes -/

/-- The next byte. -/
def byte : Reader UInt8
  | [] => .error .outOfBounds []
  | b :: rest => .ok b rest

/-- The next `n` bytes. -/
def take (n : Nat) : Reader (List UInt8) := fun bs =>
  if n ≤ bs.length then .ok (bs.take n) (bs.drop n) else .error .outOfBounds bs

/-- The number written by some bytes, lowest byte first. -/
def ofLittleEndian : List UInt8 → Nat
  | [] => 0
  | b :: rest => b.toNat + 256 * ofLittleEndian rest

/-- The lowest `width` bytes of a number, lowest first. -/
def littleEndian : Nat → Nat → List UInt8
  | 0, _ => []
  | width + 1, n => (n % 256).toUInt8 :: littleEndian width (n / 256)

/-- The number written by the next `width` bytes, lowest byte first. -/
def word (width : Nat) : Reader Nat := do
  return ofLittleEndian (← take width)

/-- The next `width` bytes are as many as are asked for. -/
theorem length_littleEndian (width n : Nat) : (littleEndian width n).length = width := by
  induction width generalizing n with
  | zero => rfl
  | succ width ih => simp [littleEndian, ih]

/-- As many bytes as are asked for are taken from in front of the rest. -/
theorem take_append (bs rest : List UInt8) : take bs.length (bs ++ rest) = .ok bs rest := by
  simp [take]

/-! ## Variable-length integers -/

/-- Whether another byte of the same integer follows. -/
def continues (b : UInt8) : Bool :=
  b &&& 0x80 ≠ 0

/-- An integer in groups of seven bits, lowest first, `index` groups of which are in `value`
already.  The tenth group has room for a single bit. -/
def varintFrom (index : Nat) (value : UInt64) : Reader UInt64
  | [] => .error .outOfBounds []
  | b :: rest =>
    if index = 9 ∧ 1 < b then .error (.corrupt .integerOverflow) rest
    else
      let value := value ||| ((b &&& 0x7F).toUInt64 <<< (7 * index).toUInt64)
      if continues b then varintFrom (index + 1) value rest else .ok value rest

/-- An integer in groups of seven bits, lowest first; a set high bit says that more follow. -/
def varint : Reader UInt64 :=
  varintFrom 0 0

/-- The groups of seven bits of a number, lowest first, with the high bit on all but the last. -/
def varintGroups (n : Nat) : List UInt8 :=
  if n < 128 then [n.toUInt8] else (n % 128 + 128).toUInt8 :: varintGroups (n / 128)

/-- The shortest form of a word in groups of seven bits. -/
def varintBytes (v : UInt64) : List UInt8 :=
  varintGroups v.toNat

/-! ## Counts and texts -/

/-- The number of bytes that are left. -/
def remaining : Reader Nat := fun bs => .ok bs.length bs

/-- A count of elements.  Every element takes up a byte, so a count above the number of bytes
left cannot be met and is refused. -/
def count : Reader Nat := do
  let n ← varint
  let left ← remaining
  if n.toNat ≤ left then return n.toNat
  else throw (.corrupt (.countExceedsRemaining n left))

/-- A text behind its length in bytes. -/
def text : Reader String := do
  let bs ← take (← count)
  match Text.ofBytes? bs with
  | some s => return s
  | none => throw (.corrupt .invalidText)

/-- A text behind its length in bytes, as it is read by `text`. -/
def textBytes (s : String) : List UInt8 :=
  let bs := Text.bytes s
  varintGroups bs.length ++ bs

end Reader

end SparseTensor
