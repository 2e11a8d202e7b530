/-!
# Readers and variable-length integers

Readers take a value off the front of a byte string. Integers are written in groups of seven bits,
the lowest first; the high bit of a byte says that more follow.
-/

namespace ContractBackend.Artifact

/-- Why a byte string is not an artifact. -/
inductive DecodeError where
  | unexpectedEnd
  | badVarint
  | badUtf8
  | badOption
  | unknownVariant
  deriving DecidableEq, Inhabited

/-- A reader of values off the front of a byte string. -/
abbrev Reader := StateT (List UInt8) (Except DecodeError)

namespace Reader

def byte : Reader UInt8 := do
  match ← get with
  | [] => throw .unexpectedEnd
  | head :: rest =>
      set rest
      pure head

/-- Take the given number of bytes. -/
def bytes (count : Nat) : Reader (List UInt8) := do
  let input ← get
  if count ≤ input.length then
    set (input.drop count)
    pure (input.take count)
  else
    throw .unexpectedEnd

/-- Take the given number of values, one after the other. -/
def times {α : Type} (reader : Reader α) : Nat → Reader (List α)
  | 0 => pure []
  | count + 1 => do
      let head ← reader
      let rest ← times reader count
      pure (head :: rest)

end Reader

/-- How many bytes an integer of some width takes at most, and the greatest value of the last of
them. -/
structure VarintWidth where
  maxBytes : Nat
  maxLast : UInt8

namespace VarintWidth

def bits32 : VarintWidth := ⟨5, 0x0f⟩

def bits64 : VarintWidth := ⟨10, 0x01⟩

end VarintWidth

namespace Varint

/-- The groups of an integer, at most as many as given. -/
def encodeWithin : Nat → Nat → List UInt8
  | 0, _ => []
  | count + 1, value =>
      if value < 128 then [UInt8.ofNat value]
      else UInt8.ofNat (value % 128 + 128) :: encodeWithin count (value / 128)

def encode (value : UInt64) : List UInt8 :=
  encodeWithin VarintWidth.bits64.maxBytes value.toNat

/-- Take the remaining groups of an integer, at most as many as given. A group may be zero at the
top; only the last group that the width allows is bounded. -/
def readWithin (maxLast : UInt8) : Nat → Reader Nat
  | 0 => throw .badVarint
  | count + 1 => do
      let group ← Reader.byte
      if group < 128 then
        if count = 0 ∧ maxLast < group then throw .badVarint
        else pure group.toNat
      else
        let rest ← readWithin maxLast count
        pure (group.toNat - 128 + 128 * rest)

def read (width : VarintWidth) : Reader Nat := readWithin width.maxLast width.maxBytes

end Varint

end ContractBackend.Artifact
