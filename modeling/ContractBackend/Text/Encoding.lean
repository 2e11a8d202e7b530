/-!
# Encodings of text

Strings as byte strings in UTF-8, byte strings as hexadecimal digits, and the string literals of
the assembly text.
-/

/-!
## UTF-8

Decoding accepts exactly the well-formed byte strings, and undoes encoding. Where any byte string
has to be shown, what is not well formed is replaced piece by piece.
-/

namespace ContractBackend.Text.Utf8

def encode (text : String) : List UInt8 := text.toList.flatMap String.utf8EncodeChar

/-- The string with the given bytes, if they are well formed. -/
def decode? (bytes : List UInt8) : Option String := String.fromUTF8? bytes.toByteArray

theorem toByteArray_encode (text : String) : (encode text).toByteArray = text.toByteArray :=
  String.utf8Encode_toList

@[simp] theorem decode?_encode (text : String) : decode? (encode text) = some text := by
  have valid : text.toByteArray.IsValidUTF8 := text.isValidUTF8
  simp [decode?, toByteArray_encode, String.fromUTF8?, valid, String.fromUTF8]

/-- Whether some bytes are the beginning of a character, without being one. -/
def isBegun (bytes : List UInt8) : Bool :=
  [[0x80], [0x80, 0x80], [0xa0, 0x80], [0x80, 0x80, 0x80], [0x90, 0x80, 0x80]].any fun others =>
    (decode? (bytes ++ others)).isSome

/-- The characters of a byte string. Where it does not go on with a character, the longest piece
that begins one, or else a single byte, is replaced. -/
def replacing : List UInt8 → List Char
  | [] => []
  | first :: rest =>
      let piece := fun count => first :: rest.take count
      match [0, 1, 2, 3].find? fun count => (decode? (piece count)).isSome with
      | some count =>
          (decode? (piece count)).elim [] String.toList ++ replacing (rest.drop count)
      | none =>
          let count := ([2, 1].find? fun count => isBegun (piece count)).getD 0
          '\ufffd' :: replacing (rest.drop count)
termination_by bytes => bytes.length
decreasing_by all_goals grind

/-- The string with the given bytes, with replacements where they are not well formed. -/
def decodeLossy (bytes : List UInt8) : String :=
  (decode? bytes).getD (String.ofList (replacing bytes))

end ContractBackend.Text.Utf8

/-!
## Hexadecimal bytes

Bytes as pairs of lower-case hexadecimal digits, the high digit first.
-/

namespace ContractBackend.Text.Hex

/-- The two digits of a byte. -/
def ofByte (byte : UInt8) : List Char :=
  [Nat.digitChar (byte.toNat / 16), Nat.digitChar (byte.toNat % 16)]

def encode (bytes : List UInt8) : String := String.ofList (bytes.flatMap ofByte)

/-- The value of a lower-case hexadecimal digit. -/
def digit? (c : Char) : Option Nat :=
  if '0' ≤ c ∧ c ≤ '9' then some (c.toNat - '0'.toNat)
  else if 'a' ≤ c ∧ c ≤ 'f' then some (c.toNat - 'a'.toNat + 10)
  else none

/-- Read pairs of digits to the end. -/
def decodeChars? : List Char → Option (List UInt8)
  | [] => some []
  | high :: low :: rest => do
      let high ← digit? high
      let low ← digit? low
      let rest ← decodeChars? rest
      pure (UInt8.ofNat (16 * high + low) :: rest)
  | [_] => none

/-- The byte string that is written with the given digits. -/
def decode? (text : String) : Option (List UInt8) := decodeChars? text.toList

end ContractBackend.Text.Hex

/-!
## Quoted byte strings

A string literal of the assembly text. Printable ASCII stands for itself, save the quote and the
backslash; line feed, carriage return and tab have short escapes; every other character is written
as the bytes of its UTF-8 form, so the literal is printable ASCII throughout.
-/

namespace ContractBackend.Text.Quoted

/-- How one character is written inside the quotes. -/
def escape (c : Char) : List Char :=
  if c = '"' then ['\\', '"']
  else if c = '\\' then ['\\', '\\']
  else if c = '\n' then ['\\', 'n']
  else if c = '\r' then ['\\', 'r']
  else if c = '\t' then ['\\', 't']
  else if ' ' ≤ c ∧ c ≤ '~' then [c]
  else (String.utf8EncodeChar c).flatMap fun byte => '\\' :: 'x' :: Hex.ofByte byte

def quote (text : String) : String :=
  String.ofList ('"' :: (text.toList.flatMap escape ++ ['"']))

end ContractBackend.Text.Quoted
