import ContractBackend.Assembly
import ContractBackend.Artifact.Reader

/-!
# Artifacts as byte strings

Fields stand one after the other. A choice is the number of the alternative, a list or a string
starts with its length, an optional field with a zero or a one. What follows an artifact is
ignored.
-/

namespace ContractBackend.Artifact

/-- The bytes of a length or of the number of an alternative. -/
def encodeNumber (number : Nat) : List UInt8 := Varint.encode (UInt64.ofNat number)

def encodeBytes (bytes : List UInt8) : List UInt8 := encodeNumber bytes.length ++ bytes

def encodeString (text : String) : List UInt8 := encodeBytes (Text.Utf8.encode text)

def encodeComment : Option String → List UInt8
  | none => [0]
  | some comment => 1 :: encodeString comment

def encodeList {α : Type} (encode : α → List UInt8) (items : List α) : List UInt8 :=
  encodeNumber items.length ++ items.flatMap encode

def encodeMode (mode : Mode) : List UInt8 := encodeNumber (Mode.all.idxOf mode)

def encodeOpcode (op : Opcode) : List UInt8 := encodeNumber (Opcode.all.idxOf op)

def encodeArgument : Argument → List UInt8
  | .uint value => encodeNumber 0 ++ Varint.encode value
  | .bytes value => encodeNumber 1 ++ encodeBytes value
  | .text value => encodeNumber 2 ++ encodeString value
  | .name value => encodeNumber 3 ++ encodeString value
  | .label name => encodeNumber 4 ++ encodeString name

def encodeLine : Line → List UInt8
  | .label name comment => encodeNumber 0 ++ encodeString name ++ encodeComment comment
  | .instr op arguments => encodeNumber 1 ++ encodeOpcode op ++ encodeList encodeArgument arguments

def encodeAssembly (assembly : Assembly) : List UInt8 :=
  assembly.version :: encodeList encodeLine assembly.lines

def encode (artifact : Artifact) : List UInt8 :=
  artifact.version ::
    (encodeMode artifact.mode ++ encodeAssembly artifact.assembly ++ encodeString artifact.text)

def readLength : Reader Nat := Varint.read .bits64

/-- Take the number of an alternative. -/
def readVariant : Reader Nat := Varint.read .bits32

/-- Take one of the given alternatives. -/
def readChoice {α : Type} (choices : List α) : Reader α := do
  match choices[← readVariant]? with
  | some choice => pure choice
  | none => throw .unknownVariant

def readBytes : Reader (List UInt8) := do Reader.bytes (← readLength)

def readString : Reader String := do
  match Text.Utf8.decode? (← readBytes) with
  | some text => pure text
  | none => throw .badUtf8

def readComment : Reader (Option String) := do
  match ← Reader.byte with
  | 0 => pure none
  | 1 => some <$> readString
  | _ => throw .badOption

def readList {α : Type} (reader : Reader α) : Reader (List α) := do
  reader.times (← readLength)

def readArgument : Reader Argument := do
  match ← readVariant with
  | 0 => (.uint ∘ UInt64.ofNat) <$> Varint.read .bits64
  | 1 => .bytes <$> readBytes
  | 2 => .text <$> readString
  | 3 => .name <$> readString
  | 4 => .label <$> readString
  | _ => throw .unknownVariant

def readLine : Reader Line := do
  match ← readVariant with
  | 0 => pure (.label (← readString) (← readComment))
  | 1 => pure (.instr (← readChoice Opcode.all) (← readList readArgument))
  | _ => throw .unknownVariant

def readAssembly : Reader Assembly := do
  pure ⟨← Reader.byte, ← readList readLine⟩

def read : Reader Artifact := do
  pure ⟨← Reader.byte, ← readChoice Mode.all, ← readAssembly, ← readString⟩

/-- The artifact that a byte string starts with. -/
def decode (bytes : List UInt8) : Except DecodeError Artifact :=
  read.run' bytes

end ContractBackend.Artifact
