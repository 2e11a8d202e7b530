import ContractBackend.Proofs.Machine.Primitives

/-!
# Literals are read back

The characters of a string are escaped one by one, in one to sixteen characters each. Put together
they spell the bytes of the string in only one way, so a reader that undoes the escapes finds the
bytes that the machine puts on the stack for the literal.
-/

namespace ContractBackend.Text

/-- Whether a character of ASCII has a printed form. -/
abbrev IsPrintable (c : Char) : Prop := ' ' ≤ c ∧ c ≤ '~'

/-- Whether a character stands for itself in a literal. -/
abbrev IsPlain (c : Char) : Prop := IsPrintable c ∧ c ≠ '"' ∧ c ≠ '\\'

/-- A byte is read off its digits, which need no escape. -/
theorem Hex.ofByte_cases (byte : UInt8) : ∃ high low, ofByte byte = [high, low] ∧
    IsPlain high ∧ IsPlain low ∧ decodeChars? [high, low] = some [byte] := by
  have digits : ∀ digit < 16,
      IsPlain (Nat.digitChar digit) ∧ digit? (Nat.digitChar digit) = some digit := by decide
  have small : byte.toNat < 256 := byte.toNat_lt
  obtain ⟨highPlain, isHigh⟩ := digits (byte.toNat / 16) (by omega)
  obtain ⟨lowPlain, isLow⟩ := digits (byte.toNat % 16) (by omega)
  refine ⟨_, _, rfl, highPlain, lowPlain, ?_⟩
  rw [decodeChars?, isHigh, isLow]
  change some [UInt8.ofNat (16 * (byte.toNat / 16) + byte.toNat % 16)] = some [byte]
  rw [Nat.div_add_mod, UInt8.ofNat_toNat]

namespace Quoted

variable {chars rest : List Char} {bytes more : List UInt8}

/-- The letters of the short escapes, with the bytes they stand for. -/
def letters : List (Char × UInt8) :=
  [('"', 0x22), ('\\', 0x5c), ('n', 0x0a), ('r', 0x0d), ('t', 0x09)]

/-- Undo the escapes between the quotes. What is not escaped stands for itself. -/
def unescape? : List Char → Option (List UInt8)
  | [] => some []
  | '\\' :: 'x' :: high :: low :: rest =>
      return (← Hex.decodeChars? [high, low]) ++ (← unescape? rest)
  | '\\' :: letter :: rest => return (← letters.lookup letter) :: (← unescape? rest)
  | ['\\'] => none
  | c :: rest => return String.utf8EncodeChar c ++ (← unescape? rest)

/-- Where the quotes stand that no backslash escapes, counted from a position. -/
def bareQuotes : Nat → List Char → List Nat
  | _, [] => []
  | position, '\\' :: _ :: rest => bareQuotes (position + 2) rest
  | position, '"' :: rest => position :: bareQuotes (position + 1) rest
  | position, _ :: rest => bareQuotes (position + 1) rest

/-- How bytes are spelled between the quotes. An escape ends where its letter or its two digits
end, whatever follows. -/
inductive Spells : List Char → List UInt8 → Prop where
  | nil : Spells [] []
  | plain {c : Char} {chars : List Char} {bytes : List UInt8} :
      IsPlain c → Spells chars bytes → Spells (c :: chars) (String.utf8EncodeChar c ++ bytes)
  | short {letter : Char} {byte : UInt8} {chars : List Char} {bytes : List UInt8} :
      (letter, byte) ∈ letters → Spells chars bytes →
      Spells ('\\' :: letter :: chars) (byte :: bytes)
  | hex {chars : List Char} {bytes : List UInt8} (byte : UInt8) : Spells chars bytes →
      Spells ('\\' :: 'x' :: (Hex.ofByte byte ++ chars)) (byte :: bytes)

namespace Spells

theorem append (spells : Spells chars bytes) (others : Spells rest more) :
    Spells (chars ++ rest) (bytes ++ more) := by
  induction spells with
  | nil => exact others
  | plain isPlain _ ih =>
    rw [List.append_assoc]
    exact .plain isPlain ih
  | short isLetter _ ih => exact .short isLetter ih
  | hex byte _ ih => simpa using Spells.hex byte ih

theorem of_bytes (bytes : List UInt8) :
    Spells (bytes.flatMap fun byte => '\\' :: 'x' :: Hex.ofByte byte) bytes := by
  induction bytes with
  | nil => exact .nil
  | cons byte bytes ih => exact .hex byte ih

theorem of_escape (c : Char) : Spells (escape c) (String.utf8EncodeChar c) := by
  by_cases isShort : c = '"' ∨ c = '\\' ∨ c = '\n' ∨ c = '\r' ∨ c = '\t'
  · have alone : ∀ entry ∈ letters, Spells ['\\', entry.1] [entry.2] :=
      fun _ isLetter => .short isLetter .nil
    rcases isShort with rfl | rfl | rfl | rfl | rfl <;> exact alone (_, _) (by decide)
  · simp only [not_or] at isShort
    simp only [escape, isShort, if_false]
    split
    next printable => simpa using plain ⟨printable, isShort.1, isShort.2.1⟩ .nil
    next => exact of_bytes _

theorem of_chars (chars : List Char) :
    Spells (chars.flatMap escape) (chars.flatMap String.utf8EncodeChar) := by
  induction chars with
  | nil => exact .nil
  | cons c chars ih => exact (of_escape c).append ih

theorem isPrintable (spells : Spells chars bytes) : ∀ c ∈ chars, IsPrintable c := by
  induction spells with
  | nil => exact List.forall_mem_nil _
  | plain isPlain _ ih => exact List.forall_mem_cons.mpr ⟨isPlain.1, ih⟩
  | short isLetter _ ih =>
    have each : ∀ entry ∈ letters, IsPrintable entry.1 := by decide
    simp only [List.forall_mem_cons]
    exact ⟨by decide, each _ isLetter, ih⟩
  | hex byte _ ih =>
    obtain ⟨high, low, equal, isHigh, isLow, _⟩ := Hex.ofByte_cases byte
    simp only [equal, List.cons_append, List.nil_append, List.forall_mem_cons]
    exact ⟨by decide, by decide, isHigh.1, isLow.1, ih⟩

theorem unescape?_eq (spells : Spells chars bytes) : unescape? chars = some bytes := by
  induction spells with
  | nil => rfl
  | plain isPlain _ ih =>
    rw [unescape?, ih]
    · rfl
    all_goals simp [isPlain.2.2]
  | short isLetter _ ih =>
    have each : ∀ entry ∈ letters,
        entry.1 ≠ 'x' ∧ letters.lookup entry.1 = some entry.2 := by decide
    obtain ⟨notHex, found⟩ := each _ isLetter
    rw [unescape?, ih, found]
    · rfl
    · simp [notHex]
  | hex byte _ ih =>
    obtain ⟨high, low, equal, _, _, decoded⟩ := Hex.ofByte_cases byte
    rw [equal, List.cons_append, List.cons_append, List.nil_append, unescape?, ih, decoded]
    rfl

theorem bareQuotes_cons {c : Char} (isPlain : IsPlain c) (position : Nat) (rest : List Char) :
    bareQuotes position (c :: rest) = bareQuotes (position + 1) rest := by
  rw [bareQuotes] <;> simp [isPlain.2.1, isPlain.2.2]

/-- All quotes are escaped. -/
theorem bareQuotes_append (spells : Spells chars bytes) (position : Nat) (rest : List Char) :
    bareQuotes position (chars ++ rest) = bareQuotes (position + chars.length) rest := by
  induction spells generalizing position with
  | nil => rfl
  | plain isPlain _ ih =>
    rw [List.cons_append, bareQuotes_cons isPlain, ih, List.length_cons, Nat.add_right_comm]
    rfl
  | short isLetter _ ih =>
    rw [List.cons_append, List.cons_append, bareQuotes, ih, Nat.add_right_comm]
    rfl
  | hex byte _ ih =>
    obtain ⟨high, low, equal, isHigh, isLow, _⟩ := Hex.ofByte_cases byte
    simp only [equal, List.cons_append, List.nil_append, List.length_cons]
    rw [bareQuotes, bareQuotes_cons isHigh, bareQuotes_cons isLow, ih]
    congr 1
    omega

end Spells

theorem toList_quote (text : String) :
    (quote text).toList = '"' :: (text.toList.flatMap escape ++ ['"']) :=
  String.toList_ofList

theorem isPrintable_quote (text : String) : ∀ c ∈ (quote text).toList, IsPrintable c := by
  simp only [toList_quote, List.forall_mem_cons, List.forall_mem_append]
  exact ⟨by decide, (Spells.of_chars _).isPrintable, by decide, List.forall_mem_nil _⟩

/-- Literals are read back. A literal is printable throughout. Its first and its last character
are quotes, and every quote between them is escaped. Undoing the escapes between them gives the
bytes of the string, which are the ones that the machine pushes, so no two strings have the same
literal. -/
theorem literals_read_back :
    (∀ text, (∀ c ∈ (quote text).toList, IsPrintable c) ∧
      bareQuotes 0 (quote text).toList = [0, (quote text).length - 1] ∧
      ∃ body, (quote text).toList = '"' :: (body ++ ['"']) ∧
        unescape? body = some (Utf8.encode text) ∧
        ∀ limits env line, ∀ op ∈ [Opcode.byte, .pushbytes],
          Machine.execute limits env ⟨op, line⟩ [.text text] = (do
            Machine.Exec.push limits (.bytes (Utf8.encode text))
            pure .next)) ∧
    Function.Injective quote := by
  have spells := fun text : String => Spells.of_chars text.toList
  refine ⟨fun text => ⟨isPrintable_quote text, ?_, _, toList_quote text,
    (spells text).unescape?_eq, ?_⟩, ?_⟩
  · rw [← String.length_toList, toList_quote, bareQuotes, (spells text).bareQuotes_append]
    simp [bareQuotes, Nat.add_comm]
  · intro limits env line op isOp
    simp only [List.mem_cons, List.not_mem_nil, or_false] at isOp
    rcases isOp with rfl | rfl <;> rfl
  · intro left right same
    have bodies : left.toList.flatMap escape = right.toList.flatMap escape := by
      have lists := congrArg String.toList same
      rw [toList_quote, toList_quote] at lists
      exact List.append_cancel_right (List.cons.inj lists).2
    have encoded : some (Utf8.encode left) = some (Utf8.encode right) :=
      calc some (Utf8.encode left)
        _ = unescape? (left.toList.flatMap escape) := (spells left).unescape?_eq.symm
        _ = unescape? (right.toList.flatMap escape) := congrArg unescape? bodies
        _ = some (Utf8.encode right) := (spells right).unescape?_eq
    have decoded := congrArg Utf8.decode? (Option.some.inj encoded)
    simpa using decoded

end Quoted

end ContractBackend.Text
