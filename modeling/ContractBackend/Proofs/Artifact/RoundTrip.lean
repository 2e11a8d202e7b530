import ContractBackend.Artifact.Codec
import ContractBackend.Proofs.Fallible
import Mathlib.Algebra.GroupWithZero.Nat

/-!
# The round trip of artifacts

What a reader takes off the front of its bytes and what it leaves. Two questions are asked of every
reader, and both go through its parts: whether it takes a given value off the bytes written for it,
whatever follows, and what is known of every value it takes.

Lengths are written in 64 bits. An artifact whose lists and strings are no longer than that is read
back from its bytes, whatever follows them, and no other artifact is ever read.
-/

namespace ContractBackend.Artifact

namespace Reader

variable {α β : Type} {reader : Reader α} {property : α → Prop}

/-- A reader takes a value off the given bytes and leaves all that follows. -/
def Takes (reader : Reader α) (bytes : List UInt8) (value : α) : Prop :=
  ∀ rest, reader.run (bytes ++ rest) = .ok (value, rest)

/-- Every value that a reader takes has a property. -/
def Ensures (reader : Reader α) (property : α → Prop) : Prop :=
  ∀ bytes value rest, reader.run bytes = .ok (value, rest) → property value

/-! ## Parts -/

theorem Takes.pure (value : α) : Takes (Pure.pure value) [] value :=
  fun _ => rfl

theorem Takes.bind {next : α → Reader β} {bytes more : List UInt8} {value : α} {result : β}
    (first : reader.Takes bytes value) (second : (next value).Takes more result) :
    (reader >>= next).Takes (bytes ++ more) result := by
  intro rest
  rw [List.append_assoc, StateT.run_bind, first, Fallible.ok_bind]
  exact second rest

/-- A reader after which nothing more is taken. -/
theorem Takes.bind_pure {next : α → Reader β} {bytes : List UInt8} {value : α} {result : β}
    (first : reader.Takes bytes value) (done : next value = Pure.pure result) :
    (reader >>= next).Takes bytes result := by
  rw [← List.append_nil bytes]
  exact first.bind (done ▸ .pure result)

theorem Takes.map {bytes : List UInt8} {value : α} (image : α → β)
    (takes : reader.Takes bytes value) : (image <$> reader).Takes bytes (image value) := by
  rw [← bind_pure_comp]
  exact takes.bind_pure rfl

theorem Ensures.pure {value : α} (holds : property value) : Ensures (Pure.pure value) property := by
  rintro bytes _ _ ⟨⟩
  exact holds

theorem Ensures.throw (fault : DecodeError) : Ensures (MonadExcept.throw fault) property := by
  intro bytes value rest isOk
  cases isOk

theorem Ensures.bind {next : α → Reader β} {result : β → Prop} (first : reader.Ensures property)
    (second : ∀ value, property value → (next value).Ensures result) :
    (reader >>= next).Ensures result := by
  intro bytes value rest isOk
  rw [StateT.run_bind, Fallible.bind_eq_ok] at isOk
  obtain ⟨⟨middle, left⟩, isMiddle, isOk⟩ := isOk
  exact second middle (first bytes middle left isMiddle) left value rest isOk

theorem Ensures.map {property : β → Prop} {image : α → β}
    (ensures : reader.Ensures fun value => property (image value)) :
    (image <$> reader).Ensures property := by
  rw [← bind_pure_comp]
  exact ensures.bind fun value holds => .pure holds

theorem Ensures.trivial (reader : Reader α) : reader.Ensures fun _ => True :=
  fun _ _ _ _ => True.intro

theorem Ensures.mono {property weaker : α → Prop} (ensures : reader.Ensures property)
    (implies : ∀ value, property value → weaker value) : reader.Ensures weaker :=
  fun bytes value rest isOk => implies value (ensures bytes value rest isOk)

/-! ## Bytes -/

theorem takes_byte (head : UInt8) : byte.Takes [head] head :=
  fun _ => rfl

theorem run_bytes (count : Nat) (input : List UInt8) :
    (bytes count).run input =
      if count ≤ input.length then .ok (input.take count, input.drop count)
      else .error .unexpectedEnd := by
  simp only [bytes, StateT.run_bind, StateT.run_get, pure_bind]
  split <;> rfl

theorem takes_bytes (content : List UInt8) : (bytes content.length).Takes content content := by
  intro rest
  simp [run_bytes]

theorem ensures_bytes (count : Nat) : (bytes count).Ensures fun content => content.length = count := by
  intro input content rest isOk
  rw [run_bytes] at isOk
  split at isOk
  next enough =>
    cases isOk
    exact List.length_take_of_le enough
  next => cases isOk

/-! ## Repetition -/

theorem takes_times {encode : α → List UInt8} {items : List α}
    (each : ∀ item ∈ items, reader.Takes (encode item) item) :
    (reader.times items.length).Takes (items.flatMap encode) items := by
  induction items with
  | nil => exact .pure []
  | cons head tail ih =>
    rw [List.forall_mem_cons] at each
    rw [List.flatMap_cons]
    exact each.1.bind ((ih each.2).bind_pure rfl)

theorem ensures_times (each : reader.Ensures property) (count : Nat) :
    (reader.times count).Ensures fun items => items.length = count ∧ ∀ item ∈ items, property item := by
  induction count with
  | zero => exact .pure ⟨rfl, nofun⟩
  | succ count ih =>
    refine each.bind fun head isHead => ih.bind fun tail isTail => .pure ?_
    exact ⟨congrArg (· + 1) isTail.1, List.forall_mem_cons.mpr ⟨isHead, isTail.2⟩⟩

end Reader

/-! ## Integers -/

namespace Varint

open Reader

/-- A group that is the last one. -/
theorem takes_last {maxLast : UInt8} {count value : Nat} (small : value < 128)
    (fits : count = 0 → value ≤ maxLast.toNat) :
    (readWithin maxLast (count + 1)).Takes [UInt8.ofNat value] value := by
  intro rest
  have group : (UInt8.ofNat value).toNat = value :=
    UInt8.toNat_ofNat_of_lt' (by simp only [UInt8.size]; omega)
  have ends : UInt8.ofNat value < 128 := by
    rw [UInt8.lt_iff_toNat_lt, group]
    exact small
  have allowed : ¬ (count = 0 ∧ maxLast < UInt8.ofNat value) := by
    rintro ⟨last, beyond⟩
    rw [UInt8.lt_iff_toNat_lt, group] at beyond
    exact absurd (fits last) (Nat.not_le.mpr beyond)
  rw [readWithin, StateT.run_bind, takes_byte _ rest, Fallible.ok_bind]
  simp only [ends, allowed, if_true, if_false, group]
  rfl

/-- A group that others follow. -/
theorem takes_group {maxLast : UInt8} {count value rest : Nat} {bytes : List UInt8}
    (small : value < 128) (takes : (readWithin maxLast count).Takes bytes rest) :
    (readWithin maxLast (count + 1)).Takes (UInt8.ofNat (value + 128) :: bytes)
      (value + 128 * rest) := by
  have group : (UInt8.ofNat (value + 128)).toNat = value + 128 :=
    UInt8.toNat_ofNat_of_lt' (by simp only [UInt8.size]; omega)
  have goes : ¬ UInt8.ofNat (value + 128) < 128 := by
    rw [UInt8.lt_iff_toNat_lt, group]
    exact Nat.not_lt.mpr (Nat.le_add_left 128 value)
  rw [← List.singleton_append]
  refine (takes_byte _).bind ?_
  simp only [goes, if_false, group, Nat.add_sub_cancel]
  exact takes.bind_pure rfl

/-- An integer that fits the width is read back. -/
theorem takes_encodeWithin {maxLast : UInt8} (short : maxLast.toNat < 128) {count value : Nat}
    (fits : value < (maxLast.toNat + 1) * 128 ^ count) :
    (readWithin maxLast (count + 1)).Takes (encodeWithin (count + 1) value) value := by
  induction count generalizing value with
  | zero =>
    rw [Nat.pow_zero, Nat.mul_one] at fits
    have small : value < 128 := by omega
    rw [encodeWithin, if_pos small]
    exact takes_last small fun _ => Nat.le_of_lt_succ fits
  | succ count ih =>
    rw [encodeWithin]
    split
    next small => exact takes_last small nofun
    next large =>
      have fewer : value / 128 < (maxLast.toNat + 1) * 128 ^ count := by
        rw [Nat.div_lt_iff_lt_mul (by decide), Nat.mul_assoc, ← Nat.pow_succ]
        exact fits
      have whole := takes_group (Nat.mod_lt value (by decide)) (ih fewer)
      rwa [Nat.mod_add_div] at whole

/-- An integer that is read fits the width. -/
theorem ensures_readWithin (maxLast : UInt8) (count : Nat) :
    (readWithin maxLast (count + 1)).Ensures fun value =>
      value < (maxLast.toNat + 1) * 128 ^ count := by
  induction count with
  | zero =>
    refine (Ensures.trivial byte).bind fun group _ => ?_
    split
    next small =>
      split
      next => exact .throw _
      next allowed =>
        refine .pure ?_
        rw [Nat.pow_zero, Nat.mul_one, Nat.lt_succ_iff, ← UInt8.le_iff_toNat_le]
        simpa using allowed
    next =>
      have fails : (readWithin maxLast 0).Ensures fun _ => False := .throw _
      exact fails.bind nofun
  | succ count ih =>
    refine (Ensures.trivial byte).bind fun group _ => ?_
    split
    next small =>
      split
      next => exact .throw _
      next =>
        refine .pure ?_
        have positive : 0 < (maxLast.toNat + 1) * 128 ^ count :=
          Nat.mul_pos (Nat.succ_pos _) (Nat.pow_pos (by decide))
        rw [Nat.pow_succ, ← Nat.mul_assoc]
        calc group.toNat < 128 := UInt8.lt_iff_toNat_lt.mp small
          _ ≤ (maxLast.toNat + 1) * 128 ^ count * 128 := Nat.le_mul_of_pos_left 128 positive
    next large =>
      refine ih.bind fun rest fits => .pure ?_
      have bound := group.toNat_lt
      rw [Nat.pow_succ, ← Nat.mul_assoc]
      omega

/-- An integer of 64 bits is read back. -/
theorem takes_encode (value : UInt64) : (read .bits64).Takes (encode value) value.toNat :=
  takes_encodeWithin (by decide) (Nat.lt_of_lt_of_le value.toNat_lt (by decide))

theorem ensures_read64 : (read .bits64).Ensures fun value => value < UInt64.size :=
  (ensures_readWithin 0x01 9).mono fun _ fits => Nat.lt_of_lt_of_le fits (by decide)

end Varint

end ContractBackend.Artifact

namespace ContractBackend

/-! ## What can be written -/

/-- The length of a list can be written. -/
def Artifact.Countable {α : Type} (items : List α) : Prop := items.length < UInt64.size

instance {α : Type} (items : List α) : Decidable (Artifact.Countable items) :=
  inferInstanceAs (Decidable (items.length < UInt64.size))

/-- The length of a string can be written. -/
def Artifact.CountableText (text : String) : Prop := Artifact.Countable (Text.Utf8.encode text)

instance (text : String) : Decidable (Artifact.CountableText text) :=
  inferInstanceAs (Decidable (Artifact.Countable _))

open Artifact

/-- All lengths of an operand can be written. -/
def Argument.Fits : Argument → Prop
  | .uint _ => True
  | .bytes value => Countable value
  | .text value | .name value | .label value => CountableText value

instance : DecidablePred Argument.Fits
  | .uint _ => inferInstanceAs (Decidable True)
  | .bytes value => inferInstanceAs (Decidable (Countable value))
  | .text value | .name value | .label value => inferInstanceAs (Decidable (CountableText value))

/-- All lengths of a line can be written. -/
def Line.Fits : Line → Prop
  | .label name comment => CountableText name ∧ ∀ text ∈ comment, CountableText text
  | .instr _ arguments => Countable arguments ∧ ∀ argument ∈ arguments, argument.Fits

instance : DecidablePred Line.Fits
  | .label name comment =>
      inferInstanceAs (Decidable (CountableText name ∧ ∀ text ∈ comment, CountableText text))
  | .instr _ arguments =>
      inferInstanceAs (Decidable (Countable arguments ∧ ∀ argument ∈ arguments, argument.Fits))

/-- All lengths of an artifact can be written. -/
def Artifact.Fits (artifact : Artifact) : Prop :=
  (Countable artifact.assembly.lines ∧ ∀ line ∈ artifact.assembly.lines, line.Fits) ∧
    CountableText artifact.text

instance (artifact : Artifact) : Decidable artifact.Fits :=
  inferInstanceAs (Decidable (_ ∧ _))

theorem Text.Utf8.encode_of_decode? {bytes : List UInt8} {text : String}
    (decoded : decode? bytes = some text) : encode text = bytes := by
  unfold decode? String.fromUTF8? at decoded
  split at decoded
  next valid =>
    cases decoded
    apply List.toByteArray_inj.mp
    exact toByteArray_encode _
  next => cases decoded

namespace Artifact

open Reader

/-! ## Numbers -/

theorem takes_length {number : Nat} (small : number < UInt64.size) :
    readLength.Takes (encodeNumber number) number := by
  have whole := Varint.takes_encode (UInt64.ofNat number)
  rwa [UInt64.toNat_ofNat_of_lt' small] at whole

/-- Alternatives are numbered by one byte. -/
theorem takes_variant {number : Nat} (small : number < 128) :
    readVariant.Takes (encodeNumber number) number := by
  have whole : (UInt64.ofNat number).toNat = number :=
    UInt64.toNat_ofNat_of_lt' (Nat.lt_trans small (by decide))
  have single : encodeNumber number = [UInt8.ofNat number] := by
    simp [encodeNumber, Varint.encode, whole, VarintWidth.bits64, Varint.encodeWithin, small]
  rw [single]
  exact Varint.takes_last small fun isLast => absurd isLast (by decide)

theorem takes_choice {α : Type} [DecidableEq α] {choices : List α} (few : choices.length ≤ 128)
    {choice : α} (listed : choice ∈ choices) :
    (readChoice choices).Takes (encodeNumber (choices.idxOf choice)) choice := by
  have inside : choices.idxOf choice < choices.length := List.idxOf_lt_length_of_mem listed
  have found : choices[choices.idxOf choice]? = some choice := by
    rw [List.getElem?_eq_getElem inside, List.getElem_idxOf]
  refine (takes_variant (Nat.lt_of_lt_of_le inside few)).bind_pure ?_
  rw [found]

/-! ## Strings and lists -/

theorem takes_encodeBytes {content : List UInt8} (fits : Countable content) :
    readBytes.Takes (encodeBytes content) content :=
  (takes_length fits).bind (takes_bytes content)

theorem ensures_readBytes : readBytes.Ensures Countable := by
  refine Varint.ensures_read64.bind fun count small => (ensures_bytes count).mono ?_
  intro content isLength
  exact Nat.lt_of_le_of_lt (Nat.le_of_eq isLength) small

theorem takes_encodeString {text : String} (fits : CountableText text) :
    readString.Takes (encodeString text) text := by
  refine (takes_encodeBytes fits).bind_pure ?_
  rw [Text.Utf8.decode?_encode]

theorem ensures_readString : readString.Ensures CountableText := by
  refine ensures_readBytes.bind fun content fits => ?_
  split
  next text decoded =>
    refine .pure ?_
    rw [CountableText, Text.Utf8.encode_of_decode? decoded]
    exact fits
  next => exact .throw _

theorem takes_encodeComment {comment : Option String} (fits : ∀ text ∈ comment, CountableText text) :
    readComment.Takes (encodeComment comment) comment := by
  cases comment with
  | none => exact (takes_byte 0).bind_pure rfl
  | some text => exact (takes_byte 1).bind ((takes_encodeString (fits text rfl)).map some)

theorem ensures_readComment :
    readComment.Ensures fun comment => ∀ text ∈ comment, CountableText text := by
  refine (Ensures.trivial byte).bind fun tag _ => ?_
  split
  · exact .pure nofun
  · refine .map (ensures_readString.mono ?_)
    rintro text fits _ ⟨⟩
    exact fits
  · exact .throw _

variable {α : Type} {reader : Reader α} {artifact : Artifact}

theorem takes_encodeList {write : α → List UInt8} {items : List α} (fits : Countable items)
    (each : ∀ item ∈ items, reader.Takes (write item) item) :
    (readList reader).Takes (encodeList write items) items :=
  (takes_length fits).bind (takes_times each)

theorem ensures_readList {property : α → Prop} (each : reader.Ensures property) :
    (readList reader).Ensures fun items => Countable items ∧ ∀ item ∈ items, property item := by
  refine Varint.ensures_read64.bind fun count small => (ensures_times each count).mono ?_
  rintro items ⟨isLength, all⟩
  exact ⟨Nat.lt_of_le_of_lt (Nat.le_of_eq isLength) small, all⟩

/-! ## Operands and lines -/

theorem takes_encodeArgument {argument : Argument} (fits : argument.Fits) :
    readArgument.Takes (encodeArgument argument) argument := by
  cases argument with
  | uint value =>
    have whole := (Varint.takes_encode value).map (Argument.uint ∘ UInt64.ofNat)
    rw [Function.comp_apply, UInt64.ofNat_toNat] at whole
    exact (takes_variant (by decide)).bind whole
  | bytes value => exact (takes_variant (by decide)).bind ((takes_encodeBytes fits).map _)
  | text | name | label => exact (takes_variant (by decide)).bind ((takes_encodeString fits).map _)

theorem ensures_readArgument : readArgument.Ensures Argument.Fits := by
  refine (Ensures.trivial readVariant).bind fun tag _ => ?_
  split
  · exact .map (.trivial _)
  · exact .map ensures_readBytes
  · exact .map ensures_readString
  · exact .map ensures_readString
  · exact .map ensures_readString
  · exact .throw _

theorem takes_encodeLine {line : Line} (fits : line.Fits) :
    readLine.Takes (encodeLine line) line := by
  cases line with
  | label name comment =>
    rw [encodeLine, List.append_assoc]
    exact (takes_variant (by decide)).bind ((takes_encodeString fits.1).bind
      ((takes_encodeComment fits.2).bind_pure rfl))
  | instr op arguments =>
    have listed : op ∈ Opcode.all := by cases op <;> decide
    have each : ∀ argument ∈ arguments, readArgument.Takes (encodeArgument argument) argument :=
      fun argument mem => takes_encodeArgument (fits.2 argument mem)
    rw [encodeLine, List.append_assoc]
    exact (takes_variant (by decide)).bind ((takes_choice (by decide) listed).bind
      ((takes_encodeList fits.1 each).bind_pure rfl))

theorem ensures_readLine : readLine.Ensures Line.Fits := by
  refine (Ensures.trivial readVariant).bind fun tag _ => ?_
  split
  · exact ensures_readString.bind fun name fits =>
      ensures_readComment.bind fun comment fitsComment => .pure ⟨fits, fitsComment⟩
  · exact (Ensures.trivial _).bind fun op _ =>
      (ensures_readList ensures_readArgument).bind fun arguments fits => .pure fits
  · exact .throw _

/-! ## Artifacts -/

theorem takes_encode (fits : artifact.Fits) :
    read.Takes (encode artifact) artifact := by
  have listed : artifact.mode ∈ Mode.all := by cases artifact.mode <;> decide
  have each : ∀ line ∈ artifact.assembly.lines, readLine.Takes (encodeLine line) line :=
    fun line mem => takes_encodeLine (fits.1.2 line mem)
  have assembly : readAssembly.Takes (encodeAssembly artifact.assembly) artifact.assembly :=
    (takes_byte _).bind ((takes_encodeList fits.1.1 each).bind_pure rfl)
  rw [encode, List.append_assoc]
  exact (takes_byte _).bind ((takes_choice (by decide) listed).bind (assembly.bind
    ((takes_encodeString fits.2).bind_pure rfl)))

theorem ensures_read : read.Ensures Fits := by
  have assembly : readAssembly.Ensures fun assembly =>
      Countable assembly.lines ∧ ∀ line ∈ assembly.lines, line.Fits :=
    (Ensures.trivial _).bind fun _ _ =>
      (ensures_readList ensures_readLine).bind fun lines fits => .pure fits
  exact (Ensures.trivial _).bind fun _ _ => (Ensures.trivial _).bind fun _ _ =>
    assembly.bind fun _ fits => ensures_readString.bind fun _ fitsText => .pure ⟨fits, fitsText⟩

theorem decode_encode_append (fits : artifact.Fits) (rest : List UInt8) :
    decode (encode artifact ++ rest) = .ok artifact := by
  rw [decode, StateT.run'_eq, takes_encode fits]
  rfl

theorem fits_of_decode {bytes : List UInt8} (decoded : decode bytes = .ok artifact) :
    artifact.Fits := by
  rw [decode, StateT.run'_eq, map_eq_pure_bind, Fallible.bind_eq_ok] at decoded
  obtain ⟨⟨value, rest⟩, isRead, ⟨⟩⟩ := decoded
  exact ensures_read bytes value rest isRead

/-- The artifacts whose lengths can be written are exactly those read back from their bytes,
whatever follows. Hence different ones have different bytes, and what any bytes hold is read back
from its own. -/
theorem artifacts_survive_encoding :
    (∀ (artifact : Artifact) (rest : List UInt8),
      decode (encode artifact ++ rest) = .ok artifact ↔ artifact.Fits) ∧
    (∀ first second : Artifact, first.Fits → second.Fits →
      encode first = encode second → first = second) ∧
    ∀ (bytes : List UInt8) (artifact : Artifact), decode bytes = .ok artifact →
      artifact.Fits ∧ decode (encode artifact) = .ok artifact := by
  have back {artifact : Artifact} (fits : artifact.Fits) :
      decode (encode artifact) = .ok artifact := by
    rw [← List.append_nil (encode artifact)]
    exact decode_encode_append fits []
  refine ⟨fun artifact rest => ⟨fits_of_decode, fun fits => decode_encode_append fits rest⟩, ?_, ?_⟩
  · intro first second fitsFirst fitsSecond same
    have read := back fitsFirst
    rw [same, back fitsSecond] at read
    exact (Except.ok.inj read).symm
  · intro bytes artifact decoded
    exact ⟨fits_of_decode decoded, back (fits_of_decode decoded)⟩

theorem artifacts_survive_encoding_accented :
    ∃ artifact : Artifact, artifact.Fits ∧
      (encode artifact).length = 37 ∧ decode (encode artifact ++ [0xff]) = .ok artifact ∧
        decode (encode artifact) = .ok artifact := by
  let artifact : Artifact :=
    { version := 8
      mode := .application
      assembly := ⟨8, [.label "l0" (some "é"), .instr .int [.uint 0xffffffffffffffff],
        .instr .byte [.bytes [0, 0x80]], .instr .ret []]⟩
      text := "" }
  have fits : artifact.Fits := by decide
  have extended := (artifacts_survive_encoding.1 artifact [0xff]).mpr fits
  exact ⟨artifact, fits, by decide, extended,
    (artifacts_survive_encoding.2.2 _ artifact extended).2⟩

end Artifact

end ContractBackend
