import Mathlib.Tactic.IntervalCases
import RemoteMenu.Frame.Basic

/-!
# Frames and their bytes

A frame within the limits and its bytes determine each other. `Header.decode_encode` and
`Header.encode_of_decode` say so of the header, `Frame.parse_of_assemble` and
`Frame.assemble_of_parse` of the frame. `Frame.WellFormed` describes the bytes that spell a frame
without naming either direction, and `Frame.codec_bijective` puts the three together.
-/

namespace RemoteMenu

/-! ### The first word -/

/-- A word below 2²⁴ has no highest byte. -/
theorem ofBigEndian_zero_of_le {id : UInt32} (le : id ≤ functionIdLimit) :
    ofBigEndian 0 (id >>> 16).toUInt8 (id >>> 8).toUInt8 id.toUInt8 = id := by
  have bound : id.toNat < 2 ^ 24 := Nat.lt_succ_of_le (UInt32.le_iff_toNat_le.1 le)
  have top : (id >>> 24).toUInt8 = 0 := by
    apply UInt8.toNat_inj.1
    simp [Nat.shiftRight_eq_div_pow]
    omega
  rw [← top]
  exact ofBigEndian_bigEndian id

theorem ofBigEndian_zero_le (a b c : UInt8) : ofBigEndian 0 a b c ≤ functionIdLimit := by
  have ha := a.toNat_lt
  have hb := b.toNat_lt
  have hc := c.toNat_lt
  rw [UInt32.le_iff_toNat_le]
  simp only [ofBigEndian, functionIdLimit, UInt8.toNat_zero, UInt32.toNat_ofNat, UInt32.toNat_ofNat']
  omega

theorem toNat_ofBigEndian (a b c d : UInt8) :
    (ofBigEndian a b c d).toNat =
      a.toNat * 2 ^ 24 + b.toNat * 2 ^ 16 + c.toNat * 2 ^ 8 + d.toNat := by
  have ha := a.toNat_lt
  have hb := b.toNat_lt
  have hc := c.toNat_lt
  have hd := d.toNat_lt
  simp only [ofBigEndian, UInt32.toNat_ofNat']
  omega

namespace Header

/-- The kind is the highest byte of the first word, the function id is what is below it. -/
theorem firstWord_eq {h : Header} (le : h.functionId ≤ functionIdLimit) :
    h.firstWord = ofBigEndian h.kind.value (h.functionId >>> 16).toUInt8
      (h.functionId >>> 8).toUInt8 h.functionId.toUInt8 := by
  have bound : h.functionId.toNat < 2 ^ 24 := Nat.lt_succ_of_le (UInt32.le_iff_toNat_le.1 le)
  have below : (h.functionId &&& functionIdLimit).toNat = h.functionId.toNat := by
    rw [UInt32.toNat_and, show functionIdLimit.toNat = 2 ^ 24 - 1 from rfl,
      Nat.and_two_pow_sub_one_eq_mod, Nat.mod_eq_of_lt bound]
  have above : (h.kind.value.toUInt32 <<< 24).toNat = h.kind.value.toNat <<< 24 := by
    cases h.kind <;> rfl
  have id := congrArg UInt32.toNat (ofBigEndian_zero_of_le le)
  rw [toNat_ofBigEndian, UInt8.toNat_zero, Nat.zero_mul, Nat.zero_add] at id
  apply UInt32.toNat_inj.1
  calc h.firstWord.toNat
      = h.kind.value.toNat * 2 ^ 24 + h.functionId.toNat := by
        rw [firstWord, UInt32.toNat_or, above, below, ← Nat.shiftLeft_add_eq_or_of_lt bound,
          Nat.shiftLeft_eq]
    _ = _ := by rw [toNat_ofBigEndian, Nat.add_assoc, Nat.add_assoc, ← Nat.add_assoc (_ * 2 ^ 16), id]

/-- The bytes of a header, each read off the header. -/
theorem encode_eq {h : Header} (le : h.functionId ≤ functionIdLimit) :
    h.encode =
      [h.kind.value, (h.functionId >>> 16).toUInt8, (h.functionId >>> 8).toUInt8,
        h.functionId.toUInt8] ++ bigEndian h.correlationId ++ bigEndian h.payloadSize := by
  rw [encode, firstWord_eq le, bigEndian_ofBigEndian]

/-- A header is read back, whatever follows it. -/
theorem decode_encode {h : Header} (le : h.functionId ≤ functionIdLimit) (rest : ByteArray) :
    decode (h.encode.toByteArray ++ rest) = .ok h := by
  have long : 12 ≤ (h.encode.toByteArray ++ rest).size := by
    rw [ByteArray.size_append, List.size_toByteArray, length_encode]
    exact Nat.le_add_right 12 _
  unfold decode
  rw [dif_pos long]
  simp only [encode_eq le, bigEndian]
  simp [ofBigEndian_zero_of_le le, ofBigEndian_bigEndian]

/-- What a successful reading has seen: the kind of the first byte, and three numbers in the
eleven bytes after it. -/
theorem decode_eq_ok {bytes : ByteArray} {h : Header} (read : decode bytes = .ok h) :
    12 ≤ bytes.size ∧
      h.kind.value = bytes[0]! ∧
      h.functionId = ofBigEndian 0 bytes[1]! bytes[2]! bytes[3]! ∧
      h.correlationId = ofBigEndian bytes[4]! bytes[5]! bytes[6]! bytes[7]! ∧
      h.payloadSize = ofBigEndian bytes[8]! bytes[9]! bytes[10]! bytes[11]! := by
  unfold decode at read
  split at read
  case isFalse => contradiction
  case isTrue long =>
    split at read
    case h_1 => contradiction
    case h_2 kind known =>
      cases read
      have byte (i : Nat) (lt : i < 12) : bytes[i]! = bytes[i] := getElem!_pos bytes i (by omega)
      simp only [byte, Nat.reduceLT]
      exact ⟨long, FrameKind.value_of_ofValue? known, trivial, trivial, trivial⟩

/-- A header is read off twelve bytes or more that start with the number of a kind. -/
theorem exists_decode_eq_ok {bytes : ByteArray} :
    (∃ h, decode bytes = .ok h) ↔
      12 ≤ bytes.size ∧ (bytes[0]! = 0 ∨ bytes[0]! = 1 ∨ bytes[0]! = 2) := by
  constructor
  · rintro ⟨h, read⟩
    obtain ⟨long, kind, -⟩ := decode_eq_ok read
    refine ⟨long, ?_⟩
    rw [← kind]
    cases h.kind <;> decide
  · rintro ⟨long, first⟩
    rw [getElem!_pos bytes 0 (by omega)] at first
    unfold decode
    rw [dif_pos long]
    rcases first with first | first | first <;> simp [first, FrameKind.ofValue?]

/-- A header that was read spells the bytes it was read from. -/
theorem encode_of_decode {bytes : ByteArray} {h : Header} (read : decode bytes = .ok h) :
    h.functionId ≤ functionIdLimit ∧ h.encode.toByteArray = bytes.extract 0 size := by
  obtain ⟨long, kind, id, correlation, payload⟩ := decode_eq_ok read
  have byte (i : Nat) (lt : i < 12) : bytes[i]! = bytes[i] := getElem!_pos bytes i (by omega)
  have le : h.functionId ≤ functionIdLimit := id ▸ ofBigEndian_zero_le _ _ _
  refine ⟨le, ?_⟩
  have low : bigEndian h.functionId = [(0 : UInt8), bytes[1]!, bytes[2]!, bytes[3]!] := by
    rw [id, bigEndian_ofBigEndian]
  simp only [bigEndian, List.cons.injEq, and_true] at low
  have spelled : h.encode = [bytes[0]!, bytes[1]!, bytes[2]!, bytes[3]!, bytes[4]!, bytes[5]!, bytes[6]!,
      bytes[7]!, bytes[8]!, bytes[9]!, bytes[10]!, bytes[11]!] := by
    rw [encode_eq le, kind, low.2.1, low.2.2.1, low.2.2.2, correlation, payload,
      bigEndian_ofBigEndian, bigEndian_ofBigEndian]
    rfl
  have sizes : h.encode.toByteArray.size = (bytes.extract 0 size).size := by
    rw [List.size_toByteArray, length_encode, ByteArray.size_extract, size, Nat.min_eq_left long]
  -- Both sides are twelve bytes by now, to be compared one by one.
  refine ByteArray.ext_getElem sizes fun i lt _ => ?_
  rw [List.size_toByteArray, length_encode, size] at lt
  simp only [List.getElem_toByteArray, ByteArray.getElem_extract, spelled, Nat.zero_add, ← byte i lt]
  interval_cases i <;> rfl

end Header

namespace Frame

/-- A frame has bytes just if its function id and its payload are within their limits; they are
its header's, the payload's and the bulk's. -/
theorem assemble_eq_ok {f : Frame} {bytes : ByteArray} :
    f.assemble = .ok bytes ↔
      f.functionId ≤ functionIdLimit ∧ f.payload.size ≤ payloadLimit ∧
        bytes = f.header.encode.toByteArray ++ f.payload ++ f.bulk := by
  rw [← checkFunctionId_eq_ok, ← checkPayloadSize_eq_ok]
  unfold assemble
  cases checkFunctionId f.functionId with
  | error e => simp [bind, Except.bind]
  | ok =>
    cases checkPayloadSize f.payload.size with
    | error e => simp [bind, Except.bind]
    | ok => simp [bind, Except.bind, pure, Except.pure, eq_comm]

def split (h : Header) (bytes : ByteArray) : Frame where
  kind := h.kind
  functionId := h.functionId
  correlationId := h.correlationId
  payload := bytes.extract Header.size (Header.size + h.payloadSize.toNat)
  bulk := bytes.extract (Header.size + h.payloadSize.toNat) bytes.size

/-- A frame is read just if a header is, and the payload that it declares is there and within the
limit. -/
theorem parse_eq_ok {bytes : ByteArray} {f : Frame} :
    parse bytes = .ok f ↔
      ∃ h, Header.decode bytes = .ok h ∧ h.payloadSize.toNat ≤ bytes.size - Header.size ∧
        h.payloadSize.toNat ≤ payloadLimit ∧ f = split h bytes := by
  unfold parse
  cases read : Header.decode bytes with
  | error e => simp [bind, Except.bind]
  | ok h =>
    simp only [Except.ok.injEq, exists_eq_left', ← checkPayloadSize_eq_ok]
    by_cases there : bytes.size - Header.size < h.payloadSize.toNat
    · -- A payload that is cut off is noticed before one that is too large.
      simp [bind, Except.bind, there, throw, throwThe, MonadExceptOf.throw, Nat.not_le_of_lt]
    · cases check : checkPayloadSize h.payloadSize.toNat with
      | error e => simp [bind, Except.bind, there, check]
      | ok =>
        simp [bind, Except.bind, pure, Except.pure, there, check, split, eq_comm,
          Nat.le_of_not_lt there]

/-- The payload that a frame within the limit declares is the one that it has. -/
theorem toNat_payloadSize_header {f : Frame} (fits : f.payload.size ≤ payloadLimit) :
    f.header.payloadSize.toNat = f.payload.size := by
  have small : f.payload.size < 2 ^ 32 := Nat.lt_of_le_of_lt fits (by decide)
  simp only [header, Nat.toUInt32, UInt32.toNat_ofNat', Nat.mod_eq_of_lt small]

/-- The frame that was cut out of bytes has the header it was cut by. -/
theorem header_split {h : Header} {bytes : ByteArray}
    (there : h.payloadSize.toNat ≤ bytes.size - Header.size) (long : Header.size ≤ bytes.size) :
    (split h bytes).payload.size = h.payloadSize.toNat ∧ (split h bytes).header = h := by
  have size : (split h bytes).payload.size = h.payloadSize.toNat := by
    simp only [split, ByteArray.size_extract]
    omega
  have word : (split h bytes).payload.size.toUInt32 = h.payloadSize := by
    rw [size]
    exact UInt32.ofNat_toNat
  exact ⟨size, by rw [header, word, split]⟩

/-- Cutting a frame's bytes behind the header and behind the payload gives the frame. -/
theorem split_append {f : Frame} (fits : f.payload.size ≤ payloadLimit) :
    split f.header (f.header.encode.toByteArray ++ f.payload ++ f.bulk) = f := by
  have size : f.header.encode.toByteArray.size = Header.size := by
    rw [List.size_toByteArray, Header.length_encode]
  have body : (f.header.encode.toByteArray ++ f.payload).size = Header.size + f.payload.size := by
    rw [ByteArray.size_append, size]
  rw [split, toNat_payloadSize_header fits]
  congr
  · calc (f.header.encode.toByteArray ++ f.payload ++ f.bulk).extract Header.size
            (Header.size + f.payload.size)
        = (f.header.encode.toByteArray ++ f.payload).extract Header.size
            (Header.size + f.payload.size) := by
          rw [ByteArray.extract_append, body, Nat.sub_self]
          simp
      _ = f.payload := ByteArray.extract_append_eq_right size.symm (by rw [size])
  · exact ByteArray.extract_append_eq_right body.symm ByteArray.size_append

theorem parse_of_assemble {f : Frame} {bytes : ByteArray} (written : f.assemble = .ok bytes) :
    parse bytes = .ok f := by
  obtain ⟨id, fits, rfl⟩ := assemble_eq_ok.1 written
  have declared := toNat_payloadSize_header fits
  have whole : (f.header.encode.toByteArray ++ f.payload ++ f.bulk).size = f.encodedSize := by
    rw [ByteArray.size_append, ByteArray.size_append, List.size_toByteArray, Header.length_encode,
      encodedSize]
  refine parse_eq_ok.2 ⟨f.header, ?_, ?_, ?_, (split_append fits).symm⟩
  · rw [ByteArray.append_assoc]
    exact Header.decode_encode id _
  · rw [declared, whole, encodedSize]
    omega
  · rwa [declared]

theorem assemble_of_parse {f : Frame} {bytes : ByteArray} (read : parse bytes = .ok f) :
    f.assemble = .ok bytes := by
  obtain ⟨h, decoded, there, fits, rfl⟩ := parse_eq_ok.1 read
  obtain ⟨long, -⟩ := Header.decode_eq_ok decoded
  obtain ⟨id, spelled⟩ := Header.encode_of_decode decoded
  obtain ⟨size, same⟩ := header_split there long
  refine assemble_eq_ok.2 ⟨id, size ▸ fits, ?_⟩
  have body : Header.size + h.payloadSize.toNat ≤ bytes.size := by
    have : Header.size ≤ bytes.size := long
    omega
  calc bytes
      = bytes.extract 0 bytes.size := ByteArray.extract_zero_size.symm
    _ = bytes.extract 0 Header.size ++ bytes.extract Header.size (Header.size + h.payloadSize.toNat) ++
          bytes.extract (Header.size + h.payloadSize.toNat) bytes.size := by
        rw [← ByteArray.extract_eq_extract_append_extract _ (Nat.zero_le _) (Nat.le_add_right _ _),
          ← ByteArray.extract_eq_extract_append_extract _ (Nat.zero_le _) body]
    _ = (split h bytes).header.encode.toByteArray ++ (split h bytes).payload ++
          (split h bytes).bulk := by
        rw [same, spelled, split]

def declaredSize (bytes : ByteArray) : Nat :=
  bytes[8]!.toNat * 2 ^ 24 + bytes[9]!.toNat * 2 ^ 16 + bytes[10]!.toNat * 2 ^ 8 + bytes[11]!.toNat

/-- Bytes that spell a frame: there is a whole header, its first byte is the number of a kind, and
the payload that it declares is there and at most 8 MiB. -/
structure WellFormed (bytes : ByteArray) : Prop where
  header : 12 ≤ bytes.size
  kind : bytes[0]! = 0 ∨ bytes[0]! = 1 ∨ bytes[0]! = 2
  there : declaredSize bytes ≤ bytes.size - 12
  limit : declaredSize bytes ≤ 8 * 1024 * 1024

theorem toNat_payloadSize_of_decode {bytes : ByteArray} {h : Header}
    (decoded : Header.decode bytes = .ok h) : h.payloadSize.toNat = declaredSize bytes := by
  obtain ⟨_, _, _, _, payload⟩ := Header.decode_eq_ok decoded
  rw [payload, toNat_ofBigEndian, declaredSize]

theorem exists_parse_eq_ok {bytes : ByteArray} :
    (∃ f, parse bytes = .ok f) ↔ WellFormed bytes := by
  constructor
  · rintro ⟨f, read⟩
    obtain ⟨h, decoded, there, fits, -⟩ := parse_eq_ok.1 read
    obtain ⟨long, kind⟩ := Header.exists_decode_eq_ok.1 ⟨h, decoded⟩
    have declared := toNat_payloadSize_of_decode decoded
    exact ⟨long, kind, declared ▸ there, declared ▸ fits⟩
  · rintro ⟨long, kind, there, limit⟩
    obtain ⟨h, decoded⟩ := Header.exists_decode_eq_ok.2 ⟨long, kind⟩
    have declared := toNat_payloadSize_of_decode decoded
    exact ⟨_, parse_eq_ok.2 ⟨h, decoded, declared ▸ there, declared ▸ limit, rfl⟩⟩

/-- Frames within the limits and well-formed bytes correspond one to one: every frame within the
limits has bytes, and no other has; bytes are a frame's just if they are read as that frame; and
the bytes that are read as some frame are the well-formed ones. -/
theorem codec_bijective :
    (∀ f : Frame, (∃ bytes, f.assemble = .ok bytes) ↔
      f.functionId ≤ 0x00FFFFFF ∧ f.payload.size ≤ 8 * 1024 * 1024) ∧
    (∀ (f : Frame) bytes, f.assemble = .ok bytes ↔ parse bytes = .ok f) ∧
    (∀ bytes, (∃ f, parse bytes = .ok f) ↔ WellFormed bytes) := by
  refine ⟨fun f => ⟨?_, ?_⟩, fun f bytes => ⟨parse_of_assemble, assemble_of_parse⟩,
    fun bytes => exists_parse_eq_ok⟩
  · rintro ⟨bytes, written⟩
    obtain ⟨id, fits, -⟩ := assemble_eq_ok.1 written
    exact ⟨id, fits⟩
  · rintro ⟨id, fits⟩
    exact ⟨_, assemble_eq_ok.2 ⟨id, fits, rfl⟩⟩

end Frame

end RemoteMenu
