import Atproto.Dasl.Cbor.Decode

/-!
# One form for every item

The decoder reads an item back from its encoding, and it accepts no other bytes for it.
-/

namespace Atproto.Dasl

open Wire

variable {config : DecodeConfig}

/-! ### Arguments -/

/-- The bytes of an argument after the initial byte. -/
def argumentBytes (arg : Nat) : Bytes :=
  if arg < 24 then []
  else if arg ≤ 0xff then beBytes 1 arg
  else if arg ≤ 0xffff then beBytes 2 arg
  else if arg ≤ 0xffffffff then beBytes 4 arg
  else beBytes 8 arg

theorem encodeHead_eq (major arg : Nat) :
  encodeHead major arg = makeInitialByte major (expectedAdditional arg) :: argumentBytes arg
  := by
  rw [encodeHead, expectedAdditional, argumentBytes]
  split_ifs
  · rfl
  · rfl
  · rfl
  · rfl
  · rfl

theorem expectedAdditional_lt (arg : Nat) :
  expectedAdditional arg < 32
  := by
  rw [expectedAdditional]
  split_ifs
  · omega
  · decide
  · decide
  · decide
  · decide

/-- The additional information tells how many bytes an argument has. -/
theorem argumentBytes_of_expected (arg : Nat) :
  (expectedAdditional arg = AdditionalInfo.oneByte → argumentBytes arg = beBytes 1 arg) ∧
    (expectedAdditional arg = AdditionalInfo.twoBytes → argumentBytes arg = beBytes 2 arg) ∧
    (expectedAdditional arg = AdditionalInfo.fourBytes → argumentBytes arg = beBytes 4 arg) ∧
    (expectedAdditional arg = AdditionalInfo.eightBytes → argumentBytes arg = beBytes 8 arg)
  := by
  rw [expectedAdditional, argumentBytes, AdditionalInfo.oneByte, AdditionalInfo.twoBytes,
    AdditionalInfo.fourBytes, AdditionalInfo.eightBytes]
  split_ifs with hdirect
  · refine ⟨?_, ?_, ?_, ?_⟩ <;> omega
  · simp
  · simp
  · simp
  · simp

theorem readByte_reads (byte : UInt8) {excuse : Prop} :
  Reads readByte [byte] byte 0 excuse
  := fun _ _ => Or.inl rfl

theorem readByte_parses :
  Parses readByte fun byte bytes => bytes = [byte]
  := by
  intro input byte rest hok
  cases input with
  | nil => cases hok
  | cons first input =>
    cases hok
    exact ⟨[byte], rfl, rfl⟩

theorem readBytes_reads (bytes : Bytes) :
  Reads (readBytes config bytes.length) bytes bytes 0 (config.maxAlloc < bytes.length)
  := by
  intro rest _
  rw [readBytes]
  split_ifs with halloc hlength
  · exact Or.inr ⟨⟨_, rfl⟩, halloc⟩
  · rw [List.length_append] at hlength
    omega
  · rw [List.take_left, List.drop_left]
    exact Or.inl rfl

theorem readBytes_parses (n : Nat) :
  Parses (readBytes config n) fun a bytes => a = bytes ∧ bytes.length = n ∧ n ≤ config.maxAlloc
  := by
  intro input a rest hok
  rw [readBytes] at hok
  split_ifs at hok with halloc hlength
  cases hok
  refine ⟨input.take n, (List.take_append_drop n input).symm, rfl, ?_, Nat.not_lt.mp halloc⟩
  rw [List.length_take]
  omega

theorem readNumber_reads {n value : Nat} (h : value < 256 ^ n) :
  Reads (readNumber config n) (beBytes n value) value 0 (config.maxAlloc < n)
  := by
  have hread := @readBytes_reads config (beBytes n value)
  rw [length_beBytes] at hread
  rw [readNumber]
  apply hread.bind_nil _ (le_refl 0)
  rw [beValue_beBytes h]
  exact Reads.pure value

theorem readNumber_parses (n : Nat) :
  Parses (readNumber config n) fun value bytes => bytes = beBytes n value ∧ value < 256 ^ n
  := by
  apply (readBytes_parses n).bind
  rintro bytes _ ⟨rfl, rfl, -⟩
  apply Parses.pure
  rw [List.append_nil, beBytes_beValue]
  exact ⟨rfl, beValue_lt bytes⟩

theorem readAnyArgument_reads {arg : Nat} (h : arg < 2 ^ 64) :
  Reads (readAnyArgument config (expectedAdditional arg)) (argumentBytes arg) arg 0
    (config.maxAlloc < 8)
  := by
  rw [expectedAdditional, argumentBytes]
  split_ifs with h23 h1 h2 h4
  · rw [readAnyArgument, if_pos (by omega)]
    exact Reads.pure arg
  · have hbyte : beBytes 1 arg = [UInt8.ofNat arg] := by simp [beBytes]
    have hvalue : (UInt8.ofNat arg).toNat = arg :=
      UInt8.toNat_ofNat'.trans (Nat.mod_eq_of_lt (Nat.lt_succ_of_le h1))
    rw [hbyte]
    apply (readByte_reads (UInt8.ofNat arg)).bind_nil _ (le_refl 0)
    rw [hvalue]
    exact Reads.pure arg
  · exact (readNumber_reads (by omega)).mono (le_refl _) (by omega)
  · exact (readNumber_reads (by omega)).mono (le_refl _) (by omega)
  · exact (readNumber_reads (by omega)).mono (le_refl _) (by omega)

theorem readArgument_reads {arg : Nat} (h : arg < 2 ^ 64) (major : Nat) :
  Reads (readArgument config major (expectedAdditional arg)) (argumentBytes arg) arg 0
    (config.maxAlloc < 8)
  := by
  rw [readArgument]
  apply (readAnyArgument_reads h).bind_nil _ (le_refl 0)
  rw [validateCanonical, if_neg (not_not.mpr rfl)]
  exact Reads.pure arg

theorem readAnyArgument_parses {additional : Nat} (h : additional < 32) :
  Parses (readAnyArgument config additional) fun arg bytes =>
    arg < 2 ^ 64 ∧ (additional = expectedAdditional arg → bytes = argumentBytes arg)
  := by
  rw [readAnyArgument]
  split_ifs with hdirect hone htwo hfour height hindefinite
  · apply Parses.pure
    use by omega
    intro _
    rw [argumentBytes, if_pos (by omega)]
  · apply readByte_parses.bind
    rintro byte _ rfl
    have hlt := byte.toNat_lt
    apply Parses.pure
    use by omega
    intro heq
    have hbyte : beBytes 1 byte.toNat = [byte] := by simp [beBytes]
    rw [(argumentBytes_of_expected _).1 (heq.symm.trans hone), hbyte, List.append_nil]
  · apply (readNumber_parses 2).mono
    rintro value bytes ⟨rfl, hlt⟩
    use by omega
    intro heq
    rw [(argumentBytes_of_expected _).2.1 (heq.symm.trans htwo)]
  · apply (readNumber_parses 4).mono
    rintro value bytes ⟨rfl, hlt⟩
    use by omega
    intro heq
    rw [(argumentBytes_of_expected _).2.2.1 (heq.symm.trans hfour)]
  · apply (readNumber_parses 8).mono
    rintro value bytes ⟨rfl, hlt⟩
    use by omega
    intro heq
    rw [(argumentBytes_of_expected _).2.2.2 (heq.symm.trans height)]
  · exact Parses.fail
  · exact Parses.fail

theorem readArgument_parses {major additional : Nat} (h : additional < 32) :
  Parses (readArgument config major additional) fun arg bytes =>
    arg < 2 ^ 64 ∧ additional = expectedAdditional arg ∧ bytes = argumentBytes arg
  := by
  apply (readAnyArgument_parses h).bind
  rintro arg bytes ⟨harg, hbytes⟩
  rw [validateCanonical]
  split_ifs with hne
  · exact Parses.fail
  · apply Parses.pure
    rw [not_not] at hne
    rw [List.append_nil]
    exact ⟨harg, hne, hbytes hne⟩

/-! ### Items -/

/-- The one encoding of an item. -/
def CborItem.encode : CborItem → Bytes
  | .unsigned value => encodeHead MajorType.unsigned value
  | .negative value => encodeHead MajorType.negative (-1 - value).toNat
  | .bytes data => encodeHead MajorType.bytes data.length ++ data
  | .text string => encodeHead MajorType.text string.bytes.length ++ string.bytes
  | .array length => encodeHead MajorType.array length
  | .map length => encodeHead MajorType.map length
  | .tag number => encodeHead MajorType.tag number
  | .bool value => encodeBool value
  | .null => encodeNull
  | .float bits => makeInitialByte MajorType.simple SimpleValue.float64 :: beBytes 8 bits.toNat

/-- A floating-point number that can be encoded. -/
def IsFinite (bits : UInt64) : Prop := isNan bits = false ∧ isInfinite bits = false

/-- The items that can be encoded: arguments have 64 bits, the only tag is that of CIDs, and
floating-point numbers are finite. -/
def CborItem.Valid : CborItem → Prop
  | .unsigned value => value < 2 ^ 64
  | .negative value => value < 0 ∧ -1 - value < 2 ^ 64
  | .bytes data => data.length < 2 ^ 64
  | .text string => string.bytes.length < 2 ^ 64
  | .array length => length < 2 ^ 64
  | .map length => length < 2 ^ 64
  | .tag number => number = cidTag
  | .bool _ => True
  | .null => True
  | .float bits => IsFinite bits

/-- A count within a limit, where zero is no limit. -/
def WithinLimit (limit count : Nat) : Prop := limit > 0 → count ≤ limit

instance (limit count : Nat) : Decidable (WithinLimit limit count) :=
  inferInstanceAs (Decidable (limit > 0 → count ≤ limit))

/-- The items within the limits of a configuration. -/
def CborItem.Fits (config : DecodeConfig) : CborItem → Prop
  | .bytes data => data.length ≤ config.maxAlloc
  | .text string => string.bytes.length ≤ config.maxAlloc
  | .array length => WithinLimit config.maxArrayElements length
  | .map length => WithinLimit config.maxMapEntries length
  | _ => True

/-- The number of bytes that have to come after an item. -/
def CborItem.need : CborItem → Nat
  | .array length => length
  | .map length => 2 * length
  | _ => 0

theorem readString_reads (bytes : Bytes) :
  Reads (readString config bytes.length) bytes bytes 0 (¬ bytes.length ≤ config.maxAlloc)
  := by
  rw [readString]
  split_ifs with halloc
  · exact Reads.fail (Nat.not_le.mpr halloc)
  · exact (readBytes_reads bytes).mono (le_refl 0) Nat.not_le.mpr

theorem readString_parses (length : Nat) :
  Parses (readString config length) fun a bytes =>
    a = bytes ∧ bytes.length = length ∧ length ≤ config.maxAlloc
  := by
  rw [readString]
  split_ifs with halloc
  · exact Parses.fail
  · exact readBytes_parses length

theorem readText_reads (text : Text) :
  Reads (readText config text.bytes.length) text.bytes text 0
    (¬ text.bytes.length ≤ config.maxAlloc)
  := by
  rw [readText]
  apply (readString_reads text.bytes).bind_nil _ (le_refl 0)
  rw [Text.fromUtf8_bytes]
  exact Reads.pure text

theorem readText_parses (length : Nat) :
  Parses (readText config length) fun text bytes =>
    text.bytes = bytes ∧ bytes.length = length ∧ length ≤ config.maxAlloc
  := by
  apply (readString_parses length).bind
  rintro bytes _ ⟨rfl, hlength, halloc⟩
  split
  · next text htext =>
    apply Parses.pure
    rw [List.append_nil]
    rw [Text.fromUtf8] at htext
    split_ifs at htext
    cases htext
    exact ⟨rfl, hlength, halloc⟩
  · exact Parses.fail

theorem remainingInput_parses :
  Parses remainingInput fun _ bytes => bytes = []
  := by
  intro input remaining rest hok
  cases hok
  exact ⟨[], rfl, rfl⟩

theorem checkArray_reads (length : Nat) :
  Reads (checkArray config length) [] (.array length) length
    (¬ WithinLimit config.maxArrayElements length)
  := by
  rw [checkArray]
  split_ifs with hlimit
  · exact Reads.fail fun h => Nat.not_le.mpr hlimit.2 (h hlimit.1)
  · intro rest hrest
    rw [bind_apply]
    simp only [remainingInput, List.nil_append, Nat.not_lt.mpr hrest, if_false]
    exact Or.inl rfl

theorem checkArray_parses (length : Nat) :
  Parses (checkArray config length) fun item bytes =>
    bytes = [] ∧ item = .array length ∧ WithinLimit config.maxArrayElements length
  := by
  rw [checkArray]
  split_ifs with hlimit
  · exact Parses.fail
  · apply remainingInput_parses.bind
    rintro remaining _ rfl
    split_ifs
    · exact Parses.fail
    · apply Parses.pure
      exact ⟨rfl, rfl, fun hpos => Nat.not_lt.mp fun hlt => hlimit ⟨hpos, hlt⟩⟩

theorem checkMap_reads (length : Nat) :
  Reads (checkMap config length) [] (.map length) (2 * length)
    (¬ WithinLimit config.maxMapEntries length)
  := by
  rw [checkMap]
  split_ifs with hlimit
  · exact Reads.fail fun h => Nat.not_le.mpr hlimit.2 (h hlimit.1)
  · intro rest hrest
    rw [bind_apply]
    simp only [remainingInput, List.nil_append, Nat.not_lt.mpr hrest, if_false]
    exact Or.inl rfl

theorem checkMap_parses (length : Nat) :
  Parses (checkMap config length) fun item bytes =>
    bytes = [] ∧ item = .map length ∧ WithinLimit config.maxMapEntries length
  := by
  rw [checkMap]
  split_ifs with hlimit
  · exact Parses.fail
  · apply remainingInput_parses.bind
    rintro remaining _ rfl
    split_ifs
    · exact Parses.fail
    · apply Parses.pure
      exact ⟨rfl, rfl, fun hpos => Nat.not_lt.mp fun hlt => hlimit ⟨hpos, hlt⟩⟩

theorem readFloat_reads {bits : UInt64} (h : IsFinite bits) :
  Reads (readFloat config) (beBytes 8 bits.toNat) (.float bits) 0 (config.maxAlloc < 8)
  := by
  have hlt := bits.toNat_lt
  rw [readFloat]
  apply (readNumber_reads (by omega)).bind_nil _ (le_refl 0)
  have hbits : UInt64.ofNat bits.toNat = bits := UInt64.ofNat_toNat
  rw [hbits, h.1, h.2, if_neg (by simp)]
  exact Reads.pure _

theorem readFloat_parses :
  Parses (readFloat config) fun item bytes =>
    ∃ bits, item = .float bits ∧ IsFinite bits ∧ bytes = beBytes 8 bits.toNat
  := by
  rw [readFloat]
  apply (readNumber_parses 8).bind
  rintro value _ ⟨rfl, hlt⟩
  have hvalue : (UInt64.ofNat value).toNat = value :=
    UInt64.toNat_ofNat'.trans (Nat.mod_eq_of_lt (by omega))
  split_ifs with hbad
  · exact Parses.fail
  · apply Parses.pure
    rw [not_or, Bool.not_eq_true, Bool.not_eq_true] at hbad
    rw [List.append_nil]
    exact ⟨UInt64.ofNat value, rfl, hbad, by rw [hvalue]⟩

/-- The decoder reads an item when it reads what comes after the initial byte. -/
theorem decodeItem_reads_of_major {major additional need : Nat} {tail : Bytes} {item : CborItem}
    {excuse : Prop} (hmajor : major < 8) (hadditional : additional < 32)
    (h : Reads (decodeMajor config major additional) tail item need excuse) :
  Reads (decodeItem config) (makeInitialByte major additional :: tail) item need excuse
  := by
  rw [← List.singleton_append, decodeItem]
  apply (readByte_reads _).bind _ (Nat.zero_le _)
  rw [majorTypeFromByte_makeInitialByte hmajor hadditional,
    additionalInfoFromByte_makeInitialByte hmajor hadditional]
  exact h

/-- The excuse for not reading an item: it is beyond a limit. -/
abbrev CborItem.Exceeds (config : DecodeConfig) (item : CborItem) : Prop :=
  config.maxAlloc < 8 ∨ ¬ item.Fits config

/-- The decoder reads an item when it reads what comes after the head. -/
theorem decodeItem_reads_of_head {major arg need : Nat} {tail : Bytes} {item : CborItem}
    {body : Nat → Decoder CborItem} (hmajor : major < 8) (harg : arg < 2 ^ 64)
    (hbody : decodeMajor config major (expectedAdditional arg) =
      readArgument config major (expectedAdditional arg) >>= body)
    (h : Reads (body arg) tail item need (item.Exceeds config)) :
  Reads (decodeItem config) (encodeHead major arg ++ tail) item need (item.Exceeds config)
  := by
  rw [encodeHead_eq, List.cons_append]
  apply decodeItem_reads_of_major hmajor (expectedAdditional_lt arg)
  rw [hbody]
  exact ((readArgument_reads harg major).mono (le_refl 0) Or.inl).bind h (Nat.zero_le _)

/-- The decoder reads an item back. -/
theorem decodeItem_reads (item : CborItem) (h : item.Valid) :
  Reads (decodeItem config) item.encode item item.need (item.Exceeds config)
  := by
  cases item with
  | unsigned value =>
    rw [CborItem.encode, ← List.append_nil (encodeHead _ _)]
    exact decodeItem_reads_of_head (by decide) h rfl (Reads.pure _)
  | negative value =>
    obtain ⟨hneg, hlt⟩ := h
    rw [CborItem.encode, ← List.append_nil (encodeHead _ _)]
    apply decodeItem_reads_of_head (by decide) (by omega) rfl
    have hvalue : -1 - ((-1 - value).toNat : Int) = value := by omega
    rw [hvalue]
    exact Reads.pure _
  | bytes data =>
    apply decodeItem_reads_of_head (by decide) h rfl
    apply ((readString_reads data).mono (le_refl 0) Or.inr).bind_nil _ (le_refl 0)
    exact Reads.pure _
  | text string =>
    apply decodeItem_reads_of_head (by decide) h rfl
    apply ((readText_reads string).mono (le_refl 0) Or.inr).bind_nil _ (le_refl 0)
    exact Reads.pure _
  | array length =>
    rw [CborItem.encode, ← List.append_nil (encodeHead _ _)]
    apply decodeItem_reads_of_head (by decide) h rfl
    exact (checkArray_reads length).mono (le_refl _) Or.inr
  | map length =>
    rw [CborItem.encode, ← List.append_nil (encodeHead _ _)]
    apply decodeItem_reads_of_head (by decide) h rfl
    exact (checkMap_reads length).mono (le_refl _) Or.inr
  | tag number =>
    obtain rfl : number = cidTag := h
    rw [CborItem.encode, ← List.append_nil (encodeHead _ _)]
    exact decodeItem_reads_of_head (by decide) (by decide) rfl (Reads.pure _)
  | bool value =>
    apply decodeItem_reads_of_major (by decide) (by cases value <;> decide)
    cases value with
    | false => exact Reads.pure _
    | true => exact Reads.pure _
  | null => exact decodeItem_reads_of_major (by decide) (by decide) (Reads.pure _)
  | float bits =>
    apply decodeItem_reads_of_major (by decide) (by decide)
    exact (readFloat_reads h).mono (le_refl 0) Or.inl

/-- What the decoder accepts after an initial byte. -/
def AcceptsMajor (config : DecodeConfig) (major additional : Nat) (item : CborItem)
    (tail : Bytes) : Prop :=
  makeInitialByte major additional :: tail = item.encode ∧ item.Valid ∧ item.Fits config

theorem decodeSimple_parses {additional : Nat} :
  Parses (decodeSimple config additional) (AcceptsMajor config MajorType.simple additional)
  := by
  rw [decodeSimple]
  apply Parses.ite
  · rintro rfl
    exact Parses.pure ⟨rfl, trivial, trivial⟩
  intro _
  apply Parses.ite
  · rintro rfl
    exact Parses.pure ⟨rfl, trivial, trivial⟩
  intro _
  apply Parses.ite
  · rintro rfl
    exact Parses.pure ⟨rfl, trivial, trivial⟩
  intro _
  apply Parses.ite (fun _ => Parses.fail)
  intro _
  apply Parses.ite (fun _ => (readBytes_parses 2).bind fun _ _ _ => Parses.fail)
  intro _
  apply Parses.ite (fun _ => (readBytes_parses 4).bind fun _ _ _ => Parses.fail)
  intro _
  apply Parses.ite
  · rintro rfl
    apply readFloat_parses.mono
    rintro _ _ ⟨bits, rfl, hfinite, rfl⟩
    exact ⟨rfl, hfinite, trivial⟩
  intro _
  apply Parses.ite (fun _ => Parses.fail)
  intro _
  apply Parses.ite (fun _ => Parses.fail)
  intro _
  exact Parses.ite (fun _ => readByte_parses.bind fun _ _ _ => Parses.fail) fun _ => Parses.fail

/-- The decoder accepts a head with an argument and what comes after it. -/
theorem acceptsMajor_of_head {major additional : Nat} {body : Nat → Decoder CborItem}
    (h : additional < 32)
    (hbody : ∀ arg, arg < 2 ^ 64 → Parses (body arg) fun item tail =>
      encodeHead major arg ++ tail = item.encode ∧ item.Valid ∧ item.Fits config) :
  Parses (readArgument config major additional >>= body) (AcceptsMajor config major additional)
  := by
  apply (readArgument_parses h).bind
  rintro arg _ ⟨harg, rfl, rfl⟩
  apply (hbody arg harg).mono
  rintro item tail ⟨hencode, hvalid, hfits⟩
  rw [encodeHead_eq] at hencode
  exact ⟨hencode, hvalid, hfits⟩

theorem decodeMajor_parses {major additional : Nat} (h : additional < 32) :
  Parses (decodeMajor config major additional) (AcceptsMajor config major additional)
  := by
  rw [decodeMajor]
  apply Parses.ite
  · rintro rfl
    apply acceptsMajor_of_head h
    intro arg harg
    apply Parses.pure
    rw [List.append_nil]
    exact ⟨rfl, harg, trivial⟩
  intro _
  apply Parses.ite
  · rintro rfl
    apply acceptsMajor_of_head h
    intro arg harg
    apply Parses.pure
    have hvalue : (-1 - (-1 - (arg : Int))).toNat = arg := by omega
    rw [List.append_nil, CborItem.encode, hvalue]
    exact ⟨rfl, ⟨by omega, by omega⟩, trivial⟩
  intro _
  apply Parses.ite
  · rintro rfl
    apply acceptsMajor_of_head h
    intro arg harg
    apply (readString_parses arg).bind
    rintro data _ ⟨rfl, rfl, halloc⟩
    apply Parses.pure
    rw [List.append_nil]
    exact ⟨rfl, harg, halloc⟩
  intro _
  apply Parses.ite
  · rintro rfl
    apply acceptsMajor_of_head h
    intro arg harg
    apply (readText_parses arg).bind
    rintro string _ ⟨rfl, rfl, halloc⟩
    apply Parses.pure
    rw [List.append_nil]
    exact ⟨rfl, harg, halloc⟩
  intro _
  apply Parses.ite
  · rintro rfl
    apply acceptsMajor_of_head h
    intro arg harg
    apply (checkArray_parses arg).mono
    rintro _ _ ⟨rfl, rfl, hlimit⟩
    rw [List.append_nil]
    exact ⟨rfl, harg, hlimit⟩
  intro _
  apply Parses.ite
  · rintro rfl
    apply acceptsMajor_of_head h
    intro arg harg
    apply (checkMap_parses arg).mono
    rintro _ _ ⟨rfl, rfl, hlimit⟩
    rw [List.append_nil]
    exact ⟨rfl, harg, hlimit⟩
  intro _
  apply Parses.ite
  · rintro rfl
    apply acceptsMajor_of_head h
    intro arg harg
    apply Parses.ite (fun _ => Parses.fail)
    intro htag
    apply Parses.pure
    rw [List.append_nil]
    exact ⟨rfl, not_not.mp htag, trivial⟩
  intro _
  apply Parses.ite _ (fun _ => Parses.fail)
  rintro rfl
  exact decodeSimple_parses

/-- The decoder accepts an item in its one encoding only. -/
theorem decodeItem_parses :
  Parses (decodeItem config) fun item bytes =>
    bytes = item.encode ∧ item.Valid ∧ item.Fits config
  := by
  apply readByte_parses.bind
  rintro byte _ rfl
  apply (decodeMajor_parses (additionalInfoFromByte_lt byte)).mono
  rintro item tail ⟨hencode, hvalid, hfits⟩
  rw [makeInitialByte_of_parts] at hencode
  exact ⟨hencode, hvalid, hfits⟩

end Atproto.Dasl
