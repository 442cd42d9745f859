import Atproto.Dasl.Cid
import Atproto.Wire.BigEndian
import Mathlib.Data.List.Lex
import Mathlib.Order.Basic

/-!
# Texts

A text is its UTF-8 bytes, and texts are compared byte by byte.
-/

namespace Atproto.Dasl

/-- The bytes are the UTF-8 encoding of a text. -/
def IsUtf8 (bytes : Bytes) : Prop := (ByteArray.mk bytes.toArray).IsValidUTF8

instance : DecidablePred IsUtf8 := fun bytes =>
  inferInstanceAs (Decidable (ByteArray.mk bytes.toArray).IsValidUTF8)

/-- A text, as its UTF-8 bytes. -/
structure Text where
  bytes : Bytes
  utf8 : IsUtf8 bytes

namespace Text

@[ext]
theorem ext {a b : Text} (h : a.bytes = b.bytes) :
  a = b
  := by
  cases a
  cases b
  cases h
  rfl

/-- The numbers of the bytes, whose lexicographic order is the order of texts. -/
def codes (text : Text) : List Nat := Wire.codes text.bytes

theorem codes_injective :
  Function.Injective codes
  := by
  intro a b h
  exact ext (Wire.codes_injective h)

/-- Texts are compared in bytewise lexicographic order. -/
instance : LinearOrder Text := LinearOrder.lift' codes codes_injective

/-- The text of some bytes, when they are UTF-8. -/
def fromUtf8 (bytes : Bytes) : Option Text :=
  if h : IsUtf8 bytes then some ⟨bytes, h⟩ else none

theorem fromUtf8_bytes (text : Text) :
  fromUtf8 text.bytes = some text
  := dif_pos text.utf8

/-- The empty text. -/
def empty : Text where
  bytes := []
  utf8 := ⟨[], rfl⟩

theorem isUtf8_append {a b : Bytes} (ha : IsUtf8 a) (hb : IsUtf8 b) :
  IsUtf8 (a ++ b)
  := by
  have h : ByteArray.mk a.toArray ++ ByteArray.mk b.toArray = ByteArray.mk (a ++ b).toArray := by
    apply ByteArray.ext
    rw [ByteArray.data_append]
    exact List.append_toArray a b
  rw [IsUtf8, ← h]
  exact ByteArray.IsValidUTF8.append ha hb

/-- One text after another. -/
def append (a b : Text) : Text where
  bytes := a.bytes ++ b.bytes
  utf8 := isUtf8_append a.utf8 b.utf8

instance : Append Text := ⟨append⟩

theorem bytes_append (a b : Text) :
  (a ++ b).bytes = a.bytes ++ b.bytes
  := rfl

theorem append_right_injective (a : Text) :
  Function.Injective fun b => a ++ b
  := by
  intro b c h
  exact ext (List.append_cancel_left (congrArg bytes h))

/-! ### Splitting at an ASCII byte -/

/-- An ASCII byte only stands for its own character. -/
theorem utf8EncodeChar_of_mem {c : Char} {byte : UInt8} (hascii : byte.toNat < 0x80)
    (h : byte ∈ String.utf8EncodeChar c) :
  String.utf8EncodeChar c = [byte]
  := by
  have hhigh : ∀ n : Nat, 0x80 ≤ n → n < 0x100 → byte ≠ UInt8.ofNat n := by
    rintro n hle hlt rfl
    rw [UInt8.toNat_ofNat_of_lt' hlt] at hascii
    omega
  rw [String.utf8EncodeChar] at h ⊢
  split at h
  · rename_i hv
    rw [if_pos hv, List.mem_singleton.mp h]
  · split at h
    · rcases List.mem_pair.mp h with h | h
      · exact absurd h (hhigh _ (by omega) (by omega))
      · exact absurd h (hhigh _ (by omega) (by omega))
    · split at h
      · rcases List.mem_cons.mp h with h | h
        · exact absurd h (hhigh _ (by omega) (by omega))
        · rcases List.mem_pair.mp h with h | h
          · exact absurd h (hhigh _ (by omega) (by omega))
          · exact absurd h (hhigh _ (by omega) (by omega))
      · rcases List.mem_cons.mp h with h | h
        · exact absurd h (hhigh _ (by omega) (by omega))
        · rcases List.mem_cons.mp h with h | h
          · exact absurd h (hhigh _ (by omega) (by omega))
          · rcases List.mem_pair.mp h with h | h
            · exact absurd h (hhigh _ (by omega) (by omega))
            · exact absurd h (hhigh _ (by omega) (by omega))

theorem isUtf8_iff {bytes : Bytes} :
  IsUtf8 bytes ↔ ∃ chars : List Char, bytes = chars.flatMap String.utf8EncodeChar
  := by
  constructor
  · rintro ⟨chars, h⟩
    refine ⟨chars, ?_⟩
    have hdata := congrArg (fun bytes => bytes.data.toList) h
    simpa [List.utf8Encode] using hdata
  · rintro ⟨chars, rfl⟩
    refine ⟨chars, ?_⟩
    apply ByteArray.ext
    simp [List.utf8Encode]

/-- What comes before the first of an ASCII byte is a text, and what comes after it. -/
theorem isUtf8_split {before after : Bytes} {byte : UInt8} (hascii : byte.toNat < 0x80)
    (hbefore : byte ∉ before) (h : IsUtf8 (before ++ byte :: after)) :
  IsUtf8 before ∧ IsUtf8 after
  := by
  obtain ⟨chars, hchars⟩ := isUtf8_iff.mp h
  induction chars generalizing before with
  | nil =>
    rw [List.flatMap_nil] at hchars
    exact absurd hchars (by simp)
  | cons c chars ih =>
    rw [List.flatMap_cons] at hchars
    by_cases hc : byte ∈ String.utf8EncodeChar c
    · rw [utf8EncodeChar_of_mem hascii hc, List.singleton_append] at hchars
      cases before with
      | nil =>
        refine ⟨empty.utf8, isUtf8_iff.mpr ⟨chars, (List.cons.inj hchars).2⟩⟩
      | cons b before =>
        have hb : b = byte := (List.cons.inj hchars).1
        exact absurd (hb ▸ List.mem_cons_self) hbefore
    · obtain ⟨rest, rfl, hrest⟩ : ∃ rest, before = String.utf8EncodeChar c ++ rest ∧
          rest ++ byte :: after = chars.flatMap String.utf8EncodeChar := by
        rcases List.append_eq_append_iff.mp hchars with ⟨rest, henc, hafter⟩ | ⟨rest, henc, hafter⟩
        · cases rest with
          | nil =>
            refine ⟨[], ?_, hafter⟩
            rw [List.append_nil, henc, List.append_nil]
          | cons b rest =>
            apply absurd _ hc
            rw [henc, (List.cons.inj hafter).1]
            exact List.mem_append_right _ List.mem_cons_self
        · exact ⟨rest, henc, hafter.symm⟩
      obtain ⟨hutf8, hafter⟩ := ih (fun hmem => hbefore (List.mem_append_right _ hmem))
        (isUtf8_iff.mpr ⟨chars, hrest⟩) hrest
      refine ⟨isUtf8_append ?_ hutf8, hafter⟩
      exact isUtf8_iff.mpr ⟨[c], (List.append_nil _).symm⟩

/-- A list is what comes before an element for the first time, the element, and what comes after
it. -/
theorem takeWhile_append {byte : UInt8} {bytes : Bytes} (h : byte ∈ bytes) :
  bytes.takeWhile (· ≠ byte) ++ byte :: (bytes.dropWhile (· ≠ byte)).tail = bytes
  := by
  induction bytes with
  | nil => exact absurd h List.not_mem_nil
  | cons b bytes ih =>
    by_cases hb : b = byte
    · subst hb
      rw [List.takeWhile_cons_of_neg (by simp), List.dropWhile_cons_of_neg (by simp)]
      rfl
    · rw [List.takeWhile_cons_of_pos (by simpa using hb), List.dropWhile_cons_of_pos (by simpa using hb),
        List.cons_append, ih (List.mem_of_ne_of_mem (Ne.symm hb) h)]

theorem not_mem_takeWhile {byte : UInt8} {bytes : Bytes} :
  byte ∉ bytes.takeWhile (· ≠ byte)
  := by
  intro h
  exact of_decide_eq_true (List.all_eq_true.mp List.all_takeWhile byte h) rfl

theorem splitOnce_utf8 {byte : UInt8} (hascii : byte.toNat < 0x80) {text : Text}
    (h : byte ∈ text.bytes) :
  IsUtf8 (text.bytes.takeWhile (· ≠ byte)) ∧ IsUtf8 (text.bytes.dropWhile (· ≠ byte)).tail
  := by
  apply isUtf8_split hascii not_mem_takeWhile
  rw [takeWhile_append h]
  exact text.utf8

/-- The text before the first of an ASCII byte and the text after it. -/
def splitOnce (byte : UInt8) (hascii : byte.toNat < 0x80) (text : Text) : Option (Text × Text) :=
  if h : byte ∈ text.bytes then
    some (⟨text.bytes.takeWhile (· ≠ byte), (splitOnce_utf8 hascii h).1⟩,
      ⟨(text.bytes.dropWhile (· ≠ byte)).tail, (splitOnce_utf8 hascii h).2⟩)
  else none

/-- A text is split where the byte stands for the first time. -/
theorem splitOnce_eq_some {byte : UInt8} {hascii : byte.toNat < 0x80} {text before after : Text}
    (hbytes : text.bytes = before.bytes ++ byte :: after.bytes) (hbefore : byte ∉ before.bytes) :
  splitOnce byte hascii text = some (before, after)
  := by
  have hmem : byte ∈ text.bytes := by
    rw [hbytes]
    exact List.mem_append_right _ List.mem_cons_self
  have hne : ∀ b ∈ before.bytes, decide (b ≠ byte) = true := by
    intro b hb
    apply decide_eq_true
    rintro rfl
    exact hbefore hb
  rw [splitOnce, dif_pos hmem]
  congr 2
  · apply ext
    dsimp only
    rw [hbytes, List.takeWhile_append_of_pos hne, List.takeWhile_cons_of_neg (by simp),
      List.append_nil]
  · apply ext
    dsimp only
    rw [hbytes, List.dropWhile_append_of_pos hne, List.dropWhile_cons_of_neg (by simp),
      List.tail_cons]

/-- A text with the byte is split there. -/
theorem exists_split {byte : UInt8} (hascii : byte.toNat < 0x80) {text : Text}
    (h : byte ∈ text.bytes) :
  ∃ before after : Text, text.bytes = before.bytes ++ byte :: after.bytes ∧ byte ∉ before.bytes
  := by
  obtain ⟨hbefore, hafter⟩ := splitOnce_utf8 hascii h
  exact ⟨⟨_, hbefore⟩, ⟨_, hafter⟩, (takeWhile_append h).symm, not_mem_takeWhile⟩

/-- A text is above what it begins with. -/
theorem lt_of_bytes {a b : Text} {byte : UInt8} {rest : Bytes}
    (h : b.bytes = a.bytes ++ byte :: rest) :
  a < b
  := by
  have hlt : ∀ (xs : List Nat) (y : Nat) (ys : List Nat), xs < xs ++ y :: ys := by
    intro xs y ys
    induction xs with
    | nil => exact List.nil_lt_cons y ys
    | cons x xs ih => exact List.cons_lt_cons_self.mpr ih
  have hcodes : b.codes = a.codes ++ byte.toNat :: Wire.codes rest := by
    rw [codes, h]
    exact List.map_append
  have hab : a.codes < b.codes := hcodes ▸ hlt _ _ _
  exact hab

/-- The bytes are ASCII. -/
def isAscii (bytes : Bytes) : Bool := bytes.all fun byte => byte.toNat < 0x80

/-- What follows ASCII is a text. -/
theorem isUtf8_of_append {front rest : Bytes} (hascii : isAscii front = true)
    (h : IsUtf8 (front ++ rest)) :
  IsUtf8 rest
  := by
  induction front with
  | nil => exact h
  | cons byte front ih =>
    rw [isAscii, List.all_cons, Bool.and_eq_true, decide_eq_true_iff] at hascii
    exact ih hascii.2 (isUtf8_split hascii.1 List.not_mem_nil h).2

/-- What follows an ASCII prefix of a text. -/
def stripPrefix (front : Text) (hascii : isAscii front.bytes = true) (text : Text) :
    Option Text :=
  if h : front.bytes <+: text.bytes then
    some ⟨text.bytes.drop front.bytes.length, by
      obtain ⟨rest, hrest⟩ := h
      rw [← hrest, List.drop_left]
      exact isUtf8_of_append hascii (hrest ▸ text.utf8)⟩
  else none

theorem stripPrefix_eq_some {front : Text} {hascii : isAscii front.bytes = true}
    {text rest : Text} :
  stripPrefix front hascii text = some rest ↔ text = front ++ rest
  := by
  constructor
  · intro h
    rw [stripPrefix] at h
    split at h
    · rename_i hprefix
      obtain ⟨bytes, hbytes⟩ := hprefix
      cases h
      apply ext
      show text.bytes = front.bytes ++ text.bytes.drop front.bytes.length
      rw [← hbytes, List.drop_left]
    · cases h
  · rintro rfl
    have hprefix : front.bytes <+: (front ++ rest).bytes := ⟨rest.bytes, rfl⟩
    rw [stripPrefix, dif_pos hprefix]
    congr 1
    apply ext
    exact List.drop_left

theorem stripPrefix_eq_none {front : Text} {hascii : isAscii front.bytes = true}
    {text : Text} :
  stripPrefix front hascii text = none ↔ ¬ front.bytes <+: text.bytes
  := by
  rw [stripPrefix]
  split
  · rename_i h
    exact ⟨fun hnone => (by cases hnone), fun hnot => absurd h hnot⟩
  · rename_i h
    exact ⟨fun _ => h, fun _ => rfl⟩

/-- The parts of a text between the occurrences of an ASCII byte are texts without it. -/
theorem of_mem_splitOn {byte : UInt8} (hascii : byte.toNat < 0x80) {bytes part : Bytes}
    (h : IsUtf8 bytes) (hpart : part ∈ bytes.splitOn byte) :
  IsUtf8 part ∧ byte ∉ part
  := by
  induction hn : bytes.length using Nat.strong_induction_on generalizing bytes with
  | _ n ih =>
    by_cases hmem : byte ∈ bytes
    · have hbytes := takeWhile_append hmem
      obtain ⟨hbefore, hafter⟩ := isUtf8_split hascii not_mem_takeWhile (hbytes ▸ h)
      have hlength : (bytes.dropWhile (· ≠ byte)).tail.length < n := by
        have hsum := congrArg List.length hbytes
        rw [List.length_append, List.length_cons, hn] at hsum
        omega
      rw [← hbytes, List.splitOn_append_cons_self_of_not_mem not_mem_takeWhile] at hpart
      rcases List.mem_cons.mp hpart with rfl | hpart
      · exact ⟨hbefore, not_mem_takeWhile⟩
      · exact ih _ hlength hafter hpart rfl
    · rw [List.splitOn_eq_singleton hmem, List.mem_singleton] at hpart
      rw [hpart]
      exact ⟨h, hmem⟩

/-- The parts of a text between the occurrences of an ASCII byte. -/
def split (byte : UInt8) (hascii : byte.toNat < 0x80) (text : Text) : List Text :=
  (text.bytes.splitOn byte).attach.map fun part =>
    ⟨part.1, (of_mem_splitOn hascii text.utf8 part.2).1⟩

theorem split_bytes {byte : UInt8} {hascii : byte.toNat < 0x80} {text : Text} :
  (text.split byte hascii).map bytes = text.bytes.splitOn byte
  := by
  rw [split, List.map_map]
  exact List.attach_map_subtype_val _

/-- A text is split into some parts exactly when it is these parts with the byte between them. -/
theorem split_eq_iff {byte : UInt8} {hascii : byte.toNat < 0x80} {text : Text}
    {parts : List Text} :
  text.split byte hascii = parts ↔
    parts ≠ [] ∧ (∀ part ∈ parts, byte ∉ part.bytes) ∧
      text.bytes = [byte].intercalate (parts.map bytes)
  := by
  constructor
  · rintro rfl
    refine ⟨?_, ?_, ?_⟩
    · intro hnil
      have hmap := @split_bytes byte hascii text
      rw [hnil] at hmap
      exact List.splitOn_ne_nil _ _ hmap.symm
    · intro part hpart hmem
      have hparts : part.bytes ∈ text.bytes.splitOn byte := by
        rw [← @split_bytes byte hascii text]
        exact List.mem_map_of_mem hpart
      exact (of_mem_splitOn hascii text.utf8 hparts).2 hmem
    · rw [split_bytes, List.intercalate_splitOn]
  · rintro ⟨hne, hparts, hbytes⟩
    apply List.map_injective_iff.mpr (fun a b h => ext h)
    rw [split_bytes, hbytes, List.splitOn_intercalate]
    · intro part hpart
      obtain ⟨text, htext, rfl⟩ := List.mem_map.mp hpart
      exact hparts text htext
    · exact fun hnil => hne (List.map_eq_nil_iff.mp hnil)

/-- The text is among others. -/
def isIn (text : Text) (texts : List Text) : Bool := texts.any fun other => other = text

theorem isIn_iff {text : Text} {texts : List Text} :
  text.isIn texts = true ↔ text ∈ texts
  := by
  rw [isIn, List.any_eq_true]
  constructor
  · rintro ⟨other, hmem, heq⟩
    rw [← of_decide_eq_true heq]
    exact hmem
  · intro hmem
    exact ⟨text, hmem, decide_eq_true rfl⟩

theorem not_isIn {text : Text} {texts : List Text} :
  (!text.isIn texts) = true ↔ text ∉ texts
  := by
  rw [Bool.not_eq_true', ← Bool.not_eq_true, isIn_iff]

end Text

/-! ### Texts of ASCII -/

theorem utf8EncodeChar_ofNat {byte : UInt8} (h : byte.toNat < 0x80) :
  String.utf8EncodeChar (Char.ofNat byte.toNat) = [byte]
  := by
  have hvalid : byte.toNat.isValidChar := Or.inl (by omega)
  have hval : (Char.ofNat byte.toNat).val.toNat = byte.toNat := by
    rw [Char.ofNat, dif_pos hvalid]
    rfl
  rw [String.utf8EncodeChar, hval, if_pos (by omega), UInt8.ofNat_toNat]

theorem isUtf8_of_ascii {bytes : Bytes} (h : ∀ byte ∈ bytes, byte.toNat < 0x80) :
  IsUtf8 bytes
  := by
  apply Text.isUtf8_iff.mpr
  refine ⟨bytes.map fun byte => Char.ofNat byte.toNat, ?_⟩
  rw [List.flatMap_map]
  induction bytes with
  | nil => rfl
  | cons byte bytes ih =>
    obtain ⟨hbyte, hbytes⟩ := List.forall_mem_cons.mp h
    rw [List.flatMap_cons, ← ih hbytes, utf8EncodeChar_ofNat hbyte]
    rfl

end Atproto.Dasl
