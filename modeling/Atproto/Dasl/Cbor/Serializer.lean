import Atproto.Dasl.Cbor.Canonical
import Atproto.SearchTree.Collect

/-!
# Serializing maps

The serializer sorts the entries of a map by the bytes of their encoded keys.  That is the
order the deserializer checks: a shorter key first, and keys of one length byte by byte.
-/

namespace Atproto.Dasl

open Wire CborTree SearchTree

/-- An entry with a key that is not after the key of another. -/
def entryLe (a b : Bytes × Bytes) : Prop := codes a.1 ≤ codes b.1

instance : DecidableRel entryLe := fun a b => inferInstanceAs (Decidable (codes a.1 ≤ codes b.1))

/-- Finish a map: sort the encoded entries by key and write them after the header. -/
def endMap (entries : List (Bytes × Bytes)) : Except EncodeError Bytes := do
  let header ← encodeMapHeader entries.length
  .ok (header ++ (entries.insertionSort entryLe).flatMap fun e => e.1 ++ e.2)

/-- A CID under its tag. -/
def serializeCid (format : CidFormat) (cid : Cid) : Except EncodeError Bytes := do
  let payload ← encodeBytes (cid.toDagCborBytes format)
  .ok (encodeCidTag ++ payload)

/-! ### What is written -/

theorem encodeLengthHead_ok (major : Nat) {length : Nat} (h : length < 2 ^ 64) :
  encodeLengthHead major length = .ok (encodeHead major length)
  := by
  rw [encodeLengthHead, lengthArg, if_pos h]
  rfl

theorem encodeBytes_ok {data : Bytes} (h : data.length < 2 ^ 64) :
  encodeBytes data = .ok (CborItem.bytes data).encode
  := by
  rw [encodeBytes, encodeLengthHead_ok _ h]
  rfl

theorem encodeText_ok {text : Text} (h : text.bytes.length < 2 ^ 64) :
  encodeText text = .ok (CborItem.text text).encode
  := by
  rw [encodeText, encodeLengthHead_ok _ h]
  rfl

theorem serializeCid_ok {format : CidFormat} {cid : Cid}
    (h : (cid.toDagCborBytes format).length < 2 ^ 64) :
  serializeCid format cid = .ok (encodeLink (cid.toDagCborBytes format))
  := by
  rw [serializeCid, encodeBytes_ok h]
  rfl

/-! ### The order of encoded keys -/

/-- The number of bytes of an argument, given the additional information. -/
def argumentWidth (additional : Nat) : Nat :=
  if additional = AdditionalInfo.oneByte then 1
  else if additional = AdditionalInfo.twoBytes then 2
  else if additional = AdditionalInfo.fourBytes then 4
  else if additional = AdditionalInfo.eightBytes then 8
  else 0

theorem argumentBytes_eq (arg : Nat) :
  argumentBytes arg = beBytes (argumentWidth (expectedAdditional arg)) arg
  := by
  rw [argumentBytes, expectedAdditional]
  split_ifs with h
  · have hwidth : argumentWidth arg = 0 := by
      rw [argumentWidth, AdditionalInfo.oneByte, AdditionalInfo.twoBytes,
        AdditionalInfo.fourBytes, AdditionalInfo.eightBytes, if_neg (by omega),
        if_neg (by omega), if_neg (by omega), if_neg (by omega)]
    rw [hwidth]
    rfl
  · rfl
  · rfl
  · rfl
  · rfl

theorem expectedAdditional_mono {a b : Nat} (h : a ≤ b) :
  expectedAdditional a ≤ expectedAdditional b
  := by
  rw [expectedAdditional, expectedAdditional, AdditionalInfo.oneByte, AdditionalInfo.twoBytes,
    AdditionalInfo.fourBytes, AdditionalInfo.eightBytes]
  split_ifs <;> omega

theorem lt_of_expectedAdditional {arg : Nat} (h : arg < 2 ^ 64) :
  expectedAdditional arg = arg ∧ arg < 24 ∨
    24 ≤ expectedAdditional arg ∧ arg < 256 ^ argumentWidth (expectedAdditional arg)
  := by
  rw [expectedAdditional]
  split_ifs with hdirect hone htwo hfour
  · exact Or.inl ⟨rfl, hdirect⟩
  · exact Or.inr ⟨le_refl 24, Nat.lt_succ_of_le hone⟩
  · exact Or.inr ⟨by decide, Nat.lt_succ_of_le htwo⟩
  · exact Or.inr ⟨by decide, Nat.lt_succ_of_le hfour⟩
  · exact Or.inr ⟨by decide, h⟩

/-- Heads of one major type are ordered as their arguments, whatever comes after them. -/
theorem codes_encodeHead_lt {major a b : Nat} (hmajor : major < 8) (h : a < b) (hb : b < 2 ^ 64)
    (x y : Bytes) :
  codes (encodeHead major a ++ x) < codes (encodeHead major b ++ y)
  := by
  have ha := makeInitialByte_toNat hmajor (expectedAdditional_lt a)
  have hb' := makeInitialByte_toNat hmajor (expectedAdditional_lt b)
  rw [encodeHead_eq, encodeHead_eq, List.cons_append, List.cons_append, codes, codes,
    List.map_cons, List.map_cons, ha, hb', List.cons_lt_cons_iff]
  obtain hlt | heq := (expectedAdditional_mono h.le).lt_or_eq
  · left
    omega
  · right
    use by rw [heq]
    have hlt : b < 256 ^ argumentWidth (expectedAdditional b) := by
      obtain ⟨hdirect, hsmall⟩ | ⟨-, hlt⟩ := lt_of_expectedAdditional hb
      · have := lt_of_expectedAdditional (h.trans hb)
        omega
      · exact hlt
    have hbytes := codes_beBytes_lt h hlt
    rw [argumentBytes_eq, argumentBytes_eq, heq, List.map_append, List.map_append]
    apply append_lt_append_of_lt _ hbytes
    rw [codes, codes, List.length_map, List.length_map, length_beBytes, length_beBytes]

/-- The order of encoded keys is the order of keys. -/
theorem codes_encode_lt {a b : Text} (ha : a.bytes.length < 2 ^ 64) (hb : b.bytes.length < 2 ^ 64) :
  codes (CborItem.text a).encode < codes (CborItem.text b).encode ↔ KeyLess a b
  := by
  have hless : ∀ {a b : Text}, b.bytes.length < 2 ^ 64 → KeyLess a b →
      codes (CborItem.text a).encode < codes (CborItem.text b).encode := by
    rintro a b hb (hlength | ⟨hlength, hlt⟩)
    · exact codes_encodeHead_lt (by decide) hlength hb _ _
    · rw [CborItem.encode, CborItem.encode, hlength, codes_append, codes_append]
      exact append_lt_append_left hlt _
  refine ⟨fun h => ?_, hless hb⟩
  obtain hlt | heq | hgt := Nat.lt_trichotomy a.bytes.length b.bytes.length
  · exact Or.inl hlt
  · obtain hlt | rfl | hgt := lt_trichotomy a b
    · exact Or.inr ⟨heq, hlt⟩
    · exact absurd h (lt_irrefl _)
    · exact absurd h (hless ha (Or.inr ⟨heq.symm, hgt⟩)).asymm
  · exact absurd h (hless ha (Or.inl hgt)).asymm

/-! ### Sorted entries -/

variable {V : Type}

/-- A key that is not after another. -/
def keyLe (a b : Text) : Prop := ¬ KeyLess b a

instance : DecidableRel KeyLess := fun a b =>
  inferInstanceAs (Decidable (_ < _ ∨ _ = _ ∧ a < b))

instance : DecidableRel fun a b : Text × V => keyLe a.1 b.1 := fun a b =>
  inferInstanceAs (Decidable (¬ KeyLess b.1 a.1))

/-- The entries of a map in the order of the keys. -/
def sortEntries (entries : List (Text × V)) : List (Text × V) :=
  entries.insertionSort fun a b => keyLe a.1 b.1

theorem KeyLess.irrefl (a : Text) :
  ¬ KeyLess a a
  := by
  rintro (h | ⟨-, h⟩)
  · exact lt_irrefl _ h
  · exact lt_irrefl _ h

theorem KeyLess.keyLe {a b : Text} (h : KeyLess a b) :
  keyLe a b
  := fun h' => KeyLess.irrefl a (h.trans h')

theorem keyLess_trichotomy (a b : Text) :
  KeyLess a b ∨ a = b ∨ KeyLess b a
  := by
  obtain hlt | heq | hgt := Nat.lt_trichotomy a.bytes.length b.bytes.length
  · exact Or.inl (Or.inl hlt)
  · obtain hlt | rfl | hgt := lt_trichotomy a b
    · exact Or.inl (Or.inr ⟨heq, hlt⟩)
    · exact Or.inr (Or.inl rfl)
    · exact Or.inr (Or.inr (Or.inr ⟨heq.symm, hgt⟩))
  · exact Or.inr (Or.inr (Or.inl hgt))

theorem keyLe_antisymm (a b : Text) (hab : keyLe a b) (hba : keyLe b a) :
  a = b
  := by
  obtain h | h | h := keyLess_trichotomy a b
  · exact absurd h hba
  · exact h
  · exact absurd h hab

instance : Std.Total fun a b : Text × V => keyLe a.1 b.1 where
  total a b := by
    obtain h | h | h := keyLess_trichotomy a.1 b.1
    · exact Or.inl h.keyLe
    · exact Or.inl (h ▸ KeyLess.irrefl _)
    · exact Or.inr h.keyLe

instance : IsTrans (Text × V) fun a b => keyLe a.1 b.1 where
  trans a b c hab hbc hca := by
    obtain h | h | h := keyLess_trichotomy a.1 b.1
    · exact hbc (hca.trans h)
    · exact hbc (h ▸ hca)
    · exact hab h

theorem sortEntries_perm (entries : List (Text × V)) :
  (sortEntries entries).Perm entries
  := List.perm_insertionSort _ entries

/-- Sorting puts any arrangement of entries into their order. -/
theorem sortEntries_eq {entries sorted : List (Text × V)}
    (hsorted : sorted.Pairwise fun a b => KeyLess a.1 b.1) (hperm : entries.Perm sorted) :
  sortEntries entries = sorted
  := by
  have hdistinct : Distinct sorted := by
    apply hsorted.imp
    intro a b hless heq
    rw [heq] at hless
    exact KeyLess.irrefl _ hless
  apply hdistinct.arrangement_unique keyLe_antisymm
  · exact List.pairwise_insertionSort _ entries
  · exact hsorted.imp fun hless => hless.keyLe
  · exact (sortEntries_perm entries).trans hperm

theorem sortEntries_pairwise {entries : List (Text × V)} (h : Distinct entries) :
  (sortEntries entries).Pairwise fun a b => KeyLess a.1 b.1
  := by
  have hle := List.pairwise_insertionSort (fun a b : Text × V => keyLe a.1 b.1) entries
  have hdistinct := h.perm (sortEntries_perm entries).symm
  apply (hle.and hdistinct).imp
  rintro a b ⟨hle, hne⟩
  obtain h | h | h := keyLess_trichotomy a.1 b.1
  · exact h
  · exact absurd h hne
  · exact absurd h hle

theorem map_sortEntries {W : Type} (f : V → W) (entries : List (Text × V)) :
  (sortEntries entries).map (fun e => (e.1, f e.2)) =
    sortEntries (entries.map fun e => (e.1, f e.2))
  := List.map_insertionSort _ _ _ _ fun _ _ _ _ => Iff.rfl

/-- What is written for a map: the encoding of its entries in the order of the keys. -/
theorem endMap_ok {entries : List (Text × Bytes)} (hlength : entries.length < 2 ^ 64)
    (hkeys : ∀ e ∈ entries, e.1.bytes.length < 2 ^ 64) :
  endMap (entries.map fun e => ((CborItem.text e.1).encode, e.2)) =
    .ok (encodeMap (sortEntries entries))
  := by
  have hsort : (entries.map fun e => ((CborItem.text e.1).encode, e.2)).insertionSort entryLe =
      (sortEntries entries).map fun e => ((CborItem.text e.1).encode, e.2) := by
    symm
    apply List.map_insertionSort
    intro a ha b hb
    rw [keyLe, entryLe, ← not_lt, codes_encode_lt (hkeys b hb) (hkeys a ha)]
  rw [endMap, encodeMapHeader, List.length_map, encodeLengthHead_ok _ hlength, hsort,
    List.flatMap_map, encodeMap, (sortEntries_perm entries).length_eq]
  rfl

end Atproto.Dasl
