import Atproto.Repo.Codec
import Mathlib.Algebra.Order.BigOperators.Group.List

/-!
# Nodes come back from their bytes

The deserializer reads a serialized node as the node it came from, within the limits of
its configuration.  Since limits can be raised, nodes with the same bytes are the same.
-/

namespace Atproto.Repo

open Atproto.Dasl Wire CborTree Logic

variable {config : DecodeConfig} {format : CidFormat} {α : Type} {excuse : Prop}

/-! ### What is written -/

/-- The encoding of an optional CID. -/
def optionEncoding (format : CidFormat) : Option Cid → Bytes
  | none => CborItem.null.encode
  | some cid => encodeLink (cid.toDagCborBytes format)

/-- The encoding of an entry. -/
def entryEncoding (format : CidFormat) (entry : TreeEntry) : Bytes :=
  encodeMap [(fieldK, (CborItem.bytes entry.keySuffix).encode),
    (fieldP, (CborItem.unsigned entry.prefixLen).encode),
    (fieldT, optionEncoding format entry.tree),
    (fieldV, encodeLink (entry.value.toDagCborBytes format))]

/-- The encoding of the entries of a node. -/
def entriesEncoding (format : CidFormat) (entries : List TreeEntry) : Bytes :=
  (CborItem.array entries.length).encode ++ entries.flatMap (entryEncoding format)

/-- The encoding of a node. -/
def nodeEncoding (format : CidFormat) (node : MstNode) : Bytes :=
  encodeMap [(fieldE, entriesEncoding format node.entries),
    (fieldL, optionEncoding format node.left)]

/-- The bytes of a CID have a length of 64 bits. -/
def CidSized (format : CidFormat) (cid : Cid) : Prop :=
  (cid.toDagCborBytes format).length < 2 ^ 64

/-- The entries that have an encoding. -/
structure EntrySized (format : CidFormat) (entry : TreeEntry) : Prop where
  prefixLen : entry.prefixLen < 2 ^ 32
  keySuffix : entry.keySuffix.length < 2 ^ 64
  value : CidSized format entry.value
  tree : ∀ cid ∈ entry.tree, CidSized format cid

/-- The nodes that have an encoding. -/
structure NodeSized (format : CidFormat) (node : MstNode) : Prop where
  length : node.entries.length < 2 ^ 64
  entries : ∀ entry ∈ node.entries, EntrySized format entry
  left : ∀ cid ∈ node.left, CidSized format cid

theorem encodeLengthHead_eq_ok {major length : Nat} {bytes : Bytes} :
  encodeLengthHead major length = .ok bytes ↔
    length < 2 ^ 64 ∧ bytes = encodeHead major length
  := by
  by_cases h : length < 2 ^ 64
  · rw [encodeLengthHead_ok _ h, Except.ok.injEq, and_iff_right h]
    exact eq_comm
  · rw [encodeLengthHead, lengthArg, if_neg h]
    apply iff_of_false
    · intro herror
      cases herror
    · exact fun h' => h h'.1

theorem encodeBytes_eq_ok {data bytes : Bytes} :
  encodeBytes data = .ok bytes ↔ data.length < 2 ^ 64 ∧ bytes = (CborItem.bytes data).encode
  := by
  constructor
  · intro h
    obtain ⟨head, hhead, hbytes⟩ := bind_eq_ok.mp h
    obtain ⟨hlength, rfl⟩ := encodeLengthHead_eq_ok.mp hhead
    exact ⟨hlength, (Except.ok.inj hbytes).symm⟩
  · rintro ⟨hlength, rfl⟩
    exact encodeBytes_ok hlength

theorem serializeCid_eq_ok {cid : Cid} {bytes : Bytes} :
  serializeCid format cid = .ok bytes ↔
    CidSized format cid ∧ bytes = encodeLink (cid.toDagCborBytes format)
  := by
  constructor
  · intro h
    obtain ⟨payload, hpayload, hbytes⟩ := bind_eq_ok.mp h
    obtain ⟨hlength, rfl⟩ := encodeBytes_eq_ok.mp hpayload
    exact ⟨hlength, (Except.ok.inj hbytes).symm⟩
  · rintro ⟨hlength, rfl⟩
    exact serializeCid_ok hlength

theorem serializeOption_eq_ok {child : Option Cid} {bytes : Bytes} :
  serializeOption format child = .ok bytes ↔
    (∀ cid ∈ child, CidSized format cid) ∧ bytes = optionEncoding format child
  := by
  cases child with
  | none =>
    rw [serializeOption, Except.ok.injEq, and_iff_right nofun]
    exact eq_comm
  | some cid =>
    rw [serializeOption, serializeCid_eq_ok, optionEncoding]
    simp

theorem encodeU32_eq_ok {value : Nat} {bytes : Bytes} :
  encodeU32 value = .ok bytes ↔ value < 2 ^ 32 ∧ bytes = (CborItem.unsigned value).encode
  := by
  rw [encodeU32]
  split_ifs with h
  · rw [Except.ok.injEq, and_iff_right h]
    exact eq_comm
  · exact iff_of_false nofun fun h' => h h'.1

theorem serializeField_eq_ok {name : Text} (hname : name.bytes.length < 2 ^ 64)
    {value : Except EncodeError Bytes} {p : Bytes × Bytes} :
  serializeField name value = .ok p ↔
    ∃ bytes, value = .ok bytes ∧ p = ((CborItem.text name).encode, bytes)
  := by
  rw [serializeField, encodeText_ok hname]
  change (value >>= fun bytes => .ok ((CborItem.text name).encode, bytes)) = _ ↔ _
  constructor
  · intro h
    obtain ⟨bytes, hvalue, hpair⟩ := bind_eq_ok.mp h
    exact ⟨bytes, hvalue, (Except.ok.inj hpair).symm⟩
  · rintro ⟨bytes, rfl, rfl⟩
    rfl

theorem sortEntries_entry (k p t v : Bytes) :
  sortEntries [(fieldP, p), (fieldK, k), (fieldV, v), (fieldT, t)] =
    [(fieldK, k), (fieldP, p), (fieldT, t), (fieldV, v)]
  := by
  apply sortEntries_eq
  · have hkp : KeyLess fieldK fieldP := by decide
    have hpt : KeyLess fieldP fieldT := by decide
    have htv : KeyLess fieldT fieldV := by decide
    simp [hkp, hpt, htv, hkp.trans hpt, hpt.trans htv, (hkp.trans hpt).trans htv]
  · exact (List.Perm.swap _ _ _).trans
      (((List.Perm.swap _ _ []).cons (fieldP, p)).cons (fieldK, k))

theorem sortEntries_node (e l : Bytes) :
  sortEntries [(fieldL, l), (fieldE, e)] = [(fieldE, e), (fieldL, l)]
  := by
  apply sortEntries_eq
  · have hel : KeyLess fieldE fieldL := by decide
    simp [hel]
  · exact List.Perm.swap _ _ _

/-- What is written for an entry. -/
theorem serialize_entry_eq_ok {entry : TreeEntry} {bytes : Bytes} :
  entry.serialize format = .ok bytes ↔
    EntrySized format entry ∧ bytes = entryEncoding format entry
  := by
  have hend := @endMap_ok [(fieldP, (CborItem.unsigned entry.prefixLen).encode),
    (fieldK, (CborItem.bytes entry.keySuffix).encode),
    (fieldV, encodeLink (entry.value.toDagCborBytes format)),
    (fieldT, optionEncoding format entry.tree)] (by simp) (by simp; decide)
  rw [sortEntries_entry] at hend
  constructor
  · intro h
    obtain ⟨_, hfieldP, h⟩ := bind_eq_ok.mp h
    obtain ⟨_, hfieldK, h⟩ := bind_eq_ok.mp h
    obtain ⟨_, hfieldV, h⟩ := bind_eq_ok.mp h
    obtain ⟨_, hfieldT, hmap⟩ := bind_eq_ok.mp h
    obtain ⟨_, hp, rfl⟩ := (serializeField_eq_ok (by decide)).mp hfieldP
    obtain ⟨_, hk, rfl⟩ := (serializeField_eq_ok (by decide)).mp hfieldK
    obtain ⟨_, hv, rfl⟩ := (serializeField_eq_ok (by decide)).mp hfieldV
    obtain ⟨_, ht, rfl⟩ := (serializeField_eq_ok (by decide)).mp hfieldT
    obtain ⟨hlead, rfl⟩ := encodeU32_eq_ok.mp hp
    obtain ⟨hsuffix, rfl⟩ := encodeBytes_eq_ok.mp hk
    obtain ⟨hvalue, rfl⟩ := serializeCid_eq_ok.mp hv
    obtain ⟨htree, rfl⟩ := serializeOption_eq_ok.mp ht
    exact ⟨⟨hlead, hsuffix, hvalue, htree⟩, Except.ok.inj (hmap.symm.trans hend)⟩
  · rintro ⟨⟨hp, hk, hv, ht⟩, rfl⟩
    rw [TreeEntry.serialize, (serializeField_eq_ok (by decide)).mpr ⟨_, encodeU32_eq_ok.mpr ⟨hp, rfl⟩, rfl⟩,
      (serializeField_eq_ok (by decide)).mpr ⟨_, encodeBytes_ok hk, rfl⟩,
      (serializeField_eq_ok (by decide)).mpr ⟨_, serializeCid_ok hv, rfl⟩,
      (serializeField_eq_ok (by decide)).mpr ⟨_, serializeOption_eq_ok.mpr ⟨ht, rfl⟩, rfl⟩]
    exact hend

theorem serializeTreeEntries_eq_ok {entries : List TreeEntry} {parts : List Bytes} :
  serializeTreeEntries format entries = .ok parts ↔
    (∀ entry ∈ entries, EntrySized format entry) ∧ parts = entries.map (entryEncoding format)
  := by
  induction entries generalizing parts with
  | nil =>
    rw [serializeTreeEntries, Except.ok.injEq, and_iff_right nofun]
    exact eq_comm
  | cons entry entries ih =>
    rw [List.forall_mem_cons]
    constructor
    · intro h
      obtain ⟨_, hpart, h⟩ := bind_eq_ok.mp h
      obtain ⟨_, hparts, hlist⟩ := bind_eq_ok.mp h
      obtain ⟨hentry, rfl⟩ := serialize_entry_eq_ok.mp hpart
      obtain ⟨hentries, rfl⟩ := ih.mp hparts
      exact ⟨⟨hentry, hentries⟩, (Except.ok.inj hlist).symm⟩
    · rintro ⟨⟨hentry, hentries⟩, rfl⟩
      rw [serializeTreeEntries, serialize_entry_eq_ok.mpr ⟨hentry, rfl⟩, ih.mpr ⟨hentries, rfl⟩]
      rfl

theorem serializeEntryArray_eq_ok {entries : List TreeEntry} {bytes : Bytes} :
  serializeEntryArray format entries = .ok bytes ↔ (entries.length < 2 ^ 64 ∧
    ∀ entry ∈ entries, EntrySized format entry) ∧ bytes = entriesEncoding format entries
  := by
  constructor
  · intro h
    obtain ⟨_, hheader, h⟩ := bind_eq_ok.mp h
    obtain ⟨_, hparts, hbytes⟩ := bind_eq_ok.mp h
    obtain ⟨hlength, rfl⟩ := encodeLengthHead_eq_ok.mp hheader
    obtain ⟨hentries, rfl⟩ := serializeTreeEntries_eq_ok.mp hparts
    exact ⟨⟨hlength, hentries⟩, (Except.ok.inj hbytes).symm⟩
  · rintro ⟨⟨hlength, hentries⟩, rfl⟩
    rw [serializeEntryArray, encodeArrayHeader, encodeLengthHead_ok _ hlength,
      serializeTreeEntries_eq_ok.mpr ⟨hentries, rfl⟩]
    rfl

/-- What is written for a node. -/
theorem serialize_node_eq_ok {node : MstNode} {bytes : Bytes} :
  node.serialize format = .ok bytes ↔ NodeSized format node ∧ bytes = nodeEncoding format node
  := by
  have hend := @endMap_ok [(fieldL, optionEncoding format node.left),
    (fieldE, entriesEncoding format node.entries)] (by simp) (by simp; decide)
  rw [sortEntries_node] at hend
  constructor
  · intro h
    obtain ⟨_, hfieldL, h⟩ := bind_eq_ok.mp h
    obtain ⟨_, hfieldE, hmap⟩ := bind_eq_ok.mp h
    obtain ⟨_, hl, rfl⟩ := (serializeField_eq_ok (by decide)).mp hfieldL
    obtain ⟨_, he, rfl⟩ := (serializeField_eq_ok (by decide)).mp hfieldE
    obtain ⟨hleft, rfl⟩ := serializeOption_eq_ok.mp hl
    obtain ⟨⟨hlength, hentries⟩, rfl⟩ := serializeEntryArray_eq_ok.mp he
    exact ⟨⟨hlength, hentries, hleft⟩, Except.ok.inj (hmap.symm.trans hend)⟩
  · rintro ⟨⟨hlength, he, hl⟩, rfl⟩
    rw [MstNode.serialize,
      (serializeField_eq_ok (by decide)).mpr ⟨_, serializeOption_eq_ok.mpr ⟨hl, rfl⟩, rfl⟩,
      (serializeField_eq_ok (by decide)).mpr
        ⟨_, serializeEntryArray_eq_ok.mpr ⟨⟨hlength, he⟩, rfl⟩, rfl⟩]
    exact hend

/-! ### What is read -/

/-- A CID within the limits of a configuration. -/
def CidFits (config : DecodeConfig) (format : CidFormat) (cid : Cid) : Prop :=
  (cid.toDagCborBytes format).length ≤ config.maxAlloc

/-- The entries within the limits of a configuration. -/
structure EntryFits (config : DecodeConfig) (format : CidFormat) (entry : TreeEntry) : Prop where
  alloc : 8 ≤ config.maxAlloc
  fields : WithinLimit config.maxMapEntries 4
  keySuffix : entry.keySuffix.length ≤ config.maxAlloc
  value : CidFits config format entry.value
  tree : ∀ cid ∈ entry.tree, CidFits config format cid

/-- The nodes within the limits of a configuration. -/
structure NodeFits (config : DecodeConfig) (format : CidFormat) (node : MstNode) : Prop where
  depth : 3 ≤ config.maxDepth
  alloc : 8 ≤ config.maxAlloc
  fields : WithinLimit config.maxMapEntries 2
  length : WithinLimit config.maxArrayElements node.entries.length
  entries : ∀ entry ∈ node.entries, EntryFits config format entry
  left : ∀ cid ∈ node.left, CidFits config format cid

instance (config : DecodeConfig) (format : CidFormat) (cid : Cid) :
    Decidable (CidFits config format cid) :=
  inferInstanceAs (Decidable (_ ≤ _))

instance (config : DecodeConfig) (format : CidFormat) (entry : TreeEntry) :
    Decidable (EntryFits config format entry) :=
  decidable_of_iff (8 ≤ config.maxAlloc ∧ WithinLimit config.maxMapEntries 4 ∧
    entry.keySuffix.length ≤ config.maxAlloc ∧ CidFits config format entry.value ∧
    ∀ cid ∈ entry.tree, CidFits config format cid)
    ⟨fun h => ⟨h.1, h.2.1, h.2.2.1, h.2.2.2.1, h.2.2.2.2⟩,
      fun h => ⟨h.alloc, h.fields, h.keySuffix, h.value, h.tree⟩⟩

instance (config : DecodeConfig) (format : CidFormat) (node : MstNode) :
    Decidable (NodeFits config format node) :=
  decidable_of_iff (3 ≤ config.maxDepth ∧ 8 ≤ config.maxAlloc ∧
    WithinLimit config.maxMapEntries 2 ∧ WithinLimit config.maxArrayElements node.entries.length ∧
    (∀ entry ∈ node.entries, EntryFits config format entry) ∧
    ∀ cid ∈ node.left, CidFits config format cid)
    ⟨fun h => ⟨h.1, h.2.1, h.2.2.1, h.2.2.2.1, h.2.2.2.2.1, h.2.2.2.2.2⟩,
      fun h => ⟨h.depth, h.alloc, h.fields, h.length, h.entries, h.left⟩⟩

theorem deserializeCid_reads (hformat : format.Lawful) {cid : Cid} (h : CidSized format cid)
    (hexcuse : ¬ (8 ≤ config.maxAlloc ∧ CidFits config format cid) → excuse) :
  Reads (deserializeCid config format) (encodeLink (cid.toDagCborBytes format)) cid 0 excuse
  := by
  have htag : (CborItem.tag cidTag).Exceeds config → excuse := by
    rintro (halloc | hfits)
    · exact hexcuse fun h => absurd halloc (Nat.not_lt.mpr h.1)
    · exact absurd trivial hfits
  apply ((decodeItem_reads (.tag cidTag) rfl).mono (le_refl 0) htag).bind _ (Nat.zero_le _)
  have hpayload : (CborItem.bytes (cid.toDagCborBytes format)).Exceeds config → excuse := by
    rintro (halloc | hfits)
    · exact hexcuse fun h => absurd halloc (Nat.not_lt.mpr h.1)
    · exact hexcuse fun h => hfits h.2
  apply ((taggedCid_reads h (hformat.fromDagCborBytes cid)).mono (le_refl 0) hpayload).bind_nil _
    (le_refl 0)
  exact Reads.pure cid

theorem deserializeOption_reads (hformat : format.Lawful) {child : Option Cid}
    (h : ∀ cid ∈ child, CidSized format cid)
    (hexcuse : ¬ (8 ≤ config.maxAlloc ∧ ∀ cid ∈ child, CidFits config format cid) → excuse) :
  Reads (deserializeOption config (deserializeCid config format)) (optionEncoding format child)
    child 0 excuse
  := by
  cases child with
  | none =>
    apply peekByte_bind_reads
    have hnull : CborItem.null.Exceeds config → excuse := by
      rintro (halloc | hfits)
      · exact hexcuse fun h => absurd halloc (Nat.not_lt.mpr h.1)
      · exact absurd trivial hfits
    exact ((decodeItem_reads .null trivial).mono (le_refl 0) hnull).bind_nil (Reads.pure none)
      (le_refl 0)
  | some cid =>
    have hcid : Reads (deserializeCid config format) (encodeLink (cid.toDagCborBytes format)) cid 0
        excuse := by
      apply deserializeCid_reads hformat (h cid rfl)
      refine fun hnot => hexcuse fun hfits => hnot ⟨hfits.1, hfits.2 cid rfl⟩
    exact peekByte_bind_reads (hcid.bind_nil (Reads.pure (some cid)) (le_refl 0))

theorem textExceeds_field {name : Text} (h : name.bytes.length ≤ 8) (hname : TextExceeds config name) :
  ¬ 8 ≤ config.maxAlloc
  := by
  obtain halloc | hfits := hname
  · exact Nat.not_le.mpr halloc
  · intro halloc
    apply hfits
    change name.bytes.length ≤ config.maxAlloc
    omega

theorem takeField_reads {name : String} {value : Decoder α} {bytes : Bytes} {a : α}
    (h : Reads value bytes a 0 excuse) :
  Reads (takeField name none value) bytes a 0 excuse
  := h

theorem lessField {a b : Text} (h : KeyLess a b) :
  ∀ previous ∈ some a, KeyLess previous b
  := by
  rintro _ ⟨rfl⟩
  exact h

/-- A map is read as its entries are after the header. -/
theorem encodeMap_reads {entries : List (Text × Bytes)} {f : CborItem → Decoder α} {a : α}
    (hlength : entries.length < 2 ^ 64) (hvalues : ∀ e ∈ entries, e.2 ≠ [])
    (hexcuse : (CborItem.map entries.length).Exceeds config → excuse)
    (h : Reads (f (.map entries.length)) (entries.flatMap entryBytes) a 0 excuse) :
  Reads (decodeItem config >>= f) (encodeMap entries) a 0 excuse
  := by
  apply ((decodeItem_reads (.map entries.length) hlength).mono (le_refl _) hexcuse).bind h
  apply le_length_flatMap
  intro e he
  have hkey := List.length_pos_iff.mpr (CborItem.text e.1).encode_ne_nil
  have hvalue := List.length_pos_iff.mpr (hvalues e he)
  rw [entryBytes, List.length_append]
  omega

theorem optionEncoding_ne_nil (child : Option Cid) :
  optionEncoding format child ≠ []
  := by
  cases child with
  | none => exact CborItem.encode_ne_nil .null
  | some cid => exact CborTree.encode_ne_nil (.link _)

section Steps

variable {levels : Nat} {fields : EntryFields} {nodeFields : NodeFields} {bytes : Bytes}

theorem entryField_p {prefixLen : Nat} (h : Reads (deserializeU32 config) bytes prefixLen 0 excuse)
    (hnone : fields.prefixLen = none) :
  Reads (entryField config format levels fields fieldP) bytes
    { fields with prefixLen := some prefixLen } 0 excuse
  := by
  rw [entryField, if_pos rfl, hnone]
  exact (takeField_reads h).bind_nil (Reads.pure _) (le_refl 0)

theorem entryField_k {keySuffix : Bytes}
    (h : Reads (deserializeByteBuf config) bytes keySuffix 0 excuse)
    (hnone : fields.keySuffix = none) :
  Reads (entryField config format levels fields fieldK) bytes
    { fields with keySuffix := some keySuffix } 0 excuse
  := by
  rw [entryField, if_neg (by decide), if_pos rfl, hnone]
  exact (takeField_reads h).bind_nil (Reads.pure _) (le_refl 0)

theorem entryField_v {value : Cid} (h : Reads (deserializeCid config format) bytes value 0 excuse)
    (hnone : fields.value = none) :
  Reads (entryField config format levels fields fieldV) bytes
    { fields with value := some value } 0 excuse
  := by
  rw [entryField, if_neg (by decide), if_neg (by decide), if_pos rfl, hnone]
  exact (takeField_reads h).bind_nil (Reads.pure _) (le_refl 0)

theorem entryField_t {tree : Option Cid}
    (h : Reads (deserializeOption config (deserializeCid config format)) bytes tree 0 excuse)
    (hnone : fields.tree = none) :
  Reads (entryField config format levels fields fieldT) bytes
    { fields with tree := some tree } 0 excuse
  := by
  rw [entryField, if_neg (by decide), if_neg (by decide), if_neg (by decide), if_pos rfl, hnone]
  exact (takeField_reads h).bind_nil (Reads.pure _) (le_refl 0)

theorem nodeField_l {left : Option Cid}
    (h : Reads (deserializeOption config (deserializeCid config format)) bytes left 0 excuse)
    (hnone : nodeFields.left = none) :
  Reads (nodeField config format levels nodeFields fieldL) bytes
    { nodeFields with left := some left } 0 excuse
  := by
  rw [nodeField, if_pos rfl, hnone]
  exact (takeField_reads h).bind_nil (Reads.pure _) (le_refl 0)

theorem nodeField_e {entries : List TreeEntry}
    (h : Reads (deserializeEntries config format levels) bytes entries 0 excuse)
    (hnone : nodeFields.entries = none) :
  Reads (nodeField config format levels nodeFields fieldE) bytes
    { nodeFields with entries := some entries } 0 excuse
  := by
  rw [nodeField, if_neg (by decide), if_pos rfl, hnone]
  exact (takeField_reads h).bind_nil (Reads.pure _) (le_refl 0)

end Steps

/-- The deserializer reads an entry back. -/
theorem deserialize_entry_reads (hformat : format.Lawful) {entry : TreeEntry}
    (h : EntrySized format entry) {levels : Nat} (hdepth : levels = 0 → excuse)
    (hexcuse : ¬ EntryFits config format entry → excuse) :
  Reads (TreeEntry.deserialize config format levels) (entryEncoding format entry) entry 0 excuse
  := by
  have halloc : ¬ 8 ≤ config.maxAlloc → excuse := fun hnot => hexcuse fun hfits => hnot hfits.alloc
  have hname : ∀ name : Text, name.bytes.length = 1 → TextExceeds config name → excuse :=
    fun name hlength hexceeds => halloc (textExceeds_field (by omega) hexceeds)
  have hheader : (CborItem.map 4).Exceeds config → excuse := by
    rintro (hlt | hlimit)
    · exact halloc (Nat.not_le.mpr hlt)
    · exact hexcuse fun hfits => hlimit hfits.fields
  have hk : Reads (deserializeByteBuf config) (CborItem.bytes entry.keySuffix).encode
      entry.keySuffix 0 excuse := by
    have hexceeds : (CborItem.bytes entry.keySuffix).Exceeds config → excuse := by
      rintro (hlt | hlong)
      · exact halloc (Nat.not_le.mpr hlt)
      · exact hexcuse fun hfits => hlong hfits.keySuffix
    exact ((decodeItem_reads (.bytes _) h.keySuffix).mono (le_refl 0) hexceeds).bind_nil
      (Reads.pure _) (le_refl 0)
  have hp : Reads (deserializeU32 config) (CborItem.unsigned entry.prefixLen).encode
      entry.prefixLen 0 excuse := by
    have hexceeds : (CborItem.unsigned entry.prefixLen).Exceeds config → excuse := by
      rintro (hlt | hfalse)
      · exact halloc (Nat.not_le.mpr hlt)
      · exact absurd trivial hfalse
    have hvalid : (CborItem.unsigned entry.prefixLen).Valid := h.prefixLen.trans (by decide)
    apply ((decodeItem_reads _ hvalid).mono (le_refl 0) hexceeds).bind_nil _ (le_refl 0)
    rw [u32OfItem, if_pos h.prefixLen]
    exact Reads.pure _
  have ht := @deserializeOption_reads config format excuse hformat entry.tree h.tree fun hnot =>
    hexcuse fun hfits => hnot ⟨hfits.alloc, hfits.tree⟩
  have hv := @deserializeCid_reads config format excuse hformat entry.value h.value fun hnot =>
    hexcuse fun hfits => hnot ⟨hfits.alloc, hfits.value⟩
  have hvalues : ∀ e ∈ [(fieldK, (CborItem.bytes entry.keySuffix).encode),
      (fieldP, (CborItem.unsigned entry.prefixLen).encode),
      (fieldT, optionEncoding format entry.tree),
      (fieldV, encodeLink (entry.value.toDagCborBytes format))], e.2 ≠ [] := by
    have hlink : encodeLink (entry.value.toDagCborBytes format) ≠ [] :=
      CborTree.encode_ne_nil (.link _)
    simpa [CborItem.encode_ne_nil, optionEncoding_ne_nil] using hlink
  apply encodeMap_reads (by simp) hvalues hheader
  cases levels with
  | zero => exact Reads.fail (hdepth rfl)
  | succ levels =>
    -- the fields in the order of their encoded names, the last first
    have hafterT : Reads (mapAccess config (entryField config format levels)
        ⟨some entry.prefixLen, some entry.keySuffix, none, some entry.tree⟩ (some fieldT) 1) _
        ⟨some entry.prefixLen, some entry.keySuffix, some entry.value, some entry.tree⟩ 0 excuse :=
      mapAccess_reads_cons (by decide) (lessField (by decide)) (hname fieldV rfl)
        (entryField_v hv rfl) (Reads.pure _)
    have hafterP : Reads (mapAccess config (entryField config format levels)
        ⟨some entry.prefixLen, some entry.keySuffix, none, none⟩ (some fieldP) 2) _ _ 0 excuse :=
      mapAccess_reads_cons (by decide) (lessField (by decide)) (hname fieldT rfl)
        (entryField_t ht rfl) hafterT
    have hafterK : Reads (mapAccess config (entryField config format levels)
        ⟨none, some entry.keySuffix, none, none⟩ (some fieldK) 3) _ _ 0 excuse :=
      mapAccess_reads_cons (by decide) (lessField (by decide)) (hname fieldP rfl)
        (entryField_p hp rfl) hafterP
    have hfields : Reads (mapAccess config (entryField config format levels)
        ⟨none, none, none, none⟩ none 4) _ _ 0 excuse :=
      mapAccess_reads_cons (by decide) nofun (hname fieldK rfl) (entryField_k hk rfl) hafterK
    exact hfields.bind_nil (Reads.pure _) (le_refl 0)

/-- The deserializer reads the entries of a node back. -/
theorem deserializeEntries_reads (hformat : format.Lawful) {node : MstNode}
    (h : NodeSized format node) {levels : Nat} (hdepth : levels < 2 → excuse)
    (hexcuse : ¬ NodeFits config format node → excuse) :
  Reads (deserializeEntries config format levels) (entriesEncoding format node.entries)
    node.entries 0 excuse
  := by
  have hheader : (CborItem.array node.entries.length).Exceeds config → excuse := by
    rintro (hlt | hlimit)
    · exact hexcuse fun hfits => absurd hlt (Nat.not_lt.mpr hfits.alloc)
    · exact hexcuse fun hfits => hlimit hfits.length
  have hneed : (CborItem.array node.entries.length).need ≤
      (node.entries.flatMap (entryEncoding format)).length := by
    have hlength := @le_length_flatMap _ (entryEncoding format) 1 node.entries fun entry _ =>
      List.length_pos_iff.mpr (List.append_ne_nil_of_left_ne_nil (CborItem.encode_ne_nil _) _)
    rwa [Nat.one_mul] at hlength
  apply ((decodeItem_reads (.array _) h.length).mono (le_refl _) hheader).bind _ hneed
  cases levels with
  | zero => exact Reads.fail (hdepth (by decide))
  | succ levels =>
    have hentries : ∀ entry ∈ node.entries, Reads (TreeEntry.deserialize config format levels)
        (entryEncoding format entry) (id entry) 0 excuse := by
      intro entry hentry
      apply deserialize_entry_reads hformat (h.entries entry hentry)
      · exact fun hzero => hdepth (by omega)
      · exact fun hnot => hexcuse fun hfits => hnot (hfits.entries entry hentry)
    have hseq := seqAccess_reads hentries
    rw [List.map_id] at hseq
    exact hseq

/-- The deserializer reads a node back. -/
theorem deserialize_node_reads (hformat : format.Lawful) {node : MstNode}
    (h : NodeSized format node) :
  Reads (MstNode.deserialize config format) (nodeEncoding format node) node 0
    (¬ NodeFits config format node)
  := by
  have hname : ∀ name : Text, name.bytes.length = 1 → TextExceeds config name →
      ¬ NodeFits config format node :=
    fun name hlength hexceeds hfits => textExceeds_field (by omega) hexceeds hfits.alloc
  have hheader : (CborItem.map 2).Exceeds config → ¬ NodeFits config format node := by
    rintro (hlt | hlimit) hfits
    · exact absurd hlt (Nat.not_lt.mpr hfits.alloc)
    · exact hlimit hfits.fields
  have hl := @deserializeOption_reads config format _ hformat node.left h.left
    fun hnot (hfits : NodeFits config format node) => hnot ⟨hfits.alloc, hfits.left⟩
  have hvalues : ∀ e ∈ [(fieldE, entriesEncoding format node.entries),
      (fieldL, optionEncoding format node.left)], e.2 ≠ [] := by
    have harray : entriesEncoding format node.entries ≠ [] :=
      List.append_ne_nil_of_left_ne_nil (CborItem.encode_ne_nil _) _
    simpa [optionEncoding_ne_nil] using harray
  apply encodeMap_reads (by simp) hvalues hheader
  cases hlevels : config.maxDepth with
  | zero =>
    apply Reads.fail
    intro hfits
    have hdepth := hfits.depth
    omega
  | succ levels =>
    have hdepth : levels < 2 → ¬ NodeFits config format node := by
      intro hlt hfits
      have hdepth := hfits.depth
      omega
    have he := @deserializeEntries_reads config format _ hformat node h levels hdepth id
    have hafterE : Reads (mapAccess config (nodeField config format levels)
        ⟨none, some node.entries⟩ (some fieldE) 1) _ ⟨some node.left, some node.entries⟩ 0
        (¬ NodeFits config format node) :=
      mapAccess_reads_cons (by decide) (lessField (by decide)) (hname fieldL rfl)
        (nodeField_l hl rfl) (Reads.pure _)
    have hfields : Reads (mapAccess config (nodeField config format levels) ⟨none, none⟩ none 2) _ _
        0 (¬ NodeFits config format node) :=
      mapAccess_reads_cons (by decide) nofun (hname fieldE rfl) (nodeField_e he rfl) hafterE
    exact hfields.bind_nil (Reads.pure _) (le_refl 0)

/-! ### The codec -/

/-- A number that no length in an entry exceeds. -/
def entryBound (format : CidFormat) (entry : TreeEntry) : Nat :=
  entry.keySuffix.length + (entry.value.toDagCborBytes format).length +
    (entry.tree.elim 0 fun cid => (cid.toDagCborBytes format).length)

/-- A number that no length in a node exceeds. -/
def nodeBound (format : CidFormat) (node : MstNode) : Nat :=
  (node.entries.map (entryBound format)).sum +
    (node.left.elim 0 fun cid => (cid.toDagCborBytes format).length)

/-- A configuration that allows byte strings of a length and whose other limits do not
matter. -/
def raisedConfig (length : Nat) : DecodeConfig where
  maxDepth := 3
  maxAlloc := length + 8
  maxArrayElements := 0
  maxMapEntries := 0

theorem nodeFits_raisedConfig {node : MstNode} {length : Nat} (h : nodeBound format node ≤ length) :
  NodeFits (raisedConfig length) format node
  := by
  have halloc : 8 ≤ (raisedConfig length).maxAlloc := Nat.le_add_left 8 length
  rw [nodeBound] at h
  refine ⟨le_refl 3, halloc, nofun, nofun, ?_, ?_⟩
  · intro entry hentry
    have hle : entryBound format entry ≤ (node.entries.map (entryBound format)).sum :=
      List.single_le_sum (fun _ _ => Nat.zero_le _) _ (List.mem_map_of_mem hentry)
    rw [entryBound] at hle
    refine ⟨halloc, nofun, ?_, ?_, ?_⟩
    · change _ ≤ length + 8
      omega
    · change _ ≤ length + 8
      omega
    · intro cid hcid
      rw [Option.mem_def.mp hcid, Option.elim_some] at hle
      change _ ≤ length + 8
      omega
  · intro cid hcid
    rw [Option.mem_def.mp hcid, Option.elim_some] at h
    change _ ≤ length + 8
    omega

/-- The codec of nodes is faithful. -/
theorem nodeCodec_faithful (config : DecodeConfig) (hformat : format.Lawful) :
  (nodeCodec config format).Faithful
  where
  round node node' bytes hto hfrom := by
    obtain ⟨hsized, rfl⟩ := serialize_node_eq_ok.mp hto
    exact eq_of_fromSlice (deserialize_node_reads hformat hsized) hfrom
  inj node node' bytes hto hto' := by
    obtain ⟨hsized, rfl⟩ := serialize_node_eq_ok.mp hto
    obtain ⟨hsized', heq⟩ := serialize_node_eq_ok.mp hto'
    have hread := fromSlice_of_reads (deserialize_node_reads hformat hsized)
      (not_not.mpr (nodeFits_raisedConfig
        (Nat.le_add_right (nodeBound format node) (nodeBound format node'))))
    rw [heq] at hread
    exact eq_of_fromSlice (deserialize_node_reads hformat hsized') hread

/-- The codec reads back a node within the limits. -/
theorem nodeCodec_reads (hformat : format.Lawful) {node : MstNode} (hsized : NodeSized format node)
    (hfits : NodeFits config format node) :
  ∃ bytes, (nodeCodec config format).toBytes node = .ok bytes ∧
    (nodeCodec config format).fromBytes bytes = .ok node
  := ⟨_, serialize_node_eq_ok.mpr ⟨hsized, rfl⟩,
    fromSlice_of_reads (deserialize_node_reads hformat hsized) (not_not.mpr hfits)⟩

end Atproto.Repo
