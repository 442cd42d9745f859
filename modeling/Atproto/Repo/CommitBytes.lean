import Atproto.Repo.Commit
import Atproto.Repo.NodeBytes

/-!
# Commits come back from their bytes

The deserializer reads a serialized commit back, within the limits of its configuration.  Since
limits can be raised, commits with the same bytes are the same, and so are unsigned commits with
the same bytes to sign.
-/

namespace Atproto.Repo

open Atproto.Dasl Wire CborTree Logic

variable {config : DecodeConfig} {format : CidFormat} {excuse : Prop} {levels : Nat}

/-! ### What is written -/

/-- The unsigned commits that have an encoding. -/
structure UnsignedCommit.Sized (format : CidFormat) (commit : UnsignedCommit) : Prop where
  did : commit.did.bytes.length < 2 ^ 64
  version : commit.version < 2 ^ 64
  data : CidSized format commit.data
  rev : commit.rev.bytes.length < 2 ^ 64
  prev : ∀ cid ∈ commit.prev, CidSized format cid

/-- The encoded values of the fields that are signed, under their names. -/
def unsignedEntries (format : CidFormat) (commit : UnsignedCommit) : List (Text × Bytes) :=
  [(fieldDid, (CborItem.text commit.did).encode),
    (fieldVersion, (CborItem.unsigned commit.version).encode),
    (fieldData, encodeLink (commit.data.toDagCborBytes format)),
    (fieldRev, (CborItem.text commit.rev).encode),
    (fieldPrev, optionEncoding format commit.prev)]

/-- The encoding of an unsigned commit. -/
def unsignedEncoding (format : CidFormat) (commit : UnsignedCommit) : Bytes :=
  encodeMap [(fieldDid, (CborItem.text commit.did).encode),
    (fieldRev, (CborItem.text commit.rev).encode),
    (fieldData, encodeLink (commit.data.toDagCborBytes format)),
    (fieldPrev, optionEncoding format commit.prev),
    (fieldVersion, (CborItem.unsigned commit.version).encode)]

/-- The encoding of a commit. -/
def commitEncoding (format : CidFormat) (commit : Commit) : Bytes :=
  encodeMap [(fieldDid, (CborItem.text commit.did).encode),
    (fieldRev, (CborItem.text commit.rev).encode),
    (fieldSig, (CborItem.bytes commit.sig).encode),
    (fieldData, encodeLink (commit.data.toDagCborBytes format)),
    (fieldPrev, optionEncoding format commit.prev),
    (fieldVersion, (CborItem.unsigned commit.version).encode)]

theorem encodeU64_eq_ok {value : Nat} {bytes : Bytes} :
  encodeU64 value = .ok bytes ↔ value < 2 ^ 64 ∧ bytes = (CborItem.unsigned value).encode
  := by
  rw [encodeU64]
  split_ifs with h
  · rw [Except.ok.injEq, and_iff_right h]
    exact eq_comm
  · exact iff_of_false nofun fun h' => h h'.1

theorem encodeText_eq_ok {text : Text} {bytes : Bytes} :
  encodeText text = .ok bytes ↔ text.bytes.length < 2 ^ 64 ∧ bytes = (CborItem.text text).encode
  := by
  constructor
  · intro h
    obtain ⟨head, hhead, hbytes⟩ := bind_eq_ok.mp h
    obtain ⟨hlength, rfl⟩ := encodeLengthHead_eq_ok.mp hhead
    exact ⟨hlength, (Except.ok.inj hbytes).symm⟩
  · rintro ⟨hlength, rfl⟩
    exact encodeText_ok hlength

/-- What is written for the fields that are signed. -/
theorem fields_eq_ok {commit : UnsignedCommit} {fields : List (Bytes × Bytes)} :
  commit.fields format = .ok fields ↔ commit.Sized format ∧
    fields = (unsignedEntries format commit).map fun e => ((CborItem.text e.1).encode, e.2)
  := by
  constructor
  · intro h
    obtain ⟨_, hfieldDid, h⟩ := bind_eq_ok.mp h
    obtain ⟨_, hfieldVersion, h⟩ := bind_eq_ok.mp h
    obtain ⟨_, hfieldData, h⟩ := bind_eq_ok.mp h
    obtain ⟨_, hfieldRev, h⟩ := bind_eq_ok.mp h
    obtain ⟨_, hfieldPrev, h⟩ := bind_eq_ok.mp h
    obtain ⟨_, hbytesDid, rfl⟩ := (serializeField_eq_ok (by decide)).mp hfieldDid
    obtain ⟨_, hbytesVersion, rfl⟩ := (serializeField_eq_ok (by decide)).mp hfieldVersion
    obtain ⟨_, hbytesData, rfl⟩ := (serializeField_eq_ok (by decide)).mp hfieldData
    obtain ⟨_, hbytesRev, rfl⟩ := (serializeField_eq_ok (by decide)).mp hfieldRev
    obtain ⟨_, hbytesPrev, rfl⟩ := (serializeField_eq_ok (by decide)).mp hfieldPrev
    obtain ⟨hdid, rfl⟩ := encodeText_eq_ok.mp hbytesDid
    obtain ⟨hversion, rfl⟩ := encodeU64_eq_ok.mp hbytesVersion
    obtain ⟨hdata, rfl⟩ := serializeCid_eq_ok.mp hbytesData
    obtain ⟨hrev, rfl⟩ := encodeText_eq_ok.mp hbytesRev
    obtain ⟨hprev, rfl⟩ := serializeOption_eq_ok.mp hbytesPrev
    cases h
    exact ⟨⟨hdid, hversion, hdata, hrev, hprev⟩, rfl⟩
  · rintro ⟨⟨hdid, hversion, hdata, hrev, hprev⟩, rfl⟩
    rw [UnsignedCommit.fields, (serializeField_eq_ok (by decide)).mpr ⟨_, encodeText_ok hdid, rfl⟩,
      (serializeField_eq_ok (by decide)).mpr ⟨_, encodeU64_eq_ok.mpr ⟨hversion, rfl⟩, rfl⟩,
      (serializeField_eq_ok (by decide)).mpr ⟨_, serializeCid_ok hdata, rfl⟩,
      (serializeField_eq_ok (by decide)).mpr ⟨_, encodeText_ok hrev, rfl⟩,
      (serializeField_eq_ok (by decide)).mpr ⟨_, serializeOption_eq_ok.mpr ⟨hprev, rfl⟩, rfl⟩]
    rfl

theorem sortEntries_unsigned (did version data rev prev : Bytes) :
  sortEntries [(fieldDid, did), (fieldVersion, version), (fieldData, data), (fieldRev, rev),
      (fieldPrev, prev)] =
    [(fieldDid, did), (fieldRev, rev), (fieldData, data), (fieldPrev, prev), (fieldVersion, version)]
  := by
  apply sortEntries_eq
  · have hdr : KeyLess fieldDid fieldRev := by decide
    have hrd : KeyLess fieldRev fieldData := by decide
    have hdp : KeyLess fieldData fieldPrev := by decide
    have hpv : KeyLess fieldPrev fieldVersion := by decide
    have hrp := hrd.trans hdp
    have hdv := hdp.trans hpv
    simp [hdr, hrd, hdp, hpv, hdr.trans hrd, hrp, hdv, hdr.trans hrp, hrp.trans hpv,
      (hdr.trans hrp).trans hpv]
  · apply List.Perm.cons
    exact (@List.perm_append_comm _ [(fieldVersion, version)] [_, _, _]).trans (List.Perm.swap _ _ _)

theorem sortEntries_commit (did version data rev prev sig : Bytes) :
  sortEntries [(fieldDid, did), (fieldVersion, version), (fieldData, data), (fieldRev, rev),
      (fieldPrev, prev), (fieldSig, sig)] =
    [(fieldDid, did), (fieldRev, rev), (fieldSig, sig), (fieldData, data), (fieldPrev, prev),
      (fieldVersion, version)]
  := by
  apply sortEntries_eq
  · have hdr : KeyLess fieldDid fieldRev := by decide
    have hrs : KeyLess fieldRev fieldSig := by decide
    have hsd : KeyLess fieldSig fieldData := by decide
    have hdp : KeyLess fieldData fieldPrev := by decide
    have hpv : KeyLess fieldPrev fieldVersion := by decide
    have hds := hdr.trans hrs
    have hrd := hrs.trans hsd
    have hsp := hsd.trans hdp
    have hdv := hdp.trans hpv
    simp [hdr, hrs, hsd, hdp, hpv, hds, hrd, hsp, hdv, hds.trans hsd, hrd.trans hdp, hsp.trans hpv,
      (hds.trans hsd).trans hdp, (hrd.trans hdp).trans hpv, (hds.trans hsd).trans hdv]
  · apply List.Perm.cons
    -- the two fields in front of the revision move behind it and the signature
    have hmove : [(fieldVersion, version), (fieldData, data), (fieldRev, rev), (fieldPrev, prev),
        (fieldSig, sig)].Perm [(fieldRev, rev), (fieldPrev, prev), (fieldSig, sig),
        (fieldVersion, version), (fieldData, data)] :=
      @List.perm_append_comm _ [(fieldVersion, version), (fieldData, data)] [_, _, _]
    apply hmove.trans
    apply List.Perm.cons
    apply (List.Perm.swap _ _ _).trans
    apply List.Perm.cons
    have hlast : [(fieldPrev, prev), (fieldVersion, version), (fieldData, data)].Perm
        [(fieldData, data), (fieldPrev, prev), (fieldVersion, version)] :=
      @List.perm_append_comm _ [(fieldPrev, prev), (fieldVersion, version)] [(fieldData, data)]
    exact hlast

/-- What is signed. -/
theorem unsigned_toBytes_eq_ok {commit : UnsignedCommit} {bytes : Bytes} :
  commit.toBytes format = .ok bytes ↔ commit.Sized format ∧ bytes = unsignedEncoding format commit
  := by
  have hend := @endMap_ok (unsignedEntries format commit) (by simp [unsignedEntries])
    (by simp [unsignedEntries]; decide)
  rw [unsignedEntries, sortEntries_unsigned] at hend
  constructor
  · intro h
    obtain ⟨fields, hfields, hmap⟩ := bind_eq_ok.mp h
    obtain ⟨hsized, rfl⟩ := fields_eq_ok.mp hfields
    exact ⟨hsized, Except.ok.inj (hmap.symm.trans hend)⟩
  · rintro ⟨hsized, rfl⟩
    rw [UnsignedCommit.toBytes, fields_eq_ok.mpr ⟨hsized, rfl⟩]
    exact hend

/-- What is stored for a commit. -/
theorem commit_toBytes_eq_ok {commit : Commit} {bytes : Bytes} :
  commit.toBytes format = .ok bytes ↔
    (commit.unsigned.Sized format ∧ commit.sig.length < 2 ^ 64) ∧ bytes = commitEncoding format commit
  := by
  have hend := @endMap_ok (unsignedEntries format commit.unsigned ++
    [(fieldSig, (CborItem.bytes commit.sig).encode)]) (by simp [unsignedEntries])
    (by simp [unsignedEntries]; decide)
  rw [List.map_append, unsignedEntries, List.cons_append, List.cons_append, List.cons_append,
    List.cons_append, List.cons_append, List.nil_append, sortEntries_commit] at hend
  constructor
  · intro h
    obtain ⟨fields, hfields, h⟩ := bind_eq_ok.mp h
    obtain ⟨_, hfieldSig, hmap⟩ := bind_eq_ok.mp h
    obtain ⟨hsized, rfl⟩ := fields_eq_ok.mp hfields
    obtain ⟨_, hbytesSig, rfl⟩ := (serializeField_eq_ok (by decide)).mp hfieldSig
    obtain ⟨hsig, rfl⟩ := encodeBytes_eq_ok.mp hbytesSig
    exact ⟨⟨hsized, hsig⟩, Except.ok.inj (hmap.symm.trans hend)⟩
  · rintro ⟨⟨hsized, hsig⟩, rfl⟩
    rw [Commit.toBytes, fields_eq_ok.mpr ⟨hsized, rfl⟩,
      (serializeField_eq_ok (by decide)).mpr ⟨_, encodeBytes_ok hsig, rfl⟩]
    exact hend

/-! ### What is read -/

/-- The unsigned commits within the limits of a configuration, in a map with some fields. -/
structure UnsignedCommit.Fits (config : DecodeConfig) (format : CidFormat) (fields : Nat)
    (commit : UnsignedCommit) : Prop where
  depth : 0 < config.maxDepth
  alloc : 8 ≤ config.maxAlloc
  fields : WithinLimit config.maxMapEntries fields
  did : commit.did.bytes.length ≤ config.maxAlloc
  data : CidFits config format commit.data
  rev : commit.rev.bytes.length ≤ config.maxAlloc
  prev : ∀ cid ∈ commit.prev, CidFits config format cid

/-- The commits within the limits of a configuration. -/
def Commit.Fits (config : DecodeConfig) (format : CidFormat) (commit : Commit) : Prop :=
  commit.unsigned.Fits config format 6 ∧ commit.sig.length ≤ config.maxAlloc

theorem deserializeString_reads {text : Text} (h : text.bytes.length < 2 ^ 64)
    (hexcuse : ¬ (8 ≤ config.maxAlloc ∧ text.bytes.length ≤ config.maxAlloc) → excuse) :
  Reads (deserializeString config) (CborItem.text text).encode text 0 excuse
  := by
  have hexceeds : (CborItem.text text).Exceeds config → excuse := by
    rintro (halloc | hfits)
    · exact hexcuse fun h => absurd halloc (Nat.not_lt.mpr h.1)
    · exact hexcuse fun h => hfits h.2
  exact ((decodeItem_reads (.text text) h).mono (le_refl 0) hexceeds).bind_nil (Reads.pure text)
    (le_refl 0)

theorem deserializeU64_reads {value : Nat} (h : value < 2 ^ 64)
    (hexcuse : ¬ 8 ≤ config.maxAlloc → excuse) :
  Reads (deserializeU64 config) (CborItem.unsigned value).encode value 0 excuse
  := by
  have hexceeds : (CborItem.unsigned value).Exceeds config → excuse := by
    rintro (halloc | hfits)
    · exact hexcuse (Nat.not_le.mpr halloc)
    · exact absurd trivial hfits
  exact ((decodeItem_reads (.unsigned value) h).mono (le_refl 0) hexceeds).bind_nil
    (Reads.pure value) (le_refl 0)

theorem deserializeByteBuf_reads {data : Bytes} (h : data.length < 2 ^ 64)
    (hexcuse : ¬ (8 ≤ config.maxAlloc ∧ data.length ≤ config.maxAlloc) → excuse) :
  Reads (deserializeByteBuf config) (CborItem.bytes data).encode data 0 excuse
  := by
  have hexceeds : (CborItem.bytes data).Exceeds config → excuse := by
    rintro (halloc | hfits)
    · exact hexcuse fun h => absurd halloc (Nat.not_lt.mpr h.1)
    · exact hexcuse fun h => hfits h.2
  exact ((decodeItem_reads (.bytes data) h).mono (le_refl 0) hexceeds).bind_nil (Reads.pure data)
    (le_refl 0)

section Steps

variable {fields : CommitFields} {bytes : Bytes}

theorem unsignedField_did {did : Text} (h : Reads (deserializeString config) bytes did 0 excuse)
    (hnone : fields.did = none) :
  Reads (unsignedField config format levels fields fieldDid) bytes
    { fields with did := some did } 0 excuse
  := by
  rw [unsignedField, if_pos rfl, hnone]
  exact (takeField_reads h).bind_nil (Reads.pure _) (le_refl 0)

theorem unsignedField_version {version : Nat}
    (h : Reads (deserializeU64 config) bytes version 0 excuse) (hnone : fields.version = none) :
  Reads (unsignedField config format levels fields fieldVersion) bytes
    { fields with version := some version } 0 excuse
  := by
  rw [unsignedField, if_neg (by decide), if_pos rfl, hnone]
  exact (takeField_reads h).bind_nil (Reads.pure _) (le_refl 0)

theorem unsignedField_data {data : Cid} (h : Reads (deserializeCid config format) bytes data 0 excuse)
    (hnone : fields.data = none) :
  Reads (unsignedField config format levels fields fieldData) bytes
    { fields with data := some data } 0 excuse
  := by
  rw [unsignedField, if_neg (by decide), if_neg (by decide), if_pos rfl, hnone]
  exact (takeField_reads h).bind_nil (Reads.pure _) (le_refl 0)

theorem unsignedField_rev {rev : Text} (h : Reads (deserializeString config) bytes rev 0 excuse)
    (hnone : fields.rev = none) :
  Reads (unsignedField config format levels fields fieldRev) bytes
    { fields with rev := some rev } 0 excuse
  := by
  rw [unsignedField, if_neg (by decide), if_neg (by decide), if_neg (by decide), if_pos rfl, hnone]
  exact (takeField_reads h).bind_nil (Reads.pure _) (le_refl 0)

theorem unsignedField_prev {prev : Option Cid}
    (h : Reads (deserializeOption config (deserializeCid config format)) bytes prev 0 excuse)
    (hnone : fields.prev = none) :
  Reads (unsignedField config format levels fields fieldPrev) bytes
    { fields with prev := some prev } 0 excuse
  := by
  rw [unsignedField, if_neg (by decide), if_neg (by decide), if_neg (by decide), if_neg (by decide),
    if_pos rfl, hnone]
  exact (takeField_reads h).bind_nil (Reads.pure _) (le_refl 0)

theorem commitField_sig {sig : Bytes} (h : Reads (deserializeByteBuf config) bytes sig 0 excuse)
    (hnone : fields.sig = none) :
  Reads (commitField config format levels fields fieldSig) bytes
    { fields with sig := some sig } 0 excuse
  := by
  rw [commitField, if_pos rfl, hnone]
  exact (takeField_reads h).bind_nil (Reads.pure _) (le_refl 0)

/-- A signed commit has the fields of an unsigned one. -/
theorem commitField_of_ne {key : Text} {next : CommitFields} (hkey : key ≠ fieldSig)
    (h : Reads (unsignedField config format levels fields key) bytes next 0 excuse) :
  Reads (commitField config format levels fields key) bytes next 0 excuse
  := by
  rw [commitField, if_neg hkey]
  exact h

end Steps

/-- The readers of the fields that are signed. -/
structure FieldReads (config : DecodeConfig) (format : CidFormat) (commit : UnsignedCommit)
    (excuse : Prop) : Prop where
  did : Reads (deserializeString config) (CborItem.text commit.did).encode commit.did 0 excuse
  version : Reads (deserializeU64 config) (CborItem.unsigned commit.version).encode commit.version 0
    excuse
  data : Reads (deserializeCid config format) (encodeLink (commit.data.toDagCborBytes format))
    commit.data 0 excuse
  rev : Reads (deserializeString config) (CborItem.text commit.rev).encode commit.rev 0 excuse
  prev : Reads (deserializeOption config (deserializeCid config format))
    (optionEncoding format commit.prev) commit.prev 0 excuse

theorem fieldReads (hformat : format.Lawful) {commit : UnsignedCommit} (h : commit.Sized format)
    {fields : Nat} (hexcuse : ¬ commit.Fits config format fields → excuse) :
  FieldReads config format commit excuse
  := by
  constructor
  · apply deserializeString_reads h.did
    exact fun hnot => hexcuse fun hfits => hnot ⟨hfits.alloc, hfits.did⟩
  · apply deserializeU64_reads h.version
    exact fun hnot => hexcuse fun hfits => hnot hfits.alloc
  · apply deserializeCid_reads hformat h.data
    exact fun hnot => hexcuse fun hfits => hnot ⟨hfits.alloc, hfits.data⟩
  · apply deserializeString_reads h.rev
    exact fun hnot => hexcuse fun hfits => hnot ⟨hfits.alloc, hfits.rev⟩
  · apply deserializeOption_reads hformat h.prev
    exact fun hnot => hexcuse fun hfits => hnot ⟨hfits.alloc, hfits.prev⟩

/-- The deserializer reads an unsigned commit back. -/
theorem deserialize_unsigned_reads (hformat : format.Lawful) {commit : UnsignedCommit}
    (h : commit.Sized format) :
  Reads (UnsignedCommit.deserialize config format) (unsignedEncoding format commit) commit 0
    (¬ commit.Fits config format 5)
  := by
  have hname : ∀ name : Text, name.bytes.length ≤ 8 → TextExceeds config name →
      ¬ commit.Fits config format 5 :=
    fun name hlength hexceeds hfits => textExceeds_field hlength hexceeds hfits.alloc
  have hheader : (CborItem.map 5).Exceeds config → ¬ commit.Fits config format 5 := by
    rintro (hlt | hlimit) hfits
    · exact absurd hlt (Nat.not_lt.mpr hfits.alloc)
    · exact hlimit hfits.fields
  have hreads := @fieldReads config format _ hformat commit h 5 id
  have hlink : encodeLink (commit.data.toDagCborBytes format) ≠ [] := CborTree.encode_ne_nil (.link _)
  apply encodeMap_reads (by simp) _ hheader
  · cases hlevels : config.maxDepth with
    | zero =>
      apply Reads.fail
      intro hfits
      exact absurd hlevels hfits.depth.ne'
    | succ levels =>
      -- the fields in the order of their encoded names, the last first
      have hafterPrev : Reads (mapAccess config (unsignedField config format levels)
          ⟨some commit.did, none, some commit.data, some commit.rev, some commit.prev, none⟩
          (some fieldPrev) 1) _ _ 0 _ :=
        mapAccess_reads_cons (by decide) (lessField (by decide)) (hname fieldVersion (by decide))
          (unsignedField_version hreads.version rfl) (Reads.pure _)
      have hafterData : Reads (mapAccess config (unsignedField config format levels)
          ⟨some commit.did, none, some commit.data, some commit.rev, none, none⟩
          (some fieldData) 2) _ _ 0 _ :=
        mapAccess_reads_cons (by decide) (lessField (by decide)) (hname fieldPrev (by decide))
          (unsignedField_prev hreads.prev rfl) hafterPrev
      have hafterRev : Reads (mapAccess config (unsignedField config format levels)
          ⟨some commit.did, none, none, some commit.rev, none, none⟩ (some fieldRev) 3) _ _ 0 _ :=
        mapAccess_reads_cons (by decide) (lessField (by decide)) (hname fieldData (by decide))
          (unsignedField_data hreads.data rfl) hafterData
      have hafterDid : Reads (mapAccess config (unsignedField config format levels)
          ⟨some commit.did, none, none, none, none, none⟩ (some fieldDid) 4) _ _ 0 _ :=
        mapAccess_reads_cons (by decide) (lessField (by decide)) (hname fieldRev (by decide))
          (unsignedField_rev hreads.rev rfl) hafterRev
      have hfields : Reads (mapAccess config (unsignedField config format levels) .empty none 5) _ _
          0 _ :=
        mapAccess_reads_cons (by decide) nofun (hname fieldDid (by decide))
          (unsignedField_did hreads.did rfl) hafterDid
      exact hfields.bind_nil (Reads.pure _) (le_refl 0)
  · simpa [CborItem.encode_ne_nil, optionEncoding_ne_nil] using hlink

/-- The deserializer reads a commit back. -/
theorem deserialize_commit_reads (hformat : format.Lawful) {commit : Commit}
    (h : commit.unsigned.Sized format) (hsig : commit.sig.length < 2 ^ 64) :
  Reads (Commit.deserialize config format) (commitEncoding format commit) commit 0
    (¬ commit.Fits config format)
  := by
  have hunsigned : ¬ commit.unsigned.Fits config format 6 → ¬ commit.Fits config format :=
    fun hnot hfits => hnot hfits.1
  have hname : ∀ name : Text, name.bytes.length ≤ 8 → TextExceeds config name →
      ¬ commit.Fits config format :=
    fun name hlength hexceeds hfits => textExceeds_field hlength hexceeds hfits.1.alloc
  have hheader : (CborItem.map 6).Exceeds config → ¬ commit.Fits config format := by
    rintro (hlt | hlimit) hfits
    · exact absurd hlt (Nat.not_lt.mpr hfits.1.alloc)
    · exact hlimit hfits.1.fields
  have hreads := fieldReads hformat h hunsigned
  have hbytes := @deserializeByteBuf_reads config (¬ commit.Fits config format) commit.sig hsig
    fun hnot hfits => hnot ⟨hfits.1.alloc, hfits.2⟩
  have hlink : encodeLink (commit.data.toDagCborBytes format) ≠ [] := CborTree.encode_ne_nil (.link _)
  apply encodeMap_reads (by simp) _ hheader
  · cases hlevels : config.maxDepth with
    | zero =>
      apply Reads.fail
      intro hfits
      exact absurd hlevels hfits.1.depth.ne'
    | succ levels =>
      -- the fields in the order of their encoded names, the last first
      have hafterPrev : Reads (mapAccess config (commitField config format levels)
          ⟨some commit.did, none, some commit.data, some commit.rev, some commit.prev,
            some commit.sig⟩ (some fieldPrev) 1) _ _ 0 _ :=
        mapAccess_reads_cons (by decide) (lessField (by decide)) (hname fieldVersion (by decide))
          (commitField_of_ne (by decide) (unsignedField_version hreads.version rfl)) (Reads.pure _)
      have hafterData : Reads (mapAccess config (commitField config format levels)
          ⟨some commit.did, none, some commit.data, some commit.rev, none, some commit.sig⟩
          (some fieldData) 2) _ _ 0 _ :=
        mapAccess_reads_cons (by decide) (lessField (by decide)) (hname fieldPrev (by decide))
          (commitField_of_ne (by decide) (unsignedField_prev hreads.prev rfl)) hafterPrev
      have hafterSig : Reads (mapAccess config (commitField config format levels)
          ⟨some commit.did, none, none, some commit.rev, none, some commit.sig⟩
          (some fieldSig) 3) _ _ 0 _ :=
        mapAccess_reads_cons (by decide) (lessField (by decide)) (hname fieldData (by decide))
          (commitField_of_ne (by decide) (unsignedField_data hreads.data rfl)) hafterData
      have hafterRev : Reads (mapAccess config (commitField config format levels)
          ⟨some commit.did, none, none, some commit.rev, none, none⟩ (some fieldRev) 4) _ _ 0 _ :=
        mapAccess_reads_cons (by decide) (lessField (by decide)) (hname fieldSig (by decide))
          (commitField_sig hbytes rfl) hafterSig
      have hafterDid : Reads (mapAccess config (commitField config format levels)
          ⟨some commit.did, none, none, none, none, none⟩ (some fieldDid) 5) _ _ 0 _ :=
        mapAccess_reads_cons (by decide) (lessField (by decide)) (hname fieldRev (by decide))
          (commitField_of_ne (by decide) (unsignedField_rev hreads.rev rfl)) hafterRev
      have hfields : Reads (mapAccess config (commitField config format levels) .empty none 6) _ _
          0 _ :=
        mapAccess_reads_cons (by decide) nofun (hname fieldDid (by decide))
          (commitField_of_ne (by decide) (unsignedField_did hreads.did rfl)) hafterDid
      exact hfields.bind_nil (Reads.pure _) (le_refl 0)
  · simpa [CborItem.encode_ne_nil, optionEncoding_ne_nil] using hlink

/-! ### The codec -/

/-- A number that no length in an unsigned commit exceeds. -/
def unsignedBound (format : CidFormat) (commit : UnsignedCommit) : Nat :=
  commit.did.bytes.length + (commit.data.toDagCborBytes format).length + commit.rev.bytes.length +
    (commit.prev.elim 0 fun cid => (cid.toDagCborBytes format).length)

theorem fits_raisedConfig {commit : UnsignedCommit} {length : Nat} (fields : Nat)
    (h : unsignedBound format commit ≤ length) :
  commit.Fits (raisedConfig length) format fields
  := by
  rw [unsignedBound] at h
  refine ⟨Nat.succ_pos 2, Nat.le_add_left 8 length, nofun, ?_, ?_, ?_, ?_⟩
  · change _ ≤ length + 8
    omega
  · change _ ≤ length + 8
    omega
  · change _ ≤ length + 8
    omega
  · intro cid hcid
    rw [Option.mem_def.mp hcid, Option.elim_some] at h
    change _ ≤ length + 8
    omega

/-- Unsigned commits with the same bytes are the same. -/
theorem unsigned_toBytes_inj (hformat : format.Lawful) {a b : UnsignedCommit} {bytes : Bytes}
    (ha : a.toBytes format = .ok bytes) (hb : b.toBytes format = .ok bytes) :
  a = b
  := by
  obtain ⟨hsized, rfl⟩ := unsigned_toBytes_eq_ok.mp ha
  obtain ⟨hsized', heq⟩ := unsigned_toBytes_eq_ok.mp hb
  have hread := fromSlice_of_reads (deserialize_unsigned_reads hformat hsized)
    (not_not.mpr (fits_raisedConfig 5 (le_refl (unsignedBound format a))))
  rw [heq] at hread
  exact eq_of_fromSlice (deserialize_unsigned_reads hformat hsized') hread

/-- Commits with the same bytes are the same. -/
theorem commit_toBytes_inj (hformat : format.Lawful) {a b : Commit} {bytes : Bytes}
    (ha : a.toBytes format = .ok bytes) (hb : b.toBytes format = .ok bytes) :
  a = b
  := by
  obtain ⟨⟨hsized, hsig⟩, rfl⟩ := commit_toBytes_eq_ok.mp ha
  obtain ⟨⟨hsized', hsig'⟩, heq⟩ := commit_toBytes_eq_ok.mp hb
  have hfits : a.Fits (raisedConfig (unsignedBound format a.unsigned + a.sig.length)) format := by
    refine ⟨fits_raisedConfig 6 (Nat.le_add_right _ _), ?_⟩
    change _ ≤ unsignedBound format a.unsigned + a.sig.length + 8
    omega
  have hread := fromSlice_of_reads (deserialize_commit_reads hformat hsized hsig) (not_not.mpr hfits)
  rw [heq] at hread
  exact eq_of_fromSlice (deserialize_commit_reads hformat hsized' hsig') hread

/-- A commit that is read from the bytes of a commit is that commit. -/
theorem eq_of_fromBytes (hformat : format.Lawful) {commit commit' : Commit} {bytes : Bytes}
    (hto : commit.toBytes format = .ok bytes) (hfrom : Commit.fromBytes format bytes = .ok commit') :
  commit' = commit
  := by
  obtain ⟨⟨hsized, hsig⟩, rfl⟩ := commit_toBytes_eq_ok.mp hto
  exact eq_of_fromSlice (deserialize_commit_reads hformat hsized hsig) hfrom

end Atproto.Repo
