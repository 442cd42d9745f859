import Atproto.Dasl.Ipld
import Atproto.Dasl.Multiformats
import Mathlib.Algebra.Order.BigOperators.Group.List

/-!
# Round trips of values

Serializing a value writes the canonical tree of the value, and deserializing builds the
value that the tree is visited as.  The two differ exactly in the byte strings that look
like CIDs.
-/

namespace Atproto.Dasl

open Wire SearchTree CborTree

variable {format : CidFormat} {α : Type}

namespace Ipld

/-! ### Values of values -/

section Fold

variable (visitor : Visitor α) (link : Cid → α)

mutual

/-- The value a visitor builds from the parts of a value, where `link` takes the CIDs. -/
def fold : Ipld → α
  | .null => visitor.unit
  | .bool value => visitor.bool value
  | .integer value => visitor.integer value
  | .float bits => visitor.float bits
  | .string value => visitor.string value
  | .bytes data => visitor.byteBuf data
  | .list items => visitor.seq (foldItems items)
  | .map entries => visitor.map (foldEntries entries)
  | .link cid => link cid

def foldItems : List Ipld → List α
  | [] => []
  | item :: items => fold item :: foldItems items

def foldEntries : List (Text × Ipld) → List (Text × α)
  | [] => []
  | (key, value) :: entries => (key, fold value) :: foldEntries entries

end

theorem fold_list (items : List Ipld) :
  fold visitor link (.list items) = visitor.seq (items.map (fold visitor link))
  := by
  have hitems : foldItems visitor link items = items.map (fold visitor link) := by
    induction items with
    | nil => rfl
    | cons item items ih => rw [foldItems, List.map_cons, ih]
  rw [fold, hitems]

theorem fold_map (entries : List (Text × Ipld)) :
  fold visitor link (.map entries) =
    visitor.map (entries.map fun e => (e.1, fold visitor link e.2))
  := by
  have hentries : foldEntries visitor link entries =
      entries.map fun e => (e.1, fold visitor link e.2) := by
    induction entries with
    | nil => rfl
    | cons entry entries ih => rw [foldEntries, List.map_cons, ih]
  rw [fold, hentries]

end Fold

/-- Building the tree of a value: the entries of a map are put in the order of their keys. -/
def treeBuilder : Visitor CborTree where
  bool := .bool
  integer := .integer
  float := .float
  string := .text
  byteBuf := .bytes
  unit := .null
  seq := .array
  map entries := .map (sortEntries entries)

/-- The tree of a value. -/
def tree (format : CidFormat) (value : Ipld) : CborTree :=
  value.fold treeBuilder fun cid => .link (cid.toDagCborBytes format)

/-- Counting the byte strings that look like CIDs. -/
def cidCounter (format : CidFormat) : Visitor Nat where
  bool _ := 0
  integer _ := 0
  float _ := 0
  string _ := 0
  byteBuf data := if (cidOfBytes format data).isSome then 1 else 0
  unit := 0
  seq := List.sum
  map entries := (entries.map Prod.snd).sum

/-- The number of byte strings of a value that look like CIDs. -/
def bareCids (format : CidFormat) (value : Ipld) : Nat :=
  value.fold (cidCounter format) fun _ => 0

/-- The values that can be serialized: integers have 64 bits and a sign, floating-point
numbers are finite, lengths have 64 bits, and the entries of a map are sorted. -/
inductive Encodable (format : CidFormat) : Ipld → Prop where
  | null : Encodable format .null
  | bool (value : Bool) : Encodable format (.bool value)
  | integer {value : Int} (hlow : -2 ^ 64 ≤ value) (hhigh : value < 2 ^ 64) :
    Encodable format (.integer value)
  | float {bits : UInt64} (hfinite : IsFinite bits) : Encodable format (.float bits)
  | string {text : Text} (hlength : text.bytes.length < 2 ^ 64) : Encodable format (.string text)
  | bytes {data : Bytes} (hlength : data.length < 2 ^ 64) : Encodable format (.bytes data)
  | list {items : List Ipld} (hlength : items.length < 2 ^ 64)
    (hitems : ∀ item ∈ items, Encodable format item) : Encodable format (.list items)
  | map {entries : List (Text × Ipld)} (hlength : entries.length < 2 ^ 64)
    (hkeys : ∀ e ∈ entries, e.1.bytes.length < 2 ^ 64) (hsorted : Sorted entries)
    (hvalues : ∀ e ∈ entries, Encodable format e.2) : Encodable format (.map entries)
  | link {cid : Cid} (hlength : (cid.toDagCborBytes format).length < 2 ^ 64) :
    Encodable format (.link cid)

theorem tree_list (items : List Ipld) :
  tree format (.list items) = .array (items.map (tree format))
  := fold_list _ _ items

theorem tree_map (entries : List (Text × Ipld)) :
  tree format (.map entries) = .map (sortEntries (entries.map fun e => (e.1, tree format e.2)))
  := fold_map _ _ entries

/-! ### Serializing -/

theorem encodeI128_of_neg {value : Int} (hneg : value < 0) (hlow : -2 ^ 64 ≤ value) :
  encodeI128 value = .ok (CborItem.negative value).encode
  := by
  rw [encodeI128, if_neg (by omega)]
  simp only
  rw [if_neg (by omega)]
  rfl

theorem serializeInteger_ok {value : Int} (hlow : -2 ^ 64 ≤ value) (hhigh : value < 2 ^ 64) :
  serializeInteger value = .ok (integerItem value).encode
  := by
  rw [serializeInteger, integerItem]
  by_cases hsign : value ≥ 0
  · rw [if_pos ⟨hsign, by omega⟩, if_pos hsign]
    rfl
  · rw [if_neg (by omega), if_neg hsign]
    split_ifs with hrange
    · rw [encodeInteger, if_neg hsign]
      rfl
    · exact encodeI128_of_neg (by omega) hlow

theorem encodeF64_ok {bits : UInt64} (h : IsFinite bits) :
  encodeF64 bits = .ok (CborItem.float bits).encode
  := by
  rw [encodeF64, h.1, h.2]
  rfl

theorem serializeItems_ok {items : List Ipld}
    (h : ∀ item ∈ items, serialize format item = .ok (tree format item).encode) :
  serializeItems format items = .ok ((items.map (tree format)).map encode)
  := by
  induction items with
  | nil => rfl
  | cons item items ih =>
    rw [List.forall_mem_cons] at h
    rw [serializeItems, h.1, ih h.2]
    rfl

theorem serializeEntries_ok {entries : List (Text × Ipld)}
    (hkeys : ∀ e ∈ entries, e.1.bytes.length < 2 ^ 64)
    (h : ∀ e ∈ entries, serialize format e.2 = .ok (tree format e.2).encode) :
  serializeEntries format entries = .ok (entries.map fun e =>
    ((CborItem.text e.1).encode, (tree format e.2).encode))
  := by
  induction entries with
  | nil => rfl
  | cons entry entries ih =>
    rw [List.forall_mem_cons] at hkeys h
    rw [serializeEntries, encodeText_ok hkeys.1, h.1, ih hkeys.2 h.2]
    rfl

/-- What is written for a value is the encoding of its tree. -/
theorem Encodable.serialize_ok {value : Ipld} (h : value.Encodable format) :
  serialize format value = .ok (value.tree format).encode
  := by
  induction h with
  | null => rfl
  | bool value => rfl
  | integer hlow hhigh => exact serializeInteger_ok hlow hhigh
  | float hfinite => exact encodeF64_ok hfinite
  | string hlength => exact encodeText_ok hlength
  | bytes hlength => exact encodeBytes_ok hlength
  | @list items hlength _ ih =>
    rw [serialize, encodeArrayHeader, encodeLengthHead_ok _ hlength, serializeItems_ok ih, tree_list,
      encode_array, List.length_map, List.flatMap_def]
    rfl
  | @map entries hlength hkeys _ _ ih =>
    have hend := @endMap_ok (entries.map fun e => (e.1, (tree format e.2).encode))
      (by rwa [List.length_map]) (List.forall_mem_map.mpr hkeys)
    rw [List.map_map] at hend
    rw [serialize, serializeEntries_ok hkeys ih, tree_map, encode, CborTree.fold_map, map_sortEntries,
      List.map_map]
    exact hend
  | link hlength => exact serializeCid_ok hlength

theorem Encodable.canonical (hformat : format.Lawful) {value : Ipld} (h : value.Encodable format) :
  (value.tree format).Canonical format
  := by
  induction h with
  | null => exact .null
  | bool value => exact .bool value
  | integer hlow hhigh => exact .integer hlow hhigh
  | float hfinite => exact .float hfinite
  | string hlength => exact .text hlength
  | bytes hlength => exact .bytes hlength
  | list hlength _ ih =>
    rw [tree_list]
    apply CborTree.Canonical.array
    · rwa [List.length_map]
    · exact List.forall_mem_map.mpr ih
  | @map entries hlength hkeys hsorted _ ih =>
    rw [tree_map]
    have hperm := sortEntries_perm (entries.map fun e => (e.1, tree format e.2))
    apply CborTree.Canonical.map
    · rwa [hperm.length_eq, List.length_map]
    · intro e he
      obtain ⟨e', he', rfl⟩ := List.mem_map.mp (hperm.subset he)
      exact hkeys e' he'
    · apply sortEntries_pairwise
      exact List.pairwise_map.mpr hsorted.distinct
    · intro e he
      obtain ⟨e', he', rfl⟩ := List.mem_map.mp (hperm.subset he)
      exact ih e' he'
  | @link cid hlength => exact .link hlength cid (hformat.fromDagCborBytes cid)

/-! ### Deserializing -/

theorem cidOfBytes_eq_some (hformat : format.Lawful) {data : Bytes} {cid : Cid} :
  cidOfBytes format data = some cid ↔ Cid.fromDagCborBytes format data = .ok cid
  := by
  rw [cidOfBytes]
  split_ifs with hlead
  · cases Cid.fromDagCborBytes format data with
    | error e => simp [Except.toOption]
    | ok cid => simp [Except.toOption]
  · refine ⟨nofun, fun h => absurd ?_ hlead⟩
    obtain ⟨rest, rfl, hparse⟩ := fromDagCborBytes_eq_ok.mp h
    have hne : rest ≠ [] := by
      rintro rfl
      exact hformat.nonempty cid hparse
    exact ⟨rfl, Nat.succ_lt_succ (List.length_pos_iff.mpr hne)⟩

theorem visitByteBuf_of_cid (hformat : format.Lawful) {data : Bytes} {cid : Cid}
    (h : Cid.fromDagCborBytes format data = .ok cid) :
  visitByteBuf format data = .link cid
  := by
  rw [visitByteBuf, (cidOfBytes_eq_some hformat).mpr h]

theorem map_eq_self {f : α → α} {items : List α} :
  items.map f = items ↔ ∀ item ∈ items, f item = item
  := by
  induction items with
  | nil => simp
  | cons item items ih => rw [List.map_cons, List.cons.injEq, ih, List.forall_mem_cons]

theorem visit_tree_map {entries : List (Text × Ipld)} (hsorted : Sorted entries) :
  (tree format (.map entries)).visit (visitor format) =
    .map (entries.map fun e => (e.1, (tree format e.2).visit (visitor format)))
  := by
  have hsorted' : Sorted (entries.map fun e => (e.1, (tree format e.2).visit (visitor format))) :=
    List.pairwise_map.mpr hsorted
  rw [tree_map, visit, CborTree.fold_map]
  change Ipld.map (collect _) = _
  rw [collect_eq hsorted']
  have hperm := (sortEntries_perm (entries.map fun e => (e.1, tree format e.2))).map fun e =>
    (e.1, e.2.visit (visitor format))
  rwa [List.map_map] at hperm

/-- The tree of a value is visited as the value when no byte string looks like a CID. -/
theorem Encodable.visit_tree_iff (hformat : format.Lawful) {value : Ipld}
    (h : value.Encodable format) :
  (value.tree format).visit (visitor format) = value ↔ value.bareCids format = 0
  := by
  induction h with
  | null => exact iff_of_true rfl rfl
  | bool value => exact iff_of_true rfl rfl
  | integer hlow hhigh => exact iff_of_true rfl rfl
  | float hfinite => exact iff_of_true rfl rfl
  | string hlength => exact iff_of_true rfl rfl
  | @bytes data hlength =>
    change visitByteBuf format data = .bytes data ↔
      (if (cidOfBytes format data).isSome then 1 else 0) = 0
    rw [visitByteBuf]
    cases cidOfBytes format data with
    | none => simp
    | some cid => simp
  | @list items hlength _ ih =>
    have hvisit : (tree format (.list items)).visit (visitor format) =
        .list (items.map fun item => (tree format item).visit (visitor format)) := by
      rw [tree_list, visit, CborTree.fold_array, List.map_map]
      rfl
    have hcount : bareCids format (.list items) = (items.map (bareCids format)).sum :=
      fold_list _ _ items
    rw [hvisit, hcount, Ipld.list.injEq, map_eq_self, List.sum_eq_zero_iff, List.forall_mem_map]
    exact forall₂_congr ih
  | @map entries hlength _ hsorted _ ih =>
    have hcount : bareCids format (.map entries) =
        (entries.map fun e => bareCids format e.2).sum := by
      rw [bareCids, fold_map]
      change (List.map Prod.snd (List.map _ entries)).sum = _
      rw [List.map_map]
      rfl
    rw [visit_tree_map hsorted, hcount, Ipld.map.injEq, map_eq_self, List.sum_eq_zero_iff,
      List.forall_mem_map]
    apply forall₂_congr
    intro e he
    rw [← ih e he, Prod.ext_iff]
    exact and_iff_right rfl
  | @link cid hlength =>
    exact iff_of_true (visitByteBuf_of_cid hformat (hformat.fromDagCborBytes cid)) rfl

/-! ### Limits -/

/-- The values within the limits of the default configuration, with `levels` levels
allowed. -/
inductive Bounded (format : CidFormat) : Nat → Ipld → Prop where
  | null (levels : Nat) : Bounded format levels .null
  | bool (levels : Nat) (value : Bool) : Bounded format levels (.bool value)
  | integer (levels : Nat) {value : Int} (hlow : -2 ^ 64 ≤ value) (hhigh : value < 2 ^ 64) :
    Bounded format levels (.integer value)
  | float (levels : Nat) {bits : UInt64} (hfinite : IsFinite bits) :
    Bounded format levels (.float bits)
  | string (levels : Nat) {text : Text}
    (hlength : text.bytes.length ≤ DecodeConfig.default.maxAlloc) :
    Bounded format levels (.string text)
  | bytes (levels : Nat) {data : Bytes} (hlength : data.length ≤ DecodeConfig.default.maxAlloc) :
    Bounded format levels (.bytes data)
  | list {levels : Nat} {items : List Ipld}
    (hlength : items.length ≤ DecodeConfig.default.maxArrayElements)
    (hitems : ∀ item ∈ items, Bounded format levels item) :
    Bounded format (levels + 1) (.list items)
  | map {levels : Nat} {entries : List (Text × Ipld)}
    (hlength : entries.length ≤ DecodeConfig.default.maxMapEntries)
    (hkeys : ∀ e ∈ entries, e.1.bytes.length ≤ DecodeConfig.default.maxAlloc)
    (hsorted : Sorted entries) (hvalues : ∀ e ∈ entries, Bounded format levels e.2) :
    Bounded format (levels + 1) (.map entries)
  | link (levels : Nat) {cid : Cid}
    (hlength : (cid.toDagCborBytes format).length ≤ DecodeConfig.default.maxAlloc) :
    Bounded format levels (.link cid)

theorem maxAlloc_lt {n : Nat} (h : n ≤ DecodeConfig.default.maxAlloc) :
  n < 2 ^ 64
  := h.trans_lt (by decide)

theorem Bounded.encodable {levels : Nat} {value : Ipld} (h : value.Bounded format levels) :
  value.Encodable format
  := by
  induction h with
  | null levels => exact .null
  | bool levels value => exact .bool value
  | integer levels hlow hhigh => exact .integer hlow hhigh
  | float levels hfinite => exact .float hfinite
  | string levels hlength => exact .string (maxAlloc_lt hlength)
  | bytes levels hlength => exact .bytes (maxAlloc_lt hlength)
  | list hlength _ ih => exact .list (hlength.trans_lt (by decide)) ih
  | map hlength hkeys hsorted _ ih =>
    exact .map (hlength.trans_lt (by decide)) (fun e he => maxAlloc_lt (hkeys e he)) hsorted ih
  | link levels hlength => exact .link (maxAlloc_lt hlength)

theorem Bounded.fits {levels : Nat} {value : Ipld} (h : value.Bounded format levels) :
  (value.tree format).Fits DecodeConfig.default levels
  := by
  induction h with
  | null levels => exact .null levels
  | bool levels value => exact .bool levels value
  | integer levels hlow hhigh => exact .integer levels _
  | float levels hfinite => exact .float levels _
  | string levels hlength => exact .text levels hlength
  | bytes levels hlength => exact .bytes levels hlength
  | list hlength _ ih =>
    rw [tree_list]
    refine CborTree.Fits.array (fun _ => ?_) (List.forall_mem_map.mpr ih)
    rwa [List.length_map]
  | @map levels entries hlength hkeys hsorted _ ih =>
    rw [tree_map]
    have hperm := sortEntries_perm (entries.map fun e => (e.1, tree format e.2))
    refine CborTree.Fits.map (fun _ => ?_) ?_ ?_
    · rwa [hperm.length_eq, List.length_map]
    · intro e he
      obtain ⟨e', he', rfl⟩ := List.mem_map.mp (hperm.subset he)
      exact hkeys e' he'
    · intro e he
      obtain ⟨e', he', rfl⟩ := List.mem_map.mp (hperm.subset he)
      exact ih e' he'
  | link levels hlength => exact .link levels hlength

/-- A value within the limits is deserialized as its tree is visited. -/
theorem Bounded.fromSlice_toVec (hformat : format.Lawful) {value : Ipld}
    (h : value.Bounded format DecodeConfig.default.maxDepth) :
  ∃ bytes, toVec format value = .ok bytes ∧
    fromSlice format bytes = .ok ((value.tree format).visit (visitor format))
  := by
  refine ⟨_, h.encodable.serialize_ok, ?_⟩
  apply fromSlice_of_reads ((h.encodable.canonical hformat).reads _)
  rintro (halloc | hfits)
  · exact absurd halloc (by decide)
  · exact hfits h.fits

/-- A value within the limits comes back from its bytes exactly when none of its byte
strings looks like a CID. -/
theorem roundTrip_iff (hformat : format.Lawful) {value : Ipld}
    (h : value.Bounded format DecodeConfig.default.maxDepth) :
  (∃ bytes, toVec format value = .ok bytes ∧ fromSlice format bytes = .ok value) ↔
    value.bareCids format = 0
  := by
  obtain ⟨bytes, htoVec, hfromSlice⟩ := h.fromSlice_toVec hformat
  rw [← h.encodable.visit_tree_iff hformat]
  constructor
  · rintro ⟨bytes', htoVec', hfromSlice'⟩
    rw [htoVec] at htoVec'
    cases htoVec'
    rw [hfromSlice] at hfromSlice'
    exact Except.ok.inj hfromSlice'
  · intro hvisit
    rw [hvisit] at hfromSlice
    exact ⟨bytes, htoVec, hfromSlice⟩

/-- A list of a negative integer and a link. -/
def sample : Ipld :=
  .list [.integer (-1), .link (cidV1 dagCborCodec sha256Code (List.replicate 32 0))]

theorem sample_bounded :
  sample.Bounded multiformats DecodeConfig.default.maxDepth
  := by
  apply Bounded.list (by decide)
  rintro item (_ | ⟨_, _ | ⟨_, hitem⟩⟩)
  · exact .integer _ (by decide) (by decide)
  · exact .link _ (by decide)
  · cases hitem

theorem roundTrip_sample :
  ∃ bytes, toVec multiformats sample = .ok bytes ∧ fromSlice multiformats bytes = .ok sample
  := (roundTrip_iff multiformats_lawful sample_bounded).mpr rfl

/-- The bytes of a link, as a byte string. -/
def linkBytes : Bytes :=
  (cidV1 dagCborCodec sha256Code (List.replicate 32 0)).toDagCborBytes multiformats

theorem roundTrip_linkBytes :
  (Ipld.bytes linkBytes).Bounded multiformats DecodeConfig.default.maxDepth ∧
    ¬ ∃ bytes, toVec multiformats (.bytes linkBytes) = .ok bytes ∧
      fromSlice multiformats bytes = .ok (.bytes linkBytes)
  := by
  have hbounded : (Ipld.bytes linkBytes).Bounded multiformats DecodeConfig.default.maxDepth :=
    .bytes _ (by decide)
  refine ⟨hbounded, ?_⟩
  rintro ⟨bytes, htoVec, hfromSlice⟩
  obtain ⟨bytes', htoVec', hlink⟩ := hbounded.fromSlice_toVec multiformats_lawful
  rw [htoVec] at htoVec'
  cases htoVec'
  rw [hfromSlice] at hlink
  cases hlink

end Ipld

end Atproto.Dasl
