import Atproto.Dasl.Cbor.Deserializer
import Atproto.Dasl.Cbor.Item

/-!
# Canonical trees

What the deserializer accepts is the encoding of a tree whose maps have their keys in
order and whose tags hold CIDs.  The value it builds is that of the tree, so an accepted
input determines the tree up to what the visitor forgets.
-/

namespace Atproto.Dasl

open Wire

/-- A tree of items.  `link` is the payload of tag 42, and `integer` stands for both major
types of integers. -/
inductive CborTree where
  | bool (value : Bool)
  | integer (value : Int)
  | float (bits : UInt64)
  | text (string : Text)
  | bytes (data : Bytes)
  | null
  | array (items : List CborTree)
  | map (entries : List (Text × CborTree))
  | link (payload : Bytes)

/-- A map key comes before another. -/
def KeyLess (a b : Text) : Prop :=
  a.bytes.length < b.bytes.length ∨ a.bytes.length = b.bytes.length ∧ a < b

namespace CborTree

variable {α : Type}

/-! ### Values of trees -/

section Fold

variable (visitor : Visitor α) (link : Bytes → α)

mutual

/-- The value a visitor builds from a tree, where `link` takes the payloads of tags. -/
def fold : CborTree → α
  | .bool value => visitor.bool value
  | .integer value => visitor.integer value
  | .float bits => visitor.float bits
  | .text string => visitor.string string
  | .bytes data => visitor.byteBuf data
  | .null => visitor.unit
  | .array items => visitor.seq (foldItems items)
  | .map entries => visitor.map (foldEntries entries)
  | .link payload => link payload

def foldItems : List CborTree → List α
  | [] => []
  | item :: items => fold item :: foldItems items

def foldEntries : List (Text × CborTree) → List (Text × α)
  | [] => []
  | (key, value) :: entries => (key, fold value) :: foldEntries entries

end

theorem foldItems_eq (items : List CborTree) :
  foldItems visitor link items = items.map (fold visitor link)
  := by
  induction items with
  | nil => rfl
  | cons item items ih => rw [foldItems, List.map_cons, ih]

theorem foldEntries_eq (entries : List (Text × CborTree)) :
  foldEntries visitor link entries = entries.map fun e => (e.1, fold visitor link e.2)
  := by
  induction entries with
  | nil => rfl
  | cons entry entries ih => rw [foldEntries, List.map_cons, ih]

theorem fold_array (items : List CborTree) :
  fold visitor link (.array items) = visitor.seq (items.map (fold visitor link))
  := by
  rw [fold, foldItems_eq]

theorem fold_map (entries : List (Text × CborTree)) :
  fold visitor link (.map entries) =
    visitor.map (entries.map fun e => (e.1, fold visitor link e.2))
  := by
  rw [fold, foldEntries_eq]

end Fold

/-- The value of a tree for a visitor, which does not see the tags. -/
def visit (visitor : Visitor α) (tree : CborTree) : α := tree.fold visitor visitor.byteBuf

/-- The item of an integer. -/
def integerItem (value : Int) : CborItem :=
  if value ≥ 0 then .unsigned value.toNat else .negative value

/-- The item of a map key in front of the bytes of the value. -/
def entryBytes (entry : Text × Bytes) : Bytes := (CborItem.text entry.1).encode ++ entry.2

/-- The encoding of an array with the given parts. -/
def encodeArray (parts : List Bytes) : Bytes :=
  (CborItem.array parts.length).encode ++ parts.flatten

/-- The encoding of a map with the given entries. -/
def encodeMap (entries : List (Text × Bytes)) : Bytes :=
  (CborItem.map entries.length).encode ++ entries.flatMap entryBytes

/-- Building the encoding of a tree. -/
def encoder : Visitor Bytes where
  bool value := (CborItem.bool value).encode
  integer value := (integerItem value).encode
  float bits := (CborItem.float bits).encode
  string string := (CborItem.text string).encode
  byteBuf data := (CborItem.bytes data).encode
  unit := CborItem.null.encode
  seq := encodeArray
  map := encodeMap

/-- The encoding of a payload under tag 42. -/
def encodeLink (payload : Bytes) : Bytes :=
  (CborItem.tag cidTag).encode ++ (CborItem.bytes payload).encode

/-- The encoding of a tree. -/
def encode (tree : CborTree) : Bytes := tree.fold encoder encodeLink

theorem encode_array (items : List CborTree) :
  encode (.array items) = (CborItem.array items.length).encode ++ items.flatMap encode
  := by
  have harray : encode (.array items) = encodeArray (items.map encode) := fold_array _ _ items
  rw [harray, encodeArray, List.length_map, List.flatMap_def]

theorem encode_map (entries : List (Text × CborTree)) :
  encode (.map entries) = (CborItem.map entries.length).encode ++
    entries.flatMap fun e => entryBytes (e.1, e.2.encode)
  := by
  have hmap : encode (.map entries) = encodeMap (entries.map fun e => (e.1, e.2.encode)) :=
    fold_map _ _ entries
  rw [hmap, encodeMap, List.length_map, List.flatMap_map]

/-! ### Canonical trees -/

/-- The trees with an encoding: arguments have 64 bits, floating-point numbers are finite,
the keys of a map are in order, and tags hold CIDs. -/
inductive Canonical (format : CidFormat) : CborTree → Prop where
  | bool (value : Bool) : Canonical format (.bool value)
  | integer {value : Int} (hlow : -2 ^ 64 ≤ value) (hhigh : value < 2 ^ 64) :
    Canonical format (.integer value)
  | float {bits : UInt64} (hfinite : IsFinite bits) : Canonical format (.float bits)
  | text {string : Text} (hlength : string.bytes.length < 2 ^ 64) :
    Canonical format (.text string)
  | bytes {data : Bytes} (hlength : data.length < 2 ^ 64) : Canonical format (.bytes data)
  | null : Canonical format .null
  | array {items : List CborTree} (hlength : items.length < 2 ^ 64)
    (hitems : ∀ item ∈ items, Canonical format item) : Canonical format (.array items)
  | map {entries : List (Text × CborTree)} (hlength : entries.length < 2 ^ 64)
    (hkeys : ∀ e ∈ entries, e.1.bytes.length < 2 ^ 64)
    (hsorted : entries.Pairwise fun a b => KeyLess a.1 b.1)
    (hvalues : ∀ e ∈ entries, Canonical format e.2) : Canonical format (.map entries)
  | link {payload : Bytes} (hlength : payload.length < 2 ^ 64) (cid : Cid)
    (hcid : Cid.fromDagCborBytes format payload = .ok cid) : Canonical format (.link payload)

/-- The trees within the limits of a configuration, with `levels` levels allowed. -/
inductive Fits (config : DecodeConfig) : Nat → CborTree → Prop where
  | bool (levels : Nat) (value : Bool) : Fits config levels (.bool value)
  | integer (levels : Nat) (value : Int) : Fits config levels (.integer value)
  | float (levels : Nat) (bits : UInt64) : Fits config levels (.float bits)
  | text (levels : Nat) {string : Text} (hlength : string.bytes.length ≤ config.maxAlloc) :
    Fits config levels (.text string)
  | bytes (levels : Nat) {data : Bytes} (hlength : data.length ≤ config.maxAlloc) :
    Fits config levels (.bytes data)
  | null (levels : Nat) : Fits config levels .null
  | array {levels : Nat} {items : List CborTree}
    (hlength : WithinLimit config.maxArrayElements items.length)
    (hitems : ∀ item ∈ items, Fits config levels item) : Fits config (levels + 1) (.array items)
  | map {levels : Nat} {entries : List (Text × CborTree)}
    (hlength : WithinLimit config.maxMapEntries entries.length)
    (hkeys : ∀ e ∈ entries, e.1.bytes.length ≤ config.maxAlloc)
    (hvalues : ∀ e ∈ entries, Fits config levels e.2) : Fits config (levels + 1) (.map entries)
  | link (levels : Nat) {payload : Bytes} (hlength : payload.length ≤ config.maxAlloc) :
    Fits config levels (.link payload)

end CborTree

end Atproto.Dasl
