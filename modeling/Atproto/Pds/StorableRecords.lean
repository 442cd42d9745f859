import Atproto.Lexicon.Conforms
import Atproto.Pds.RecordBytes

/-!
# Records that can be stored

A record that was validated is read into the data model and encoded.  The validator and the encoder
agree about the shape of a value, but not about which numbers, texts of links and texts of byte
strings there are, nor about what stands in the envelope of a blob.
-/

namespace Atproto.Pds

open Atproto.Dasl Atproto.Lexicon.Validation Atproto.Repo Logic SearchTree

variable {format : CidFormat} {forms : TextForms} {flags : ValidateFlags}

/-! ### The values that are read -/

/-- The fields have a reserved key. -/
def isMarker (fields : List (Text × Json)) : Bool :=
  (lookup linkKey fields).isSome || (lookup bytesKey fields).isSome

mutual

/-- A value and the values nested in it that are read one by one.  Those below a reserved key are
not. -/
def dataNodes : Json → List Json
  | .null => [.null]
  | .bool value => [.bool value]
  | .number value => [.number value]
  | .string value => [.string value]
  | .array items => .array items :: dataNodesOfItems items
  | .object fields => .object fields :: if isMarker fields then [] else dataNodesOfFields fields

def dataNodesOfItems : List Json → List Json
  | [] => []
  | item :: items => dataNodes item ++ dataNodesOfItems items

def dataNodesOfFields : List (Text × Json) → List Json
  | [] => []
  | (_, value) :: fields => dataNodes value ++ dataNodesOfFields fields

end

theorem mem_dataNodesOfItems {items : List Json} {node : Json} :
  node ∈ dataNodesOfItems items ↔ ∃ item ∈ items, node ∈ dataNodes item
  := by
  induction items with
  | nil => simp [dataNodesOfItems]
  | cons item items ih => simp [dataNodesOfItems, ih]

theorem mem_dataNodesOfFields {fields : List (Text × Json)} {node : Json} :
  node ∈ dataNodesOfFields fields ↔ ∃ f ∈ fields, node ∈ dataNodes f.2
  := by
  induction fields with
  | nil => simp [dataNodesOfFields]
  | cons field fields ih => simp [dataNodesOfFields, ih]

/-- The data in an array are the array and those in its items. -/
theorem mem_dataNodes_array {items : List Json} {node : Json} :
  node ∈ dataNodes (.array items) ↔ node = .array items ∨ ∃ item ∈ items, node ∈ dataNodes item
  := by
  rw [dataNodes, List.mem_cons, mem_dataNodesOfItems]

/-- The data in an object that is no marker are the object and those in its fields. -/
theorem mem_dataNodes_object {fields : List (Text × Json)} (h : isMarker fields = false)
    {node : Json} :
  node ∈ dataNodes (.object fields) ↔ node = .object fields ∨ ∃ f ∈ fields, node ∈ dataNodes f.2
  := by
  rw [dataNodes, h, if_neg Bool.false_ne_true, List.mem_cons, mem_dataNodesOfFields]

/-- A marker has no data in it but itself. -/
theorem mem_dataNodes_marker {fields : List (Text × Json)} (h : isMarker fields = true)
    {node : Json} :
  node ∈ dataNodes (.object fields) ↔ node = .object fields
  := by
  rw [dataNodes, h, if_pos rfl, List.mem_singleton]

/-- A value is among its data. -/
theorem self_mem_dataNodes (value : Json) :
  value ∈ dataNodes value
  := by
  cases value with
  | null => exact List.mem_singleton_self _
  | bool value => exact List.mem_singleton_self _
  | number value => exact List.mem_singleton_self _
  | string value => exact List.mem_singleton_self _
  | array items => exact mem_dataNodes_array.mpr (Or.inl rfl)
  | object fields =>
    rw [dataNodes]
    exact List.mem_cons_self

/-- What is in a part of a value is in the value. -/
theorem dataNodes_trans {value node inner : Json} (h : value.Ordered) (hnode : node ∈ dataNodes value)
    (hinner : inner ∈ dataNodes node) :
  inner ∈ dataNodes value
  := by
  induction h with
  | null =>
    obtain rfl := List.mem_singleton.mp hnode
    exact hinner
  | bool value =>
    obtain rfl := List.mem_singleton.mp hnode
    exact hinner
  | number value =>
    obtain rfl := List.mem_singleton.mp hnode
    exact hinner
  | string value =>
    obtain rfl := List.mem_singleton.mp hnode
    exact hinner
  | @array items _ ih =>
    rcases mem_dataNodes_array.mp hnode with rfl | ⟨item, hitem, hmem⟩
    · exact hinner
    · exact mem_dataNodes_array.mpr (Or.inr ⟨item, hitem, ih item hitem hmem⟩)
  | @object fields _ _ ih =>
    cases hmarker : isMarker fields with
    | true =>
      obtain rfl := (mem_dataNodes_marker hmarker).mp hnode
      exact hinner
    | false =>
      rcases (mem_dataNodes_object hmarker).mp hnode with rfl | ⟨f, hf, hmem⟩
      · exact hinner
      · exact (mem_dataNodes_object hmarker).mpr (Or.inr ⟨f, hf, ih f hf hmem⟩)

/-! ### The values that are encoded -/

/-- The number is written as an integer of the signed range. -/
def Integral (bits : UInt64) : Prop := ∃ n : Int, floatInteger bits = some n ∧ -2 ^ 63 ≤ n ∧ n ≤ 2 ^ 63

/-- The text names a CID. -/
def NamesCid (forms : TextForms) (format : CidFormat) (text : Text) : Prop :=
  ∃ cid, cidFromStr forms text = .ok cid ∧ (cid.toDagCborBytes format).length < 2 ^ 64

/-- The text is one of a byte string. -/
def NamesBytes (forms : TextForms) (text : Text) : Prop :=
  ∃ data, forms.base64Decode text = .ok data ∧ data.length < 2 ^ 64

/-- A value is read and encoded when the values nested in it are. -/
def Storable (forms : TextForms) (format : CidFormat) : Json → Prop
  | .null => True
  | .bool _ => True
  | .number (.posInt _) => True
  | .number (.negInt _ _) => True
  | .number (.float bits _) => Integral bits
  | .string text => text.bytes.length < 2 ^ 64
  | .array items => items.length < 2 ^ 64
  | .object fields =>
    (∃ text, fields = [(linkKey, .string text)] ∧ NamesCid forms format text) ∨
    (∃ text, fields = [(bytesKey, .string text)] ∧ NamesBytes forms text) ∨
    isMarker fields = false ∧ fields.length < 2 ^ 64 ∧ ∀ f ∈ fields, f.1.bytes.length < 2 ^ 64

/-- What is read and encoded. -/
def Encodes (forms : TextForms) (format : CidFormat) (value : Json) : Prop :=
  ∃ read, ipldFromJson forms value = .ok read ∧ read.Encodable format

/-- A value can be stored exactly when all data in it can be encoded. -/
theorem exists_repoRecordBytes_iff {value : Json} (h : value.Ordered) :
  (∃ bytes, repoRecordBytes forms format value = .ok bytes) ↔ Encodes forms format value
  := by
  constructor
  · rintro ⟨bytes, hbytes⟩
    obtain ⟨read, hread, hencoded⟩ := bind_eq_ok.mp hbytes
    exact ⟨read, hread, (tidy_of_ipldFromJson h hread).encodable hencoded⟩
  · rintro ⟨read, hread, hencodable⟩
    exact ⟨_, bind_eq_ok.mpr ⟨read, hread, hencodable.serialize_ok⟩⟩

theorem exists_ipldFromItems_iff {items : List Json} :
  (∃ read, ipldFromItems forms items = .ok read ∧ ∀ value ∈ read, value.Encodable format) ↔
    ∀ item ∈ items, Encodes forms format item
  := by
  induction items with
  | nil => exact ⟨fun _ => nofun, fun _ => ⟨[], rfl, nofun⟩⟩
  | cons item items ih =>
    rw [List.forall_mem_cons, ← ih]
    constructor
    · rintro ⟨read, hread, hall⟩
      obtain ⟨value, hvalue, hrest⟩ := bind_eq_ok.mp hread
      obtain ⟨values, hvalues, hcons⟩ := bind_eq_ok.mp hrest
      cases hcons
      obtain ⟨hhead, htail⟩ := List.forall_mem_cons.mp hall
      exact ⟨⟨value, hvalue, hhead⟩, values, hvalues, htail⟩
    · rintro ⟨⟨value, hvalue, hhead⟩, values, hvalues, htail⟩
      refine ⟨value :: values, ?_, List.forall_mem_cons.mpr ⟨hhead, htail⟩⟩
      exact bind_eq_ok.mpr ⟨value, hvalue, bind_eq_ok.mpr ⟨values, hvalues, rfl⟩⟩

theorem exists_ipldFromFields_iff {fields : List (Text × Json)} :
  (∃ read, ipldFromFields forms fields = .ok read ∧ ∀ e ∈ read, e.2.Encodable format) ↔
    ∀ f ∈ fields, Encodes forms format f.2
  := by
  induction fields with
  | nil => exact ⟨fun _ => nofun, fun _ => ⟨[], rfl, nofun⟩⟩
  | cons field fields ih =>
    obtain ⟨key, json⟩ := field
    rw [List.forall_mem_cons, ← ih]
    constructor
    · rintro ⟨read, hread, hall⟩
      obtain ⟨value, hvalue, hrest⟩ := bind_eq_ok.mp hread
      obtain ⟨values, hvalues, hcons⟩ := bind_eq_ok.mp hrest
      cases hcons
      obtain ⟨hhead, htail⟩ := List.forall_mem_cons.mp hall
      exact ⟨⟨value, hvalue, hhead⟩, values, hvalues, htail⟩
    · rintro ⟨⟨value, hvalue, hhead⟩, values, hvalues, htail⟩
      refine ⟨(key, value) :: values, ?_, List.forall_mem_cons.mpr ⟨hhead, htail⟩⟩
      exact bind_eq_ok.mpr ⟨value, hvalue, bind_eq_ok.mpr ⟨values, hvalues, rfl⟩⟩

/-- A number is encoded exactly when it is an integer in the range of the format. -/
theorem encodes_number_iff (number : JsonNumber) :
  Encodes forms format (.number number) ↔ Storable forms format (.number number)
  := by
  cases number with
  | posInt n =>
    have hlt := n.toNat_lt
    exact iff_of_true ⟨_, rfl, .integer (by omega) (by omega)⟩ trivial
  | negInt n hneg =>
    have hlow := n.le_toInt
    have hhigh := n.toInt_lt
    exact iff_of_true ⟨_, rfl, .integer (by omega) (by omega)⟩ trivial
  | float bits hfinite =>
    constructor
    · rintro ⟨read, hread, -⟩
      change numberToIpld forms (.float bits hfinite) = .ok read at hread
      rw [numberToIpld] at hread
      cases hinteger : floatInteger bits with
      | none =>
        rw [hinteger] at hread
        cases hread
      | some n =>
        rw [hinteger] at hread
        dsimp only at hread
        split_ifs at hread with hrange
        exact ⟨n, hinteger, hrange⟩
    · rintro ⟨n, hinteger, hlow, hhigh⟩
      refine ⟨.integer n, ?_, .integer (by omega) (by omega)⟩
      change numberToIpld forms (.float bits hfinite) = .ok (.integer n)
      rw [numberToIpld, hinteger]
      exact if_pos ⟨hlow, hhigh⟩

/-- An object of one field that has a key is the field of the key. -/
theorem eq_singleton_of_lookup {fields : List (Text × Json)} {key : Text} {value : Json}
    (hlength : fields.length = 1) (h : lookup key fields = some value) :
  fields = [(key, value)]
  := by
  obtain ⟨field, rfl⟩ := List.length_eq_one_iff.mp hlength
  have hmem := List.mem_singleton.mp (mem_of_lookup h)
  rw [hmem]

/-- An object with a link is encoded exactly when the link is alone and its text is read as a
CID. -/
theorem encodes_link_iff {fields : List (Text × Json)} {link : Json}
    (h : lookup linkKey fields = some link) :
  Encodes forms format (.object fields) ↔
    ∃ text, fields = [(linkKey, .string text)] ∧ NamesCid forms format text
  := by
  constructor
  · rintro ⟨read, hread, hencodable⟩
    rw [ipldFromJson, h] at hread
    dsimp only at hread
    rw [linkToIpld] at hread
    split_ifs at hread with hlength
    cases htext : link.asStr with
    | none =>
      rw [htext] at hread
      cases hread
    | some text =>
      rw [htext] at hread
      dsimp only at hread
      cases hcid : cidFromStr forms text with
      | error reason =>
        rw [hcid] at hread
        cases hread
      | ok cid =>
        rw [hcid] at hread
        cases hread
        obtain rfl := Json.asStr_eq_some.mp htext
        cases hencodable with
        | link hsize =>
          exact ⟨text, eq_singleton_of_lookup (of_not_not hlength) h, cid, hcid, hsize⟩
  · rintro ⟨text, rfl, cid, hcid, hsize⟩
    refine ⟨.link cid, ?_, .link hsize⟩
    rw [ipldFromJson, h]
    have hlink : link = .string text := by
      rw [lookup_linkKey_singleton] at h
      exact (Option.some.inj h).symm
    dsimp only
    rw [hlink, linkToIpld, if_neg (not_not.mpr (List.length_singleton))]
    dsimp only [Json.asStr]
    rw [hcid]

/-- An object with bytes is encoded exactly when they are alone and their text is decoded. -/
theorem encodes_bytes_iff {fields : List (Text × Json)} {bytes : Json}
    (hlink : lookup linkKey fields = none) (h : lookup bytesKey fields = some bytes) :
  Encodes forms format (.object fields) ↔
    ∃ text, fields = [(bytesKey, .string text)] ∧ NamesBytes forms text
  := by
  constructor
  · rintro ⟨read, hread, hencodable⟩
    rw [ipldFromJson, hlink] at hread
    dsimp only at hread
    rw [h] at hread
    dsimp only at hread
    rw [bytesToIpld] at hread
    split_ifs at hread with hlength
    cases htext : bytes.asStr with
    | none =>
      rw [htext] at hread
      cases hread
    | some text =>
      rw [htext] at hread
      dsimp only at hread
      cases hdata : forms.base64Decode text with
      | error reason =>
        rw [hdata] at hread
        cases hread
      | ok data =>
        rw [hdata] at hread
        cases hread
        obtain rfl := Json.asStr_eq_some.mp htext
        cases hencodable with
        | bytes hsize =>
          exact ⟨text, eq_singleton_of_lookup (of_not_not hlength) h, data, hdata, hsize⟩
  · rintro ⟨text, rfl, data, hdata, hsize⟩
    refine ⟨.bytes data, ?_, .bytes hsize⟩
    rw [ipldFromJson, hlink]
    dsimp only
    rw [h]
    have hbytes : bytes = .string text := by
      rw [lookup, if_pos rfl] at h
      exact (Option.some.inj h).symm
    dsimp only
    rw [hbytes, bytesToIpld, if_neg (not_not.mpr (List.length_singleton))]
    dsimp only [Json.asStr]
    rw [hdata]

theorem forall_fst_iff {V W : Type} (p : Text → Prop) {xs : List (Text × V)} {ys : List (Text × W)}
    (h : ys.map Prod.fst = xs.map Prod.fst) :
  (∀ y ∈ ys, p y.1) ↔ ∀ x ∈ xs, p x.1
  := by
  have hmap : (∀ key ∈ ys.map Prod.fst, p key) ↔ ∀ key ∈ xs.map Prod.fst, p key := by rw [h]
  rw [List.forall_mem_map, List.forall_mem_map] at hmap
  exact hmap

/-- A value is read and encoded exactly when the values nested in it that are read are. -/
theorem encodes_iff {value : Json} (h : value.Ordered) :
  Encodes forms format value ↔ ∀ node ∈ dataNodes value, Storable forms format node
  := by
  induction h with
  | null =>
    rw [dataNodes, List.forall_mem_singleton]
    exact iff_of_true ⟨_, rfl, .null⟩ trivial
  | bool value =>
    rw [dataNodes, List.forall_mem_singleton]
    exact iff_of_true ⟨_, rfl, .bool value⟩ trivial
  | number number =>
    rw [dataNodes, List.forall_mem_singleton]
    exact encodes_number_iff number
  | string text =>
    rw [dataNodes, List.forall_mem_singleton]
    constructor
    · rintro ⟨read, hread, hencodable⟩
      cases hread
      cases hencodable with
      | string hlength => exact hlength
    · intro hlength
      exact ⟨_, rfl, .string hlength⟩
  | @array items _ ih =>
    have hitems : (∀ node ∈ dataNodes (.array items), Storable forms format node) ↔
        items.length < 2 ^ 64 ∧ ∀ item ∈ items, Encodes forms format item := by
      rw [dataNodes, List.forall_mem_cons]
      refine and_congr Iff.rfl ?_
      constructor
      · intro hall item hitem
        exact (ih item hitem).mpr fun node hnode =>
          hall node (mem_dataNodesOfItems.mpr ⟨item, hitem, hnode⟩)
      · intro hall node hnode
        obtain ⟨item, hitem, hmem⟩ := mem_dataNodesOfItems.mp hnode
        exact (ih item hitem).mp (hall item hitem) node hmem
    rw [hitems, ← exists_ipldFromItems_iff]
    constructor
    · rintro ⟨read, hread, hencodable⟩
      rw [ipldFromJson] at hread
      cases hlist : ipldFromItems forms items with
      | error error =>
        rw [hlist] at hread
        cases hread
      | ok values =>
        rw [hlist] at hread
        cases hread
        cases hencodable with
        | list hlength hvalues =>
          refine ⟨?_, values, rfl, hvalues⟩
          rwa [(ipldFromItems_forall₂ hlist).length_eq]
    · rintro ⟨hlength, values, hlist, hvalues⟩
      refine ⟨.list values, ?_, .list ?_ hvalues⟩
      · rw [ipldFromJson, hlist]
        rfl
      · rwa [← (ipldFromItems_forall₂ hlist).length_eq]
  | @object fields hsorted _ ih =>
    cases hlink : lookup linkKey fields with
    | some link =>
      have hmarker : isMarker fields = true := by
        rw [isMarker, hlink]
        rfl
      rw [encodes_link_iff hlink, dataNodes, hmarker, if_pos rfl, List.forall_mem_singleton]
      constructor
      · exact Or.inl
      · rintro (hnames | ⟨text, rfl, -⟩ | ⟨hnot, -⟩)
        · exact hnames
        · rw [lookup, if_neg bytesKey_ne_linkKey] at hlink
          cases hlink
        · rw [hmarker] at hnot
          cases hnot
    | none =>
      cases hbytes : lookup bytesKey fields with
      | some bytes =>
        have hmarker : isMarker fields = true := by
          rw [isMarker, hbytes]
          exact Bool.or_true _
        rw [encodes_bytes_iff hlink hbytes, dataNodes, hmarker, if_pos rfl,
          List.forall_mem_singleton]
        constructor
        · exact fun hnames => Or.inr (Or.inl hnames)
        · rintro (⟨text, rfl, -⟩ | hnames | ⟨hnot, -⟩)
          · rw [lookup, if_pos rfl] at hlink
            cases hlink
          · exact hnames
          · rw [hmarker] at hnot
            cases hnot
      | none =>
        have hmarker : isMarker fields = false := by
          rw [isMarker, hlink, hbytes]
          rfl
        have hfields : (∀ node ∈ dataNodes (.object fields), Storable forms format node) ↔
            (fields.length < 2 ^ 64 ∧ ∀ f ∈ fields, f.1.bytes.length < 2 ^ 64) ∧
              ∀ f ∈ fields, Encodes forms format f.2 := by
          rw [dataNodes, hmarker, if_neg Bool.false_ne_true, List.forall_mem_cons]
          refine and_congr ?_ ?_
          · constructor
            · rintro (⟨text, rfl, -⟩ | ⟨text, rfl, -⟩ | ⟨-, hsizes⟩)
              · rw [lookup, if_pos rfl] at hlink
                cases hlink
              · rw [lookup, if_pos rfl] at hbytes
                cases hbytes
              · exact hsizes
            · exact fun hsizes => Or.inr (Or.inr ⟨hmarker, hsizes⟩)
          · constructor
            · intro hall f hf
              exact (ih f hf).mpr fun node hnode =>
                hall node (mem_dataNodesOfFields.mpr ⟨f, hf, hnode⟩)
            · intro hall node hnode
              obtain ⟨f, hf, hmem⟩ := mem_dataNodesOfFields.mp hnode
              exact (ih f hf).mp (hall f hf) node hmem
        rw [hfields, ← exists_ipldFromFields_iff]
        have hread : ipldFromJson forms (.object fields) =
            (ipldFromFields forms fields).map fun entries => .map (SearchTree.collect entries) := by
          rw [ipldFromJson, hlink]
          dsimp only
          rw [hbytes]
        rw [Encodes, hread]
        constructor
        · rintro ⟨read, hmap, hencodable⟩
          cases hlist : ipldFromFields forms fields with
          | error error =>
            rw [hlist] at hmap
            cases hmap
          | ok entries =>
            have hkeys := keys_of_ipldFromFields hlist
            rw [hlist, Except.map, collect_of_sorted (sorted_of_keys hkeys hsorted)] at hmap
            cases hmap
            cases hencodable with
            | map hlength hkeySizes _ hvalues =>
              refine ⟨⟨?_, ?_⟩, entries, rfl, hvalues⟩
              · rwa [(ipldFromFields_forall₂ hlist).length_eq]
              · exact (forall_fst_iff (fun key => key.bytes.length < 2 ^ 64) hkeys).mp hkeySizes
        · rintro ⟨⟨hlength, hkeySizes⟩, entries, hlist, hvalues⟩
          have hkeys := keys_of_ipldFromFields hlist
          have hentries := sorted_of_keys hkeys hsorted
          have hsizes : ∀ e ∈ entries, e.1.bytes.length < 2 ^ 64 :=
            (forall_fst_iff (fun key => key.bytes.length < 2 ^ 64) hkeys).mpr hkeySizes
          refine ⟨.map entries, ?_, .map ?_ hsizes hentries hvalues⟩
          · rw [hlist, Except.map, collect_of_sorted hentries]
          · rwa [← (ipldFromFields_forall₂ hlist).length_eq]

/-! ### What the validator has checked -/

/-- The object has one field, a text. -/
def Alone (fields : List (Text × Json)) : Prop := ∃ key text, fields = [(key, .string text)]

/-- The value says that it is the envelope of a blob. -/
def IsBlob (value : Json) : Prop :=
  ∃ fields, value = .object fields ∧ isMarker fields = false ∧
    lookup (textOf "$type") fields = some (.string (textOf "blob"))

theorem forall_of_parseItems {items : List Json} {values : List DataValue}
    (h : parseItems flags items = .ok values) :
  ∀ item ∈ items, ∃ value, parseJson flags item = .ok value
  := by
  induction items generalizing values with
  | nil => nofun
  | cons item items ih =>
    obtain ⟨value, hvalue, hrest⟩ := bind_eq_ok.mp h
    obtain ⟨values', hvalues, -⟩ := bind_eq_ok.mp hrest
    exact List.forall_mem_cons.mpr ⟨⟨value, hvalue⟩, ih hvalues⟩

theorem forall_of_parseFields {fields : List (Text × Json)} {values : List (Text × DataValue)}
    (h : parseFields flags fields = .ok values) :
  ∀ f ∈ fields, ∃ value, parseJson flags f.2 = .ok value
  := by
  induction fields generalizing values with
  | nil => nofun
  | cons field fields ih =>
    obtain ⟨key, json⟩ := field
    rw [parseFields] at h
    split_ifs at h
    obtain ⟨value, hvalue, hrest⟩ := bind_eq_ok.mp h
    obtain ⟨values', hvalues, -⟩ := bind_eq_ok.mp hrest
    exact List.forall_mem_cons.mpr ⟨⟨value, hvalue⟩, ih hvalues⟩

/-- A tagged object that is read has one field, a text. -/
theorem alone_of_parseTagged {fields : List (Text × Json)} {only notString key : Text}
    {value : Json} {make : Text → DataValue} {result : DataValue}
    (hlookup : lookup key fields = some value)
    (h : parseTagged fields only notString value make = .ok result) :
  Alone fields
  := by
  rw [parseTagged] at h
  split_ifs at h with hlength
  cases htext : value.asStr with
  | none =>
    rw [htext] at h
    cases h
  | some text =>
    obtain rfl := Json.asStr_eq_some.mp htext
    exact ⟨key, text, eq_singleton_of_lookup (of_not_not hlength) hlookup⟩

/-- The objects of an accepted value with a reserved key have nothing else, or stand in a blob. -/
theorem alone_of_parseJson {value : Json} (h : value.Ordered) {parsed : DataValue}
    (hparse : parseJson flags value = .ok parsed) {fields : List (Text × Json)}
    (hnode : .object fields ∈ dataNodes value) (hmarker : isMarker fields = true) :
  Alone fields ∨ ∃ blob ∈ dataNodes value, IsBlob blob ∧ .object fields ∈ dataNodes blob
  := by
  induction h generalizing parsed with
  | null => cases List.mem_singleton.mp hnode
  | bool value => cases List.mem_singleton.mp hnode
  | number value => cases List.mem_singleton.mp hnode
  | string value => cases List.mem_singleton.mp hnode
  | @array items _ ih =>
    obtain ⟨values, hvalues, -⟩ := bind_eq_ok.mp hparse
    rcases mem_dataNodes_array.mp hnode with heq | ⟨item, hitem, hmem⟩
    · cases heq
    · obtain ⟨parsed', hparsed⟩ := forall_of_parseItems hvalues item hitem
      rcases ih item hitem hparsed hmem with halone | ⟨blob, hblob, his, hin⟩
      · exact Or.inl halone
      · exact Or.inr ⟨blob, mem_dataNodes_array.mpr (Or.inr ⟨item, hitem, hblob⟩), his, hin⟩
  | @object outer _ _ ih =>
    rw [parseJson, parseSpecial] at hparse
    cases hbytes : lookup (textOf "$bytes") outer with
    | some bytes =>
      have houter : isMarker outer = true := by
        have hsome : lookup bytesKey outer = some bytes := hbytes
        rw [isMarker, hsome]
        exact Bool.or_true _
      obtain heq := Json.object.inj ((mem_dataNodes_marker houter).mp hnode)
      subst heq
      rw [hbytes] at hparse
      exact Or.inl (alone_of_parseTagged hbytes hparse)
    | none =>
      rw [hbytes] at hparse
      dsimp only at hparse
      cases hlink : lookup (textOf "$link") outer with
      | some link =>
        have houter : isMarker outer = true := by
          have hsome : lookup linkKey outer = some link := hlink
          rw [isMarker, hsome]
          rfl
        obtain heq := Json.object.inj ((mem_dataNodes_marker houter).mp hnode)
        subst heq
        rw [hlink] at hparse
        exact Or.inl (alone_of_parseTagged hlink hparse)
      | none =>
        have houter : isMarker outer = false := by
          have hnoLink : lookup linkKey outer = none := hlink
          have hnoBytes : lookup bytesKey outer = none := hbytes
          rw [isMarker, hnoLink, hnoBytes]
          rfl
        rw [hlink] at hparse
        dsimp only at hparse
        have hplain : (∃ values, parseFields flags outer = .ok values) →
            Alone fields ∨ ∃ blob ∈ dataNodes (.object outer), IsBlob blob ∧
              .object fields ∈ dataNodes blob := by
          rintro ⟨values, hvalues⟩
          rcases (mem_dataNodes_object houter).mp hnode with heq | ⟨f, hf, hmem⟩
          · cases heq
            rw [houter] at hmarker
            cases hmarker
          · obtain ⟨parsed', hparsed⟩ := forall_of_parseFields hvalues f hf
            rcases ih f hf hparsed hmem with halone | ⟨blob, hblob, his, hin⟩
            · exact Or.inl halone
            · exact Or.inr ⟨blob, (mem_dataNodes_object houter).mpr (Or.inr ⟨f, hf, hblob⟩), his, hin⟩
        cases htype : lookup (textOf "$type") outer with
        | none =>
          rw [htype] at hparse
          obtain ⟨values, hvalues, -⟩ := bind_eq_ok.mp hparse
          exact hplain ⟨values, hvalues⟩
        | some type =>
          rw [htype] at hparse
          dsimp only at hparse
          cases hstr : type.asStr with
          | none =>
            rw [hstr] at hparse
            cases hparse
          | some typeMarker =>
            obtain rfl := Json.asStr_eq_some.mp hstr
            dsimp only [Json.asStr] at hparse
            by_cases hempty : typeMarker.bytes = []
            · rw [if_pos hempty] at hparse
              cases hparse
            rw [if_neg hempty] at hparse
            by_cases hblob : typeMarker = textOf "blob"
            · subst hblob
              exact Or.inr ⟨_, self_mem_dataNodes _, ⟨outer, rfl, houter, htype⟩, hnode⟩
            · rw [if_neg hblob] at hparse
              obtain ⟨values, hvalues, -⟩ := bind_eq_ok.mp hparse
              exact hplain ⟨values, hvalues⟩

/-! ### Accepted records -/

/-- The lengths of a value have 64 bits. -/
def Sized : Json → Prop
  | .null => True
  | .bool _ => True
  | .number _ => True
  | .string text => text.bytes.length < 2 ^ 64
  | .array items => items.length < 2 ^ 64
  | .object fields =>
    isMarker fields = false → fields.length < 2 ^ 64 ∧ ∀ f ∈ fields, f.1.bytes.length < 2 ^ 64

/-- What the validator leaves to the encoder: floating-point numbers are integers of the signed
range, texts of links name CIDs and texts of byte strings are encoded ones, and an object in the
envelope of a blob has nothing besides a reserved key. -/
structure LeftToEncode (forms : TextForms) (format : CidFormat) (value : Json) : Prop where
  integral : ∀ bits hfinite, .number (.float bits hfinite) ∈ dataNodes value → Integral bits
  links : ∀ text, .object [(linkKey, .string text)] ∈ dataNodes value → NamesCid forms format text
  bytes : ∀ text, .object [(bytesKey, .string text)] ∈ dataNodes value → NamesBytes forms text
  blobs : ∀ blob ∈ dataNodes value, IsBlob blob → ∀ fields, .object fields ∈ dataNodes blob →
    isMarker fields = true → Alone fields
  sizes : ∀ node ∈ dataNodes value, Sized node

theorem isSome_lookup_singleton {key wanted : Text} {value : Json} :
  (lookup wanted [(key, value)]).isSome = true ↔ key = wanted
  := by
  rw [lookup]
  by_cases h : key = wanted
  · rw [if_pos h]
    exact iff_of_true rfl h
  · rw [if_neg h]
    exact iff_of_false Bool.false_ne_true h

theorem isMarker_singleton_iff {key : Text} {value : Json} :
  isMarker [(key, value)] = true ↔ key = linkKey ∨ key = bytesKey
  := by
  rw [isMarker, Bool.or_eq_true]
  exact or_congr isSome_lookup_singleton isSome_lookup_singleton

/-- A marker that can be encoded has one field, a text. -/
theorem alone_of_storable {fields : List (Text × Json)}
    (h : Storable forms format (.object fields)) (hmarker : isMarker fields = true) :
  Alone fields
  := by
  obtain ⟨text, rfl, -⟩ | ⟨text, rfl, -⟩ | ⟨hnot, -⟩ := h
  · exact ⟨_, text, rfl⟩
  · exact ⟨_, text, rfl⟩
  · rw [hmarker] at hnot
    cases hnot

/-- What an accepted record still has to meet is said of the data in it. -/
theorem leftToEncode_iff {value : Json} (h : value.Ordered) {parsed : DataValue}
    (hparse : parseJson flags value = .ok parsed) :
  LeftToEncode forms format value ↔ ∀ node ∈ dataNodes value, Storable forms format node
  := by
  constructor
  · intro hleft node hnode
    cases node with
    | null => trivial
    | bool value => trivial
    | number number =>
      cases number with
      | posInt n => trivial
      | negInt n hneg => trivial
      | float bits hfinite => exact hleft.integral bits hfinite hnode
    | string text => exact hleft.sizes _ hnode
    | array items => exact hleft.sizes _ hnode
    | object fields =>
      cases hmarker : isMarker fields with
      | false => exact Or.inr (Or.inr ⟨hmarker, hleft.sizes _ hnode hmarker⟩)
      | true =>
        have halone : Alone fields := by
          rcases alone_of_parseJson h hparse hnode hmarker with halone | ⟨blob, hblob, his, hin⟩
          · exact halone
          · exact hleft.blobs blob hblob his fields hin hmarker
        obtain ⟨key, text, rfl⟩ := halone
        rcases isMarker_singleton_iff.mp hmarker with rfl | rfl
        · exact Or.inl ⟨text, rfl, hleft.links text hnode⟩
        · exact Or.inr (Or.inl ⟨text, rfl, hleft.bytes text hnode⟩)
  · intro hall
    refine ⟨?_, ?_, ?_, ?_, ?_⟩
    · intro bits hfinite hnode
      exact hall _ hnode
    · intro text hnode
      obtain ⟨text', heq, hnames⟩ | ⟨text', heq, -⟩ | ⟨hnot, -⟩ := hall _ hnode
      · cases heq
        exact hnames
      · exact absurd (congrArg Prod.fst (List.cons.inj heq).1).symm bytesKey_ne_linkKey
      · rw [isMarker_singleton_iff.mpr (Or.inl rfl)] at hnot
        cases hnot
    · intro text hnode
      obtain ⟨text', heq, -⟩ | ⟨text', heq, hnames⟩ | ⟨hnot, -⟩ := hall _ hnode
      · exact absurd (congrArg Prod.fst (List.cons.inj heq).1) bytesKey_ne_linkKey
      · cases heq
        exact hnames
      · rw [isMarker_singleton_iff.mpr (Or.inr rfl)] at hnot
        cases hnot
    · intro blob hblob _ fields hnode hmarker
      exact alone_of_storable (hall _ (dataNodes_trans h hblob hnode)) hmarker
    · intro node hnode
      have hstorable := hall node hnode
      cases node with
      | null => trivial
      | bool value => trivial
      | number number => trivial
      | string text => exact hstorable
      | array items => exact hstorable
      | object fields =>
        intro hmarker
        obtain ⟨text, rfl, -⟩ | ⟨text, rfl, -⟩ | ⟨-, hsizes⟩ := hstorable
        · rw [isMarker_singleton_iff.mpr (Or.inl rfl)] at hmarker
          cases hmarker
        · rw [isMarker_singleton_iff.mpr (Or.inr rfl)] at hmarker
          cases hmarker
        · exact hsizes

/-- An accepted record was read. -/
theorem parseJson_of_accepted {library : ValidationLibrary} {nsid : Text} {data : Json}
    {catalog : Catalog} {limits : ValidationLimits}
    (h : validateRecordWithLimits library nsid data catalog flags limits = .ok ()) :
  ∃ parsed, parseJson flags data = .ok parsed
  := by
  obtain ⟨record, hrecord, -⟩ := bind_eq_ok.mp h
  exact ⟨record.value, (parseJson_of_prepareRecord hrecord).1⟩

/-- A record that the validator accepts is stored exactly when what the validator leaves to the
encoder is in order. -/
theorem accepted_stored_iff {library : ValidationLibrary} {nsid : Text} {data : Json}
    {catalog : Catalog} {limits : ValidationLimits} (hordered : data.Ordered)
    (haccepted : validateRecordWithLimits library nsid data catalog flags limits = .ok ()) :
  (∃ bytes, repoRecordBytes forms format data = .ok bytes) ↔ LeftToEncode forms format data
  := by
  obtain ⟨parsed, hparse⟩ := parseJson_of_accepted haccepted
  rw [exists_repoRecordBytes_iff hordered, encodes_iff hordered, leftToEncode_iff hordered hparse]

/-! ### Records with a cover -/

/-- The letter of base 58. -/
def base58Letter : UInt8 := 0x7a

/-- Read a CID of 36 bytes in base 58 with its letter, or a CID in another form. -/
def cidCoreParse (text : Text) : Except String Cid :=
  if text.bytes.head? = some base58Letter then
    match Wire.unspell base58Letters text.bytes.tail with
    | some digits => multiformatsParse (Wire.beBytes 36 (Wire.valueOf 58 digits))
    | none => .error "Failed to parse multibase"
  else multibaseParse text

/-- The checks of texts, with the one of CIDs. -/
def cidTexts : ValidationLibrary :=
  { anyText with
    validateCid := fun value => (Lexicon.validateCid cidCoreParse value).mapError .stringFormatInvalid }

/-- A definition of a record with a cover. -/
def coverFile : SchemaFile where
  id := textOf "a.b.cover"
  defs := [(mainName, .record (.object [] [] [(textOf "cover", .cidLink),
    (textOf "image", .blob ⟨[], none⟩)]))]

def coverCatalog : Catalog := (BaseCatalog.new.addSchema coverFile).toCatalog

/-- An envelope of a blob, with more in its reference. -/
def imageData (more : List (Text × Json)) : Json :=
  .object [(textOf "$type", .string (textOf "blob")), (textOf "mimeType", .string (textOf "image/png")),
    (textOf "ref", .object ((linkKey, .string (textOf
      "bafkreifzjut3te2nhyekklss27nh3k72ysco7y32koao5eei66wof36n5e")) :: more)),
    (textOf "size", .number (.posInt 5))]

/-- A record with a cover, an image and numbers that its definition does not mention. -/
def coverData (link : String) (more : List (Text × Json)) (sizes : List Json) : Json :=
  .object [(textOf "$type", .string (textOf "a.b.cover")),
    (textOf "cover", .object [(linkKey, .string (textOf link))]), (textOf "image", imageData more),
    (textOf "sizes", .array sizes)]

/-- A CID in base 32, and the same one in base 58. -/
def base32Link : String := "bafybeiasb5vpmaounyilfuxbd3lryvosl4yefqrfahsb2esg46q6tu6y5q"

def base58Link : String := "zdj7WWeQ43G6JJvLWQWZpyHuAMq6uYWRjkBXFad11vE2LHhQ7"

/-- One and a half as a floating-point number, and two. -/
def oneAndAHalf : Json := .number (.float 0x3ff8000000000000 ⟨rfl, rfl⟩)

def two : Json := .number (.float 0x4000000000000000 ⟨rfl, rfl⟩)

/-- The validator accepts a record. -/
def Accepted (data : Json) : Prop :=
  validateRecordWithLimits cidTexts coverFile.id data coverCatalog noFlags defaultLimits = .ok ()

/-- The encoder accepts a record. -/
def Stored (data : Json) : Prop :=
  ∃ bytes, repoRecordBytes multibase multiformats data = .ok bytes

/-- A record is stored exactly when its value is encoded. -/
theorem stored_iff {data : Json} :
  Stored data ↔ (repoRecordBytes multibase multiformats data).toOption.isSome = true
  := by
  rw [Stored]
  cases repoRecordBytes multibase multiformats data with
  | error error =>
    apply iff_of_false _ Bool.false_ne_true
    rintro ⟨bytes, hbytes⟩
    cases hbytes
  | ok bytes => exact iff_of_true ⟨bytes, rfl⟩ rfl

theorem ordered_imageData :
  (imageData []).Ordered
  := by
  apply Json.Ordered.object
  · rw [Sorted]
    decide
  · rintro field (_ | ⟨_, _ | ⟨_, _ | ⟨_, _ | ⟨_, ⟨⟩⟩⟩⟩⟩)
    · exact .string _
    · exact .string _
    · exact .object (List.pairwise_singleton _ _) (List.forall_mem_singleton.mpr (.string _))
    · exact .number _

theorem ordered_coverData :
  (coverData base32Link [] [two]).Ordered
  := by
  apply Json.Ordered.object
  · rw [Sorted]
    decide
  · rintro field (_ | ⟨_, _ | ⟨_, _ | ⟨_, _ | ⟨_, ⟨⟩⟩⟩⟩⟩)
    · exact .string _
    · exact .object (List.pairwise_singleton _ _) (List.forall_mem_singleton.mpr (.string _))
    · exact ordered_imageData
    · exact .array (List.forall_mem_singleton.mpr (.number _))

/-- A record with a link in base 32, an image and a floating-point number that is an integer. -/
theorem accepted_stored_iff_cover :
  Accepted (coverData base32Link [] [two]) ∧
    LeftToEncode multibase multiformats (coverData base32Link [] [two])
  := by
  have haccepted : Accepted (coverData base32Link [] [two]) := isOk_iff.mp (by decide +kernel)
  have hstored : Stored (coverData base32Link [] [two]) := stored_iff.mpr (by decide +kernel)
  exact ⟨haccepted, (accepted_stored_iff ordered_coverData haccepted).mp hstored⟩

/-- A link in base 58, an image with more in its reference and a fraction are accepted, and not
encoded. -/
theorem accepted_not_stored :
  (Accepted (coverData base58Link [] [two]) ∧ ¬ Stored (coverData base58Link [] [two])) ∧
    (Accepted (coverData base32Link [(textOf "x", .null)] [two]) ∧
      ¬ Stored (coverData base32Link [(textOf "x", .null)] [two])) ∧
    Accepted (coverData base32Link [] [oneAndAHalf]) ∧
      ¬ Stored (coverData base32Link [] [oneAndAHalf])
  := by
  simp only [stored_iff]
  refine ⟨⟨isOk_iff.mp ?_, ?_⟩, ⟨isOk_iff.mp ?_, ?_⟩, isOk_iff.mp ?_, ?_⟩
  · decide +kernel
  · decide +kernel
  · decide +kernel
  · decide +kernel
  · decide +kernel
  · decide +kernel

end Atproto.Pds
