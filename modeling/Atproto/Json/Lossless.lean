import Atproto.Dasl.RoundTrip
import Atproto.Json.TextForms

/-!
# Round trips between JSON and the data model

A value of the data model comes back from JSON unless an integer nested in it is above the
signed range, or a link nested in it is of version 0: the former is written as a string, and
the text of the latter is not read.
-/

namespace Atproto

open Dasl Repo SearchTree

variable {forms : TextForms}

/-! ### The values of the claim -/

/-- The key is none of the reserved ones. -/
def Unreserved (key : Text) : Prop := key ≠ linkKey ∧ key ≠ bytesKey

instance : DecidablePred Unreserved := fun key =>
  inferInstanceAs (Decidable (key ≠ linkKey ∧ key ≠ bytesKey))

/-- The values without floating-point numbers and reserved keys, whose integers fit into
64 bits, signed or unsigned. -/
inductive PlainIpld : Ipld → Prop where
  | null : PlainIpld .null
  | bool (value : Bool) : PlainIpld (.bool value)
  | integer {value : Int} (hlow : -2 ^ 63 ≤ value) (hhigh : value < 2 ^ 64) :
    PlainIpld (.integer value)
  | string (text : Text) : PlainIpld (.string text)
  | bytes (data : Bytes) : PlainIpld (.bytes data)
  | list {items : List Ipld} (hitems : ∀ item ∈ items, PlainIpld item) : PlainIpld (.list items)
  | map {entries : List (Text × Ipld)} (hsorted : Sorted entries)
    (hkeys : ∀ e ∈ entries, Unreserved e.1) (hvalues : ∀ e ∈ entries, PlainIpld e.2) :
    PlainIpld (.map entries)
  | link (cid : Cid) : PlainIpld (.link cid)

/-- The JSON values that have only shapes of the data model: integers, links in the text form
of CIDs, byte strings in base 64, and objects without reserved keys. -/
inductive Shape (forms : TextForms) : Json → Prop where
  | null : Shape forms .null
  | bool (value : Bool) : Shape forms (.bool value)
  | posInt (value : UInt64) : Shape forms (.number (.posInt value))
  | negInt (value : Int64) (negative : value < 0) : Shape forms (.number (.negInt value negative))
  | string (text : Text) : Shape forms (.string text)
  | array {items : List Json} (hitems : ∀ item ∈ items, Shape forms item) :
    Shape forms (.array items)
  | object {fields : List (Text × Json)} (hsorted : Sorted fields)
    (hkeys : ∀ f ∈ fields, Unreserved f.1) (hvalues : ∀ f ∈ fields, Shape forms f.2) :
    Shape forms (.object fields)
  | bytes (data : Bytes) : Shape forms (.object [(bytesKey, .string (forms.base64Encode data))])
  | link (cid : Cid) : Shape forms (.object [(linkKey, .string (forms.cidToString cid))])

mutual

/-- A value and all values nested in it. -/
def ipldNodes : Ipld → List Ipld
  | .null => [.null]
  | .bool value => [.bool value]
  | .integer value => [.integer value]
  | .float bits => [.float bits]
  | .string text => [.string text]
  | .bytes data => [.bytes data]
  | .list items => .list items :: ipldNodesOfItems items
  | .map entries => .map entries :: ipldNodesOfEntries entries
  | .link cid => [.link cid]

def ipldNodesOfItems : List Ipld → List Ipld
  | [] => []
  | item :: items => ipldNodes item ++ ipldNodesOfItems items

def ipldNodesOfEntries : List (Text × Ipld) → List Ipld
  | [] => []
  | (_, value) :: entries => ipldNodes value ++ ipldNodesOfEntries entries

end

/-- An integer is in the signed range, and a link is of version 1. -/
def Writable : Ipld → Prop
  | .integer value => value < 2 ^ 63
  | .link cid => cid.version = .v1
  | .null => True
  | .bool _ => True
  | .float _ => True
  | .string _ => True
  | .bytes _ => True
  | .list _ => True
  | .map _ => True

/-- An integer is in the signed range, and the text of a link is in base 32. -/
def Readable : Json → Prop
  | .number (.posInt value) => value.toNat < 2 ^ 63
  | .number (.negInt _ _) => True
  | .number (.float _ _) => True
  | .object fields => ∀ text, lookup linkKey fields = some (.string text) →
    startsWithBase32 text = true
  | .null => True
  | .bool _ => True
  | .string _ => True
  | .array _ => True

theorem forall_ipldNodesOfItems {p : Ipld → Prop} {items : List Ipld} :
  (∀ node ∈ ipldNodesOfItems items, p node) ↔ ∀ item ∈ items, ∀ node ∈ ipldNodes item, p node
  := by
  induction items with
  | nil => simp [ipldNodesOfItems]
  | cons item items ih => simp [ipldNodesOfItems, or_imp, forall_and, ih]

theorem forall_ipldNodesOfEntries {p : Ipld → Prop} {entries : List (Text × Ipld)} :
  (∀ node ∈ ipldNodesOfEntries entries, p node) ↔
    ∀ e ∈ entries, ∀ node ∈ ipldNodes e.2, p node
  := by
  induction entries with
  | nil => simp [ipldNodesOfEntries]
  | cons entry entries ih =>
    simp only [ipldNodesOfEntries, List.mem_append, or_imp, forall_and, List.forall_mem_cons, ih]

/-! ### Keys and fields -/

theorem bytesKey_ne_linkKey :
  bytesKey ≠ linkKey
  := by decide

theorem lookup_eq_none_of_unreserved {V : Type} {fields : List (Text × V)}
    (h : ∀ f ∈ fields, Unreserved f.1) :
  lookup linkKey fields = none ∧ lookup bytesKey fields = none
  := ⟨lookup_eq_none fun f hf => (h f hf).1, lookup_eq_none fun f hf => (h f hf).2⟩

theorem jsonFromItems_eq (items : List Ipld) :
  jsonFromItems forms items = items.map (jsonFromIpld forms)
  := by
  induction items with
  | nil => rfl
  | cons item items ih => rw [jsonFromItems, List.map_cons, ih]

theorem jsonFromEntries_eq (entries : List (Text × Ipld)) :
  jsonFromEntries forms entries = entries.map fun e => (e.1, jsonFromIpld forms e.2)
  := by
  induction entries with
  | nil => rfl
  | cons entry entries ih => rw [jsonFromEntries, List.map_cons, ih]

/-- An object without reserved keys is read as a map. -/
theorem ipldFromJson_object {fields : List (Text × Json)} (h : ∀ f ∈ fields, Unreserved f.1) :
  ipldFromJson forms (.object fields) =
    (ipldFromFields forms fields).map fun entries => .map (collect entries)
  := by
  obtain ⟨hlink, hbytes⟩ := lookup_eq_none_of_unreserved h
  rw [ipldFromJson, hlink, hbytes]

theorem ipldFromJson_bytes (data : Bytes) (hforms : forms.Lawful) :
  ipldFromJson forms (.object [(bytesKey, .string (forms.base64Encode data))]) = .ok (.bytes data)
  := by
  have hlink : lookup linkKey [(bytesKey, Json.string (forms.base64Encode data))] = none := by
    rw [lookup, if_neg bytesKey_ne_linkKey, lookup]
  have hbytes : lookup bytesKey [(bytesKey, Json.string (forms.base64Encode data))] =
      some (.string (forms.base64Encode data)) := by
    rw [lookup, if_pos rfl]
  rw [ipldFromJson, hlink, hbytes]
  simp only [bytesToIpld, List.length_singleton, ne_eq, not_true_eq_false, if_false, Json.asStr,
    hforms.base64_round]

theorem lookup_linkKey_singleton (value : Json) :
  lookup linkKey [(linkKey, value)] = some value
  := by
  rw [lookup, if_pos rfl]

/-- The text of a link is read exactly when it is of version 1. -/
theorem ipldFromJson_link (cid : Cid) (hforms : forms.Lawful) :
  (cid.version = .v1 ∧
    ipldFromJson forms (.object [(linkKey, .string (forms.cidToString cid))]) = .ok (.link cid)) ∨
  (cid.version ≠ .v1 ∧
    ∃ e, ipldFromJson forms (.object [(linkKey, .string (forms.cidToString cid))]) = .error e)
  := by
  have hbase := hforms.cid_base cid
  have hread : ipldFromJson forms (.object [(linkKey, .string (forms.cidToString cid))]) =
      linkToIpld forms [(linkKey, .string (forms.cidToString cid))]
        (.string (forms.cidToString cid)) := by
    rw [ipldFromJson, lookup_linkKey_singleton]
  rw [hread]
  simp only [linkToIpld, List.length_singleton, ne_eq, not_true_eq_false, if_false, Json.asStr,
    cidFromStr]
  by_cases hversion : cid.version = .v1
  · left
    rw [if_pos (hbase.mpr hversion), hforms.cid_round]
    exact ⟨hversion, rfl⟩
  · right
    rw [if_neg (mt hbase.mp hversion)]
    exact ⟨hversion, _, rfl⟩

/-! ### Numbers -/

theorem ipldFromJson_integer {value : Int} (hlow : -2 ^ 63 ≤ value) (hhigh : value < 2 ^ 63) :
  ipldFromJson forms (jsonFromInteger value) = .ok (.integer value)
  := by
  by_cases hneg : 0 ≤ value
  · rw [jsonFromInteger, if_pos ⟨hneg, hhigh⟩, ipldFromJson, numberToIpld,
      UInt64.toNat_ofNat_of_lt' (by simp only [UInt64.size]; omega), Int.toNat_of_nonneg hneg]
  · rw [jsonFromInteger, if_neg (fun h => hneg h.1), dif_pos ⟨hlow, not_le.mp hneg⟩, ipldFromJson,
      numberToIpld, Int64.toInt_ofInt_of_le hlow (by omega)]

/-- An integer above the signed range is written as a string. -/
theorem jsonFromInteger_of_le {value : Int} (h : 2 ^ 63 ≤ value) :
  jsonFromInteger value = .string (textOf (toString value))
  := by
  rw [jsonFromInteger, if_neg (fun hv => absurd hv.2 (not_lt.mpr h)), dif_neg]
  rintro ⟨_, hv⟩
  omega

theorem jsonFromInteger_posInt {value : UInt64} (h : value.toNat < 2 ^ 63) :
  jsonFromInteger value.toNat = .number (.posInt value)
  := by
  rw [jsonFromInteger, if_pos ⟨by omega, by omega⟩, Int.toNat_natCast, UInt64.ofNat_toNat]

theorem jsonFromInteger_negInt {value : Int64} (h : value < 0) :
  jsonFromInteger value.toInt = .number (.negInt value h)
  := by
  have hneg : value.toInt < 0 := Int64.lt_iff_toInt_lt.mp h
  rw [jsonFromInteger, if_neg (fun hv => absurd hneg (not_lt.mpr hv.1)),
    dif_pos ⟨value.le_toInt, hneg⟩]
  congr 2
  exact Int64.ofInt_toInt value

/-! ### From the data model -/

/-- Items come back exactly when each of them does. -/
theorem ipldFromItems_map (items : List Ipld) :
  ipldFromItems forms (items.map (jsonFromIpld forms)) = .ok items ↔
    ∀ item ∈ items, ipldFromJson forms (jsonFromIpld forms item) = .ok item
  := by
  induction items with
  | nil => simp [ipldFromItems]
  | cons item items ih =>
    rw [List.map_cons, ipldFromItems, List.forall_mem_cons, ← ih]
    constructor
    · intro h
      obtain ⟨value, hvalue, hrest⟩ := Logic.bind_eq_ok.mp h
      obtain ⟨values, hvalues, hcons⟩ := Logic.bind_eq_ok.mp hrest
      cases hcons
      exact ⟨hvalue, hvalues⟩
    · rintro ⟨hvalue, hvalues⟩
      rw [hvalue, hvalues]
      rfl

/-- Entries come back exactly when each of their values does. -/
theorem ipldFromFields_map (entries : List (Text × Ipld)) :
  ipldFromFields forms (entries.map fun e => (e.1, jsonFromIpld forms e.2)) = .ok entries ↔
    ∀ e ∈ entries, ipldFromJson forms (jsonFromIpld forms e.2) = .ok e.2
  := by
  induction entries with
  | nil => simp [ipldFromFields]
  | cons entry entries ih =>
    obtain ⟨key, value⟩ := entry
    rw [List.map_cons, ipldFromFields, List.forall_mem_cons, ← ih]
    constructor
    · intro h
      obtain ⟨read, hread, hrest⟩ := Logic.bind_eq_ok.mp h
      obtain ⟨values, hvalues, hcons⟩ := Logic.bind_eq_ok.mp hrest
      cases hcons
      exact ⟨hread, hvalues⟩
    · rintro ⟨hvalue, hvalues⟩
      rw [hvalue, hvalues]
      rfl

/-- The keys that are read are the keys of the fields. -/
theorem keys_of_ipldFromFields {fields : List (Text × Json)} {entries : List (Text × Ipld)}
    (h : ipldFromFields forms fields = .ok entries) :
  entries.map Prod.fst = fields.map Prod.fst
  := by
  induction fields generalizing entries with
  | nil =>
    cases h
    rfl
  | cons field fields ih =>
    obtain ⟨key, value⟩ := field
    obtain ⟨read, hread, hrest⟩ := Logic.bind_eq_ok.mp h
    obtain ⟨values, hvalues, hcons⟩ := Logic.bind_eq_ok.mp hrest
    cases hcons
    rw [List.map_cons, List.map_cons, ih hvalues]

theorem sorted_of_keys {V W : Type} {xs : List (Text × V)} {ys : List (Text × W)}
    (hkeys : ys.map Prod.fst = xs.map Prod.fst) (hs : Sorted xs) :
  Sorted ys
  := by
  have hxs : (xs.map Prod.fst).Pairwise (· < ·) := List.pairwise_map.mpr hs
  rw [← hkeys] at hxs
  exact List.pairwise_map.mp hxs

theorem map_eq_ok_iff {α β ε : Type} {f : α → β} (hf : Function.Injective f)
    {x : Except ε α} {a : α} :
  x.map f = .ok (f a) ↔ x = .ok a
  := by
  cases x with
  | error e => exact ⟨nofun, nofun⟩
  | ok b =>
    constructor
    · intro h
      rw [hf (Except.ok.inj h)]
    · intro h
      rw [h]
      rfl

theorem collect_of_sorted {V : Type} {xs : List (Text × V)} (h : Sorted xs) :
  collect xs = xs
  := collect_eq h (List.Perm.refl xs)

/-- A value of the data model comes back exactly when no integer nested in it is above the
signed range and no link nested in it is of version 0. -/
theorem PlainIpld.round_iff (hforms : forms.Lawful) {value : Ipld} (h : PlainIpld value) :
  ipldFromJson forms (jsonFromIpld forms value) = .ok value ↔
    ∀ node ∈ ipldNodes value, Writable node
  := by
  induction h with
  | null => simp [jsonFromIpld, ipldFromJson, ipldNodes, Writable]
  | bool value => simp [jsonFromIpld, ipldFromJson, ipldNodes, Writable]
  | string text => simp [jsonFromIpld, ipldFromJson, ipldNodes, Writable]
  | bytes data =>
    rw [jsonFromIpld, ipldFromJson_bytes data hforms, ipldNodes, List.forall_mem_singleton]
    exact ⟨fun _ => trivial, fun _ => rfl⟩
  | @integer value hlow hhigh =>
    rw [jsonFromIpld, ipldNodes, List.forall_mem_singleton]
    change _ ↔ value < 2 ^ 63
    by_cases hvalue : value < 2 ^ 63
    · rw [ipldFromJson_integer hlow hvalue]
      exact ⟨fun _ => hvalue, fun _ => rfl⟩
    · rw [jsonFromInteger_of_le (not_lt.mp hvalue), ipldFromJson]
      exact ⟨nofun, fun hlt => absurd hlt hvalue⟩
  | link cid =>
    rw [jsonFromIpld, ipldNodes, List.forall_mem_singleton]
    change _ ↔ cid.version = .v1
    obtain ⟨hversion, hread⟩ | ⟨hversion, e, hread⟩ := ipldFromJson_link cid hforms
    · rw [hread]
      exact ⟨fun _ => hversion, fun _ => rfl⟩
    · rw [hread]
      exact ⟨nofun, fun hv => absurd hv hversion⟩
  | @list items hitems ih =>
    rw [jsonFromIpld, jsonFromItems_eq, ipldFromJson, map_eq_ok_iff (fun _ _ => Ipld.list.inj),
      ipldFromItems_map, ipldNodes, List.forall_mem_cons, forall_ipldNodesOfItems]
    rw [and_iff_right (show Writable (.list items) from trivial)]
    exact forall₂_congr ih
  | @map entries hsorted hkeys hvalues ih =>
    have hkeys' : ∀ f ∈ entries.map fun e => (e.1, jsonFromIpld forms e.2), Unreserved f.1 := by
      intro f hf
      obtain ⟨e, he, rfl⟩ := List.mem_map.mp hf
      exact hkeys e he
    have hfields : (∀ e ∈ entries, ipldFromJson forms (jsonFromIpld forms e.2) = .ok e.2) ↔
        ∀ e ∈ entries, ∀ node ∈ ipldNodes e.2, Writable node := forall₂_congr ih
    rw [jsonFromIpld, jsonFromEntries_eq, ipldFromJson_object hkeys', ipldNodes,
      List.forall_mem_cons, forall_ipldNodesOfEntries, ← hfields, ← ipldFromFields_map,
      and_iff_right (show Writable (.map entries) from trivial)]
    cases hread : ipldFromFields forms (entries.map fun e => (e.1, jsonFromIpld forms e.2)) with
    | error e => exact ⟨nofun, nofun⟩
    | ok read =>
      have hkeysRead : read.map Prod.fst = entries.map Prod.fst := by
        rw [keys_of_ipldFromFields hread, List.map_map]
        rfl
      change Except.ok (Ipld.map (collect read)) = _ ↔ _
      rw [collect_of_sorted (sorted_of_keys hkeysRead hsorted)]
      exact ⟨fun heq => congrArg _ (Ipld.map.inj (Except.ok.inj heq)),
        fun heq => congrArg _ (congrArg Ipld.map (Except.ok.inj heq))⟩

/-! ### From JSON -/

/-- Items come back exactly when each of them does. -/
theorem ipldFromItems_round (items : List Json) :
  (ipldFromItems forms items).map (fun read => read.map (jsonFromIpld forms)) = .ok items ↔
    ∀ item ∈ items, (ipldFromJson forms item).map (jsonFromIpld forms) = .ok item
  := by
  induction items with
  | nil => simp [ipldFromItems, Except.map]
  | cons item items ih =>
    rw [ipldFromItems, List.forall_mem_cons, ← ih]
    cases hitem : ipldFromJson forms item with
    | error e => exact ⟨nofun, fun h => nomatch h.1⟩
    | ok value =>
      cases hitems : ipldFromItems forms items with
      | error e => exact ⟨nofun, fun h => nomatch h.2⟩
      | ok values =>
        constructor
        · intro h
          obtain ⟨hvalue, hvalues⟩ := List.cons.inj (Except.ok.inj h)
          exact ⟨congrArg Except.ok hvalue, congrArg Except.ok hvalues⟩
        · rintro ⟨hvalue, hvalues⟩
          exact congrArg Except.ok
            (List.cons_eq_cons.mpr ⟨Except.ok.inj hvalue, Except.ok.inj hvalues⟩)

/-- Fields come back exactly when each of their values does. -/
theorem ipldFromFields_round (fields : List (Text × Json)) :
  (ipldFromFields forms fields).map (fun read => read.map fun e => (e.1, jsonFromIpld forms e.2)) =
      .ok fields ↔
    ∀ f ∈ fields, (ipldFromJson forms f.2).map (jsonFromIpld forms) = .ok f.2
  := by
  induction fields with
  | nil => simp [ipldFromFields, Except.map]
  | cons field fields ih =>
    obtain ⟨key, json⟩ := field
    rw [ipldFromFields, List.forall_mem_cons, ← ih]
    cases hvalue : ipldFromJson forms json with
    | error e => exact ⟨nofun, fun h => nomatch h.1⟩
    | ok value =>
      cases hentries : ipldFromFields forms fields with
      | error e => exact ⟨nofun, fun h => nomatch h.2⟩
      | ok entries =>
        constructor
        · intro h
          obtain ⟨hhead, htail⟩ := List.cons.inj (Except.ok.inj h)
          exact ⟨congrArg Except.ok (Prod.mk.inj hhead).2, congrArg Except.ok htail⟩
        · rintro ⟨hhead, htail⟩
          exact congrArg Except.ok (List.cons_eq_cons.mpr
            ⟨congrArg (Prod.mk key) (Except.ok.inj hhead), Except.ok.inj htail⟩)

/-- A JSON value comes back exactly when no integer nested in it is above the signed range and
the text of no link nested in it is of version 0. -/
theorem Shape.round_iff (hforms : forms.Lawful) {value : Json} (h : Shape forms value) :
  (ipldFromJson forms value).map (jsonFromIpld forms) = .ok value ↔
    ∀ node ∈ value.nodes, Readable node
  := by
  induction h with
  | null => simp [ipldFromJson, jsonFromIpld, Json.nodes, Readable, Except.map]
  | bool value => simp [ipldFromJson, jsonFromIpld, Json.nodes, Readable, Except.map]
  | string text => simp [ipldFromJson, jsonFromIpld, Json.nodes, Readable, Except.map]
  | posInt value =>
    rw [ipldFromJson, numberToIpld, Json.nodes, List.forall_mem_singleton]
    change Except.ok (jsonFromInteger value.toNat) = _ ↔ value.toNat < 2 ^ 63
    by_cases hvalue : value.toNat < 2 ^ 63
    · rw [jsonFromInteger_posInt hvalue]
      exact ⟨fun _ => hvalue, fun _ => rfl⟩
    · rw [jsonFromInteger_of_le (by omega)]
      apply iff_of_false _ hvalue
      intro heq
      cases heq
  | negInt value negative =>
    rw [ipldFromJson, numberToIpld, Json.nodes, List.forall_mem_singleton]
    change Except.ok (jsonFromInteger value.toInt) = _ ↔ True
    rw [jsonFromInteger_negInt negative]
    exact ⟨fun _ => trivial, fun _ => rfl⟩
  | @array items hitems ih =>
    rw [Json.nodes, List.forall_mem_cons, Json.forall_nodesOfItems,
      and_iff_right (show Readable (.array items) from trivial), ← forall₂_congr ih,
      ← ipldFromItems_round, ipldFromJson]
    cases ipldFromItems forms items with
    | error e =>
      apply iff_of_false
      · intro heq
        cases heq
      · intro heq
        cases heq
    | ok read =>
      change Except.ok (Json.array (jsonFromItems forms read)) = _ ↔ Except.ok _ = _
      rw [jsonFromItems_eq]
      exact ⟨fun heq => congrArg _ (Json.array.inj (Except.ok.inj heq)),
        fun heq => congrArg _ (congrArg Json.array (Except.ok.inj heq))⟩
  | @object fields hsorted hkeys hvalues ih =>
    have hobject : Readable (.object fields) := by
      intro text hlookup
      rw [(lookup_eq_none_of_unreserved hkeys).1] at hlookup
      cases hlookup
    rw [Json.nodes, List.forall_mem_cons, Json.forall_nodesOfFields, and_iff_right hobject,
      ← forall₂_congr ih, ← ipldFromFields_round, ipldFromJson_object hkeys]
    cases hread : ipldFromFields forms fields with
    | error e =>
      apply iff_of_false
      · intro heq
        cases heq
      · intro heq
        cases heq
    | ok read =>
      change Except.ok (Json.object (jsonFromEntries forms (collect read))) = _ ↔ Except.ok _ = _
      rw [jsonFromEntries_eq,
        collect_of_sorted (sorted_of_keys (keys_of_ipldFromFields hread) hsorted)]
      exact ⟨fun heq => congrArg _ (Json.object.inj (Except.ok.inj heq)),
        fun heq => congrArg _ (congrArg Json.object (Except.ok.inj heq))⟩
  | bytes data =>
    have hobject : Readable (.object [(bytesKey, .string (forms.base64Encode data))]) := by
      intro text hlookup
      rw [lookup, if_neg bytesKey_ne_linkKey, lookup] at hlookup
      cases hlookup
    rw [ipldFromJson_bytes data hforms, Json.nodes, List.forall_mem_cons,
      Json.forall_nodesOfFields, List.forall_mem_singleton, Json.nodes, List.forall_mem_singleton]
    exact ⟨fun _ => ⟨hobject, trivial⟩, fun _ => rfl⟩
  | link cid =>
    have hobject : Readable (.object [(linkKey, .string (forms.cidToString cid))]) ↔
        cid.version = .v1 := by
      rw [← hforms.cid_base cid, Readable, lookup_linkKey_singleton]
      constructor
      · intro hread
        exact hread _ rfl
      · intro hbase text htext
        rw [← Json.string.inj (Option.some.inj htext)]
        exact hbase
    rw [Json.nodes, List.forall_mem_cons, Json.forall_nodesOfFields, List.forall_mem_singleton,
      Json.nodes, List.forall_mem_singleton, hobject]
    obtain ⟨hversion, hread⟩ | ⟨hversion, e, hread⟩ := ipldFromJson_link cid hforms
    · rw [hread]
      exact ⟨fun _ => ⟨hversion, trivial⟩, fun _ => rfl⟩
    · rw [hread]
      apply iff_of_false _ fun hv => hversion hv.1
      intro heq
      cases heq

/-! ### Both ways -/

/-- The conversions lose nothing exactly when no integer nested in the value is above the signed
range and no link nested in it is of version 0. -/
theorem conversions_lossless_iff (hforms : forms.Lawful) :
  (∀ value, PlainIpld value → (ipldFromJson forms (jsonFromIpld forms value) = .ok value ↔
    ∀ node ∈ ipldNodes value, Writable node)) ∧
  (∀ value, Shape forms value →
    ((ipldFromJson forms value).map (jsonFromIpld forms) = .ok value ↔
      ∀ node ∈ value.nodes, Readable node))
  := ⟨fun _ h => h.round_iff hforms, fun _ h => h.round_iff hforms⟩

/-- A map with a link, a byte string and a list of integers. -/
def sampleValue : Ipld :=
  .map [(textOf "a", .link (cidV1 dagCborCodec sha256Code [1, 2, 3])),
    (textOf "b", .list [.integer (2 ^ 63 - 1), .integer (-2 ^ 63), .bytes [0, 255]])]

theorem sampleValue_plain :
  PlainIpld sampleValue
  := by
  apply PlainIpld.map
  · exact List.pairwise_pair.mpr (by decide)
  · rw [List.forall_mem_cons, List.forall_mem_singleton]
    decide
  · rw [List.forall_mem_cons, List.forall_mem_singleton]
    refine ⟨.link _, .list ?_⟩
    rw [List.forall_mem_cons, List.forall_mem_cons, List.forall_mem_singleton]
    exact ⟨.integer (by decide) (by decide), .integer (by decide) (by decide), .bytes _⟩

/-- An object with a link, and a list of integers, a byte string and a smaller object. -/
def sampleJson : Json :=
  .object [(textOf "a", .object [(linkKey, .string (multibase.cidToString
      (cidV1 dagCborCodec sha256Code [1, 2, 3])))]),
    (textOf "b", .array [.number (.posInt 9223372036854775807), .number (.negInt (-3) rfl),
      .object [(bytesKey, .string (multibase.base64Encode [0, 255]))],
      .object [(textOf "c", .null)]])]

theorem sampleJson_shape :
  Shape multibase sampleJson
  := by
  apply Shape.object
  · exact List.pairwise_pair.mpr (by decide)
  · rw [List.forall_mem_cons, List.forall_mem_singleton]
    decide
  · rw [List.forall_mem_cons, List.forall_mem_singleton]
    refine ⟨.link _, .array ?_⟩
    rw [List.forall_mem_cons, List.forall_mem_cons, List.forall_mem_cons, List.forall_mem_singleton]
    refine ⟨.posInt _, .negInt _ _, .bytes _, .object (List.pairwise_singleton _ _) ?_ ?_⟩
    · rw [List.forall_mem_singleton]
      decide
    · rw [List.forall_mem_singleton]
      exact .null

/-- An object without the key of a link is not one. -/
theorem readable_of_lookup {fields : List (Text × Json)} (h : lookup linkKey fields = none) :
  Readable (.object fields)
  := by
  intro text htext
  rw [h] at htext
  cases htext

theorem sampleJson_readable :
  ∀ node ∈ sampleJson.nodes, Readable node
  := by
  have hlink : Readable (.object [(linkKey, .string (multibase.cidToString
      (cidV1 dagCborCodec sha256Code [1, 2, 3])))]) := by
    intro text htext
    rw [lookup_linkKey_singleton] at htext
    rw [← Json.string.inj (Option.some.inj htext)]
    exact (multibase_lawful.cid_base _).mpr rfl
  rw [sampleJson, Json.nodes, List.forall_mem_cons, Json.forall_nodesOfFields, List.forall_mem_cons, List.forall_mem_singleton]
  refine ⟨readable_of_lookup rfl, ?_, ?_⟩
  · rw [Json.nodes, List.forall_mem_cons, Json.forall_nodesOfFields, List.forall_mem_singleton,
      Json.nodes, List.forall_mem_singleton]
    exact ⟨hlink, trivial⟩
  · rw [Json.nodes, List.forall_mem_cons, Json.forall_nodesOfItems, List.forall_mem_cons,
      List.forall_mem_cons, List.forall_mem_cons, List.forall_mem_singleton]
    simp only [Json.nodes, Json.nodesOfFields, List.append_nil, List.forall_mem_cons]
    have hnil := List.forall_mem_nil Readable
    have hbytes : Readable (.object [(bytesKey, .string (multibase.base64Encode [0, 255]))]) :=
      readable_of_lookup rfl
    have hsmall : Readable (.object [(textOf "c", .null)]) := readable_of_lookup rfl
    have hbound : (9223372036854775807 : UInt64).toNat < 2 ^ 63 := by decide
    exact ⟨trivial, ⟨hbound, hnil⟩, ⟨trivial, hnil⟩, ⟨hbytes, trivial, hnil⟩, hsmall, trivial, hnil⟩

/-- A map and an object with values of each kind are converted without a loss. -/
theorem conversions_lossless_sample :
  ipldFromJson multibase (jsonFromIpld multibase sampleValue) = .ok sampleValue ∧
    (ipldFromJson multibase sampleJson).map (jsonFromIpld multibase) = .ok sampleJson
  := by
  refine ⟨((conversions_lossless_iff multibase_lawful).1 _ sampleValue_plain).mpr ?_,
    ((conversions_lossless_iff multibase_lawful).2 _ sampleJson_shape).mpr sampleJson_readable⟩
  simp [sampleValue, ipldNodes, ipldNodesOfEntries, ipldNodesOfItems, Writable, cidV1]

/-- The integer above the signed range comes back as a string. -/
theorem unsigned_not_lossless :
  PlainIpld (.integer (2 ^ 63)) ∧
    ipldFromJson multibase (jsonFromIpld multibase (.integer (2 ^ 63))) =
      .ok (.string (textOf "9223372036854775808")) ∧
    ipldFromJson multibase (jsonFromIpld multibase (.integer (2 ^ 63))) ≠ .ok (.integer (2 ^ 63)) ∧
    Shape multibase (.number (.posInt 9223372036854775808)) ∧
    (ipldFromJson multibase (.number (.posInt 9223372036854775808))).map (jsonFromIpld multibase) ≠
      .ok (.number (.posInt 9223372036854775808))
  := by
  have hwrite : jsonFromIpld multibase (.integer (2 ^ 63)) =
      .string (textOf "9223372036854775808") := by
    rw [jsonFromIpld, jsonFromInteger_of_le le_rfl]
    rfl
  have hinteger : ((9223372036854775808 : UInt64).toNat : Int) = 2 ^ 63 := by decide +kernel
  have hread : (ipldFromJson multibase (.number (.posInt 9223372036854775808))).map
      (jsonFromIpld multibase) = .ok (.string (textOf "9223372036854775808")) := by
    rw [ipldFromJson, numberToIpld, hinteger, ← hwrite]
    rfl
  refine ⟨.integer (by decide) (by decide), ?_, ?_, .posInt _, ?_⟩
  · rw [hwrite, ipldFromJson]
  · rw [hwrite, ipldFromJson]
    intro heq
    cases heq
  · rw [hread]
    intro heq
    cases heq

end Atproto
