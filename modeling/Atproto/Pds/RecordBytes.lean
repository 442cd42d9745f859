import Atproto.Json.Encode
import Atproto.Json.Lossless
import Atproto.Pds.Lockstep

/-!
# The bytes of a record in the two realms

The writer of a repository completes the type of a record and reads the JSON value into the data
model before it is encoded, and the writer of a space encodes the JSON value as it is.  The bytes
are the same exactly when nothing is completed and reading changes nothing: the record has a type,
no object nested in it has a reserved key, and no number is written as a floating-point number.
-/

namespace Atproto.Pds

open Atproto.Dasl Atproto.Repo SearchTree

variable {format : CidFormat} {forms : TextForms}

/-! ### The two writers -/

/-- The encoding of a record of a repository: the JSON value is read into the data model. -/
def repoRecordBytes (forms : TextForms) (format : CidFormat) (value : Json) :
    Except EncodeError Bytes := do
  let ipld ← ipldFromJson forms value
  Ipld.toVec format ipld

/-- The encoding of a record of a space: the JSON value is encoded as it is. -/
def spaceRecordBytes (format : CidFormat) (value : Json) : Except EncodeError Bytes :=
  Ipld.toVec format value.asIpld

/-- The bytes that the writer of a repository stores for an operation, which is checked and whose
value is completed first. -/
def repoWriteBytes (forms : TextForms) (format : CidFormat) (op : WriteOp) :
    Except PdsError (Option Bytes) := do
  let op ← prepareOp op
  match op.action, op.value with
  | .delete, _ => .ok none
  | _, some value => do
    let bytes ← (repoRecordBytes forms format value).mapError fun _ => .storage "encode value"
    .ok (some bytes)
  | _, none => .error (.notFound (textOf "write " ++ op.mstKey ++ textOf " requires value"))

/-- A write that is asked for in a space. -/
structure SpaceWriteOp where
  action : WriteAction
  collection : Text
  rkey : Text
  value : Option Json

/-- The bytes that the writer of a space stores for an operation. -/
def spaceWriteBytes (format : CidFormat) (op : SpaceWriteOp) : Except PdsError (Option Bytes) :=
  match op.action, op.value with
  | .delete, _ => .ok none
  | _, some value => do
    let bytes ← (spaceRecordBytes format value).mapError fun _ => .storage "encode value"
    .ok (some bytes)
  | .create, none => .error (.storage "Create requires value")
  | .update, none => .error (.storage "Update requires value")

/-- A record is an object that says its type. -/
def Typed (value : Json) : Prop :=
  ∃ fields, value = .object fields ∧ (lookup (textOf "$type") fields).isSome = true

/-- A number is no floating-point number, and an object has no reserved key. -/
def Literal : Json → Prop
  | .number (.posInt _) => True
  | .number (.negInt _ _) => True
  | .number (.float _ _) => False
  | .object fields => lookup linkKey fields = none ∧ lookup bytesKey fields = none
  | .null => True
  | .bool _ => True
  | .string _ => True
  | .array _ => True

instance : DecidablePred Literal
  | .number (.posInt _) => .isTrue trivial
  | .number (.negInt _ _) => .isTrue trivial
  | .number (.float _ _) => .isFalse id
  | .object _ => inferInstanceAs (Decidable (_ ∧ _))
  | .null => .isTrue trivial
  | .bool _ => .isTrue trivial
  | .string _ => .isTrue trivial
  | .array _ => .isTrue trivial

/-! ### Reading changes nothing -/

theorem ipldFromItems_forall₂ {items : List Json} {read : List Ipld}
    (h : ipldFromItems forms items = .ok read) :
  List.Forall₂ (fun item value => ipldFromJson forms item = .ok value) items read
  := by
  induction items generalizing read with
  | nil =>
    cases h
    exact .nil
  | cons item items ih =>
    obtain ⟨value, hvalue, hrest⟩ := Logic.bind_eq_ok.mp h
    obtain ⟨values, hvalues, hcons⟩ := Logic.bind_eq_ok.mp hrest
    cases hcons
    exact .cons hvalue (ih hvalues)

theorem ipldFromFields_forall₂ {fields : List (Text × Json)} {read : List (Text × Ipld)}
    (h : ipldFromFields forms fields = .ok read) :
  List.Forall₂ (fun f e => f.1 = e.1 ∧ ipldFromJson forms f.2 = .ok e.2) fields read
  := by
  induction fields generalizing read with
  | nil =>
    cases h
    exact .nil
  | cons field fields ih =>
    obtain ⟨key, json⟩ := field
    obtain ⟨value, hvalue, hrest⟩ := Logic.bind_eq_ok.mp h
    obtain ⟨entries, hentries, hcons⟩ := Logic.bind_eq_ok.mp hrest
    cases hcons
    exact .cons ⟨rfl, hvalue⟩ (ih hentries)

/-- Lists that go together are related by a map exactly when their items are. -/
theorem eq_map_iff_of_forall₂ {α β : Type} {r : α → β → Prop} {f : α → β} {p : α → Prop}
    {xs : List α} {ys : List β} (h : List.Forall₂ r xs ys)
    (hp : ∀ x ∈ xs, ∀ y, r x y → (y = f x ↔ p x)) :
  ys = xs.map f ↔ ∀ x ∈ xs, p x
  := by
  induction h with
  | nil => exact iff_of_true rfl nofun
  | @cons x y xs ys hxy hrest ih =>
    obtain ⟨hhead, htail⟩ := List.forall_mem_cons.mp hp
    rw [List.map_cons, List.cons.injEq, List.forall_mem_cons, hhead y hxy, ih htail]

/-- An object with the key of a link is read as a link. -/
theorem linkToIpld_eq_link {fields : List (Text × Json)} {link : Json} {value : Ipld}
    (h : linkToIpld forms fields link = .ok value) :
  ∃ cid, value = .link cid
  := by
  rw [linkToIpld] at h
  split_ifs at h
  cases htext : link.asStr with
  | none =>
    rw [htext] at h
    cases h
  | some text =>
    rw [htext] at h
    simp only at h
    cases hcid : cidFromStr forms text with
    | error reason =>
      rw [hcid] at h
      cases h
    | ok cid =>
      rw [hcid] at h
      exact ⟨cid, (Except.ok.inj h).symm⟩

/-- An object with the key of a byte string is read as a byte string. -/
theorem bytesToIpld_eq_bytes {fields : List (Text × Json)} {bytes : Json} {value : Ipld}
    (h : bytesToIpld forms fields bytes = .ok value) :
  ∃ data, value = .bytes data
  := by
  rw [bytesToIpld] at h
  split_ifs at h
  cases htext : bytes.asStr with
  | none =>
    rw [htext] at h
    cases h
  | some text =>
    rw [htext] at h
    simp only at h
    cases hdata : forms.base64Decode text with
    | error reason =>
      rw [hdata] at h
      cases h
    | ok data =>
      rw [hdata] at h
      exact ⟨data, (Except.ok.inj h).symm⟩

/-- A floating-point number that was read is an integer. -/
theorem numberToIpld_float {bits : UInt64} (hfinite : IsFinite bits) {value : Ipld}
    (h : numberToIpld forms (.float bits hfinite) = .ok value) :
  ∃ n : Int, value = .integer n ∧ -2 ^ 63 ≤ n ∧ n ≤ 2 ^ 63
  := by
  rw [numberToIpld] at h
  cases hinteger : floatInteger bits with
  | none =>
    rw [hinteger] at h
    cases h
  | some n =>
    rw [hinteger] at h
    simp only at h
    split_ifs at h with hrange
    exact ⟨n, (Except.ok.inj h).symm, hrange⟩

/-- A value of the data model that was read is the JSON value as it is exactly when every value
nested in it is literal. -/
theorem ipldFromJson_eq_asIpld_iff {value : Json} (h : value.Ordered) {read : Ipld}
    (hread : ipldFromJson forms value = .ok read) :
  read = value.asIpld ↔ ∀ node ∈ value.nodes, Literal node
  := by
  induction h generalizing read with
  | null =>
    cases hread
    simp [Json.asIpld, Json.nodes, Literal]
  | bool value =>
    cases hread
    simp [Json.asIpld, Json.nodes, Literal]
  | string text =>
    cases hread
    simp [Json.asIpld, Json.nodes, Literal]
  | number number =>
    rw [Json.nodes, List.forall_mem_singleton, Json.asIpld]
    cases number with
    | posInt n =>
      cases hread
      exact iff_of_true rfl trivial
    | negInt n hneg =>
      cases hread
      exact iff_of_true rfl trivial
    | float bits hfinite =>
      obtain ⟨n, rfl, -⟩ := numberToIpld_float hfinite hread
      exact iff_of_false (fun h => by cases h) id
  | @array items hitems ih =>
    rw [ipldFromJson] at hread
    cases hlist : ipldFromItems forms items with
    | error e =>
      rw [hlist] at hread
      cases hread
    | ok values =>
      rw [hlist] at hread
      cases hread
      rw [Json.nodes, List.forall_mem_cons, Json.forall_nodesOfItems, Json.asIpld,
        Json.asIpldItems_eq, Ipld.list.injEq, and_iff_right (show Literal (.array items) from trivial)]
      exact eq_map_iff_of_forall₂ (ipldFromItems_forall₂ hlist) fun item hitem value hvalue =>
        ih item hitem hvalue
  | @object fields hsorted hvalues ih =>
    rw [Json.nodes, List.forall_mem_cons, Json.forall_nodesOfFields, Json.asIpld,
      Json.asIpldFields_eq]
    rw [ipldFromJson] at hread
    cases hlink : lookup linkKey fields with
    | some link =>
      rw [hlink] at hread
      obtain ⟨cid, rfl⟩ := linkToIpld_eq_link hread
      apply iff_of_false (fun h => by cases h)
      rintro ⟨⟨hnone, -⟩, -⟩
      cases hlink.symm.trans hnone
    | none =>
      rw [hlink] at hread
      simp only at hread
      cases hbytes : lookup bytesKey fields with
      | some bytes =>
        rw [hbytes] at hread
        obtain ⟨data, rfl⟩ := bytesToIpld_eq_bytes hread
        apply iff_of_false (fun h => by cases h)
        rintro ⟨⟨-, hnone⟩, -⟩
        cases hbytes.symm.trans hnone
      | none =>
        rw [hbytes] at hread
        simp only at hread
        cases hentries : ipldFromFields forms fields with
        | error e =>
          rw [hentries] at hread
          cases hread
        | ok entries =>
          rw [hentries] at hread
          cases hread
          change Ipld.map (collect entries) = _ ↔ _
          rw [collect_of_sorted (sorted_of_keys (keys_of_ipldFromFields hentries) hsorted),
            Ipld.map.injEq, and_iff_right (show Literal (.object fields) from ⟨hlink, hbytes⟩)]
          apply eq_map_iff_of_forall₂ (ipldFromFields_forall₂ hentries)
          rintro f hf ⟨key, value⟩ ⟨rfl, hvalue⟩
          rw [← ih f hf hvalue, Prod.mk.injEq, and_iff_right rfl]

theorem exists_of_forall₂ {α β : Type} {r : α → β → Prop} {xs : List α} {ys : List β}
    (h : List.Forall₂ r xs ys) {y : β} (hy : y ∈ ys) :
  ∃ x ∈ xs, r x y
  := by
  induction h with
  | nil => cases hy
  | @cons x y' xs ys hxy hrest ih =>
    rcases List.mem_cons.mp hy with rfl | hmem
    · exact ⟨x, List.mem_cons_self, hxy⟩
    · obtain ⟨x', hx', hr⟩ := ih hmem
      exact ⟨x', List.mem_cons_of_mem x hx', hr⟩

/-! ### What was encoded -/

/-- The integers of a value have 64 bits and a sign, its floating-point numbers are finite,
and the entries of its maps are sorted. -/
inductive Tidy : Ipld → Prop where
  | null : Tidy .null
  | bool (value : Bool) : Tidy (.bool value)
  | integer {value : Int} (hlow : -2 ^ 64 ≤ value) (hhigh : value < 2 ^ 64) :
    Tidy (.integer value)
  | string (text : Text) : Tidy (.string text)
  | bytes (data : Bytes) : Tidy (.bytes data)
  | list {items : List Ipld} (hitems : ∀ item ∈ items, Tidy item) : Tidy (.list items)
  | map {entries : List (Text × Ipld)} (hsorted : Sorted entries)
    (hvalues : ∀ e ∈ entries, Tidy e.2) : Tidy (.map entries)
  | link (cid : Cid) : Tidy (.link cid)

/-- What was read is tidy. -/
theorem tidy_of_ipldFromJson {value : Json} (h : value.Ordered) {read : Ipld}
    (hread : ipldFromJson forms value = .ok read) :
  Tidy read
  := by
  induction h generalizing read with
  | null =>
    cases hread
    exact .null
  | bool value =>
    cases hread
    exact .bool value
  | string text =>
    cases hread
    exact .string text
  | number number =>
    cases number with
    | posInt n =>
      cases hread
      have hlt := n.toNat_lt
      exact .integer (by omega) (by omega)
    | negInt n hneg =>
      cases hread
      have hlow := n.le_toInt
      have hhigh := n.toInt_lt
      exact .integer (by omega) (by omega)
    | float bits hfinite =>
      obtain ⟨n, rfl, hlow, hhigh⟩ := numberToIpld_float hfinite hread
      exact .integer (by omega) (by omega)
  | @array items hitems ih =>
    rw [ipldFromJson] at hread
    cases hlist : ipldFromItems forms items with
    | error e =>
      rw [hlist] at hread
      cases hread
    | ok values =>
      rw [hlist] at hread
      cases hread
      apply Tidy.list
      intro value hvalue
      obtain ⟨item, hitem, hitemRead⟩ := exists_of_forall₂ (ipldFromItems_forall₂ hlist) hvalue
      exact ih item hitem hitemRead
  | @object fields hsorted hvalues ih =>
    rw [ipldFromJson] at hread
    cases hlink : lookup linkKey fields with
    | some link =>
      rw [hlink] at hread
      obtain ⟨cid, rfl⟩ := linkToIpld_eq_link hread
      exact .link cid
    | none =>
      rw [hlink] at hread
      simp only at hread
      cases hbytes : lookup bytesKey fields with
      | some bytes =>
        rw [hbytes] at hread
        obtain ⟨data, rfl⟩ := bytesToIpld_eq_bytes hread
        exact .bytes data
      | none =>
        rw [hbytes] at hread
        simp only at hread
        cases hentries : ipldFromFields forms fields with
        | error e =>
          rw [hentries] at hread
          cases hread
        | ok entries =>
          rw [hentries] at hread
          cases hread
          have hsorted' := sorted_of_keys (keys_of_ipldFromFields hentries) hsorted
          change Tidy (.map (collect entries))
          rw [collect_of_sorted hsorted']
          apply Tidy.map hsorted'
          intro entry hentry
          obtain ⟨field, hfield, -, hvalue⟩ :=
            exists_of_forall₂ (ipldFromFields_forall₂ hentries) hentry
          exact ih field hfield hvalue

/-- A tidy value that was encoded has an encoding. -/
theorem Tidy.encodable {value : Ipld} (h : Tidy value) {bytes : Bytes}
    (hok : Ipld.serialize format value = .ok bytes) :
  value.Encodable format
  := by
  induction h generalizing bytes with
  | null => exact .null
  | bool value => exact .bool value
  | integer hlow hhigh => exact .integer hlow hhigh
  | string text => exact .string (Json.length_lt_of_encodeText hok)
  | bytes data =>
    rw [Ipld.serialize, encodeBytes] at hok
    obtain ⟨head, hhead, -⟩ := Logic.bind_eq_ok.mp hok
    exact .bytes (Json.lt_of_encodeLengthHead hhead)
  | @list items hitems ih =>
    rw [Ipld.serialize] at hok
    obtain ⟨header, hheader, hrest⟩ := Logic.bind_eq_ok.mp hok
    obtain ⟨parts, hparts, -⟩ := Logic.bind_eq_ok.mp hrest
    apply Ipld.Encodable.list (Json.lt_of_encodeLengthHead hheader)
    intro item hitem
    obtain ⟨part, hpart⟩ := Json.exists_of_serializeItems hparts item hitem
    exact ih item hitem hpart
  | @map entries hsorted hvalues ih =>
    rw [Ipld.serialize] at hok
    obtain ⟨parts, hparts, hend⟩ := Logic.bind_eq_ok.mp hok
    obtain ⟨hlength, hkeys, hall⟩ := Json.exists_of_serializeEntries hparts
    rw [endMap] at hend
    obtain ⟨header, hheader, -⟩ := Logic.bind_eq_ok.mp hend
    apply Ipld.Encodable.map _ hkeys hsorted
    · intro entry hentry
      obtain ⟨part, hpart⟩ := hall entry hentry
      exact ih entry hentry hpart
    · rw [← hlength]
      exact Json.lt_of_encodeLengthHead hheader
  | link cid =>
    rw [Ipld.serialize, serializeCid] at hok
    obtain ⟨data, hdata, -⟩ := Logic.bind_eq_ok.mp hok
    rw [encodeBytes] at hdata
    obtain ⟨head, hhead, -⟩ := Logic.bind_eq_ok.mp hdata
    exact .link (Json.lt_of_encodeLengthHead hhead)

/-- A list is given to the encoder for an array only. -/
theorem items_of_asIpld {json : Json} {values : List Ipld} (h : .list values = json.asIpld) :
  ∃ items : List Json, values = items.map Json.asIpld
  := by
  cases json with
  | array items => exact ⟨items, (Ipld.list.inj h).trans (Json.asIpldItems_eq items)⟩
  | null => cases h
  | bool value => cases h
  | number value => exact absurd h.symm ((Json.asIpld_number_ne value).2.2.2.1 values)
  | string value => cases h
  | object fields => cases h

/-- A map is given to the encoder for an object only. -/
theorem fields_of_asIpld {json : Json} {entries : List (Text × Ipld)}
    (h : .map entries = json.asIpld) :
  ∃ fields : List (Text × Json), entries = fields.map fun f => (f.1, f.2.asIpld)
  := by
  cases json with
  | object fields => exact ⟨fields, (Ipld.map.inj h).trans (Json.asIpldFields_eq fields)⟩
  | null => cases h
  | bool value => cases h
  | number value => exact absurd h.symm ((Json.asIpld_number_ne value).2.2.2.2 entries)
  | string value => cases h
  | array items => cases h

/-- What a byte string is visited as is never given to the encoder. -/
theorem visitByteBuf_ne_asIpld (data : Bytes) (json : Json) :
  Ipld.visitByteBuf format data ≠ json.asIpld
  := by
  intro h
  rw [Ipld.visitByteBuf] at h
  cases hcid : Ipld.cidOfBytes format data with
  | none =>
    rw [hcid] at h
    rcases json with _ | _ | (_ | _ | _) | _ | _ | _ <;> cases h
  | some cid =>
    rw [hcid] at h
    rcases json with _ | _ | (_ | _ | _) | _ | _ | _ <;> cases h

/-- A value whose tree is visited as a JSON value as it is, is that value. -/
theorem visit_tree_of_asIpld {value : Ipld} (h : value.Encodable format) {json : Json}
    (hvisit : (value.tree format).visit (Ipld.visitor format) = json.asIpld) :
  (value.tree format).visit (Ipld.visitor format) = value
  := by
  induction h generalizing json with
  | null => rfl
  | bool value => rfl
  | integer hlow hhigh => rfl
  | float hfinite => rfl
  | string hlength => rfl
  | bytes hlength => exact absurd hvisit (visitByteBuf_ne_asIpld _ json)
  | link hlength => exact absurd hvisit (visitByteBuf_ne_asIpld _ json)
  | @list items hlength hitems ih =>
    have hlist : (Ipld.tree format (.list items)).visit (Ipld.visitor format) =
        .list (items.map fun item => (item.tree format).visit (Ipld.visitor format)) := by
      rw [Ipld.tree_list, CborTree.visit, CborTree.fold_array, List.map_map]
      rfl
    rw [hlist] at hvisit ⊢
    obtain ⟨jsons, hjsons⟩ := items_of_asIpld hvisit
    rw [Ipld.list.injEq, Ipld.map_eq_self]
    intro item hitem
    have hmem := List.mem_map_of_mem
      (f := fun item => Ipld.tree format item |>.visit (Ipld.visitor format)) hitem
    rw [hjsons] at hmem
    obtain ⟨other, -, hother⟩ := List.mem_map.mp hmem
    exact ih item hitem hother.symm
  | @map entries hlength hkeys hsorted hvalues ih =>
    rw [Ipld.visit_tree_map hsorted] at hvisit ⊢
    obtain ⟨fields, hfields⟩ := fields_of_asIpld hvisit
    rw [Ipld.map.injEq, Ipld.map_eq_self]
    intro entry hentry
    have hmem := List.mem_map_of_mem
      (f := fun e : Text × Ipld => (e.1, (e.2.tree format).visit (Ipld.visitor format))) hentry
    rw [hfields] at hmem
    obtain ⟨other, -, hother⟩ := List.mem_map.mp hmem
    rw [ih entry hentry (Prod.mk.inj hother).2.symm]

/-- A value with the bytes of a JSON value as it is, is that value. -/
theorem eq_asIpld_of_serialize (hformat : format.Lawful) {value : Ipld}
    (h : value.Encodable format) {json : Json} (hjson : json.Ordered) {bytes : Bytes}
    (hok : Ipld.serialize format value = .ok bytes)
    (hok' : Ipld.serialize format json.asIpld = .ok bytes) :
  value = json.asIpld
  := by
  have hencodable := hjson.encodable hok'
  have hvisit : (value.tree format).visit (Ipld.visitor format) = json.asIpld := by
    rw [h.serialize_ok] at hok
    rw [hencodable.serialize_ok] at hok'
    rw [(h.canonical hformat).visit_eq (hencodable.canonical hformat)
      ((Except.ok.inj hok).trans (Except.ok.inj hok').symm) (Ipld.visitor format)]
    exact (hencodable.visit_tree_iff hformat).mpr hjson.bareCids
  exact (visit_tree_of_asIpld h hvisit).symm.trans hvisit

/-- What was read from a JSON value and what another is as it is have the same bytes just when they
are the same. -/
theorem bytes_eq_iff (hformat : format.Lawful) {completed value : Json} (hcompleted : completed.Ordered)
    (h : value.Ordered) {read : Ipld} (hread : ipldFromJson forms completed = .ok read)
    {inRepo inSpace : Bytes} (hrepo : Ipld.serialize format read = .ok inRepo)
    (hspace : spaceRecordBytes format value = .ok inSpace) :
  inRepo = inSpace ↔ read = value.asIpld
  := by
  constructor
  · rintro rfl
    have hencodable := (tidy_of_ipldFromJson hcompleted hread).encodable hrepo
    exact eq_asIpld_of_serialize hformat hencodable h hrepo hspace
  · rintro rfl
    exact Except.ok.inj (hrepo.symm.trans hspace)

/-! ### What is completed -/

/-- A record that is accepted has its type, or is given one. -/
theorem reconcileType_eq_ok {collection : Text} {value completed : Json}
    (h : reconcileType collection value = .ok completed) :
  Typed value ∧ completed = value ∨
    ∃ fields, value = .object fields ∧ lookup (textOf "$type") fields = none ∧
      completed = .object (SearchTree.insert (textOf "$type") (.string collection) fields)
  := by
  cases value with
  | null => cases h
  | bool value => cases h
  | number value => cases h
  | string value => cases h
  | array items => cases h
  | object fields =>
    rw [reconcileType] at h
    cases htype : lookup (textOf "$type") fields with
    | none =>
      rw [htype] at h
      cases h
      exact Or.inr ⟨fields, rfl, htype, rfl⟩
    | some type =>
      have htyped : Typed (.object fields) := ⟨fields, rfl, Option.isSome_iff_exists.mpr ⟨type, htype⟩⟩
      rw [htype] at h
      cases type with
      | string type =>
        dsimp only at h
        split_ifs at h
        exact Or.inl ⟨htyped, (Except.ok.inj h).symm⟩
      | null => cases h
      | bool value => cases h
      | number value => cases h
      | array items => cases h
      | object fields => cases h

/-- An object that is read as a map has the keys of the map. -/
theorem keys_of_ipldFromJson {fields : List (Text × Json)} (h : Sorted fields)
    {entries : List (Text × Ipld)} (hread : ipldFromJson forms (.object fields) = .ok (.map entries)) :
  entries.map Prod.fst = fields.map Prod.fst
  := by
  rw [ipldFromJson] at hread
  cases hlink : lookup linkKey fields with
  | some link =>
    rw [hlink] at hread
    obtain ⟨cid, hcid⟩ := linkToIpld_eq_link hread
    cases hcid
  | none =>
    rw [hlink] at hread
    dsimp only at hread
    cases hbytes : lookup bytesKey fields with
    | some bytes =>
      rw [hbytes] at hread
      obtain ⟨data, hdata⟩ := bytesToIpld_eq_bytes hread
      cases hdata
    | none =>
      rw [hbytes] at hread
      dsimp only at hread
      cases hlist : ipldFromFields forms fields with
      | error e =>
        rw [hlist] at hread
        cases hread
      | ok read =>
        rw [hlist] at hread
        cases hread
        have hkeys := keys_of_ipldFromFields hlist
        rw [collect_of_sorted (sorted_of_keys hkeys h), hkeys]

/-- A record that was given a type is not read as what it was without one. -/
theorem read_insert_ne {fields : List (Text × Json)} {key : Text} {value : Json}
    (hsorted : Sorted fields) (hnone : lookup key fields = none) {read : Ipld}
    (hread : ipldFromJson forms (.object (SearchTree.insert key value fields)) = .ok read) :
  read ≠ (Json.object fields).asIpld
  := by
  rintro rfl
  rw [Json.asIpld, Json.asIpldFields_eq] at hread
  have hkeys := keys_of_ipldFromJson (hsorted.insert key value) hread
  have hmem : key ∈ (SearchTree.insert key value fields).map Prod.fst :=
    List.mem_map.mpr ⟨(key, value), mem_insert.mpr (Or.inl rfl), rfl⟩
  rw [← hkeys, List.map_map] at hmem
  obtain ⟨field, hfield, hname⟩ := List.mem_map.mp hmem
  have hlookup := hsorted.lookup_of_mem hfield
  rw [show field.1 = key from hname, hnone] at hlookup
  cases hlookup

/-! ### The bytes -/

theorem repoWriteBytes_eq_ok {op : WriteOp} {value : Json} (hvalue : op.value = some value)
    {bytes : Bytes} (h : repoWriteBytes forms format op = .ok (some bytes)) :
  ∃ completed, reconcileType op.collection value = .ok completed ∧
    repoRecordBytes forms format completed = .ok bytes
  := by
  obtain ⟨op', hop, h⟩ := Logic.bind_eq_ok.mp h
  obtain ⟨⟨⟩, -, hop⟩ := Logic.bind_eq_ok.mp hop
  obtain ⟨⟨⟩, -, hop⟩ := Logic.bind_eq_ok.mp hop
  rw [hvalue] at hop
  obtain ⟨completed, hcompleted, hop⟩ := Logic.bind_eq_ok.mp hop
  cases hop
  refine ⟨completed, hcompleted, ?_⟩
  cases haction : op.action with
  | delete =>
    simp only [haction] at h
    cases h
  | create =>
    simp only [haction] at h
    obtain ⟨other, hbytes, h⟩ := Logic.bind_eq_ok.mp h
    cases h
    exact Logic.mapError_eq_ok.mp hbytes
  | update =>
    simp only [haction] at h
    obtain ⟨other, hbytes, h⟩ := Logic.bind_eq_ok.mp h
    cases h
    exact Logic.mapError_eq_ok.mp hbytes

theorem spaceWriteBytes_eq_ok {op : SpaceWriteOp} {value : Json} (hvalue : op.value = some value)
    {bytes : Bytes} (h : spaceWriteBytes format op = .ok (some bytes)) :
  spaceRecordBytes format value = .ok bytes
  := by
  rw [spaceWriteBytes, hvalue] at h
  cases haction : op.action with
  | delete =>
    rw [haction] at h
    cases h
  | create =>
    rw [haction] at h
    obtain ⟨other, hbytes, h⟩ := Logic.bind_eq_ok.mp h
    cases h
    exact Logic.mapError_eq_ok.mp hbytes
  | update =>
    rw [haction] at h
    obtain ⟨other, hbytes, h⟩ := Logic.bind_eq_ok.mp h
    cases h
    exact Logic.mapError_eq_ok.mp hbytes

/-- The bytes of a record that both writers accept, and so its CIDs, are the same exactly when
the record says its type and every value nested in it is literal. -/
theorem recordBytes_eq_iff (hformat : format.Lawful) {value : Json} (h : value.Ordered)
    {op : WriteOp} {spaceOp : SpaceWriteOp} (hop : op.value = some value)
    (hspaceOp : spaceOp.value = some value) {sha256 : Bytes → Bytes} {inRepo inSpace : Bytes}
    (hrepo : repoWriteBytes forms format op = .ok (some inRepo))
    (hspace : spaceWriteBytes format spaceOp = .ok (some inSpace)) :
  (inRepo = inSpace ∧ computeCid sha256 inRepo = computeCid sha256 inSpace) ↔
    Typed value ∧ ∀ node ∈ value.nodes, Literal node
  := by
  obtain ⟨completed, hcompleted, hencoded⟩ := repoWriteBytes_eq_ok hop hrepo
  obtain ⟨read, hread, hbytes⟩ := Logic.bind_eq_ok.mp hencoded
  have hspaceBytes := spaceWriteBytes_eq_ok hspaceOp hspace
  rw [and_iff_left_of_imp (congrArg (computeCid sha256))]
  rcases reconcileType_eq_ok hcompleted with ⟨htyped, rfl⟩ | ⟨fields, rfl, hnone, rfl⟩
  · rw [and_iff_right htyped, ← ipldFromJson_eq_asIpld_iff h hread]
    exact bytes_eq_iff hformat h h hread hbytes hspaceBytes
  · have hordered := h.insert (textOf "$type") (.string op.collection)
    rw [bytes_eq_iff hformat hordered h hread hbytes hspaceBytes]
    cases h with
    | object hsorted hvalues =>
      apply iff_of_false (read_insert_ne hsorted hnone hread)
      rintro ⟨⟨others, heq, hsome⟩, -⟩
      cases heq
      rw [hnone] at hsome
      cases hsome

/-- What the writer of a repository gives to the key of a record, in the tree and in its rows, is
the CID of these bytes. -/
theorem recordRows_of_applyOp {ctx : Context} {account : Account} {op prepared : WriteOp}
    {draft draft' : Draft ctx} (haccount : account.recordBytes = repoRecordBytes forms format)
    (haction : op.action ≠ .delete) (hprepared : prepareOp op = .ok prepared)
    (h : applyOp account prepared draft = (.ok (), draft')) :
  ∃ bytes, repoWriteBytes forms format op = .ok (some bytes) ∧
    draft'.recordRows =
      draft.recordRows ++ [(prepared.collection, prepared.rkey, computeCid ctx.sha256 bytes)]
  := by
  have haction' : prepared.action = op.action := (prepareOp_eq_ok hprepared).2.1
  rw [applyOp] at h
  have hwrite : applyWrite account prepared draft = (.ok (), draft') := by
    cases hcase : prepared.action with
    | delete => exact absurd (haction'.symm.trans hcase) haction
    | create =>
      rw [hcase] at h
      exact h
    | update =>
      rw [hcase] at h
      exact h
  obtain ⟨value, bytes, prior, mst, diff, hvalue, hbytes, -, -, -, rfl⟩ := applyWrite_eq_ok hwrite
  rw [haccount] at hbytes
  refine ⟨bytes, Logic.bind_eq_ok.mpr ⟨prepared, hprepared, ?_⟩, rfl⟩
  have hencode : ((repoRecordBytes forms format value).mapError fun _ =>
      PdsError.storage "encode value") = .ok bytes := Logic.mapError_eq_ok.mpr hbytes
  cases hcase : prepared.action with
  | delete => exact absurd (haction'.symm.trans hcase) haction
  | create =>
    simp only [hvalue, hencode]
    rfl
  | update =>
    simp only [hvalue, hencode]
    rfl

/-! ### Three records -/

/-- A record is written to the repository of an account, and to a space. -/
def repoOp (value : Json) : WriteOp where
  action := .create
  collection := textOf "com.a.post"
  rkey := textOf "self"
  value := some value
  swapRecord := none

def spaceOp (value : Json) : SpaceWriteOp where
  action := .create
  collection := textOf "com.a.post"
  rkey := textOf "self"
  value := some value

/-- A record with a text, a number and nested values. -/
def literalRecord : Json :=
  .object [(textOf "$type", .string (textOf "com.a.post")),
    (textOf "count", .number (.posInt 3)),
    (textOf "reply", .object [(textOf "tags", .array [.string (textOf "a"), .null, .bool true])]),
    (textOf "text", .string (textOf "x"))]

/-- A record with a byte string. -/
def bytesRecord : Json :=
  .object [(textOf "$type", .string (textOf "com.a.post")),
    (textOf "image", .object [(bytesKey, .string (textOf "AA"))])]

/-- A record without a type. -/
def untypedRecord : Json := .object [(textOf "text", .string (textOf "x"))]

theorem ordered_literalRecord :
  literalRecord.Ordered
  := by
  have htags : (Json.array [.string (textOf "a"), .null, .bool true]).Ordered := by
    apply Json.Ordered.array
    rintro item (_ | ⟨_, _ | ⟨_, _ | ⟨_, ⟨⟩⟩⟩⟩)
    · exact .string _
    · exact .null
    · exact .bool true
  have hreply : (Json.object [(textOf "tags",
      .array [.string (textOf "a"), .null, .bool true])]).Ordered := by
    apply Json.Ordered.object (List.pairwise_singleton _ _)
    exact List.forall_mem_singleton.mpr htags
  apply Json.Ordered.object
  · rw [Sorted]
    decide
  · rintro field (_ | ⟨_, _ | ⟨_, _ | ⟨_, _ | ⟨_, ⟨⟩⟩⟩⟩⟩)
    · exact .string _
    · exact .number _
    · exact hreply
    · exact .string _

/-- A record of nested values is stored with the same bytes by both writers. -/
theorem recordBytes_eq_sample :
  ∃ bytes, repoWriteBytes multibase multiformats (repoOp literalRecord) = .ok (some bytes) ∧
    spaceWriteBytes multiformats (spaceOp literalRecord) = .ok (some bytes)
  := by
  obtain ⟨inRepo, hrepo⟩ : ∃ bytes,
      repoWriteBytes multibase multiformats (repoOp literalRecord) = .ok (some bytes) := ⟨_, rfl⟩
  obtain ⟨inSpace, hspace⟩ : ∃ bytes,
      spaceWriteBytes multiformats (spaceOp literalRecord) = .ok (some bytes) := ⟨_, rfl⟩
  have heq : inRepo = inSpace ∧ computeCid id inRepo = computeCid id inSpace :=
    (recordBytes_eq_iff multiformats_lawful ordered_literalRecord rfl rfl hrepo hspace).mpr
      ⟨⟨_, rfl, rfl⟩, by decide⟩
  obtain ⟨rfl, -⟩ := heq
  exact ⟨inRepo, hrepo, hspace⟩

/-- A record is stored with other bytes and another CID in a repository than in a space. -/
def StoredApart (record : Json) : Prop :=
  ∃ inRepo inSpace,
    repoWriteBytes multibase multiformats (repoOp record) = .ok (some inRepo) ∧
    spaceWriteBytes multiformats (spaceOp record) = .ok (some inSpace) ∧ inRepo ≠ inSpace ∧
    computeCid id inRepo ≠ computeCid id inSpace

/-- A record with a byte string, and one without a type, are stored with different bytes. -/
theorem recordBytes_ne :
  StoredApart bytesRecord ∧ StoredApart untypedRecord
  := by
  constructor
  · refine ⟨_, _, rfl, rfl, ?_, ?_⟩
    · decide
    · decide
  · refine ⟨_, _, rfl, rfl, ?_, ?_⟩
    · decide
    · decide

end Atproto.Pds
