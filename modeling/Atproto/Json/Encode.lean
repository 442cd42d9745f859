import Atproto.Dasl.Injective
import Atproto.Json.Value

/-!
# Encoding JSON values as they are

A JSON value that is handed to the encoder as it is becomes a value of the data model without
links and byte strings: an object is a map, whatever its keys are.  Two JSON values with the
same bytes are the same.
-/

namespace Atproto

open Dasl SearchTree

variable {format : CidFormat}

/-- What the encoder is given for a number. -/
def JsonNumber.asIpld : JsonNumber → Ipld
  | .posInt value => .integer value.toNat
  | .negInt value _ => .integer value.toInt
  | .float bits _ => .float bits

namespace Json

mutual

/-- What the encoder is given for a JSON value. -/
def asIpld : Json → Ipld
  | .null => .null
  | .bool value => .bool value
  | .number value => value.asIpld
  | .string value => .string value
  | .array items => .list (asIpldItems items)
  | .object fields => .map (asIpldFields fields)

def asIpldItems : List Json → List Ipld
  | [] => []
  | item :: items => asIpld item :: asIpldItems items

def asIpldFields : List (Text × Json) → List (Text × Ipld)
  | [] => []
  | (key, value) :: fields => (key, asIpld value) :: asIpldFields fields

end

/-- The fields of every object stand in the order of their names, each once. -/
inductive Ordered : Json → Prop where
  | null : Ordered .null
  | bool (value : Bool) : Ordered (.bool value)
  | number (value : JsonNumber) : Ordered (.number value)
  | string (value : Text) : Ordered (.string value)
  | array {items : List Json} (hitems : ∀ item ∈ items, Ordered item) : Ordered (.array items)
  | object {fields : List (Text × Json)} (hsorted : Sorted fields)
    (hvalues : ∀ f ∈ fields, Ordered f.2) : Ordered (.object fields)

/-- An object stays in order when a field is removed. -/
theorem Ordered.erase {fields : List (Text × Json)} (h : Ordered (.object fields)) (key : Text) :
  Ordered (.object (SearchTree.erase key fields))
  := by
  cases h with
  | object hsorted hvalues =>
    exact .object (hsorted.erase key) fun f hf => hvalues f (mem_of_mem_erase hf).1

/-- An object stays in order when a value is stored in a field. -/
theorem Ordered.insert {fields : List (Text × Json)} (h : Ordered (.object fields)) (key : Text)
    {value : Json} (hvalue : Ordered value) :
  Ordered (.object (SearchTree.insert key value fields))
  := by
  cases h with
  | object hsorted hvalues =>
    apply Ordered.object (hsorted.insert key value)
    intro f hf
    rcases mem_insert.mp hf with rfl | hmem
    · exact hvalue
    · exact hvalues f (mem_of_mem_erase hmem).1

theorem asIpldItems_eq (items : List Json) :
  asIpldItems items = items.map asIpld
  := by
  induction items with
  | nil => rfl
  | cons item items ih => rw [asIpldItems, List.map_cons, ih]

theorem asIpldFields_eq (fields : List (Text × Json)) :
  asIpldFields fields = fields.map fun f => (f.1, f.2.asIpld)
  := by
  induction fields with
  | nil => rfl
  | cons field fields ih => rw [asIpldFields, List.map_cons, ih]

/-! ### Different values are given to the encoder differently -/

theorem asIpld_number_inj {a b : JsonNumber} (h : a.asIpld = b.asIpld) :
  a = b
  := by
  cases a with
  | posInt m =>
    cases b with
    | posInt n => exact JsonNumber.integer_injective rfl (congrArg some (Ipld.integer.inj h).symm)
    | negInt n hneg =>
      exact JsonNumber.integer_injective rfl (congrArg some (Ipld.integer.inj h).symm)
    | float bits hfinite => cases h
  | negInt m hneg =>
    cases b with
    | posInt n => exact JsonNumber.integer_injective rfl (congrArg some (Ipld.integer.inj h).symm)
    | negInt n hneg' =>
      exact JsonNumber.integer_injective rfl (congrArg some (Ipld.integer.inj h).symm)
    | float bits hfinite => cases h
  | float bits hfinite =>
    cases b with
    | posInt n => cases h
    | negInt n hneg => cases h
    | float bits' hfinite' =>
      cases h
      rfl

theorem asIpld_number_ne (value : JsonNumber) :
  value.asIpld ≠ .null ∧ (∀ b, value.asIpld ≠ .bool b) ∧ (∀ text, value.asIpld ≠ .string text) ∧
    (∀ items, value.asIpld ≠ .list items) ∧ ∀ entries, value.asIpld ≠ .map entries
  := by
  cases value with
  | posInt n => exact ⟨nofun, nofun, nofun, nofun, nofun⟩
  | negInt n hneg => exact ⟨nofun, nofun, nofun, nofun, nofun⟩
  | float bits hfinite => exact ⟨nofun, nofun, nofun, nofun, nofun⟩

mutual

theorem asIpld_inj (a b : Json) (h : a.asIpld = b.asIpld) :
  a = b
  := by
  match a, b with
  | .null, .null => rfl
  | .bool m, .bool n => rw [Ipld.bool.inj h]
  | .number m, .number n => rw [asIpld_number_inj h]
  | .string m, .string n => rw [Ipld.string.inj h]
  | .array xs, .array ys => rw [asIpldItems_inj xs ys (Ipld.list.inj h)]
  | .object xs, .object ys => rw [asIpldFields_inj xs ys (Ipld.map.inj h)]
  | .number m, .null => exact absurd h (asIpld_number_ne m).1
  | .number m, .bool n => exact absurd h ((asIpld_number_ne m).2.1 n)
  | .number m, .string n => exact absurd h ((asIpld_number_ne m).2.2.1 n)
  | .number m, .array n => exact absurd h ((asIpld_number_ne m).2.2.2.1 _)
  | .number m, .object n => exact absurd h ((asIpld_number_ne m).2.2.2.2 _)
  | .null, .number n => exact absurd h.symm (asIpld_number_ne n).1
  | .bool m, .number n => exact absurd h.symm ((asIpld_number_ne n).2.1 m)
  | .string m, .number n => exact absurd h.symm ((asIpld_number_ne n).2.2.1 m)
  | .array m, .number n => exact absurd h.symm ((asIpld_number_ne n).2.2.2.1 _)
  | .object m, .number n => exact absurd h.symm ((asIpld_number_ne n).2.2.2.2 _)

theorem asIpldItems_inj (xs ys : List Json) (h : asIpldItems xs = asIpldItems ys) :
  xs = ys
  := by
  match xs, ys with
  | [], [] => rfl
  | x :: xs, y :: ys =>
    obtain ⟨hhead, htail⟩ := List.cons.inj h
    rw [asIpld_inj x y hhead, asIpldItems_inj xs ys htail]

theorem asIpldFields_inj (xs ys : List (Text × Json)) (h : asIpldFields xs = asIpldFields ys) :
  xs = ys
  := by
  match xs, ys with
  | [], [] => rfl
  | (k, x) :: xs, (l, y) :: ys =>
    obtain ⟨hhead, htail⟩ := List.cons.inj h
    obtain ⟨hkey, hvalue⟩ := Prod.mk.inj hhead
    rw [hkey, asIpld_inj x y hvalue, asIpldFields_inj xs ys htail]

end

/-! ### What is encoded -/

theorem length_lt_of_encodeText {text : Text} {bytes : Bytes} (h : encodeText text = .ok bytes) :
  text.bytes.length < 2 ^ 64
  := by
  by_contra hlength
  rw [encodeText, encodeLengthHead, lengthArg, if_neg hlength] at h
  cases h

theorem lt_of_encodeLengthHead {major length : Nat} {bytes : Bytes}
    (h : encodeLengthHead major length = .ok bytes) :
  length < 2 ^ 64
  := by
  by_contra hlength
  rw [encodeLengthHead, lengthArg, if_neg hlength] at h
  cases h

theorem exists_of_serializeItems {items : List Ipld} {parts : List Bytes}
    (h : Ipld.serializeItems format items = .ok parts) :
  ∀ item ∈ items, ∃ bytes, Ipld.serialize format item = .ok bytes
  := by
  induction items generalizing parts with
  | nil => exact nofun
  | cons item items ih =>
    rw [Ipld.serializeItems] at h
    obtain ⟨part, hpart, hrest⟩ := Logic.bind_eq_ok.mp h
    obtain ⟨rest, hitems, -⟩ := Logic.bind_eq_ok.mp hrest
    exact List.forall_mem_cons.mpr ⟨⟨part, hpart⟩, ih hitems⟩

theorem exists_of_serializeEntries {entries : List (Text × Ipld)} {parts : List (Bytes × Bytes)}
    (h : Ipld.serializeEntries format entries = .ok parts) :
  parts.length = entries.length ∧ (∀ e ∈ entries, e.1.bytes.length < 2 ^ 64) ∧
    ∀ e ∈ entries, ∃ bytes, Ipld.serialize format e.2 = .ok bytes
  := by
  induction entries generalizing parts with
  | nil =>
    cases h
    exact ⟨rfl, nofun, nofun⟩
  | cons entry entries ih =>
    obtain ⟨key, value⟩ := entry
    rw [Ipld.serializeEntries] at h
    obtain ⟨keyBytes, hkey, hvalues⟩ := Logic.bind_eq_ok.mp h
    obtain ⟨valueBytes, hvalue, hrest⟩ := Logic.bind_eq_ok.mp hvalues
    obtain ⟨rest, hentries, hcons⟩ := Logic.bind_eq_ok.mp hrest
    cases hcons
    obtain ⟨hlength, hkeys, hall⟩ := ih hentries
    refine ⟨congrArg Nat.succ hlength, ?_, ?_⟩
    · exact List.forall_mem_cons.mpr ⟨length_lt_of_encodeText hkey, hkeys⟩
    · exact List.forall_mem_cons.mpr ⟨⟨valueBytes, hvalue⟩, hall⟩

/-- A value that was encoded has an encoding. -/
theorem Ordered.encodable {json : Json} (h : json.Ordered) {bytes : Bytes}
    (hok : Ipld.serialize format json.asIpld = .ok bytes) :
  json.asIpld.Encodable format
  := by
  induction h generalizing bytes with
  | null => exact .null
  | bool value => exact .bool value
  | number value =>
    cases value with
    | posInt n =>
      have hlt := n.toNat_lt
      exact .integer (by omega) (by omega)
    | negInt n hneg =>
      have hlow := n.le_toInt
      have hhigh := n.toInt_lt
      exact .integer (by omega) (by omega)
    | float bits hfinite => exact .float hfinite
  | string value => exact .string (length_lt_of_encodeText hok)
  | @array items hitems ih =>
    rw [asIpld, asIpldItems_eq, Ipld.serialize] at hok
    obtain ⟨header, hheader, hrest⟩ := Logic.bind_eq_ok.mp hok
    obtain ⟨parts, hparts, -⟩ := Logic.bind_eq_ok.mp hrest
    have hall := exists_of_serializeItems hparts
    rw [asIpld, asIpldItems_eq]
    apply Ipld.Encodable.list (lt_of_encodeLengthHead hheader)
    intro item hitem
    obtain ⟨json, hjson, rfl⟩ := List.mem_map.mp hitem
    obtain ⟨part, hpart⟩ := hall _ hitem
    exact ih json hjson hpart
  | @object fields hsorted hvalues ih =>
    rw [asIpld, asIpldFields_eq, Ipld.serialize] at hok
    obtain ⟨entries, hentries, hend⟩ := Logic.bind_eq_ok.mp hok
    obtain ⟨hlength, hkeys, hall⟩ := exists_of_serializeEntries hentries
    rw [endMap] at hend
    obtain ⟨header, hheader, -⟩ := Logic.bind_eq_ok.mp hend
    rw [asIpld, asIpldFields_eq]
    apply Ipld.Encodable.map
    · rw [← hlength]
      exact lt_of_encodeLengthHead hheader
    · exact hkeys
    · exact List.pairwise_map.mpr hsorted
    · intro e he
      obtain ⟨f, hf, rfl⟩ := List.mem_map.mp he
      obtain ⟨part, hpart⟩ := hall _ he
      exact ih f hf hpart

/-- No byte string is given to the encoder. -/
theorem Ordered.bareCids {json : Json} (h : json.Ordered) :
  json.asIpld.bareCids format = 0
  := by
  induction h with
  | null => rfl
  | bool value => rfl
  | number value => cases value <;> rfl
  | string value => rfl
  | @array items hitems ih =>
    have hcount : (asIpld (.array items)).bareCids format =
        ((items.map asIpld).map (Ipld.bareCids format)).sum := by
      rw [asIpld, asIpldItems_eq]
      exact Ipld.fold_list _ _ _
    rw [hcount, List.map_map, List.sum_eq_zero_iff, List.forall_mem_map]
    exact ih
  | @object fields hsorted hvalues ih =>
    have hcount : (asIpld (.object fields)).bareCids format =
        ((fields.map fun f => (f.1, f.2.asIpld)).map fun e => Ipld.bareCids format e.2).sum := by
      rw [asIpld, asIpldFields_eq, Ipld.bareCids, Ipld.fold_map]
      change (List.map Prod.snd (List.map _ _)).sum = _
      rw [List.map_map]
      rfl
    rw [hcount, List.map_map, List.sum_eq_zero_iff, List.forall_mem_map]
    exact ih

/-- JSON values with the same bytes are the same. -/
theorem Ordered.eq_of_toVec (hformat : format.Lawful) {a b : Json} (ha : a.Ordered)
    (hb : b.Ordered) {bytes : Bytes} (hok : Ipld.toVec format a.asIpld = .ok bytes)
    (hok' : Ipld.toVec format b.asIpld = .ok bytes) :
  a = b
  := by
  apply asIpld_inj
  apply (ha.encodable hok).eq_of_serialize hformat (hb.encodable hok') ha.bareCids hb.bareCids
  rw [Ipld.toVec] at hok hok'
  rw [hok, hok']

end Json

end Atproto
