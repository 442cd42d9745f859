import Atproto.Dasl.Cbor.Item
import Atproto.SearchTree.SortedList

/-!
# JSON values

A number of a JSON value is an unsigned or a negative integer of 64 bits or a finite
floating-point number, and the fields of an object stand in the order of their names: two
objects are equal when they have the same fields, in whatever order a build keeps them.
-/

namespace Atproto

open Dasl SearchTree

/-- A number of a JSON value. -/
inductive JsonNumber where
  | posInt (value : UInt64)
  | negInt (value : Int64) (negative : value < 0)
  | float (bits : UInt64) (finite : IsFinite bits)

/-- A JSON value.  The fields of an object stand in the order of their names. -/
inductive Json where
  | null
  | bool (value : Bool)
  | number (value : JsonNumber)
  | string (value : Text)
  | array (items : List Json)
  | object (fields : List (Text × Json))

/-- The integer of a number, when it is one. -/
def JsonNumber.integer : JsonNumber → Option Int
  | .posInt value => some value.toNat
  | .negInt value _ => some value.toInt
  | .float _ _ => none

theorem JsonNumber.integer_injective {a b : JsonNumber} {value : Int} (ha : a.integer = some value)
    (hb : b.integer = some value) :
  a = b
  := by
  cases a with
  | posInt m =>
    have hm : (m.toNat : Int) = value := Option.some.inj ha
    cases b with
    | posInt n =>
      have hn : (n.toNat : Int) = value := Option.some.inj hb
      rw [UInt64.toNat_inj.mp (Int.ofNat.inj (hm.trans hn.symm))]
    | negInt n hneg =>
      have hn : n.toInt = value := Option.some.inj hb
      have hlt : n.toInt < 0 := Int64.lt_iff_toInt_lt.mp hneg
      omega
    | float bits hfinite => cases hb
  | negInt m hneg =>
    have hm : m.toInt = value := Option.some.inj ha
    have hlt : m.toInt < 0 := Int64.lt_iff_toInt_lt.mp hneg
    cases b with
    | posInt n =>
      have hn : (n.toNat : Int) = value := Option.some.inj hb
      omega
    | negInt n hneg' =>
      have hn : n.toInt = value := Option.some.inj hb
      cases Int64.toInt_inj.mp (hm.trans hn.symm)
      rfl
    | float bits hfinite => cases hb
  | float bits hfinite => cases ha

namespace Json

/-- The string of a value that is one. -/
def asStr : Json → Option Text
  | .string value => some value
  | .null => none
  | .bool _ => none
  | .number _ => none
  | .array _ => none
  | .object _ => none

theorem asStr_eq_some {value : Json} {text : Text} :
  value.asStr = some text ↔ value = .string text
  := by
  cases value with
  | string other => exact Option.some_inj.trans (string.injEq other text ▸ Iff.rfl)
  | null => exact ⟨nofun, nofun⟩
  | bool b => exact ⟨nofun, nofun⟩
  | number n => exact ⟨nofun, nofun⟩
  | array items => exact ⟨nofun, nofun⟩
  | object fields => exact ⟨nofun, nofun⟩

/-- The fields of a value that is an object. -/
def asObject : Json → Option (List (Text × Json))
  | .object fields => some fields
  | .null => none
  | .bool _ => none
  | .number _ => none
  | .string _ => none
  | .array _ => none

/-- The items of a value that is an array. -/
def asArray : Json → Option (List Json)
  | .array items => some items
  | .null => none
  | .bool _ => none
  | .number _ => none
  | .string _ => none
  | .object _ => none

/-- The value of a field, when the value is an object with it. -/
def get (key : Text) (value : Json) : Option Json := value.asObject.bind (lookup key)

theorem asObject_eq_some {value : Json} {fields : List (Text × Json)} :
  value.asObject = some fields ↔ value = .object fields
  := by
  cases value with
  | object other => exact Option.some_inj.trans (object.injEq other fields ▸ Iff.rfl)
  | null => exact ⟨nofun, nofun⟩
  | bool b => exact ⟨nofun, nofun⟩
  | number n => exact ⟨nofun, nofun⟩
  | string text => exact ⟨nofun, nofun⟩
  | array items => exact ⟨nofun, nofun⟩

theorem asArray_eq_some {value : Json} {items : List Json} :
  value.asArray = some items ↔ value = .array items
  := by
  cases value with
  | array other => exact Option.some_inj.trans (array.injEq other items ▸ Iff.rfl)
  | null => exact ⟨nofun, nofun⟩
  | bool b => exact ⟨nofun, nofun⟩
  | number n => exact ⟨nofun, nofun⟩
  | string text => exact ⟨nofun, nofun⟩
  | object fields => exact ⟨nofun, nofun⟩

mutual

/-- A value and all values nested in it. -/
def nodes : Json → List Json
  | .null => [.null]
  | .bool value => [.bool value]
  | .number value => [.number value]
  | .string value => [.string value]
  | .array items => .array items :: nodesOfItems items
  | .object fields => .object fields :: nodesOfFields fields

def nodesOfItems : List Json → List Json
  | [] => []
  | item :: items => nodes item ++ nodesOfItems items

def nodesOfFields : List (Text × Json) → List Json
  | [] => []
  | (_, value) :: fields => nodes value ++ nodesOfFields fields

end

theorem forall_nodesOfItems {p : Json → Prop} {items : List Json} :
  (∀ node ∈ nodesOfItems items, p node) ↔ ∀ item ∈ items, ∀ node ∈ item.nodes, p node
  := by
  induction items with
  | nil => simp [nodesOfItems]
  | cons item items ih => simp [nodesOfItems, or_imp, forall_and, ih]

theorem forall_nodesOfFields {p : Json → Prop} {fields : List (Text × Json)} :
  (∀ node ∈ nodesOfFields fields, p node) ↔ ∀ f ∈ fields, ∀ node ∈ f.2.nodes, p node
  := by
  induction fields with
  | nil => simp [nodesOfFields]
  | cons field fields ih =>
    simp only [nodesOfFields, List.mem_append, or_imp, forall_and, List.forall_mem_cons, ih]

end Json

end Atproto
