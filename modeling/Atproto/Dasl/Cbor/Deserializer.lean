import Atproto.Dasl.Cbor.Decode
import Mathlib.Order.Compare

/-!
# Deserializing values

The deserializer reads items and hands them to a visitor, which builds a value.  It goes
into arrays and maps up to the depth of the configuration, it accepts the keys of a map in
one order only, and the payload of tag 42 has to be a CID.
-/

namespace Atproto.Dasl

open Wire

/-- A visitor builds a value from an item without parts, or from the values of the parts.
There is no call for a CID: its bytes are visited as any others are. -/
structure Visitor (α : Type) where
  bool : Bool → α
  integer : Int → α
  float : UInt64 → α
  string : Text → α
  byteBuf : Bytes → α
  unit : α
  seq : List α → α
  map : List (Text × α) → α

variable (config : DecodeConfig) (format : CidFormat) {α σ : Type}

/-! ### Arrays and maps -/

/-- Take the elements of an array. -/
def seqAccess (element : Decoder α) : Nat → Decoder (List α)
  | 0 => pure []
  | remaining + 1 => do
    let value ← element
    let values ← seqAccess element remaining
    pure (value :: values)

/-- The order of the keys of a map: a shorter key is less, and keys of one length are
compared byte by byte. -/
def keyOrdering (a b : Text) : Ordering :=
  (compare a.bytes.length b.bytes.length).then (compare a b)

/-- The key of a map entry. -/
def keyOfItem : CborItem → Decoder Text
  | .text key => pure key
  | _ => Reader.fail .mapKeyNotString

/-- Check that a key comes after the key before it. -/
def checkKeyOrder (lastKey : Option Text) (key : Text) : Decoder Unit :=
  match lastKey with
  | none => pure ()
  | some previous =>
    match keyOrdering key previous with
    | .lt => Reader.fail .mapKeysNotSorted
    | .eq => Reader.fail .duplicateMapKey
    | .gt => pure ()

/-- Take the next key of a map. -/
def nextKey (lastKey : Option Text) : Decoder Text := do
  let byte ← peekByte
  if majorTypeFromByte byte ≠ MajorType.text then Reader.fail .mapKeyNotString
  else do
    let item ← decodeItem config
    let key ← keyOfItem item
    checkKeyOrder lastKey key
    pure key

/-- Take the entries of a map: `step` takes the value of a key. -/
def mapAccess (step : σ → Text → Decoder σ) (state : σ) (lastKey : Option Text) :
    Nat → Decoder σ
  | 0 => pure state
  | remaining + 1 => do
    let key ← nextKey config lastKey
    let next ← step state key
    mapAccess step next (some key) remaining

/-! ### Depth and CIDs -/

/-- Go one level down, when there is a level below. -/
def enter {β : Type} (below : Option β) (body : β → Decoder α) : Decoder α :=
  match below with
  | none => Reader.fail (.maxDepthExceeded (config.maxDepth + 1) config.maxDepth)
  | some level => body level

/-- The payload of tag 42: a byte string that is a CID. -/
def cidOfItem : CborItem → Decoder (Bytes × Cid)
  | .bytes payload =>
    match Cid.fromDagCborBytes format payload with
    | .ok cid => pure (payload, cid)
    | .error _ => Reader.fail .invalidCidContent
  | _ => Reader.fail .invalidCidContent

/-- Take the payload of tag 42. -/
def taggedCid : Decoder (Bytes × Cid) := do
  let item ← decodeItem config
  cidOfItem format item

/-! ### Any value -/

/-- Take the value of a key. -/
def pushEntry (element : Decoder α) (entries : List (Text × α)) (key : Text) :
    Decoder (List (Text × α)) := do
  let value ← element
  pure (entries ++ [(key, value)])

/-- Visit an item; `nested` deserializes the parts. -/
def visitItem (visitor : Visitor α) (nested : Option (Decoder α)) : CborItem → Decoder α
  | .unsigned value => pure (visitor.integer value)
  | .negative value => pure (visitor.integer value)
  | .bytes data => pure (visitor.byteBuf data)
  | .text string => pure (visitor.string string)
  | .array length =>
    enter config nested fun element => do
      let values ← seqAccess element length
      pure (visitor.seq values)
  | .map length =>
    enter config nested fun element => do
      let entries ← mapAccess config (pushEntry element) [] none length
      pure (visitor.map entries)
  | .tag number =>
    if number = cidTag then do
      let payload ← taggedCid config format
      pure (visitor.byteBuf payload.1)
    else Reader.fail (.unsupportedTag number)
  | .bool value => pure (visitor.bool value)
  | .null => pure visitor.unit
  | .float bits => pure (visitor.float bits)

/-- Deserialize any value, with `levels` more levels allowed. -/
def deserializeAny (visitor : Visitor α) : Nat → Decoder α
  | 0 => do
    let item ← decodeItem config
    visitItem config format visitor none item
  | levels + 1 => do
    let item ← decodeItem config
    visitItem config format visitor (some (deserializeAny visitor levels)) item

/-- The level below, when there is one. -/
def levelBelow : Nat → Option Nat
  | 0 => none
  | levels + 1 => some levels

theorem deserializeAny_eq (visitor : Visitor α) (levels : Nat) :
  deserializeAny config format visitor levels = (do
    let item ← decodeItem config
    visitItem config format visitor
      ((levelBelow levels).map (deserializeAny config format visitor)) item)
  := by
  cases levels with
  | zero => rfl
  | succ levels => rfl

/-! ### Whole inputs -/

/-- The value of an input that has nothing after it. -/
def fromSlice (deserialize : Decoder α) (input : Bytes) : Except DecodeError α :=
  match deserialize input with
  | .error e => .error e
  | .ok (value, rest) => if rest.isEmpty then .ok value else .error .trailingData

end Atproto.Dasl
