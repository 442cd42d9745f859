import Atproto.Lexicon.Budget

/-!
# Values that conform to their definitions

A value is reached from a record through its properties, the items of its arrays, references and the
members of unions.  It conforms to the definition that it is reached under when it has the type of the
definition and keeps its constraints.  A record that is accepted has only values that conform, apart
from those behind a reference to a definition that was already entered by a reference above it: there
the check stops.
-/

namespace Atproto.Lexicon.Validation

open Atproto.Dasl Atproto.Repo Logic SearchTree

/-! ### Constraints -/

/-- A bound is kept when it is not violated, or when there is none. -/
theorem refuse_eq_ok {β : Type} {bound : Option β} {violates : β → Bool}
    {error : β → ValidationError} :
  refuse bound violates error = .ok () ↔ ∀ b ∈ bound, violates b = false
  := by
  cases bound with
  | none => simp [refuse]
  | some b =>
    cases hviolates : violates b with
    | true => simp [refuse, hviolates]
    | false => simp [refuse, hviolates]

/-- Checks one after another succeed when each of them does. -/
theorem seq_eq_ok {ε : Type} {x y : Except ε Unit} :
  (x >>= fun _ => y) = .ok () ↔ x = .ok () ∧ y = .ok ()
  := by
  rw [bind_eq_ok]
  constructor
  · rintro ⟨⟨⟩, hx, hy⟩
    exact ⟨hx, hy⟩
  · rintro ⟨hx, hy⟩
    exact ⟨(), hx, hy⟩

/-- A value of a type is accepted when it has the type and its check succeeds. -/
theorem expecting_eq_ok {β : Type} {expected : String} {value : DataValue} {part : Option β}
    {check : β → Except ValidationError Unit} {path : Text} :
  expecting expected value part check path = .ok () ↔ ∃ b, part = some b ∧ check b = .ok ()
  := by
  cases part with
  | none => simp [expecting]
  | some b => simp [expecting]

/-- A value is a boolean as the definition wants it. -/
def ConformsBoolean (schema : BooleanSchema) (value : DataValue) : Prop :=
  ∃ actual, value.asBoolean = some actual ∧ ∀ const ∈ schema.constValue, actual = const

/-- A boolean is accepted exactly when it conforms. -/
theorem validateBoolean_eq_ok {value : DataValue} {schema : BooleanSchema} {path : Text} :
  validateBoolean value schema path = .ok () ↔ ConformsBoolean schema value
  := by
  simp only [validateBoolean, expecting_eq_ok, refuse_eq_ok, decide_eq_false_iff_not, not_not,
    ConformsBoolean]

/-- A value is an integer as the definition wants it. -/
def ConformsInteger (schema : IntegerSchema) (value : DataValue) : Prop :=
  ∃ actual, value.asInteger = some actual ∧ (∀ const ∈ schema.constValue, actual = const) ∧
    (∀ minimum ∈ schema.minimum, minimum ≤ actual) ∧
    (∀ maximum ∈ schema.maximum, actual ≤ maximum) ∧
    ∀ allowed ∈ schema.enumValues, actual ∈ allowed

theorem all_ne_eq_false {β : Type} [DecidableEq β] {xs : List β} {x : β} :
  (xs.all fun other => other ≠ x) = false ↔ x ∈ xs
  := by
  rw [List.all_eq_false]
  constructor
  · rintro ⟨other, hmem, hother⟩
    rw [decide_eq_true_eq, not_not] at hother
    exact hother ▸ hmem
  · intro hmem
    exact ⟨x, hmem, by simp⟩

/-- An integer is accepted exactly when it conforms. -/
theorem validateInteger_eq_ok {value : DataValue} {schema : IntegerSchema} {path : Text} :
  validateInteger value schema path = .ok () ↔ ConformsInteger schema value
  := by
  simp only [validateInteger, expecting_eq_ok, seq_eq_ok, refuse_eq_ok, decide_eq_false_iff_not,
    not_not, not_lt, all_ne_eq_false, ConformsInteger]

/-- A value is a string as the definition wants it. -/
def ConformsString (library : ValidationLibrary) (flags : ValidateFlags) (schema : StringSchema)
    (value : DataValue) : Prop :=
  ∃ actual, value.asString = some actual ∧ (∀ const ∈ schema.constValue, actual = const) ∧
    (∀ minLength ∈ schema.minLength, minLength ≤ actual.bytes.length) ∧
    (∀ maxLength ∈ schema.maxLength, actual.bytes.length ≤ maxLength) ∧
    (∀ minGraphemes ∈ schema.minGraphemes, minGraphemes ≤ library.graphemeCount actual) ∧
    (∀ maxGraphemes ∈ schema.maxGraphemes, library.graphemeCount actual ≤ maxGraphemes) ∧
    (∀ allowed ∈ schema.enumValues, actual ∈ allowed) ∧
    ∀ format ∈ schema.format, library.validateStringFormat format actual flags = .ok ()

/-- A string is accepted exactly when it conforms. -/
theorem validateString_eq_ok {library : ValidationLibrary} {flags : ValidateFlags}
    {value : DataValue} {schema : StringSchema} {path : Text} :
  validateString library flags value schema path = .ok () ↔
    ConformsString library flags schema value
  := by
  simp only [validateString, expecting_eq_ok, seq_eq_ok, refuse_eq_ok, decide_eq_false_iff_not,
    not_not, not_lt, all_ne_eq_false, ConformsString]
  cases schema.format with
  | none => simp
  | some format => simp

/-- A value is bytes as the definition wants them. -/
def ConformsBytes (library : ValidationLibrary) (schema : BytesSchema) (value : DataValue) : Prop :=
  ∃ base64 length, value.asBytes = some base64 ∧ library.decodedLen base64 = some length ∧
    (∀ minLength ∈ schema.minLength, minLength ≤ length) ∧
    ∀ maxLength ∈ schema.maxLength, length ≤ maxLength

/-- Bytes are accepted exactly when they conform. -/
theorem validateBytes_eq_ok {library : ValidationLibrary} {value : DataValue}
    {schema : BytesSchema} {path : Text} :
  validateBytes library value schema path = .ok () ↔ ConformsBytes library schema value
  := by
  rw [validateBytes, expecting_eq_ok, ConformsBytes]
  apply exists_congr
  intro base64
  cases library.decodedLen base64 with
  | none => simp
  | some length =>
    simp only [seq_eq_ok, refuse_eq_ok, decide_eq_false_iff_not, not_lt, Option.some.injEq,
      exists_and_left, exists_eq_left']

/-- A value is a link. -/
def ConformsLink (library : ValidationLibrary) (value : DataValue) : Prop :=
  ∃ cid, value.asLink = some cid ∧ library.validateCid cid = .ok ()

/-- A link is accepted exactly when it conforms. -/
theorem validateCidLink_eq_ok {library : ValidationLibrary} {value : DataValue} {path : Text} :
  validateCidLink library value path = .ok () ↔ ConformsLink library value
  := expecting_eq_ok

/-- A value is a blob as the definition wants it. -/
def ConformsBlob (library : ValidationLibrary) (schema : BlobSchema) (value : DataValue) : Prop :=
  ∃ blob, value.asBlob = some blob ∧
    (schema.accept = [] ∨ library.mimeTypeMatchesAny blob.mimeType schema.accept = true) ∧
    (∀ maxSize ∈ schema.maxSize, blob.size ≤ maxSize) ∧
    ∀ cid ∈ blob.getCid, library.validateCid cid = .ok ()

/-- A MIME type is accepted when all are, or when it matches one of the list. -/
theorem checkMimeType_eq_ok {library : ValidationLibrary} {accept : List Text}
    {mimeType path : Text} :
  checkMimeType library accept mimeType path = .ok () ↔
    accept = [] ∨ library.mimeTypeMatchesAny mimeType accept = true
  := by
  rw [checkMimeType]
  cases library.mimeTypeMatchesAny mimeType accept with
  | true => simp
  | false => simp

/-- A blob is accepted exactly when it conforms. -/
theorem validateBlob_eq_ok {library : ValidationLibrary} {value : DataValue} {schema : BlobSchema}
    {path : Text} :
  validateBlob library value schema path = .ok () ↔ ConformsBlob library schema value
  := by
  rw [validateBlob, expecting_eq_ok, ConformsBlob]
  apply exists_congr
  intro blob
  apply and_congr_right
  intro _
  rw [seq_eq_ok, seq_eq_ok, refuse_eq_ok, checkMimeType_eq_ok]
  simp only [decide_eq_false_iff_not, not_lt]
  apply and_congr_right
  intro _
  apply and_congr_right
  intro _
  cases blob.getCid with
  | none => simp
  | some cid => simp

/-- The number of items of an array is within its bounds. -/
def ConformsArray (minLength maxLength : Option Nat) (value : DataValue) : Prop :=
  ∃ items, value.asArray = some items ∧ (∀ min ∈ minLength, min ≤ items.length) ∧
    ∀ max ∈ maxLength, items.length ≤ max

/-- An object has its required properties. -/
def HasRequired (required : List Text) (fields : List (Text × DataValue)) : Prop :=
  ∀ property ∈ required, (lookup property fields).isSome = true

/-- The check of required properties succeeds exactly when they are there. -/
theorem checkRequired_eq_ok {fields : List (Text × DataValue)} {path : Text}
    {required : List Text} :
  checkRequired fields path required = .ok () ↔ HasRequired required fields
  := by
  induction required with
  | nil => simp [checkRequired, HasRequired]
  | cons property required ih =>
    rw [checkRequired, HasRequired, List.forall_mem_cons]
    cases lookup property fields with
    | none => simp
    | some value => exact ih.trans (and_iff_right rfl).symm

/-- An object has its required properties, and no property is null that must not be. -/
def ConformsObject (required nullable : List Text) (properties : List (Text × SchemaDef))
    (value : DataValue) : Prop :=
  ∃ fields, value.asObject = some fields ∧ HasRequired required fields ∧
    ∀ field ∈ fields, field.1 ≠ textOf "$type" → (lookup field.1 properties).isSome = true →
      field.2.isNull = true → field.1 ∈ nullable

/-- Parameters are an object that has the required ones. -/
def ConformsParams (required : List Text) (value : DataValue) : Prop :=
  ∃ fields, value.asObject = some fields ∧ HasRequired required fields

/-- The member of a union that a value says it is. -/
def memberOf (refs : List Text) (value : DataValue) : Option Text :=
  value.getType.bind fun typeMarker => refs.find? (matchesRef typeMarker)

section Conforms

variable (env : ValidationEnv)

/-- A value has the type of a definition and keeps its constraints, whatever its parts are. -/
def Conforms : SchemaDef → DataValue → Prop
  | .boolean schema, value => ConformsBoolean schema value
  | .integer schema, value => ConformsInteger schema value
  | .string schema, value => ConformsString env.library env.flags schema value
  | .bytes schema, value => ConformsBytes env.library schema value
  | .cidLink, value => ConformsLink env.library value
  | .array minLength maxLength _, value => ConformsArray minLength maxLength value
  | .object required nullable properties, value =>
    ConformsObject required nullable properties value
  | .blob schema, value => ConformsBlob env.library schema value
  | .ref refPath, _ => (resolveRef env.catalog env.baseSchema refPath).isSome = true
  | .union refs closed, value =>
    value.getType.isSome = true ∧ (memberOf refs value = none → closed = false) ∧
      ∀ refPath ∈ memberOf refs value,
        (resolveRef env.catalog env.baseSchema refPath).isSome = true
  | .unknown, _ => True
  | .token, value => value.asString.isSome = true
  | .params required _, value => ConformsParams required value
  | .record _, _ => False
  | .query, _ => False
  | .procedure, _ => False
  | .subscription, _ => False
  | .permissionSet, _ => False
  | .space, _ => False

/-- A value is reached under a definition from a value with its definition.  The definitions that
references have entered on the way are kept, the last one first. -/
inductive Reached (schema₀ : SchemaDef) (value₀ : DataValue) :
    List Text → SchemaDef → DataValue → Prop where
  | root : Reached schema₀ value₀ [] schema₀ value₀
  | item {ids : List Text} {minLength maxLength : Option Nat} {items : SchemaDef}
    {values : List DataValue} {value : DataValue}
    (h : Reached schema₀ value₀ ids (.array minLength maxLength items) (.array values))
    (hvalue : value ∈ values) : Reached schema₀ value₀ ids items value
  | property {ids required nullable : List Text} {properties : List (Text × SchemaDef)}
    {fields : List (Text × DataValue)} {key : Text} {value : DataValue} {schema : SchemaDef}
    (h : Reached schema₀ value₀ ids (.object required nullable properties) (.object fields))
    (hvalue : (key, value) ∈ fields) (htype : key ≠ textOf "$type")
    (hschema : lookup key properties = some schema) (hnull : value.isNull = false) :
    Reached schema₀ value₀ ids schema value
  | param {ids required : List Text} {properties : List (Text × SchemaDef)}
    {fields : List (Text × DataValue)} {key : Text} {value : DataValue} {schema : SchemaDef}
    (h : Reached schema₀ value₀ ids (.params required properties) (.object fields))
    (hvalue : (key, value) ∈ fields) (hschema : lookup key properties = some schema) :
    Reached schema₀ value₀ ids schema value
  | ref {ids : List Text} {refPath : Text} {value : DataValue} {resolved : Schema}
    (h : Reached schema₀ value₀ ids (.ref refPath) value)
    (hresolved : resolveRef env.catalog env.baseSchema refPath = some resolved) :
    Reached schema₀ value₀ (resolved.id :: ids) resolved.definition value
  | member {ids refs : List Text} {closed : Bool} {value : DataValue} {refPath : Text}
    {resolved : Schema} (h : Reached schema₀ value₀ ids (.union refs closed) value)
    (hmember : memberOf refs value = some refPath)
    (hresolved : resolveRef env.catalog env.baseSchema refPath = some resolved) :
    Reached schema₀ value₀ ids resolved.definition value

end Conforms

/-! ### What is accepted -/

/-- In the context some definitions are being entered by references. -/
def Visiting (ids : List Text) (ctx : ValidationContext) : Prop :=
  ∀ id, ctx.visitedRefs id = true ↔ id ∈ ids

/-- A check accepts while some definitions are being entered by references. -/
def AcceptedIn (ids : List Text) (validate : Validator) : Prop :=
  ∃ ctx, Visiting ids ctx ∧ (validate ctx).1 = .ok ()

variable {ids : List Text} {m n : Validator}

/-- Of checks one after another that accept, each of them accepts. -/
theorem AcceptedIn.seq (h : AcceptedIn ids (m >>= fun _ => n)) (hm : ∀ ctx, Steady m ctx) :
  AcceptedIn ids m ∧ AcceptedIn ids n
  := by
  obtain ⟨ctx, hvisiting, hok⟩ := h
  rw [Action.bind_apply] at hok
  have hrestores := (hm ctx).restores
  cases hrun : m ctx with
  | mk result after =>
    rw [hrun] at hok hrestores
    simp only at hrestores
    cases result with
    | error e => cases hok
    | ok _ =>
      refine ⟨⟨ctx, hvisiting, congrArg Prod.fst hrun⟩, after, ?_, hok⟩
      intro id
      rw [hrestores]
      exact hvisiting id

theorem AcceptedIn.of_within {segment : Text} (h : AcceptedIn ids (within segment m)) :
  AcceptedIn ids m
  := by
  obtain ⟨ctx, hvisiting, hok⟩ := h
  exact ⟨ctx.pushPath segment, hvisiting, hok⟩

theorem AcceptedIn.of_leaf {check : Text → Except ValidationError Unit}
    (h : AcceptedIn ids (leaf check)) :
  ∃ path, check path = .ok ()
  := by
  obtain ⟨ctx, -, hok⟩ := h
  exact ⟨ctx.currentPath, hok⟩

/-- Of items that are accepted each one is. -/
theorem AcceptedIn.of_items {validate : DataValue → Validator}
    (hsteady : ∀ value ctx, Steady (validate value) ctx) {items : List DataValue} {index : Nat}
    (h : AcceptedIn ids (validateItems validate index items)) :
  ∀ value ∈ items, AcceptedIn ids (validate value)
  := by
  induction items generalizing index with
  | nil =>
    intro value hvalue
    cases hvalue
  | cons item items ih =>
    obtain ⟨hitem, hitems⟩ := AcceptedIn.seq h fun _ => steady_within (hsteady item)
    rw [List.forall_mem_cons]
    exact ⟨hitem.of_within, ih hitems⟩

/-- An accepted array conforms, and its items are accepted. -/
theorem AcceptedIn.of_array {minLength maxLength : Option Nat} {validate : DataValue → Validator}
    (hsteady : ∀ value ctx, Steady (validate value) ctx) {value : DataValue}
    (h : AcceptedIn ids (validateArray minLength maxLength validate value)) :
  ConformsArray minLength maxLength value ∧
    ∀ items, value.asArray = some items → ∀ item ∈ items, AcceptedIn ids (validate item)
  := by
  rw [validateArray] at h
  cases harray : value.asArray with
  | none =>
    rw [harray] at h
    obtain ⟨path, hpath⟩ := h.of_leaf
    cases hpath
  | some items =>
    rw [harray] at h
    obtain ⟨hlength, hitems⟩ := AcceptedIn.seq h fun _ => steady_leaf
    obtain ⟨path, hpath⟩ := hlength.of_leaf
    rw [seq_eq_ok, refuse_eq_ok, refuse_eq_ok] at hpath
    simp only [decide_eq_false_iff_not, not_lt] at hpath
    refine ⟨⟨items, harray, hpath⟩, ?_⟩
    intro items' hitems'
    cases hitems'
    exact hitems.of_items hsteady

/-- Of fields that are accepted each one is. -/
theorem AcceptedIn.of_fields {validate : Text → DataValue → Validator}
    (hsteady : ∀ key value ctx, Steady (validate key value) ctx) {fields : List (Text × DataValue)}
    (h : AcceptedIn ids (validateFields validate fields)) :
  ∀ field ∈ fields, AcceptedIn ids (validate field.1 field.2)
  := by
  induction fields with
  | nil =>
    intro field hfield
    cases hfield
  | cons field fields ih =>
    obtain ⟨hfield, hfields⟩ := AcceptedIn.seq h (hsteady field.1 field.2)
    rw [List.forall_mem_cons]
    exact ⟨hfield, ih hfields⟩

/-- A hop that is accepted leads to a check that accepts. -/
theorem AcceptedIn.of_hop {limits : ValidationLimits} {refPath : Text}
    (h : AcceptedIn ids (enterHop limits refPath >>= fun _ =>
      m.andFinally ValidationContext.exitHop)) :
  AcceptedIn ids m
  := by
  rw [enterHop, Action.bind_assoc] at h
  obtain ⟨-, ctx, hvisiting, hok⟩ := h.seq fun _ => steady_chargeStep
  rcases Nat.lt_or_ge ctx.refDepth limits.maxRefDepth with hdepth | hdepth
  · rw [Action.bind_apply, enterDepth_of_lt hdepth] at hok
    exact ⟨{ ctx with refDepth := ctx.refDepth + 1 }, hvisiting, hok⟩
  · rw [Action.bind_apply, enterDepth_of_le hdepth] at hok
    cases hok

/-- An accepted field has a value that is accepted, or is null where it may be. -/
theorem AcceptedIn.of_field {nullable : List Text}
    {properties : List (Text × (DataValue → Validator))} {key : Text} {value : DataValue}
    {validate : DataValue → Validator} (h : AcceptedIn ids (validateField nullable properties key value))
    (htype : key ≠ textOf "$type") (hlookup : lookup key properties = some validate) :
  (value.isNull = true → key ∈ nullable) ∧
    (value.isNull = false → AcceptedIn ids (validate value))
  := by
  rw [validateField, if_neg htype, hlookup] at h
  cases hnull : value.isNull with
  | false =>
    rw [hnull] at h
    exact ⟨fun htrue => absurd htrue Bool.false_ne_true, fun _ => AcceptedIn.of_within h⟩
  | true =>
    rw [hnull] at h
    cases hnullable : key.isIn nullable with
    | false =>
      rw [hnullable] at h
      obtain ⟨path, hpath⟩ := @AcceptedIn.of_leaf ids
        (fun path => .error (.unexpectedNull path key)) h
      cases hpath
    | true => exact ⟨fun _ => Text.isIn_iff.mp hnullable, fun hfalse => absurd hfalse.symm Bool.false_ne_true⟩

theorem AcceptedIn.of_param {properties : List (Text × (DataValue → Validator))} {key : Text}
    {value : DataValue} {validate : DataValue → Validator}
    (h : AcceptedIn ids (validateParam properties key value))
    (hlookup : lookup key properties = some validate) :
  AcceptedIn ids (validate value)
  := by
  rw [validateParam, hlookup] at h
  exact h.of_within

section Hops

variable {env : ValidationEnv} {hop : SchemaDef → DataValue → Validator}

/-- A property is checked against its own definition. -/
theorem lookup_checkProperties {properties : List (Text × SchemaDef)} {key : Text} :
  lookup key (checkProperties env hop properties) =
    (lookup key properties).map (checkValue env hop)
  := by
  induction properties with
  | nil => rfl
  | cons property properties ih =>
    obtain ⟨name, schema⟩ := property
    rw [checkProperties, lookup, lookup]
    split_ifs with hname
    · rfl
    · exact ih

/-- The check of a field is steady. -/
theorem steady_field (h : ∀ schema value ctx, Steady (hop schema value) ctx) {nullable : List Text}
    {properties : List (Text × SchemaDef)} (key : Text) (value : DataValue)
    (ctx : ValidationContext) :
  Steady (validateField nullable (checkProperties env hop properties) key value) ctx
  := by
  revert ctx
  apply compositional_steady.field
  rw [lookup_checkProperties]
  cases lookup key properties with
  | none => exact .none
  | some schema => exact .some (steady_checkValue h schema value)

/-- The check of a parameter is steady. -/
theorem steady_param (h : ∀ schema value ctx, Steady (hop schema value) ctx)
    {properties : List (Text × SchemaDef)} (key : Text) (value : DataValue)
    (ctx : ValidationContext) :
  Steady (validateParam (checkProperties env hop properties) key value) ctx
  := by
  revert ctx
  apply compositional_steady.param
  rw [lookup_checkProperties]
  cases lookup key properties with
  | none => exact .none
  | some schema => exact .some (steady_checkValue h schema value)

/-- An accepted object conforms, and its fields are accepted. -/
theorem AcceptedIn.of_object (hsteady : ∀ schema value ctx, Steady (hop schema value) ctx)
    {required nullable : List Text} {properties : List (Text × SchemaDef)} {value : DataValue}
    (h : AcceptedIn ids (validateObject required nullable (checkProperties env hop properties) value)) :
  ConformsObject required nullable properties value ∧
    ∀ fields, value.asObject = some fields → ∀ field ∈ fields, field.1 ≠ textOf "$type" →
      ∀ schema, lookup field.1 properties = some schema → field.2.isNull = false →
        AcceptedIn ids (checkValue env hop schema field.2)
  := by
  rw [validateObject] at h
  cases hobject : value.asObject with
  | none =>
    rw [hobject] at h
    obtain ⟨path, hpath⟩ := h.of_leaf
    cases hpath
  | some fields =>
    rw [hobject] at h
    obtain ⟨hrequired, hfields⟩ := AcceptedIn.seq h fun _ => steady_leaf
    obtain ⟨path, hpath⟩ := hrequired.of_leaf
    have hall := hfields.of_fields (steady_field hsteady)
    refine ⟨⟨fields, hobject, checkRequired_eq_ok.mp hpath, ?_⟩, ?_⟩
    · intro field hfield htype hknown hnull
      obtain ⟨schema, hschema⟩ := Option.isSome_iff_exists.mp hknown
      exact ((hall field hfield).of_field htype
        (by rw [lookup_checkProperties, hschema, Option.map_some])).1 hnull
    · intro fields' hfields' field hfield htype schema hschema hnull
      cases hfields'
      exact ((hall field hfield).of_field htype
        (by rw [lookup_checkProperties, hschema, Option.map_some])).2 hnull

/-- Accepted parameters conform, and each of them is accepted. -/
theorem AcceptedIn.of_params (hsteady : ∀ schema value ctx, Steady (hop schema value) ctx)
    {required : List Text} {properties : List (Text × SchemaDef)} {value : DataValue}
    (h : AcceptedIn ids (validateParams required (checkProperties env hop properties) value)) :
  ConformsParams required value ∧
    ∀ fields, value.asObject = some fields → ∀ field ∈ fields,
      ∀ schema, lookup field.1 properties = some schema →
        AcceptedIn ids (checkValue env hop schema field.2)
  := by
  rw [validateParams] at h
  cases hobject : value.asObject with
  | none =>
    rw [hobject] at h
    obtain ⟨path, hpath⟩ := h.of_leaf
    cases hpath
  | some fields =>
    rw [hobject] at h
    obtain ⟨hrequired, hfields⟩ := AcceptedIn.seq h fun _ => steady_leaf
    obtain ⟨path, hpath⟩ := hrequired.of_leaf
    have hall := hfields.of_fields (steady_param hsteady)
    refine ⟨⟨fields, hobject, checkRequired_eq_ok.mp hpath⟩, ?_⟩
    intro fields' hfields' field hfield schema hschema
    cases hfields'
    exact (hall field hfield).of_param (by rw [lookup_checkProperties, hschema, Option.map_some])

/-- A reference that is accepted leads to a definition.  The value is accepted under it unless it is
already being entered, which may not be in a strict validation. -/
theorem AcceptedIn.of_refInner (hskip : env.flags.skipExternalRefs = false) {refPath : Text}
    {value : DataValue} (h : AcceptedIn ids (validateRefInner env hop refPath value)) :
  ∃ resolved, resolveRef env.catalog env.baseSchema refPath = some resolved ∧
    (resolved.id ∉ ids → AcceptedIn (resolved.id :: ids) (hop resolved.definition value)) ∧
    (env.flags.strictRecursiveValidation = true → resolved.id ∉ ids)
  := by
  rw [validateRefInner] at h
  obtain ⟨ctx, hvisiting, hok⟩ := h
  cases hresolved : resolveRef env.catalog env.baseSchema refPath with
  | none =>
    rw [hresolved, hskip] at hok
    cases hok
  | some resolved =>
    rw [hresolved] at hok
    simp only at hok
    refine ⟨resolved, rfl, ?_⟩
    by_cases hvisited : ctx.visitedRefs resolved.id = true
    · rw [if_pos hvisited] at hok
      refine ⟨fun hnot => absurd ((hvisiting resolved.id).mp hvisited) hnot, ?_⟩
      intro hstrict
      rw [hstrict] at hok
      cases hok
    · rw [if_neg hvisited] at hok
      have hnot : resolved.id ∉ ids := fun hmem => hvisited ((hvisiting resolved.id).mpr hmem)
      refine ⟨fun _ => ⟨ctx.visit resolved.id, ?_, hok⟩, fun _ => hnot⟩
      intro id
      change Function.update ctx.visitedRefs resolved.id true id = true ↔ _
      rw [Function.update_apply, List.mem_cons]
      split_ifs with hid
      · exact iff_of_true rfl (Or.inl hid)
      · rw [hvisiting, or_iff_right hid]

/-- An accepted value of a union conforms, and is accepted as its member. -/
theorem AcceptedIn.of_unionInner (hskip : env.flags.skipExternalRefs = false) {refs : List Text}
    {closed : Bool} {value : DataValue}
    (h : AcceptedIn ids (validateUnionInner env hop refs closed value)) :
  value.getType.isSome = true ∧ (memberOf refs value = none → closed = false) ∧
    ∀ refPath ∈ memberOf refs value,
      ∃ resolved, resolveRef env.catalog env.baseSchema refPath = some resolved ∧
        AcceptedIn ids (hop resolved.definition value)
  := by
  rw [validateUnionInner] at h
  rw [memberOf]
  cases htype : value.getType with
  | none =>
    rw [htype] at h
    obtain ⟨path, hpath⟩ := AcceptedIn.of_leaf h
    cases hpath
  | some typeMarker =>
    rw [htype] at h
    simp only at h
    rw [Option.bind_some]
    refine ⟨rfl, ?_, ?_⟩
    · intro hmember
      rw [hmember] at h
      cases hclosed : closed with
      | false => rfl
      | true =>
        rw [hclosed] at h
        obtain ⟨path, hpath⟩ := @AcceptedIn.of_leaf ids
          (fun path => .error (.unionTypeNotInRefs path typeMarker refs)) h
        cases hpath
    · intro refPath hmember
      rw [Option.mem_def.mp hmember] at h
      simp only at h
      obtain ⟨ctx, hvisiting, hok⟩ := h
      cases hresolved : resolveRef env.catalog env.baseSchema refPath with
      | none =>
        rw [hresolved, hskip] at hok
        cases hok
      | some resolved =>
        rw [hresolved] at hok
        simp only at hok
        split_ifs at hok
        exact ⟨resolved, rfl, ctx.enterUnionTarget resolved.id, hvisiting, hok⟩

end Hops

/-! ### Records -/

section Records

variable {env : ValidationEnv} {schema : SchemaDef} {value : DataValue}

theorem acceptedIn_validateValue :
  AcceptedIn ids (validateValue env schema value) ↔
    AcceptedIn ids (checkValue env (validateValue env) schema value)
  := by
  rw [← validateValue_eq]

/-- A value that is accepted conforms to its definition. -/
theorem conforms_of_acceptedIn (hskip : env.flags.skipExternalRefs = false)
    (h : AcceptedIn ids (validateValue env schema value)) :
  Conforms env schema value
  := by
  rw [acceptedIn_validateValue] at h
  cases schema with
  | boolean schema =>
    obtain ⟨path, hpath⟩ := AcceptedIn.of_leaf h
    exact validateBoolean_eq_ok.mp hpath
  | integer schema =>
    obtain ⟨path, hpath⟩ := AcceptedIn.of_leaf h
    exact validateInteger_eq_ok.mp hpath
  | string schema =>
    obtain ⟨path, hpath⟩ := AcceptedIn.of_leaf h
    exact validateString_eq_ok.mp hpath
  | bytes schema =>
    obtain ⟨path, hpath⟩ := AcceptedIn.of_leaf h
    exact validateBytes_eq_ok.mp hpath
  | cidLink =>
    obtain ⟨path, hpath⟩ := AcceptedIn.of_leaf h
    exact validateCidLink_eq_ok.mp hpath
  | array minLength maxLength items =>
    exact (AcceptedIn.of_array (steady_checkValue steady_validateValue items) h).1
  | object required nullable properties => exact (AcceptedIn.of_object steady_validateValue h).1
  | blob schema =>
    obtain ⟨path, hpath⟩ := AcceptedIn.of_leaf h
    exact validateBlob_eq_ok.mp hpath
  | params required properties => exact (AcceptedIn.of_params steady_validateValue h).1
  | ref refPath =>
    obtain ⟨resolved, hresolved, -⟩ := AcceptedIn.of_refInner hskip (AcceptedIn.of_hop h)
    exact Option.isSome_iff_exists.mpr ⟨resolved, hresolved⟩
  | union refs closed =>
    obtain ⟨htype, hclosed, hmember⟩ := AcceptedIn.of_unionInner hskip (AcceptedIn.of_hop h)
    refine ⟨htype, hclosed, ?_⟩
    intro refPath hrefPath
    obtain ⟨resolved, hresolved, -⟩ := hmember refPath hrefPath
    exact Option.isSome_iff_exists.mpr ⟨resolved, hresolved⟩
  | unknown => exact trivial
  | token =>
    obtain ⟨path, hpath⟩ := AcceptedIn.of_leaf h
    obtain ⟨text, htext, -⟩ := expecting_eq_ok.mp hpath
    exact Option.isSome_iff_exists.mpr ⟨text, htext⟩
  | record inner =>
    obtain ⟨ctx, -, hok⟩ := h
    cases hok
  | query =>
    obtain ⟨ctx, -, hok⟩ := h
    cases hok
  | procedure =>
    obtain ⟨ctx, -, hok⟩ := h
    cases hok
  | subscription =>
    obtain ⟨ctx, -, hok⟩ := h
    cases hok
  | permissionSet =>
    obtain ⟨ctx, -, hok⟩ := h
    cases hok
  | space =>
    obtain ⟨ctx, -, hok⟩ := h
    cases hok

/-- What is reached without a reference to a definition that is already being entered is accepted. -/
theorem acceptedIn_of_reached {schema₀ : SchemaDef} {value₀ : DataValue}
    (hskip : env.flags.skipExternalRefs = false)
    (haccepted : AcceptedIn [] (validateValue env schema₀ value₀))
    (h : Reached env schema₀ value₀ ids schema value) (hnodup : ids.Nodup) :
  AcceptedIn ids (validateValue env schema value)
  := by
  induction h with
  | root => exact haccepted
  | item h hvalue ih =>
    have harray := AcceptedIn.of_array (steady_checkValue steady_validateValue _)
      (acceptedIn_validateValue.mp (ih hnodup))
    exact acceptedIn_validateValue.mpr (harray.2 _ rfl _ hvalue)
  | property h hvalue htype hschema hnull ih =>
    have hobject := AcceptedIn.of_object steady_validateValue
      (acceptedIn_validateValue.mp (ih hnodup))
    exact acceptedIn_validateValue.mpr (hobject.2 _ rfl _ hvalue htype _ hschema hnull)
  | param h hvalue hschema ih =>
    have hparams := AcceptedIn.of_params steady_validateValue
      (acceptedIn_validateValue.mp (ih hnodup))
    exact acceptedIn_validateValue.mpr (hparams.2 _ rfl _ hvalue _ hschema)
  | ref h hresolved ih =>
    obtain ⟨hfresh, hnodup⟩ := List.nodup_cons.mp hnodup
    obtain ⟨resolved, hresolved', hinner, -⟩ := AcceptedIn.of_refInner hskip
      (AcceptedIn.of_hop (acceptedIn_validateValue.mp (ih hnodup)))
    cases hresolved.symm.trans hresolved'
    exact hinner hfresh
  | member h hmember hresolved ih =>
    obtain ⟨-, -, hinner⟩ := AcceptedIn.of_unionInner hskip
      (AcceptedIn.of_hop (acceptedIn_validateValue.mp (ih hnodup)))
    obtain ⟨resolved, hresolved', hinner⟩ := hinner _ hmember
    cases hresolved.symm.trans hresolved'
    exact hinner

/-- In a strict validation no reference leads to a definition that is already being entered. -/
theorem nodup_of_reached {schema₀ : SchemaDef} {value₀ : DataValue}
    (hskip : env.flags.skipExternalRefs = false)
    (hstrict : env.flags.strictRecursiveValidation = true)
    (haccepted : AcceptedIn [] (validateValue env schema₀ value₀))
    (h : Reached env schema₀ value₀ ids schema value) :
  ids.Nodup
  := by
  induction h with
  | root => exact List.nodup_nil
  | item h hvalue ih => exact ih
  | property h hvalue htype hschema hnull ih => exact ih
  | param h hvalue hschema ih => exact ih
  | ref h hresolved ih =>
    have hreached := acceptedIn_of_reached hskip haccepted h ih
    obtain ⟨resolved, hresolved', -, hfresh⟩ := AcceptedIn.of_refInner hskip
      (AcceptedIn.of_hop (acceptedIn_validateValue.mp hreached))
    cases hresolved.symm.trans hresolved'
    exact List.nodup_cons.mpr ⟨hfresh hstrict, ih⟩
  | member h hmember hresolved ih => exact ih

end Records

/-- The value of an accepted record is accepted while nothing is being entered. -/
theorem acceptedIn_record {record : PreparedRecord} (h : record.validate.1 = .ok ()) :
  AcceptedIn [] (validateValue record.env record.schema record.value)
  := by
  refine ⟨_, ?_, h⟩
  intro id
  exact iff_of_false Bool.false_ne_true (List.not_mem_nil)

/-- All values reached from a record conform to their definitions. -/
def AllConform (record : PreparedRecord) : Prop :=
  ∀ ids schema value, Reached record.env record.schema record.value ids schema value →
    Conforms record.env schema value

/-- All values conform that are reached through a reference to a definition that a reference above
it has entered already. -/
def ReenteredConform (record : PreparedRecord) : Prop :=
  ∀ ids schema value, Reached record.env record.schema record.value ids schema value →
    ¬ ids.Nodup → Conforms record.env schema value

/-- All values of an accepted record conform exactly when the ones that are entered again do. -/
theorem allConform_iff {record : PreparedRecord} (hskip : record.env.flags.skipExternalRefs = false)
    (haccepted : record.validate.1 = .ok ()) :
  AllConform record ↔ ReenteredConform record
  := by
  constructor
  · intro hall ids schema value hreached _
    exact hall ids schema value hreached
  · intro hreentered ids schema value hreached
    by_cases hnodup : ids.Nodup
    · exact conforms_of_acceptedIn hskip
        (acceptedIn_of_reached hskip (acceptedIn_record haccepted) hreached hnodup)
    · exact hreentered ids schema value hreached hnodup

/-- All values reached from a record that is accepted conform to their definitions exactly when those
do that are behind a reference to a definition that is already being entered.  There are none in a
strict validation, so that all values conform. -/
theorem record_conforms_iff {library : ValidationLibrary} {nsid : Text} {data : Json}
    {catalog : Catalog} {flags : ValidateFlags} {limits : ValidationLimits}
    {record : PreparedRecord} (hskip : flags.skipExternalRefs = false)
    (hrecord : prepareRecord library nsid data catalog flags limits = .ok record)
    (haccepted : validateRecordWithLimits library nsid data catalog flags limits = .ok ()) :
  (AllConform record ↔ ReenteredConform record) ∧
    (flags.strictRecursiveValidation = true → AllConform record)
  := by
  rw [validateRecordWithLimits, hrecord] at haccepted
  change record.validate.1 = .ok () at haccepted
  obtain ⟨-, hflags, -⟩ := parseJson_of_prepareRecord hrecord
  rw [← hflags] at hskip
  refine ⟨allConform_iff hskip haccepted, ?_⟩
  intro hstrict
  rw [← hflags] at hstrict
  apply (allConform_iff hskip haccepted).mpr
  intro ids schema value hreached hnodup
  exact absurd (nodup_of_reached hskip hstrict (acceptedIn_record haccepted) hreached) hnodup

/-! ### A list with something else in it -/

/-- A list of two, the second of which has a text where a boolean has to be. -/
def brokenListData : Json :=
  .object [(textOf "$type", .string (textOf "a.b.list")),
    (textOf "head", .object [(textOf "value", .bool true),
      (textOf "next", .object [(textOf "value", .string (textOf "no"))])])]

def brokenListRecord : PreparedRecord where
  env := ⟨anyText, listCatalog, noFlags, listFile, defaultLimits⟩
  schema := .object [] [] [(textOf "head", .ref (textOf "a.b.list#node"))]
  value := .object [(textOf "$type", .string (textOf "a.b.list")),
    (textOf "head", .object [(textOf "value", .boolean true),
      (textOf "next", .object [(textOf "value", .string (textOf "no"))])])]

/-- The record is prepared for its check. -/
theorem prepare_brokenListRecord :
  prepareRecord anyText (textOf "a.b.list") brokenListData listCatalog noFlags defaultLimits =
    .ok brokenListRecord
  := by
  rfl

/-- The definition of the list, as it is found in its file. -/
def nodeSchema : SchemaDef :=
  .object [] [] [(textOf "next", .ref (textOf "#node")), (textOf "value", .boolean ⟨none⟩)]

/-- The text in the second node is reached by two references to the same definition. -/
theorem reached_brokenList :
  Reached brokenListRecord.env brokenListRecord.schema brokenListRecord.value
    [textOf "a.b.list#node", textOf "a.b.list#node"] (.boolean ⟨none⟩) (.string (textOf "no"))
  := by
  have hroot : Reached brokenListRecord.env brokenListRecord.schema brokenListRecord.value []
      brokenListRecord.schema brokenListRecord.value := .root
  have hhead := hroot.property (show (textOf "head", _) ∈ _ from
    List.mem_cons_of_mem _ List.mem_cons_self) (by decide) rfl rfl
  have hnode := hhead.ref (show _ = some (⟨nodeSchema, textOf "a.b.list#node"⟩ : Schema) from rfl)
  have hnext := hnode.property (show (textOf "next", _) ∈ _ from
    List.mem_cons_of_mem _ List.mem_cons_self) (by decide) rfl rfl
  have hagain := hnext.ref (show _ = some (⟨nodeSchema, textOf "a.b.list#node"⟩ : Schema) from rfl)
  exact hagain.property (show (textOf "value", _) ∈ _ from List.mem_cons_self) (by decide) rfl rfl

/-- A list is accepted with something else in it. -/
theorem record_conforms_broken :
  noFlags.skipExternalRefs = false ∧
    prepareRecord anyText (textOf "a.b.list") brokenListData listCatalog noFlags defaultLimits =
      .ok brokenListRecord ∧
    validateRecordWithLimits anyText (textOf "a.b.list") brokenListData listCatalog noFlags
      defaultLimits = .ok () ∧
    ¬ AllConform brokenListRecord
  := by
  refine ⟨rfl, prepare_brokenListRecord, rfl, ?_⟩
  intro hall
  obtain ⟨actual, hactual, -⟩ := hall _ _ _ reached_brokenList
  cases hactual

/-- In a list of two all values conform when those behind the reference of the first one do. -/
theorem record_conforms_iff_list :
  (AllConform listRecord ↔ ReenteredConform listRecord) ∧
    (noFlags.strictRecursiveValidation = true → AllConform listRecord)
  := record_conforms_iff rfl prepare_listRecord rfl

end Atproto.Lexicon.Validation
