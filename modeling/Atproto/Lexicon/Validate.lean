import Atproto.Lexicon.Schema
import Atproto.Logic.Metered
import Mathlib.Logic.Function.Basic

/-!
# Validating values

A value is checked against a definition.  References and unions lead to other definitions without
consuming any of the value.  Each of them is charged as a step, and only so many may be active at
once.  The definitions that are being entered are kept, so that they are not entered again.
-/

namespace Atproto.Lexicon.Validation

open Atproto.Dasl Atproto.Repo Logic SearchTree

/-- The checks of texts: the count of their graphemes, their formats, CIDs, the length that they
have decoded, and MIME types. -/
structure ValidationLibrary where
  graphemeCount : Text → Nat
  validateStringFormat : Text → Text → ValidateFlags → Except ValidationError Unit
  validateCid : Text → Except ValidationError Unit
  decodedLen : Text → Option Nat
  mimeTypeMatchesAny : Text → List Text → Bool

/-- How many references may be followed, and how many at once. -/
structure ValidationLimits where
  maxRefDepth : Nat
  maxRefSteps : Nat
  maxRefStepsPerNode : Nat

/-- The greatest number of a machine word. -/
def usizeMax : Nat := 18446744073709551615

/-- The steps that a document of some values is allowed in addition. -/
def ValidationLimits.stepAllowanceFor (limits : ValidationLimits) (nodeCount : Nat) : Nat :=
  min (limits.maxRefStepsPerNode * nodeCount) usizeMax

/-- What does not change during a validation. -/
structure ValidationEnv where
  library : ValidationLibrary
  catalog : Catalog
  flags : ValidateFlags
  baseSchema : Option SchemaFile
  limits : ValidationLimits

/-- What changes during a validation. -/
structure ValidationContext where
  path : List Text
  visitedRefs : Text → Bool
  refDepth : Nat
  refSteps : Nat
  stepBudget : Nat
  activeUnionFrames : Nat × Text → Bool
  activeUnionDefs : Text → Nat

/-- A check, with what it changes. -/
abbrev Validator : Type := Action ValidationError ValidationContext Unit

namespace ValidationContext

/-- The context before anything is checked. -/
def new (limits : ValidationLimits) : ValidationContext where
  path := []
  visitedRefs _ := false
  refDepth := 0
  refSteps := 0
  stepBudget := limits.maxRefSteps
  activeUnionFrames _ := false
  activeUnionDefs _ := 0

/-- Allow the steps of a document in addition. -/
def grantInputAllowance (limits : ValidationLimits) (value : DataValue) (ctx : ValidationContext) :
    ValidationContext :=
  let granted := limits.stepAllowanceFor (min (countValueNodes value) usizeMax)
  { ctx with stepBudget := min (ctx.stepBudget + granted) usizeMax }

/-- Go to a value in the one that is checked. -/
def pushPath (segment : Text) (ctx : ValidationContext) : ValidationContext :=
  { ctx with path := ctx.path ++ [segment] }

/-- Go back from a value in the one that is checked. -/
def popPath (ctx : ValidationContext) : ValidationContext :=
  { ctx with path := ctx.path.dropLast }

/-- The path of the value that is checked. -/
def currentPath (ctx : ValidationContext) : Text :=
  match ctx.path with
  | [] => textOf "/"
  | segment :: path =>
    (segment :: path).foldl (fun text segment => text ++ textOf "/" ++ segment) Text.empty

/-- Go back one level. -/
def exitHop (ctx : ValidationContext) : ValidationContext :=
  { ctx with refDepth := ctx.refDepth - 1 }

/-- A definition is being entered by a reference. -/
def visit (id : Text) (ctx : ValidationContext) : ValidationContext :=
  { ctx with visitedRefs := Function.update ctx.visitedRefs id true }

/-- A definition has been left. -/
def leave (id : Text) (ctx : ValidationContext) : ValidationContext :=
  { ctx with visitedRefs := Function.update ctx.visitedRefs id false }

/-- A member of a union is being entered at the level of the value. -/
def enterUnionTarget (id : Text) (ctx : ValidationContext) : ValidationContext :=
  { ctx with
    activeUnionFrames := Function.update ctx.activeUnionFrames (ctx.path.length, id) true
    activeUnionDefs := Function.update ctx.activeUnionDefs id (ctx.activeUnionDefs id + 1) }

/-- A member of a union that was entered at a level has been left. -/
def exitUnionTarget (level : Nat) (id : Text) (ctx : ValidationContext) : ValidationContext :=
  { ctx with
    activeUnionFrames := Function.update ctx.activeUnionFrames (level, id) false
    activeUnionDefs := Function.update ctx.activeUnionDefs id (ctx.activeUnionDefs id - 1) }

/-- The member is being entered for the same value. -/
def isNonproductiveUnion (id : Text) (ctx : ValidationContext) : Bool :=
  ctx.activeUnionFrames (ctx.path.length, id)

/-- The member is being entered for some value. -/
def isRecursiveUnion (id : Text) (ctx : ValidationContext) : Bool := 0 < ctx.activeUnionDefs id

end ValidationContext

/-- Charge a step. -/
def chargeStep : Validator := fun ctx =>
  if ctx.stepBudget ≤ ctx.refSteps then
    (.error (.refStepBudgetExhausted ctx.currentPath ctx.stepBudget), ctx)
  else (.ok (), { ctx with refSteps := ctx.refSteps + 1 })

/-- Go one level deeper. -/
def enterDepth (limits : ValidationLimits) (refPath : Text) : Validator := fun ctx =>
  if limits.maxRefDepth ≤ ctx.refDepth then
    (.error (.refDepthExceeded ctx.currentPath limits.maxRefDepth refPath), ctx)
  else (.ok (), { ctx with refDepth := ctx.refDepth + 1 })

/-- Follow a reference: charge a step and go one level deeper. -/
def enterHop (limits : ValidationLimits) (refPath : Text) : Validator := do
  chargeStep
  enterDepth limits refPath

/-- Check a value in another one. -/
def within (segment : Text) (validate : Validator) : Validator := do
  Action.modify (ValidationContext.pushPath segment)
  validate.andFinally ValidationContext.popPath

/-- A check that reads only the path. -/
def leaf (check : Text → Except ValidationError Unit) : Validator :=
  Action.read fun ctx => check ctx.currentPath

/-! ### Values without parts -/

/-- Refuse a value that violates a bound, if there is one. -/
def refuse {β : Type} (bound : Option β) (violates : β → Bool) (error : β → ValidationError) :
    Except ValidationError Unit :=
  match bound with
  | none => .ok ()
  | some bound => if violates bound then .error (error bound) else .ok ()

/-- Check a value of some type, and refuse one of another. -/
def expecting {β : Type} (expected : String) (value : DataValue) (part : Option β)
    (check : β → Except ValidationError Unit) (path : Text) : Except ValidationError Unit :=
  match part with
  | none => .error (.typeMismatch path expected value.typeName)
  | some part => check part

def validateBoolean (value : DataValue) (schema : BooleanSchema) (path : Text) :
    Except ValidationError Unit :=
  expecting "boolean" value value.asBoolean (fun actual =>
    refuse schema.constValue (fun const => actual ≠ const)
      fun const => .constMismatch path (textOf (toString const)) (textOf (toString actual))) path

def validateInteger (value : DataValue) (schema : IntegerSchema) (path : Text) :
    Except ValidationError Unit :=
  expecting "integer" value value.asInteger (fun actual => do
    refuse schema.constValue (fun const => actual ≠ const)
      fun const => .constMismatch path (textOf (toString const)) (textOf (toString actual))
    refuse schema.minimum (fun minimum => actual < minimum)
      fun minimum => .integerTooSmall path minimum actual
    refuse schema.maximum (fun maximum => maximum < actual)
      fun maximum => .integerTooLarge path maximum actual
    refuse schema.enumValues (fun allowed => allowed.all fun other => other ≠ actual)
      fun allowed => .integerNotInEnum path actual allowed) path

def validateString (library : ValidationLibrary) (flags : ValidateFlags) (value : DataValue)
    (schema : StringSchema) (path : Text) : Except ValidationError Unit :=
  expecting "string" value value.asString (fun actual => do
    refuse schema.constValue (fun const => actual ≠ const)
      fun const => .constMismatch path const actual
    refuse schema.minLength (fun minLength => actual.bytes.length < minLength)
      fun minLength => .stringTooShort path minLength actual.bytes.length
    refuse schema.maxLength (fun maxLength => maxLength < actual.bytes.length)
      fun maxLength => .stringTooLong path maxLength actual.bytes.length
    refuse schema.minGraphemes (fun minGraphemes => library.graphemeCount actual < minGraphemes)
      fun minGraphemes => .stringTooFewGraphemes path minGraphemes (library.graphemeCount actual)
    refuse schema.maxGraphemes (fun maxGraphemes => maxGraphemes < library.graphemeCount actual)
      fun maxGraphemes => .stringTooManyGraphemes path maxGraphemes (library.graphemeCount actual)
    refuse schema.enumValues (fun allowed => allowed.all fun other => other ≠ actual)
      fun allowed => .stringNotInEnum path actual allowed
    match schema.format with
    | none => .ok ()
    | some format => library.validateStringFormat format actual flags) path

def validateBytes (library : ValidationLibrary) (value : DataValue) (schema : BytesSchema)
    (path : Text) : Except ValidationError Unit :=
  expecting "bytes" value value.asBytes (fun base64 =>
    match library.decodedLen base64 with
    | none => .error (.invalidBytesEncoding path)
    | some length => do
      refuse schema.minLength (fun minLength => length < minLength)
        fun minLength => .bytesTooShort path minLength length
      refuse schema.maxLength (fun maxLength => maxLength < length)
        fun maxLength => .bytesTooLong path maxLength length) path

def validateCidLink (library : ValidationLibrary) (value : DataValue) (path : Text) :
    Except ValidationError Unit :=
  expecting "cid-link" value value.asLink library.validateCid path

/-- Check that a MIME type is accepted, if not all are. -/
def checkMimeType (library : ValidationLibrary) (accept : List Text) (mimeType path : Text) :
    Except ValidationError Unit :=
  if !accept.isEmpty && !library.mimeTypeMatchesAny mimeType accept then
    .error (.blobMimeTypeNotAccepted path mimeType accept)
  else .ok ()

def validateBlob (library : ValidationLibrary) (value : DataValue) (schema : BlobSchema)
    (path : Text) : Except ValidationError Unit :=
  expecting "blob" value value.asBlob (fun blob => do
    checkMimeType library schema.accept blob.mimeType path
    refuse schema.maxSize (fun maxSize => maxSize < blob.size)
      fun maxSize => .blobTooLarge path maxSize blob.size
    match blob.getCid with
    | none => .ok ()
    | some cid => library.validateCid cid) path

def validateToken (value : DataValue) (path : Text) : Except ValidationError Unit :=
  expecting "string (token)" value value.asString (fun _ => .ok ()) path

/-- A definition that is only the main one of a file. -/
def validatePrimary (schema : SchemaDef) : Except ValidationError Unit :=
  .error (.schemaStructureInvalid
    s!"primary type '{schema.typeName}' cannot be used as a nested schema")

/-! ### Values with parts -/

/-- Check the items of an array, each with its index. -/
def validateItems (validate : DataValue → Validator) (index : Nat) : List DataValue → Validator
  | [] => pure ()
  | item :: items => do
    within (textOf (toString index)) (validate item)
    validateItems validate (index + 1) items

def validateArray (minLength maxLength : Option Nat) (validate : DataValue → Validator)
    (value : DataValue) : Validator :=
  match value.asArray with
  | none => leaf fun path => .error (.typeMismatch path "array" value.typeName)
  | some items => do
    leaf fun path => do
      refuse minLength (fun minLength => items.length < minLength)
        fun minLength => .arrayTooShort path minLength items.length
      refuse maxLength (fun maxLength => maxLength < items.length)
        fun maxLength => .arrayTooLong path maxLength items.length
    validateItems validate 0 items

/-- Check that no required property is missing. -/
def checkRequired (fields : List (Text × DataValue)) (path : Text) :
    List Text → Except ValidationError Unit
  | [] => .ok ()
  | property :: required =>
    if (lookup property fields).isNone then .error (.missingRequiredProperty path property)
    else checkRequired fields path required

/-- Check a field of an object. -/
def validateField (nullable : List Text) (properties : List (Text × (DataValue → Validator)))
    (key : Text) (value : DataValue) : Validator :=
  if key = textOf "$type" then pure ()
  else
    match lookup key properties with
    | none => pure ()
    | some validate =>
      if value.isNull then
        if key.isIn nullable then pure () else leaf fun path => .error (.unexpectedNull path key)
      else within key (validate value)

/-- Check a parameter. -/
def validateParam (properties : List (Text × (DataValue → Validator))) (key : Text)
    (value : DataValue) : Validator :=
  match lookup key properties with
  | none => pure ()
  | some validate => within key (validate value)

/-- Check the fields of an object one after another. -/
def validateFields (validate : Text → DataValue → Validator) : List (Text × DataValue) → Validator
  | [] => pure ()
  | (key, value) :: fields => do
    validate key value
    validateFields validate fields

def validateObject (required nullable : List Text)
    (properties : List (Text × (DataValue → Validator))) (value : DataValue) : Validator :=
  match value.asObject with
  | none => leaf fun path => .error (.typeMismatch path "object" value.typeName)
  | some fields => do
    leaf fun path => checkRequired fields path required
    validateFields (validateField nullable properties) fields

def validateParams (required : List Text) (properties : List (Text × (DataValue → Validator)))
    (value : DataValue) : Validator :=
  match value.asObject with
  | none => leaf fun path => .error (.typeMismatch path "object (params)" value.typeName)
  | some fields => do
    leaf fun path => checkRequired fields path required
    validateFields (validateParam properties) fields

/-! ### References -/

/-- The definition that a reference leads to. -/
def resolveRef (catalog : Catalog) (baseSchema : Option SchemaFile) (refPath : Text) :
    Option Schema :=
  match baseSchema with
  | none => catalog.resolve refPath
  | some base =>
    if (parseRef refPath).1.all fun nsid => nsid = base.id then
      (base.getDef (parseRef refPath).2).map fun definition =>
        ⟨definition, base.fullRef (parseRef refPath).2⟩
    else catalog.resolve refPath

/-- The type that a value says it has is the one that a reference of a union names. -/
def matchesRef (typeMarker refPath : Text) : Bool :=
  match parseRef refPath with
  | (some nsid, name) =>
    let fullRef := if name = mainName then nsid else nsid ++ textOf "#" ++ name
    typeMarker = fullRef || typeMarker = refPath
  | (none, name) =>
    (textOf "#" ++ name).bytes.isSuffixOf typeMarker.bytes || typeMarker = name

section Hops

variable (env : ValidationEnv)
/- How a value is checked once a hop has been made. -/
variable (hop : SchemaDef → DataValue → Validator)

/-- Follow a reference from one definition to another. -/
def validateRefInner (refPath : Text) (value : DataValue) : Validator :=
  match resolveRef env.catalog env.baseSchema refPath with
  | none =>
    if env.flags.skipExternalRefs then pure ()
    else Action.throw (.unresolvedReference refPath)
  | some resolved => fun ctx =>
    if ctx.visitedRefs resolved.id then
      if env.flags.strictRecursiveValidation then (.error (.recursiveReference refPath), ctx)
      else (.ok (), ctx)
    else
      (do
        Action.modify (ValidationContext.visit resolved.id)
        (hop resolved.definition value).andFinally (ValidationContext.leave resolved.id)) ctx

def validateRef (refPath : Text) (value : DataValue) : Validator := do
  enterHop env.limits refPath
  (validateRefInner env hop refPath value).andFinally ValidationContext.exitHop

/-- Follow a union to the member that a value says it is. -/
def validateUnionInner (refs : List Text) (closed : Bool) (value : DataValue) : Validator :=
  match value.getType with
  | none => leaf fun path => .error (.unionMissingType path refs)
  | some typeMarker =>
    match refs.find? (matchesRef typeMarker) with
    | none =>
      if closed then leaf fun path => .error (.unionTypeNotInRefs path typeMarker refs)
      else pure ()
    | some refPath =>
      match resolveRef env.catalog env.baseSchema refPath with
      | none =>
        if env.flags.skipExternalRefs then pure ()
        else Action.throw (.unresolvedReference refPath)
      | some resolved => fun ctx =>
        if ctx.isNonproductiveUnion resolved.id ||
            env.flags.strictRecursiveValidation && ctx.isRecursiveUnion resolved.id then
          (.error (.recursiveReference refPath), ctx)
        else
          (do
            Action.modify (ValidationContext.enterUnionTarget resolved.id)
            (hop resolved.definition value).andFinally
              (ValidationContext.exitUnionTarget ctx.path.length resolved.id)) ctx

def validateUnion (refs : List Text) (closed : Bool) (value : DataValue) : Validator := do
  enterHop env.limits (refs.head?.getD (textOf "<union>"))
  (validateUnionInner env hop refs closed value).andFinally ValidationContext.exitHop

mutual

/-- Check a value against a definition. -/
def checkValue : SchemaDef → DataValue → Validator
  | .boolean schema => fun value => leaf (validateBoolean value schema)
  | .integer schema => fun value => leaf (validateInteger value schema)
  | .string schema => fun value => leaf (validateString env.library env.flags value schema)
  | .bytes schema => fun value => leaf (validateBytes env.library value schema)
  | .cidLink => fun value => leaf (validateCidLink env.library value)
  | .array minLength maxLength items => validateArray minLength maxLength (checkValue items)
  | .object required nullable properties =>
    validateObject required nullable (checkProperties properties)
  | .blob schema => fun value => leaf (validateBlob env.library value schema)
  | .ref refPath => validateRef env hop refPath
  | .union refs closed => validateUnion env hop refs closed
  | .unknown => fun _ => pure ()
  | .token => fun value => leaf (validateToken value)
  | .params required properties => validateParams required (checkProperties properties)
  | .record inner => fun _ => Action.ofExcept (validatePrimary (.record inner))
  | .query => fun _ => Action.ofExcept (validatePrimary .query)
  | .procedure => fun _ => Action.ofExcept (validatePrimary .procedure)
  | .subscription => fun _ => Action.ofExcept (validatePrimary .subscription)
  | .permissionSet => fun _ => Action.ofExcept (validatePrimary .permissionSet)
  | .space => fun _ => Action.ofExcept (validatePrimary .space)

/-- The checks of properties. -/
def checkProperties : List (Text × SchemaDef) → List (Text × (DataValue → Validator))
  | [] => []
  | (key, schema) :: properties => (key, checkValue schema) :: checkProperties properties

end

end Hops

/-- Check a value against a definition, with some hops at once, and in another way beyond them. -/
def validateLevels (env : ValidationEnv) (beyond : SchemaDef → DataValue → Validator) :
    Nat → SchemaDef → DataValue → Validator
  | 0 => checkValue env beyond
  | levels + 1 => checkValue env (validateLevels env beyond levels)

/-- Check a value against a definition.  There are never more than `max_ref_depth` hops at once, so
that nothing has to be said about what is beyond them. -/
def validateValue (env : ValidationEnv) : SchemaDef → DataValue → Validator :=
  validateLevels env (fun _ _ => pure ()) env.limits.maxRefDepth

/-! ### Records -/

/-- The context in which a document is checked. -/
def documentContext (limits : ValidationLimits) (value : DataValue) : ValidationContext :=
  (ValidationContext.new limits).grantInputAllowance limits value

/-- Check the type that a record says it has. -/
def checkRecordType (expected : Text) (value : DataValue) : Except ValidationError Unit :=
  match value.getType with
  | some actual =>
    if actual = expected then .ok () else .error (.recordTypeMismatch expected actual)
  | none => .error (.recordMissingType expected)

/-- The definition in a record. -/
def recordSchema : SchemaDef → Except ValidationError SchemaDef
  | .record inner => .ok inner
  | other => .error (.expectedRecordSchema other.typeName)

/-- What a record is checked against, and its value, before it is checked. -/
structure PreparedRecord where
  env : ValidationEnv
  schema : SchemaDef
  value : DataValue

/-- Prepare to check a record against the schema with a name. -/
def prepareRecord (library : ValidationLibrary) (nsid : Text) (data : Json) (catalog : Catalog)
    (flags : ValidateFlags) (limits : ValidationLimits) : Except ValidationError PreparedRecord :=
  match catalog.resolve nsid with
  | none => .error (.schemaNotFound nsid)
  | some schema => do
    let value ← parseJson flags data
    let inner ← recordSchema schema.definition
    checkRecordType nsid value
    .ok ⟨⟨library, catalog, flags, catalog.getSchemaFile nsid, limits⟩, inner, value⟩

/-- Prepare to check a record against the main definition of a file. -/
def prepareRecordWithSchema (library : ValidationLibrary) (data : Json) (schemaFile : SchemaFile)
    (catalog : Catalog) (flags : ValidateFlags) (limits : ValidationLimits) :
    Except ValidationError PreparedRecord :=
  match schemaFile.main with
  | none => .error (.schemaStructureInvalid "schema has no main definition")
  | some definition => do
    let inner ← recordSchema definition
    let value ← parseJson flags data
    checkRecordType schemaFile.id value
    .ok ⟨⟨library, catalog, flags, some schemaFile, limits⟩, inner, value⟩

/-- Check a prepared record in a context of its own. -/
def PreparedRecord.validate (record : PreparedRecord) :
    Except ValidationError Unit × ValidationContext :=
  validateValue record.env record.schema record.value
    (documentContext record.env.limits record.value)

/-- Check a record against the schema with a name. -/
def validateRecordWithLimits (library : ValidationLibrary) (nsid : Text) (data : Json)
    (catalog : Catalog) (flags : ValidateFlags) (limits : ValidationLimits) :
    Except ValidationError Unit := do
  let record ← prepareRecord library nsid data catalog flags limits
  record.validate.1

/-- Check a record against the main definition of a file. -/
def validateRecordWithSchemaAndLimits (library : ValidationLibrary) (data : Json)
    (schemaFile : SchemaFile) (catalog : Catalog) (flags : ValidateFlags)
    (limits : ValidationLimits) : Except ValidationError Unit := do
  let record ← prepareRecordWithSchema library data schemaFile catalog flags limits
  record.validate.1

end Atproto.Lexicon.Validation
