import Atproto.Lexicon.Data

/-!
# Schemas

A schema is a definition of a schema file.  A reference names a file and a definition in it, or only
a definition of the same file.
-/

namespace Atproto.Lexicon.Validation

open Atproto.Dasl Atproto.Repo SearchTree

/-- What a boolean has to be. -/
structure BooleanSchema where
  constValue : Option Bool

/-- What an integer has to be. -/
structure IntegerSchema where
  constValue : Option Int
  minimum : Option Int
  maximum : Option Int
  enumValues : Option (List Int)

/-- What a string has to be. -/
structure StringSchema where
  constValue : Option Text
  format : Option Text
  minLength : Option Nat
  maxLength : Option Nat
  minGraphemes : Option Nat
  maxGraphemes : Option Nat
  enumValues : Option (List Text)

/-- What bytes have to be. -/
structure BytesSchema where
  minLength : Option Nat
  maxLength : Option Nat

/-- What a blob has to be. -/
structure BlobSchema where
  accept : List Text
  maxSize : Option Nat

/-- A definition.  Those that are only the main one of a file, apart from records, are not looked
into. -/
inductive SchemaDef where
  | record (record : SchemaDef)
  | query
  | procedure
  | subscription
  | permissionSet
  | space
  | boolean (schema : BooleanSchema)
  | integer (schema : IntegerSchema)
  | string (schema : StringSchema)
  | bytes (schema : BytesSchema)
  | cidLink
  | array (minLength maxLength : Option Nat) (items : SchemaDef)
  | object (required nullable : List Text) (properties : List (Text × SchemaDef))
  | blob (schema : BlobSchema)
  | params (required : List Text) (properties : List (Text × SchemaDef))
  | ref (refPath : Text)
  | union (refs : List Text) (closed : Bool)
  | unknown
  | token

namespace SchemaDef

/-- The name of the type of a definition. -/
def typeName : SchemaDef → String
  | .record _ => "record"
  | .query => "query"
  | .procedure => "procedure"
  | .subscription => "subscription"
  | .permissionSet => "permission-set"
  | .space => "space"
  | .boolean _ => "boolean"
  | .integer _ => "integer"
  | .string _ => "string"
  | .bytes _ => "bytes"
  | .cidLink => "cid-link"
  | .array _ _ _ => "array"
  | .object _ _ _ => "object"
  | .blob _ => "blob"
  | .params _ _ => "params"
  | .ref _ => "ref"
  | .union _ _ => "union"
  | .unknown => "unknown"
  | .token => "token"

/-- A reference within a file as one from outside. -/
def expandRef (nsid refPath : Text) : Text :=
  if refPath.bytes.head? = some 0x23 then nsid ++ refPath else refPath

mutual

/-- A definition with other references in place of its own. -/
def mapRefs (f : Text → Text) : SchemaDef → SchemaDef
  | .record inner => .record (mapRefs f inner)
  | .query => .query
  | .procedure => .procedure
  | .subscription => .subscription
  | .permissionSet => .permissionSet
  | .space => .space
  | .boolean schema => .boolean schema
  | .integer schema => .integer schema
  | .string schema => .string schema
  | .bytes schema => .bytes schema
  | .cidLink => .cidLink
  | .array minLength maxLength items => .array minLength maxLength (mapRefs f items)
  | .object required nullable properties => .object required nullable (mapProperties f properties)
  | .blob schema => .blob schema
  | .params required properties => .params required (mapProperties f properties)
  | .ref refPath => .ref (f refPath)
  | .union refs closed => .union (refs.map f) closed
  | .unknown => .unknown
  | .token => .token

def mapProperties (f : Text → Text) : List (Text × SchemaDef) → List (Text × SchemaDef)
  | [] => []
  | (key, schema) :: properties => (key, mapRefs f schema) :: mapProperties f properties

end

/-- The definition with its references as they are from outside of its file. -/
def expandLocalRefs (nsid : Text) (schema : SchemaDef) : SchemaDef :=
  schema.mapRefs (expandRef nsid)

mutual

theorem mapRefs_id :
  ∀ schema : SchemaDef, schema.mapRefs id = schema
  | .record inner => congrArg SchemaDef.record (mapRefs_id inner)
  | .query => rfl
  | .procedure => rfl
  | .subscription => rfl
  | .permissionSet => rfl
  | .space => rfl
  | .boolean _ => rfl
  | .integer _ => rfl
  | .string _ => rfl
  | .bytes _ => rfl
  | .cidLink => rfl
  | .array minLength maxLength items =>
    congrArg (SchemaDef.array minLength maxLength) (mapRefs_id items)
  | .object required nullable properties =>
    congrArg (SchemaDef.object required nullable) (mapProperties_id properties)
  | .blob _ => rfl
  | .params required properties => congrArg (SchemaDef.params required) (mapProperties_id properties)
  | .ref _ => rfl
  | .union refs closed => congrArg (SchemaDef.union · closed) (List.map_id refs)
  | .unknown => rfl
  | .token => rfl

theorem mapProperties_id :
  ∀ properties : List (Text × SchemaDef), mapProperties id properties = properties
  | [] => rfl
  | (key, schema) :: properties => by
    rw [mapProperties, mapRefs_id schema, mapProperties_id properties]

end

end SchemaDef

/-- A file of definitions. -/
structure SchemaFile where
  id : Text
  defs : List (Text × SchemaDef)

/-- The name of the main definition. -/
def mainName : Text := textOf "main"

namespace SchemaFile

/-- The definition with a name. -/
def getDef (file : SchemaFile) (name : Text) : Option SchemaDef := lookup name file.defs

/-- The main definition. -/
def main (file : SchemaFile) : Option SchemaDef := file.getDef mainName

/-- The full reference to a definition. -/
def fullRef (file : SchemaFile) (name : Text) : Text :=
  if name = mainName then file.id else file.id ++ textOf "#" ++ name

end SchemaFile

/-- The file that a reference names, if it names one, and the definition. -/
def parseRef (refPath : Text) : Option Text × Text :=
  match refPath.splitOnce 0x23 (by decide) with
  | some (nsid, name) => if nsid.bytes = [] then (none, name) else (some nsid, name)
  | none => (some refPath, mainName)

/-- A definition and its full reference. -/
structure Schema where
  definition : SchemaDef
  id : Text

/-- Where schemas come from. -/
structure Catalog where
  resolve : Text → Option Schema
  getSchemaFile : Text → Option SchemaFile

/-- Files, by their names. -/
structure BaseCatalog where
  schemas : Text → Option SchemaFile
  named : ∀ {nsid : Text} {file : SchemaFile}, schemas nsid = some file → file.id = nsid

namespace BaseCatalog

/-- A catalog without files. -/
def new : BaseCatalog where
  schemas _ := none
  named h := by cases h

/-- Add a file, in place of one with the same name. -/
def addSchema (catalog : BaseCatalog) (schema : SchemaFile) : BaseCatalog where
  schemas nsid := if nsid = schema.id then some schema else catalog.schemas nsid
  named := by
    intro nsid file h
    split_ifs at h with hid
    · cases h
      exact hid.symm
    · exact catalog.named h

/-- The definition that a reference names. -/
def resolve (catalog : BaseCatalog) (refPath : Text) : Option Schema :=
  match parseRef refPath with
  | (some nsid, name) =>
    match catalog.schemas nsid with
    | none => none
    | some file =>
      (file.getDef name).map fun definition =>
        ⟨definition.expandLocalRefs nsid, file.fullRef name⟩
  | (none, _) => none

/-- The files as a catalog. -/
def toCatalog (catalog : BaseCatalog) : Catalog where
  resolve := catalog.resolve
  getSchemaFile := catalog.schemas

end BaseCatalog

end Atproto.Lexicon.Validation
