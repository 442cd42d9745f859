import Atproto.Lexicon.Unions

/-!
# Two ways to check a record

A record is checked by the name of its schema, with the references of the schema expanded, or by the
file, with the references as they are written.  The two checks do the same until they come to a union
that takes a value for another member when its references are expanded.  From there on the verdicts
depend on the definitions of the two members.
-/

namespace Atproto.Lexicon.Validation

open Atproto.Dasl Atproto.Repo Logic SearchTree

/-! ### Checks that agree where they come to -/

namespace SameVerdictAt

variable {ctx : ValidationContext} {m m' : Validator}

theorem refl (ctx : ValidationContext) (m : Validator) :
  SameVerdictAt ctx m m
  := ⟨rfl, rfl⟩

theorem within {segment : Text} (h : SameVerdictAt (ctx.pushPath segment) m m') :
  SameVerdictAt ctx (Validation.within segment m) (Validation.within segment m')
  := by
  apply (refl ctx _).bind
  rintro next ⟨⟩
  exact ⟨h.1, congrArg ValidationContext.popPath h.2⟩

theorem items {validate validate' : DataValue → Validator} {index : Nat} {values : List DataValue}
    (h : ∀ before item after next, values = before ++ item :: after →
      validateItems validate' index before ctx = (.ok (), next) →
      SameVerdictAt (next.pushPath (textOf (toString (index + before.length)))) (validate item)
        (validate' item)) :
  SameVerdictAt ctx (validateItems validate index values) (validateItems validate' index values)
  := by
  induction values generalizing index ctx with
  | nil => exact refl ctx _
  | cons item values ih =>
    apply SameVerdictAt.bind
    · exact within (h [] item values ctx rfl rfl)
    · intro next hnext
      apply ih
      intro before other after last hvalues hbefore
      have hother := h (item :: before) other after last (by rw [hvalues]; rfl)
        (Action.bind_eq_ok.mpr ⟨(), next, hnext, hbefore⟩)
      rwa [List.length_cons, Nat.add_comm before.length, ← Nat.add_assoc] at hother

theorem fields {validate validate' : Text → DataValue → Validator}
    {values : List (Text × DataValue)}
    (h : ∀ before field after next, values = before ++ field :: after →
      validateFields validate' before ctx = (.ok (), next) →
      SameVerdictAt next (validate field.1 field.2) (validate' field.1 field.2)) :
  SameVerdictAt ctx (validateFields validate values) (validateFields validate' values)
  := by
  induction values generalizing ctx with
  | nil => exact refl ctx _
  | cons field values ih =>
    apply SameVerdictAt.bind
    · exact h [] field values ctx rfl rfl
    · intro next hnext
      apply ih
      intro before other after last hvalues hbefore
      exact h (field :: before) other after last (by rw [hvalues]; rfl)
        (Action.bind_eq_ok.mpr ⟨(), next, hnext, hbefore⟩)

/-- An array within its bounds is checked item by item. -/
theorem array {minLength maxLength : Option Nat} {validate validate' : DataValue → Validator}
    {value : DataValue}
    (h : ∀ before item after next, value.asArray = some (before ++ item :: after) →
      ConformsArray minLength maxLength value →
      validateItems validate' 0 before ctx = (.ok (), next) →
      SameVerdictAt (next.pushPath (textOf (toString before.length))) (validate item)
        (validate' item)) :
  SameVerdictAt ctx (validateArray minLength maxLength validate value)
    (validateArray minLength maxLength validate' value)
  := by
  rw [validateArray, validateArray]
  cases hvalues : value.asArray with
  | none => exact refl ctx _
  | some values =>
    apply (refl ctx _).bind
    intro next hnext
    obtain rfl : ctx = next := congrArg Prod.snd hnext
    have hlength := congrArg Prod.fst hnext
    apply items
    intro before item after last heq hbefore
    rw [Nat.zero_add]
    subst heq
    apply h before item after last hvalues _ hbefore
    change (refuse minLength _ _ >>= fun _ => refuse maxLength _ _) = .ok () at hlength
    rw [seq_eq_ok, refuse_eq_ok, refuse_eq_ok] at hlength
    simp only [decide_eq_false_iff_not, not_lt] at hlength
    exact ⟨_, hvalues, hlength⟩

variable {properties properties' : List (Text × (DataValue → Validator))}

theorem field {nullable : List Text} {key : Text} {value : DataValue}
    (h : Option.Rel (fun v v' => key ≠ textOf "$type" ∧ value.isNull = false →
      SameVerdictAt (ctx.pushPath key) (v value) (v' value)) (lookup key properties)
      (lookup key properties')) :
  SameVerdictAt ctx (validateField nullable properties key value)
    (validateField nullable properties' key value)
  := by
  rw [validateField, validateField]
  by_cases htype : key = textOf "$type"
  · rw [if_pos htype, if_pos htype]
    exact refl ctx _
  · rw [if_neg htype, if_neg htype]
    generalize lookup key properties = found at h
    generalize lookup key properties' = found' at h
    cases h with
    | none => exact refl ctx _
    | some hvalue =>
      cases hnull : value.isNull with
      | false => exact within (hvalue ⟨htype, hnull⟩)
      | true =>
        cases hnullable : key.isIn nullable with
        | false => exact refl ctx _
        | true => exact refl ctx _

theorem param {key : Text} {value : DataValue}
    (h : Option.Rel (fun v v' => SameVerdictAt (ctx.pushPath key) (v value) (v' value))
      (lookup key properties) (lookup key properties')) :
  SameVerdictAt ctx (validateParam properties key value) (validateParam properties' key value)
  := by
  rw [validateParam, validateParam]
  generalize lookup key properties = found at h
  generalize lookup key properties' = found' at h
  cases h with
  | none => exact refl ctx _
  | some hvalue => exact within hvalue

/-- An object with its required properties is checked field by field. -/
theorem object {required nullable : List Text} {value : DataValue}
    (h : ∀ before field after next, value.asObject = some (before ++ field :: after) →
      HasRequired required (before ++ field :: after) →
      validateFields (validateField nullable properties') before ctx = (.ok (), next) →
      Option.Rel (fun v v' => field.1 ≠ textOf "$type" ∧ field.2.isNull = false →
        SameVerdictAt (next.pushPath field.1) (v field.2) (v' field.2)) (lookup field.1 properties)
        (lookup field.1 properties')) :
  SameVerdictAt ctx (validateObject required nullable properties value)
    (validateObject required nullable properties' value)
  := by
  rw [validateObject, validateObject]
  cases hvalues : value.asObject with
  | none => exact refl ctx _
  | some values =>
    apply (refl ctx _).bind
    intro next hnext
    obtain rfl : ctx = next := congrArg Prod.snd hnext
    have hrequired : HasRequired required values := checkRequired_eq_ok.mp (congrArg Prod.fst hnext)
    apply fields
    intro before field after last heq hbefore
    subst heq
    exact SameVerdictAt.field (h before field after last hvalues hrequired hbefore)

/-- Parameters are checked one after another, when the required ones are there. -/
theorem params {required : List Text} {value : DataValue}
    (h : ∀ before field after next, value.asObject = some (before ++ field :: after) →
      HasRequired required (before ++ field :: after) →
      validateFields (validateParam properties') before ctx = (.ok (), next) →
      Option.Rel (fun v v' => SameVerdictAt (next.pushPath field.1) (v field.2) (v' field.2))
        (lookup field.1 properties) (lookup field.1 properties')) :
  SameVerdictAt ctx (validateParams required properties value)
    (validateParams required properties' value)
  := by
  rw [validateParams, validateParams]
  cases hvalues : value.asObject with
  | none => exact refl ctx _
  | some values =>
    apply (refl ctx _).bind
    intro next hnext
    obtain rfl : ctx = next := congrArg Prod.snd hnext
    have hrequired : HasRequired required values := checkRequired_eq_ok.mp (congrArg Prod.fst hnext)
    apply fields
    intro before field after last heq hbefore
    subst heq
    exact SameVerdictAt.param (h before field after last hvalues hrequired hbefore)

end SameVerdictAt

/-! ### What a check comes to -/

section Walk

variable (env : ValidationEnv) (hop : SchemaDef → DataValue → Validator)

/-- A check of a value that begins in a context comes to a part of it, through items and fields only:
what it checks before has succeeded. -/
inductive ComesTo :
    SchemaDef → DataValue → ValidationContext → SchemaDef → DataValue → ValidationContext → Prop where
  | self {schema : SchemaDef} {value : DataValue} {ctx : ValidationContext} :
    ComesTo schema value ctx schema value ctx
  | item {minLength maxLength : Option Nat} {items schema : SchemaDef} {value item part : DataValue}
    {before after : List DataValue} {ctx next there : ValidationContext}
    (hvalue : value.asArray = some (before ++ item :: after))
    (hlength : ConformsArray minLength maxLength value)
    (hbefore : validateItems (checkValue env hop items) 0 before ctx = (.ok (), next))
    (h : ComesTo items item (next.pushPath (textOf (toString before.length))) schema part there) :
    ComesTo (.array minLength maxLength items) value ctx schema part there
  | property {required nullable : List Text} {properties : List (Text × SchemaDef)}
    {property schema : SchemaDef} {value part : DataValue} {field : Text × DataValue}
    {before after : List (Text × DataValue)} {ctx next there : ValidationContext}
    (hvalue : value.asObject = some (before ++ field :: after))
    (hrequired : HasRequired required (before ++ field :: after))
    (hbefore : validateFields (validateField nullable (checkProperties env hop properties)) before
      ctx = (.ok (), next))
    (htype : field.1 ≠ textOf "$type") (hnull : field.2.isNull = false)
    (hproperty : lookup field.1 properties = some property)
    (h : ComesTo property field.2 (next.pushPath field.1) schema part there) :
    ComesTo (.object required nullable properties) value ctx schema part there
  | param {required : List Text} {properties : List (Text × SchemaDef)}
    {property schema : SchemaDef} {value part : DataValue} {field : Text × DataValue}
    {before after : List (Text × DataValue)} {ctx next there : ValidationContext}
    (hvalue : value.asObject = some (before ++ field :: after))
    (hrequired : HasRequired required (before ++ field :: after))
    (hbefore : validateFields (validateParam (checkProperties env hop properties)) before ctx =
      (.ok (), next))
    (hproperty : lookup field.1 properties = some property)
    (h : ComesTo property field.2 (next.pushPath field.1) schema part there) :
    ComesTo (.params required properties) value ctx schema part there

/-- A union takes a value for the same member when its references are expanded. -/
def SameMember (file : SchemaFile) (refs : List Text) (value : DataValue) : Prop :=
  (memberOf (refs.map (SchemaDef.expandRef file.id)) value).map file.fullRefOf =
    (memberOf refs value).map file.fullRefOf

/-- Every union that a check comes to, and that it can follow, takes the value for the same member
when its references are expanded. -/
def ComesAlike (file : SchemaFile) (schema : SchemaDef) (value : DataValue)
    (ctx : ValidationContext) : Prop :=
  ∀ refs closed part there, ComesTo env hop schema value ctx (.union refs closed) part there →
    (enterHop env.limits (refs.head?.getD (textOf "<union>")) there).1.isOk = true →
    SameMember file refs part

variable {env hop} {file : SchemaFile}

/-- A check comes only to the parts of a value. -/
theorem ComesTo.partOf {schema part : SchemaDef} {value partValue : DataValue}
    {ctx there : ValidationContext} (h : ComesTo env hop schema value ctx part partValue there) :
  PartOf schema value part partValue
  := by
  induction h with
  | self => exact .self
  | item hvalue _ _ _ ih => exact .item hvalue (List.mem_append_right _ List.mem_cons_self) ih
  | property hvalue _ _ _ _ hproperty _ ih =>
    exact .property hvalue (List.mem_append_right _ List.mem_cons_self) hproperty ih
  | param hvalue _ _ hproperty _ ih =>
    exact .param hvalue (List.mem_append_right _ List.mem_cons_self) hproperty ih

theorem ComesAlike.part {schema schema' : SchemaDef} {value value' : DataValue}
    {ctx ctx' : ValidationContext} (h : ComesAlike env hop file schema value ctx)
    (hpart : ∀ {s part there}, ComesTo env hop schema' value' ctx' s part there →
      ComesTo env hop schema value ctx s part there) :
  ComesAlike env hop file schema' value' ctx'
  := fun refs closed part there hcomes => h refs closed part there (hpart hcomes)

/-- Unions that cannot be followed have the same verdict, and so have those that take a value for
members that resolve to the same definition. -/
theorem sameVerdictAt_union {refs refs' : List Text} {closed : Bool} {value : DataValue}
    {ctx : ValidationContext}
    (h : (enterHop env.limits (refs'.head?.getD (textOf "<union>")) ctx).1.isOk = true →
      Option.Rel (fun refPath refPath' => resolveRef env.catalog env.baseSchema refPath =
        resolveRef env.catalog env.baseSchema refPath') (memberOf refs value) (memberOf refs' value)) :
  SameVerdictAt ctx (validateUnion env hop refs closed value)
    (validateUnion env hop refs' closed value)
  := by
  by_cases henters : (enterHop env.limits (refs'.head?.getD (textOf "<union>")) ctx).1.isOk = true
  · exact sameVerdict_union (h henters) ctx
  · apply (SameVerdict.enterHop _ _ _ ctx).bind
    intro next hnext
    rw [hnext] at henters
    exact absurd rfl henters

end Walk

/-! ### The two ways -/

section Paths

variable {library : ValidationLibrary} {file : SchemaFile} {catalog : BaseCatalog}
  {flags : ValidateFlags} {limits : ValidationLimits} {hop : SchemaDef → DataValue → Validator}

/-- A union that reads a type as it is meant takes values of the type for the same member when its
references are expanded. -/
theorem ReadsType.sameMember (hid : validateNsid file.id = .ok ()) {refs : List Text}
    {value : DataValue} {typeMarker : Text} (h : ReadsType file refs typeMarker)
    (htype : value.getType = some typeMarker) :
  SameMember file refs value
  := by
  have hfull : (refs.map (SchemaDef.expandRef file.id)).map file.fullRefOf =
      refs.map file.fullRefOf := by
    rw [List.map_map]
    exact List.map_congr_left fun refPath _ => fullRefOf_expandRef hid refPath
  rw [SameMember]
  ext fullRef
  rw [memberOf_of_type htype, memberOf_of_type htype, h.find hid (List.Perm.refl refs),
    (h.expand hid).find hid (List.Perm.refl _), hfull]

mutual

/-- A check against a definition and one against it with expanded references have the same verdict,
when the unions that the former comes to take values for the same members. -/
theorem checkValue_alike (hid : validateNsid file.id = .ok ()) :
  ∀ {schema : SchemaDef} {value : DataValue} {ctx : ValidationContext},
    ComesAlike (fileEnv library file catalog flags limits) hop file schema value ctx →
    SameVerdictAt ctx
      (checkValue (fileEnv library file catalog flags limits) hop (schema.expandLocalRefs file.id)
        value)
      (checkValue (fileEnv library file catalog flags limits) hop schema value)
  | .boolean _, _, ctx, _ => .refl ctx _
  | .integer _, _, ctx, _ => .refl ctx _
  | .string _, _, ctx, _ => .refl ctx _
  | .bytes _, _, ctx, _ => .refl ctx _
  | .cidLink, _, ctx, _ => .refl ctx _
  | .array _ _ _, _, _, h =>
    SameVerdictAt.array fun _ _ _ _ hvalue hlength hbefore =>
      checkValue_alike hid (h.part (.item hvalue hlength hbefore))
  | .object _ _ _, _, _, h =>
    SameVerdictAt.object fun _ _ _ _ hvalue hrequired hbefore =>
      checkProperties_alike hid fun _ hproperty hboth =>
        h.part (.property hvalue hrequired hbefore hboth.1 hboth.2 hproperty)
  | .blob _, _, ctx, _ => .refl ctx _
  | .ref refPath, _, ctx, _ =>
    sameVerdict_ref (resolveRef_congr hid catalog (fullRefOf_expandRef hid refPath)) ctx
  | .union _ _, _, _, h =>
    sameVerdictAt_union fun henters => member_rel hid (h _ _ _ _ .self henters)
  | .unknown, _, ctx, _ => .refl ctx _
  | .token, _, ctx, _ => .refl ctx _
  | .params _ _, _, _, h =>
    SameVerdictAt.params fun _ _ _ _ hvalue hrequired hbefore => by
      simpa only [true_implies] using checkProperties_alike hid (p := True) fun _ hproperty _ =>
        h.part (.param hvalue hrequired hbefore hproperty)
  | .record _, _, ctx, _ => .refl ctx _
  | .query, _, ctx, _ => .refl ctx _
  | .procedure, _, ctx, _ => .refl ctx _
  | .subscription, _, ctx, _ => .refl ctx _
  | .permissionSet, _, ctx, _ => .refl ctx _
  | .space, _, ctx, _ => .refl ctx _

theorem checkProperties_alike (hid : validateNsid file.id = .ok ()) {p : Prop} :
  ∀ {properties : List (Text × SchemaDef)} {key : Text} {value : DataValue}
    {ctx : ValidationContext},
    (∀ schema, lookup key properties = some schema → p →
      ComesAlike (fileEnv library file catalog flags limits) hop file schema value ctx) →
    Option.Rel (fun v v' => p → SameVerdictAt ctx (v value) (v' value))
      (lookup key (checkProperties (fileEnv library file catalog flags limits) hop
        (SchemaDef.mapProperties (SchemaDef.expandRef file.id) properties)))
      (lookup key (checkProperties (fileEnv library file catalog flags limits) hop properties))
  | [], _, _, _, _ => .none
  | (name, schema) :: properties, key, value, ctx, h => by
    rw [SchemaDef.mapProperties, checkProperties, checkProperties, lookup, lookup]
    by_cases hname : name = key
    · rw [if_pos hname, if_pos hname]
      refine .some fun hp => checkValue_alike hid (h schema ?_ hp)
      rw [lookup, if_pos hname]
    · rw [if_neg hname, if_neg hname]
      apply checkProperties_alike hid
      intro schema' hlookup
      apply h
      rw [lookup, if_neg hname, hlookup]

end

/-- A definition is one of a record exactly when it is with its references expanded. -/
theorem recordSchema_expand {definition inner : SchemaDef} {nsid : Text} :
  recordSchema (definition.expandLocalRefs nsid) = .ok inner ↔
    ∃ schema, definition = .record schema ∧ inner = schema.expandLocalRefs nsid
  := by
  cases definition with
  | record schema =>
    constructor
    · intro h
      cases h
      exact ⟨schema, rfl, rfl⟩
    · rintro ⟨schema', heq, rfl⟩
      cases heq
      rfl
  | _ =>
    constructor
    · nofun
    · rintro ⟨schema, heq, -⟩
      cases heq

theorem recordSchema_eq_ok {definition inner : SchemaDef} :
  recordSchema definition = .ok inner ↔ definition = .record inner
  := by
  cases definition with
  | record schema =>
    constructor
    · intro h
      cases h
      rfl
    · intro h
      cases h
      rfl
  | _ =>
    constructor
    · nofun
    · nofun

/-- A record is accepted by the name of its schema. -/
theorem validateRecordWithLimits_isOk (hid : validateNsid file.id = .ok ())
    (hfile : catalog.schemas file.id = some file) {data : Json} :
  (validateRecordWithLimits library file.id data catalog.toCatalog flags limits).isOk = true ↔
    ∃ schema value, file.main = some (.record schema) ∧ parseJson flags data = .ok value ∧
      checkRecordType file.id value = .ok () ∧
      (validateValue (fileEnv library file catalog flags limits) (schema.expandLocalRefs file.id) value
        (documentContext limits value)).1.isOk = true
  := by
  have hresolve : catalog.toCatalog.resolve file.id =
      file.main.map fun definition => ⟨definition.expandLocalRefs file.id, file.fullRef mainName⟩ := by
    change catalog.resolve file.id = _
    rw [BaseCatalog.resolve, parseRef_file (hashSign_not_mem hid).1]
    dsimp only
    rw [hfile]
    rfl
  have hget : catalog.toCatalog.getSchemaFile file.id = some file := hfile
  rw [isOk_iff, validateRecordWithLimits, bind_eq_ok, prepareRecord, hresolve, hget]
  cases hmain : file.main with
  | none =>
    constructor
    · rintro ⟨record, hrecord, -⟩
      cases hrecord
    · rintro ⟨schema, value, heq, -⟩
      cases heq
  | some definition =>
    rw [Option.map_some]
    dsimp only
    constructor
    · rintro ⟨record, hrecord, hok⟩
      obtain ⟨value, hvalue, hrest⟩ := bind_eq_ok.mp hrecord
      obtain ⟨inner, hinner, hrest'⟩ := bind_eq_ok.mp hrest
      obtain ⟨u, htype, heq⟩ := bind_eq_ok.mp hrest'
      cases heq
      obtain ⟨schema, rfl, rfl⟩ := recordSchema_expand.mp hinner
      exact ⟨schema, value, rfl, hvalue, htype, isOk_iff.mpr hok⟩
    · rintro ⟨schema, value, heq, hvalue, htype, hok⟩
      cases heq
      use ⟨fileEnv library file catalog flags limits, schema.expandLocalRefs file.id, value⟩
      refine ⟨?_, isOk_iff.mp hok⟩
      rw [hvalue]
      refine bind_eq_ok.mpr ⟨value, rfl, bind_eq_ok.mpr ⟨_, recordSchema_expand.mpr
        ⟨schema, rfl, rfl⟩, ?_⟩⟩
      rw [htype]
      rfl

/-- A record is accepted by its file. -/
theorem validateRecordWithSchemaAndLimits_isOk {data : Json} :
  (validateRecordWithSchemaAndLimits library data file catalog.toCatalog flags limits).isOk = true ↔
    ∃ schema value, file.main = some (.record schema) ∧ parseJson flags data = .ok value ∧
      checkRecordType file.id value = .ok () ∧
      (validateValue (fileEnv library file catalog flags limits) schema value
        (documentContext limits value)).1.isOk = true
  := by
  rw [isOk_iff, validateRecordWithSchemaAndLimits, bind_eq_ok, prepareRecordWithSchema]
  cases hmain : file.main with
  | none =>
    constructor
    · rintro ⟨record, hrecord, -⟩
      cases hrecord
    · rintro ⟨schema, value, heq, -⟩
      cases heq
  | some definition =>
    dsimp only
    constructor
    · rintro ⟨record, hrecord, hok⟩
      obtain ⟨inner, hinner, hrest⟩ := bind_eq_ok.mp hrecord
      obtain ⟨value, hvalue, hrest'⟩ := bind_eq_ok.mp hrest
      obtain ⟨u, htype, heq⟩ := bind_eq_ok.mp hrest'
      cases heq
      obtain rfl := recordSchema_eq_ok.mp hinner
      exact ⟨inner, value, rfl, hvalue, htype, isOk_iff.mpr hok⟩
    · rintro ⟨schema, value, heq, hvalue, htype, hok⟩
      cases heq
      use ⟨fileEnv library file catalog flags limits, schema, value⟩
      refine ⟨?_, isOk_iff.mp hok⟩
      refine bind_eq_ok.mpr ⟨schema, rfl, bind_eq_ok.mpr ⟨value, hvalue, ?_⟩⟩
      rw [htype]
      rfl

/-- The check of a record by its file comes to no union that takes a value for another member when
its references are expanded. -/
def RecordAlike (library : ValidationLibrary) (catalog : BaseCatalog) (file : SchemaFile)
    (flags : ValidateFlags) (limits : ValidationLimits) (data : Json) : Prop :=
  ∀ inner value, file.main = some (.record inner) → parseJson flags data = .ok value →
    checkRecordType file.id value = .ok () →
    ComesAlike (fileEnv library file catalog flags limits)
      (validateValue (fileEnv library file catalog flags limits)) file inner value
      (documentContext limits value)

/-- Every union of a record reads the types of the values that it is met with as they are meant. -/
def ReadsRecord (file : SchemaFile) (flags : ValidateFlags) (data : Json) : Prop :=
  ∀ inner value, file.main = some (.record inner) → parseJson flags data = .ok value →
    ∀ refs closed part typeMarker, PartOf inner value (.union refs closed) part →
      part.getType = some typeMarker → ReadsType file refs typeMarker

/-- When the unions of a record read the types as they are meant, the check comes to no other ones. -/
theorem ReadsRecord.alike (hid : validateNsid file.id = .ok ()) {data : Json}
    (h : ReadsRecord file flags data) :
  RecordAlike library catalog file flags limits data
  := by
  intro inner value hmain hvalue _ refs closed part there hcomes _
  cases htype : part.getType with
  | none => rw [SameMember, memberOf, memberOf, htype, Option.bind_none, Option.bind_none]
  | some typeMarker =>
    exact (h inner value hmain hvalue refs closed part typeMarker hcomes.partOf htype).sameMember hid
      htype

/-- A record has one verdict, by the name of its schema and by the file, when the check by the file
comes to no union that takes a value for another member. -/
theorem validateRecord_agree (hid : validateNsid file.id = .ok ())
    (hfile : catalog.schemas file.id = some file) {data : Json}
    (h : RecordAlike library catalog file flags limits data) :
  (validateRecordWithLimits library file.id data catalog.toCatalog flags limits).isOk =
    (validateRecordWithSchemaAndLimits library data file catalog.toCatalog flags limits).isOk
  := by
  rw [Bool.eq_iff_iff, validateRecordWithLimits_isOk hid hfile, validateRecordWithSchemaAndLimits_isOk]
  apply exists_congr
  intro schema
  apply exists_congr
  intro value
  apply and_congr_right
  intro hmain
  apply and_congr_right
  intro hvalue
  apply and_congr_right
  intro htype
  rw [validateValue_eq]
  rw [(checkValue_alike hid (h schema value hmain hvalue htype)).1]

end Paths

/-! ### Lexicons that tell members apart -/

section Probes

/-- Definitions with names: some accept every value, and the others no value that has a type. -/
def probeDefs (names : List (Text × Text)) (accepts : Text → Bool) (nsid : Text) :
    List (Text × SchemaDef) :=
  (names.filter fun name => name.1 = nsid).map fun name =>
    (name.2, if accepts (fullName name.1 name.2) then .unknown else .token)

/-- A file with such definitions. -/
def probeFile (names : List (Text × Text)) (accepts : Text → Bool) (nsid : Text) : SchemaFile :=
  ⟨nsid, probeDefs names accepts nsid⟩

/-- A catalog of such files. -/
def probeCatalog (names : List (Text × Text)) (accepts : Text → Bool) : BaseCatalog where
  schemas nsid := some (probeFile names accepts nsid)
  named := by
    intro nsid file h
    cases h
    rfl

/-- A single hop. -/
def probeLimits : ValidationLimits := ⟨1, 1, 0⟩

variable {names : List (Text × Text)} {accepts : Text → Bool} {nsid name : Text}

theorem lookup_probeDefs (h : (nsid, name) ∈ names) :
  lookup name (probeDefs names accepts nsid) =
    some (if accepts (fullName nsid name) then .unknown else .token)
  := by
  induction names with
  | nil => cases h
  | cons head names ih =>
    rw [probeDefs, List.filter_cons]
    by_cases hnsid : head.1 = nsid
    · rw [if_pos (decide_eq_true hnsid), List.map_cons, lookup]
      by_cases hname : head.2 = name
      · rw [if_pos hname, hnsid, hname]
      · rw [if_neg hname]
        apply ih
        rcases List.mem_cons.mp h with rfl | hmem
        · exact absurd rfl hname
        · exact hmem
    · rw [if_neg (by simpa using hnsid)]
      apply ih
      rcases List.mem_cons.mp h with rfl | hmem
      · exact absurd rfl hnsid
      · exact hmem

theorem exists_resolveName_probe {id : Text} (h : (nsid, name) ∈ names) :
  ∃ fullRef, resolveName (probeCatalog names accepts) (probeFile names accepts id) nsid name =
    some ⟨if accepts (fullName nsid name) then .unknown else .token, fullRef⟩
  := by
  rw [resolveName]
  by_cases hnsid : nsid = id
  · subst hnsid
    have hsame : nsid = (probeFile names accepts nsid).id := rfl
    rw [if_pos hsame]
    change ∃ fullRef, (lookup name (probeDefs names accepts nsid)).map _ = _
    rw [lookup_probeDefs h]
    exact ⟨_, rfl⟩
  · have hne : nsid ≠ (probeFile names accepts id).id := hnsid
    rw [if_neg hne]
    change ∃ fullRef, (lookup name (probeDefs names accepts nsid)).map _ = _
    rw [lookup_probeDefs h]
    cases accepts (fullName nsid name) with
    | true => exact ⟨_, rfl⟩
    | false => exact ⟨_, rfl⟩

variable {library : ValidationLibrary} {file : SchemaFile} {flags : ValidateFlags}

/-- A value that has a type is no text. -/
theorem asString_of_getType {value : DataValue} {typeMarker : Text}
    (h : value.getType = some typeMarker) :
  value.asString = none
  := by
  cases value with
  | string text => cases h
  | _ => rfl

/-- A member that accepts every value has its verdict, and a union without the member has its own. -/
theorem validateUnion_probe {refs : List Text} {closed : Bool} {value : DataValue}
    {typeMarker : Text} (htype : value.getType = some typeMarker)
    (hnames : ∀ refPath ∈ memberOf refs value, ∃ name ∈ names,
      file.fullRefOf refPath = fullName name.1 name.2 ∧
      ∀ (catalog : BaseCatalog) (base : SchemaFile), base.id = file.id →
        resolveRef catalog.toCatalog (some base) refPath = resolveName catalog base name.1 name.2) :
  (validateUnion (fileEnv library (probeFile names accepts file.id) (probeCatalog names accepts) flags
      probeLimits)
    (validateValue (fileEnv library (probeFile names accepts file.id) (probeCatalog names accepts)
      flags probeLimits)) refs closed value (ValidationContext.new probeLimits)).1.isOk =
    ((memberOf refs value).map file.fullRefOf).elim (!closed) accepts
  := by
  cases hmember : memberOf refs value with
  | none =>
    cases closed with
    | true => exact closed_union_refuses hmember
    | false =>
      rw [memberOf_of_type htype] at hmember
      change (validateUnionInner _ _ refs false value _).1.isOk = true
      rw [validateUnionInner, htype]
      dsimp only
      rw [hmember]
      rfl
  | some refPath =>
    obtain ⟨name, hname, hfull, hresolve⟩ := hnames refPath hmember
    obtain ⟨fullRef, hresolved⟩ := @exists_resolveName_probe names accepts name.1 name.2 file.id hname
    rw [← hresolve (probeCatalog names accepts) (probeFile names accepts file.id) rfl] at hresolved
    change (validateUnionInner _ _ refs closed value _).1.isOk = _
    rw [validateUnionInner_of_member hmember hresolved rfl
      (by rw [Bool.and_eq_false_iff]; exact Or.inr rfl), Option.map_some, Option.elim_some, hfull,
      validateValue_eq]
    cases accepts (fullName name.1 name.2) with
    | true => rfl
    | false =>
      change (validateToken value _).isOk = false
      rw [validateToken, asString_of_getType htype]
      rfl

/-- Two lists of references of a union take a value for the same member when they have the same
verdict on it for all definitions. -/
theorem member_eq_of_sameVerdict (hid : validateNsid file.id = .ok ()) {refs refs' : List Text}
    {closed : Bool} {value : DataValue}
    (h : ∀ (base : SchemaFile) (catalog : BaseCatalog) (limits : ValidationLimits),
      base.id = file.id →
      SameVerdict
        (validateUnion (fileEnv library base catalog flags limits)
          (validateValue (fileEnv library base catalog flags limits)) refs closed value)
        (validateUnion (fileEnv library base catalog flags limits)
          (validateValue (fileEnv library base catalog flags limits)) refs' closed value)) :
  (memberOf refs value).map file.fullRefOf = (memberOf refs' value).map file.fullRefOf
  := by
  cases htype : value.getType with
  | none => rw [memberOf, memberOf, htype, Option.bind_none, Option.bind_none]
  | some typeMarker =>
    have hname : ∀ refPath, ∃ name : Text × Text, file.fullRefOf refPath = fullName name.1 name.2 ∧
        ∀ (catalog : BaseCatalog) (base : SchemaFile), base.id = file.id →
          resolveRef catalog.toCatalog (some base) refPath =
            resolveName catalog base name.1 name.2 := by
      intro refPath
      obtain ⟨nsid, name, -, hboth⟩ := exists_resolveName hid refPath
      exact ⟨(nsid, name), hboth⟩
    choose nameOf hnameOf using hname
    have hverdict : ∀ accepts : Text → Bool,
        ((memberOf refs value).map file.fullRefOf).elim (!closed) accepts =
          ((memberOf refs' value).map file.fullRefOf).elim (!closed) accepts := by
      intro accepts
      let names := ((memberOf refs value).toList ++ (memberOf refs' value).toList).map nameOf
      have hmem : ∀ refPath ∈ memberOf refs value, nameOf refPath ∈ names := by
        intro refPath hmember
        exact List.mem_map_of_mem (List.mem_append_left _ (Option.mem_toList.mpr hmember))
      have hmem' : ∀ refPath ∈ memberOf refs' value, nameOf refPath ∈ names := by
        intro refPath hmember
        exact List.mem_map_of_mem (List.mem_append_right _ (Option.mem_toList.mpr hmember))
      rw [← @validateUnion_probe names accepts library file flags refs closed value typeMarker htype
        fun refPath hmember => ⟨nameOf refPath, hmem refPath hmember, hnameOf refPath⟩,
        ← @validateUnion_probe names accepts library file flags refs' closed value typeMarker htype
        fun refPath hmember => ⟨nameOf refPath, hmem' refPath hmember, hnameOf refPath⟩]
      exact (h (probeFile names accepts file.id) (probeCatalog names accepts) probeLimits rfl _).1
    revert hverdict
    generalize (memberOf refs value).map file.fullRefOf = found
    generalize (memberOf refs' value).map file.fullRefOf = found'
    intro hverdict
    cases found with
    | none =>
      cases found' with
      | none => rfl
      | some fullRef' =>
        have hclosed := hverdict fun _ => closed
        rw [Option.elim_none, Option.elim_some] at hclosed
        cases closed with
        | true => cases hclosed
        | false => cases hclosed
    | some fullRef =>
      cases found' with
      | none =>
        have hclosed := hverdict fun _ => closed
        rw [Option.elim_none, Option.elim_some] at hclosed
        cases closed with
        | true => cases hclosed
        | false => cases hclosed
      | some fullRef' =>
        have hsame := hverdict fun other => other = fullRef
        rw [Option.elim_some, Option.elim_some, decide_eq_true rfl] at hsame
        rw [of_decide_eq_true hsame.symm]

end Probes

/-- A union has one meaning for a type exactly when it reads the type as it is meant.  A record has one
verdict when the check by the file comes to no union that takes a value for another member when its
references are expanded, and a union takes a value for another member exactly when the two verdicts
on it are not the same for all definitions. -/
theorem union_meaning_iff (library : ValidationLibrary) (catalog : BaseCatalog) (file : SchemaFile)
    (flags : ValidateFlags) (limits : ValidationLimits) (hid : validateNsid file.id = .ok ())
    (hfile : catalog.schemas file.id = some file) :
  (∀ refs typeMarker, UnionMeaning (fileEnv library file catalog flags limits) file refs typeMarker ↔
    ReadsType file refs typeMarker) ∧
  (∀ data, RecordAlike library catalog file flags limits data →
    (validateRecordWithLimits library file.id data catalog.toCatalog flags limits).isOk =
      (validateRecordWithSchemaAndLimits library data file catalog.toCatalog flags limits).isOk) ∧
  ∀ refs closed value, SameMember file refs value ↔
    ∀ (base : SchemaFile) (others : BaseCatalog) (limits : ValidationLimits), base.id = file.id →
      SameVerdict
        (validateUnion (fileEnv library base others flags limits)
          (validateValue (fileEnv library base others flags limits))
          (refs.map (SchemaDef.expandRef base.id)) closed value)
        (validateUnion (fileEnv library base others flags limits)
          (validateValue (fileEnv library base others flags limits)) refs closed value)
  := by
  refine ⟨?_, ?_, ?_⟩
  · intro refs typeMarker
    exact ⟨UnionMeaning.readsType hid, ReadsType.meaning hid⟩
  · intro data h
    exact validateRecord_agree hid hfile h
  · intro refs closed value
    constructor
    · intro h base others limits hbase
      obtain ⟨id, defs⟩ := base
      obtain rfl : id = file.id := hbase
      exact sameVerdict_union (@member_rel ⟨file.id, defs⟩ others hid _ refs value h)
    · intro h
      apply member_eq_of_sameVerdict hid
      intro base others limits hbase
      rw [← hbase]
      exact h base others limits hbase

/-! ### A member of another file -/

/-- A record with a picture, in a union of one member, and a text. -/
def pictureFile : SchemaFile where
  id := textOf "a.b.post"
  defs :=
    [(mainName, .record (.object [textOf "text"] []
        [(textOf "embed", .union [textOf "#image"] true)])),
      (textOf "image", .object [] [] [])]

def pictureCatalog : BaseCatalog := BaseCatalog.new.addSchema pictureFile

/-- A picture of some type. -/
def pictureFields (typeMarker : Text) : List (Text × Json) :=
  [(textOf "$type", .string (textOf "a.b.post")),
    (textOf "embed", .object [(textOf "$type", .string typeMarker)])]

/-- A record with a picture of some type. -/
def pictureData (typeMarker : Text) : Json :=
  .object (pictureFields typeMarker ++ [(textOf "text", .string (textOf "A picture"))])

/-- A record with a picture of some type, and without its text. -/
def untitledData (typeMarker : Text) : Json := .object (pictureFields typeMarker)

/-- A picture of another file is accepted by the file, and not by the name of the schema. -/
theorem union_meaning_foreign :
  validateNsid pictureFile.id = .ok () ∧
    pictureCatalog.schemas pictureFile.id = some pictureFile ∧
    (validateRecordWithSchemaAndLimits anyText (pictureData (textOf "evil.ns.x#image")) pictureFile
      pictureCatalog.toCatalog noFlags defaultLimits).isOk = true ∧
    (validateRecordWithLimits anyText pictureFile.id (pictureData (textOf "evil.ns.x#image"))
      pictureCatalog.toCatalog noFlags defaultLimits).isOk = false ∧
    ¬ UnionMeaning (fileEnv anyText pictureFile pictureCatalog noFlags defaultLimits) pictureFile
      [textOf "#image"] (textOf "evil.ns.x#image")
  := by
  refine ⟨rfl, rfl, rfl, rfl, ?_⟩
  intro h
  have hvalue : (DataValue.object [(textOf "$type",
    .string (textOf "evil.ns.x#image"))]).getType = some (textOf "evil.ns.x#image") := rfl
  have hmember := (h.member _ (List.Perm.refl _) _ hvalue (textOf "a.b.post#image")).mp rfl
  exact absurd hmember.1 (by decide)

/-- The union reads the type of a picture of the file as it is meant. -/
theorem readsType_picture :
  ReadsType pictureFile [textOf "#image"] (textOf "a.b.post#image")
  where
  not_mistaken refPath hmem hmistaken := by
    obtain rfl := List.mem_singleton.mp hmem
    exact (mistakenFor_iff.mp hmistaken).2 rfl
  not_missed hmissed := by
    have hne : textOf "a.b.post#image" ≠ pictureFile.id := by decide
    exact hne hmissed.1

/-- The only union in a record with a picture is the one of the picture. -/
theorem readsRecord_picture :
  ReadsRecord pictureFile noFlags (pictureData (textOf "a.b.post#image"))
  := by
  intro inner value hmain hvalue refs closed part typeMarker hpart htype
  cases hmain
  cases hvalue
  cases hpart with
  | @property _ _ _ property _ _ _ fields field hobject hfield hproperty h =>
    cases hobject
    rcases List.mem_cons.mp hfield with rfl | hfield
    · cases hproperty
    rcases List.mem_cons.mp hfield with rfl | hfield
    · cases hproperty
      cases h
      cases htype
      exact readsType_picture
    rcases List.mem_cons.mp hfield with rfl | hfield
    · cases hproperty
    · cases hfield

/-- The check of a record without its text comes to no union. -/
theorem recordAlike_untitled :
  RecordAlike anyText pictureCatalog pictureFile noFlags defaultLimits
    (untitledData (textOf "evil.ns.x#image"))
  := by
  intro inner value hmain hvalue _ refs closed part there hcomes _
  cases hmain
  cases hvalue
  cases hcomes with
  | property hobject hrequired _ _ _ _ _ =>
    have htext := hrequired (textOf "text") List.mem_cons_self
    rw [← Option.some.inj hobject] at htext
    cases htext

/-- Pictures of the file and of another one. -/
theorem union_meaning_iff_picture :
  UnionMeaning (fileEnv anyText pictureFile pictureCatalog noFlags defaultLimits) pictureFile
      [textOf "#image"] (textOf "a.b.post#image") ∧
    (validateRecordWithLimits anyText pictureFile.id (pictureData (textOf "a.b.post#image"))
      pictureCatalog.toCatalog noFlags defaultLimits).isOk = true ∧
    (validateRecordWithLimits anyText pictureFile.id (untitledData (textOf "evil.ns.x#image"))
      pictureCatalog.toCatalog noFlags defaultLimits).isOk = false ∧
    ¬ ∀ (base : SchemaFile) (others : BaseCatalog) (limits : ValidationLimits),
      base.id = pictureFile.id →
      SameVerdict
        (validateUnion (fileEnv anyText base others noFlags limits)
          (validateValue (fileEnv anyText base others noFlags limits))
          ([textOf "#image"].map (SchemaDef.expandRef base.id)) true
          (.object [(textOf "$type", .string (textOf "evil.ns.x#image"))]))
        (validateUnion (fileEnv anyText base others noFlags limits)
          (validateValue (fileEnv anyText base others noFlags limits)) [textOf "#image"] true
          (.object [(textOf "$type", .string (textOf "evil.ns.x#image"))]))
  := by
  obtain ⟨hmeaning, hagree, hsame⟩ :=
    union_meaning_iff anyText pictureCatalog pictureFile noFlags defaultLimits rfl rfl
  refine ⟨(hmeaning _ _).mpr readsType_picture, ?_, ?_, ?_⟩
  · rw [hagree _ (readsRecord_picture.alike rfl)]
    rfl
  · rw [hagree _ recordAlike_untitled]
    rfl
  · intro h
    have hmember : (none : Option Text) ≠ some (textOf "a.b.post#image") :=
      (Option.some_ne_none _).symm
    exact hmember ((hsame [textOf "#image"] true _).mpr h)

end Atproto.Lexicon.Validation
