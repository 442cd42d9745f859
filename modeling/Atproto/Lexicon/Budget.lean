import Atproto.Lexicon.Validate

/-!
# The budget of a validation

A validation charges steps to a meter and leaves the rest of its context as it was, so that what is
checked before a value does not change the verdict on it.  It never makes more than `max_ref_depth`
hops at once.
-/

namespace Atproto.Lexicon.Validation

open Atproto.Dasl Atproto.Repo Logic SearchTree

/-! ### The walk through a value -/

/-- A relation of checks that is kept when checks are put together. -/
structure Compositional (R : Validator → Validator → Prop) : Prop where
  leaf : ∀ check, R (leaf check) (leaf check)
  bind : ∀ {m m' n n'}, R m m' → R n n' → R (m >>= fun _ => n) (m' >>= fun _ => n')
  within : ∀ {segment m m'}, R m m' → R (within segment m) (within segment m')

namespace Compositional

variable {R : Validator → Validator → Prop} (hR : Compositional R)

include hR

theorem pure :
  R (Pure.pure ()) (Pure.pure ())
  := hR.leaf fun _ => .ok ()

theorem items {validate validate' : DataValue → Validator} {items : List DataValue}
    (h : ∀ value ∈ items, R (validate value) (validate' value)) (index : Nat) :
  R (validateItems validate index items) (validateItems validate' index items)
  := by
  induction items generalizing index with
  | nil => exact hR.pure
  | cons item items ih =>
    obtain ⟨hitem, hitems⟩ := List.forall_mem_cons.mp h
    exact hR.bind (hR.within hitem) (ih hitems (index + 1))

theorem array {minLength maxLength : Option Nat} {validate validate' : DataValue → Validator}
    {value : DataValue} (h : ∀ items, value.asArray = some items →
      ∀ item ∈ items, R (validate item) (validate' item)) :
  R (validateArray minLength maxLength validate value)
    (validateArray minLength maxLength validate' value)
  := by
  rw [validateArray, validateArray]
  cases hitems : value.asArray with
  | none => exact hR.leaf _
  | some items => exact hR.bind (hR.leaf _) (hR.items (h items hitems) 0)

theorem fields {validate validate' : Text → DataValue → Validator} {fields : List (Text × DataValue)}
    (h : ∀ field ∈ fields, R (validate field.1 field.2) (validate' field.1 field.2)) :
  R (validateFields validate fields) (validateFields validate' fields)
  := by
  induction fields with
  | nil => exact hR.pure
  | cons field fields ih =>
    obtain ⟨hfield, hfields⟩ := List.forall_mem_cons.mp h
    exact hR.bind hfield (ih hfields)

variable {properties properties' : List (Text × (DataValue → Validator))}

theorem field {nullable : List Text} {key : Text} {value : DataValue}
    (h : Option.Rel (fun v v' => R (v value) (v' value)) (lookup key properties)
      (lookup key properties')) :
  R (validateField nullable properties key value) (validateField nullable properties' key value)
  := by
  rw [validateField, validateField]
  by_cases htype : key = textOf "$type"
  · rw [if_pos htype, if_pos htype]
    exact hR.pure
  · rw [if_neg htype, if_neg htype]
    generalize lookup key properties = found at h
    generalize lookup key properties' = found' at h
    cases h with
    | none => exact hR.pure
    | some hvalue =>
      cases hnull : value.isNull with
      | false => exact hR.within hvalue
      | true =>
        cases hnullable : key.isIn nullable with
        | false => exact hR.leaf fun path => .error (.unexpectedNull path key)
        | true => exact hR.pure

theorem param {key : Text} {value : DataValue}
    (h : Option.Rel (fun v v' => R (v value) (v' value)) (lookup key properties)
      (lookup key properties')) :
  R (validateParam properties key value) (validateParam properties' key value)
  := by
  rw [validateParam, validateParam]
  generalize lookup key properties = found at h
  generalize lookup key properties' = found' at h
  cases h with
  | none => exact hR.pure
  | some hvalue => exact hR.within hvalue

theorem object {required nullable : List Text} {value : DataValue}
    (h : ∀ fields, value.asObject = some fields → ∀ field ∈ fields,
      Option.Rel (fun v v' => R (v field.2) (v' field.2)) (lookup field.1 properties)
        (lookup field.1 properties')) :
  R (validateObject required nullable properties value)
    (validateObject required nullable properties' value)
  := by
  rw [validateObject, validateObject]
  cases hfields : value.asObject with
  | none => exact hR.leaf _
  | some fields =>
    exact hR.bind (hR.leaf _) (hR.fields fun field hfield => hR.field (h fields hfields field hfield))

theorem params {required : List Text} {value : DataValue}
    (h : ∀ fields, value.asObject = some fields → ∀ field ∈ fields,
      Option.Rel (fun v v' => R (v field.2) (v' field.2)) (lookup field.1 properties)
        (lookup field.1 properties')) :
  R (validateParams required properties value) (validateParams required properties' value)
  := by
  rw [validateParams, validateParams]
  cases hfields : value.asObject with
  | none => exact hR.leaf _
  | some fields =>
    exact hR.bind (hR.leaf _) (hR.fields fun field hfield => hR.param (h fields hfields field hfield))

end Compositional

/-- A value is reached under a definition from a value with its definition, through items and fields
only. -/
inductive PartOf : SchemaDef → DataValue → SchemaDef → DataValue → Prop where
  | self {schema : SchemaDef} {value : DataValue} : PartOf schema value schema value
  | item {minLength maxLength : Option Nat} {items schema : SchemaDef} {value item part : DataValue}
    {values : List DataValue} (hvalue : value.asArray = some values) (hitem : item ∈ values)
    (h : PartOf items item schema part) : PartOf (.array minLength maxLength items) value schema part
  | property {required nullable : List Text} {properties : List (Text × SchemaDef)}
    {property schema : SchemaDef} {value part : DataValue} {fields : List (Text × DataValue)}
    {field : Text × DataValue} (hvalue : value.asObject = some fields) (hfield : field ∈ fields)
    (hproperty : lookup field.1 properties = some property)
    (h : PartOf property field.2 schema part) :
    PartOf (.object required nullable properties) value schema part
  | param {required : List Text} {properties : List (Text × SchemaDef)}
    {property schema : SchemaDef} {value part : DataValue} {fields : List (Text × DataValue)}
    {field : Text × DataValue} (hvalue : value.asObject = some fields) (hfield : field ∈ fields)
    (hproperty : lookup field.1 properties = some property)
    (h : PartOf property field.2 schema part) :
    PartOf (.params required properties) value schema part

section Walk

variable {R : Validator → Validator → Prop} {env : ValidationEnv}
  {hop hop' : SchemaDef → DataValue → Validator} {f : Text → Text}

/-- The checks of the references and unions among the parts of a value are related, where the former
have other references in place of their own. -/
structure HopsRelated (R : Validator → Validator → Prop) (env : ValidationEnv)
    (hop hop' : SchemaDef → DataValue → Validator) (f : Text → Text) (schema : SchemaDef)
    (value : DataValue) : Prop where
  ref : ∀ refPath part, PartOf schema value (.ref refPath) part →
    R (validateRef env hop (f refPath) part) (validateRef env hop' refPath part)
  union : ∀ refs closed part, PartOf schema value (.union refs closed) part →
    R (validateUnion env hop (refs.map f) closed part) (validateUnion env hop' refs closed part)

theorem HopsRelated.part {schema schema' : SchemaDef} {value value' : DataValue}
    (h : HopsRelated R env hop hop' f schema value)
    (hpart : ∀ {s part}, PartOf schema' value' s part → PartOf schema value s part) :
  HopsRelated R env hop hop' f schema' value'
  where
  ref refPath part hp := h.ref refPath part (hpart hp)
  union refs closed part hp := h.union refs closed part (hpart hp)

mutual

/-- The checks of a value are related when those of references and unions are. -/
theorem checkValue_rel (hR : Compositional R) :
  ∀ {schema : SchemaDef} {value : DataValue}, HopsRelated R env hop hop' f schema value →
    R (checkValue env hop (schema.mapRefs f) value) (checkValue env hop' schema value)
  | .boolean _, _, _ => hR.leaf _
  | .integer _, _, _ => hR.leaf _
  | .string _, _, _ => hR.leaf _
  | .bytes _, _, _ => hR.leaf _
  | .cidLink, _, _ => hR.leaf _
  | .array _ _ _, _, h =>
    hR.array fun _ hvalue _ hitem => checkValue_rel hR (h.part (.item hvalue hitem))
  | .object _ _ _, _, h =>
    hR.object fun _ hvalue _ hfield =>
      checkProperties_rel hR fun _ hproperty => h.part (.property hvalue hfield hproperty)
  | .blob _, _, _ => hR.leaf _
  | .ref refPath, value, h => h.ref refPath value .self
  | .union refs closed, value, h => h.union refs closed value .self
  | .unknown, _, _ => hR.pure
  | .token, _, _ => hR.leaf _
  | .params _ _, _, h =>
    hR.params fun _ hvalue _ hfield =>
      checkProperties_rel hR fun _ hproperty => h.part (.param hvalue hfield hproperty)
  | .record _, _, _ => hR.leaf fun _ => .error (.schemaStructureInvalid _)
  | .query, _, _ => hR.leaf fun _ => validatePrimary _
  | .procedure, _, _ => hR.leaf fun _ => validatePrimary _
  | .subscription, _, _ => hR.leaf fun _ => validatePrimary _
  | .permissionSet, _, _ => hR.leaf fun _ => validatePrimary _
  | .space, _, _ => hR.leaf fun _ => validatePrimary _

theorem checkProperties_rel (hR : Compositional R) :
  ∀ {properties : List (Text × SchemaDef)} {key : Text} {value : DataValue},
    (∀ schema, lookup key properties = some schema → HopsRelated R env hop hop' f schema value) →
    Option.Rel (fun v v' => R (v value) (v' value))
      (lookup key (checkProperties env hop (SchemaDef.mapProperties f properties)))
      (lookup key (checkProperties env hop' properties))
  | [], _, _, _ => .none
  | (name, schema) :: properties, key, value, h => by
    rw [SchemaDef.mapProperties, checkProperties, checkProperties, lookup, lookup]
    by_cases hname : name = key
    · rw [if_pos hname, if_pos hname]
      refine .some (checkValue_rel hR (h schema ?_))
      rw [lookup, if_pos hname]
    · rw [if_neg hname, if_neg hname]
      apply checkProperties_rel hR
      intro schema' hlookup
      apply h
      rw [lookup, if_neg hname, hlookup]

end

/-- The checks of a value are related when all of references and unions are. -/
theorem checkValue_rel_self (hR : Compositional R)
    (href : ∀ refPath value,
      R (validateRef env hop refPath value) (validateRef env hop' refPath value))
    (hunion : ∀ refs closed value,
      R (validateUnion env hop refs closed value) (validateUnion env hop' refs closed value))
    (schema : SchemaDef) (value : DataValue) :
  R (checkValue env hop schema value) (checkValue env hop' schema value)
  := by
  have h : HopsRelated R env hop hop' id schema value := by
    constructor
    · intro refPath part _
      exact href refPath part
    · intro refs closed part _
      rw [List.map_id]
      exact hunion refs closed part
  have hrel := checkValue_rel hR h
  rwa [SchemaDef.mapRefs_id] at hrel

end Walk

/-! ### What a check changes -/

/-- The error of a validation that has used up its steps. -/
def IsExhausted (error : ValidationError) : Prop :=
  ∃ path maxSteps, error = .refStepBudgetExhausted path maxSteps

/-- The steps of a validation. -/
def stepMeter : Meter ValidationError ValidationContext where
  read ctx := ctx.refSteps
  write steps ctx := { ctx with refSteps := steps }
  limit ctx := ctx.stepBudget
  Exhausted := IsExhausted
  read_write _ _ := rfl
  write_write _ _ _ := rfl
  write_read _ := rfl
  limit_write _ _ := rfl

/-- From the context the check changes only the steps, and they do not change what it says. -/
abbrev Steady (validate : Validator) (ctx : ValidationContext) : Prop :=
  Action.Metered stepMeter validate ctx

variable {ctx : ValidationContext}

theorem steady_leaf {check : Text → Except ValidationError Unit} :
  Steady (leaf check) ctx
  := Action.Metered.of_read fun _ => rfl

theorem steady_chargeStep :
  Steady chargeStep ctx
  := Action.Metered.charge fun ctx => ⟨ctx.currentPath, ctx.stepBudget, rfl⟩

theorem steady_within {segment : Text} {validate : Validator} (h : ∀ ctx, Steady validate ctx) :
  Steady (within segment validate) ctx
  := by
  apply Action.Metered.bracket _ _ (h _) rfl rfl (fun _ => rfl)
  intro steps
  change ({ ctx with path := (ctx.path ++ [segment]).dropLast, refSteps := steps } :
    ValidationContext) = _
  rw [List.dropLast_concat]
  rfl

theorem enterDepth_of_le {limits : ValidationLimits} {refPath : Text}
    (h : limits.maxRefDepth ≤ ctx.refDepth) :
  enterDepth limits refPath ctx =
    (.error (.refDepthExceeded ctx.currentPath limits.maxRefDepth refPath), ctx)
  := if_pos h

theorem enterDepth_of_lt {limits : ValidationLimits} {refPath : Text}
    (h : ctx.refDepth < limits.maxRefDepth) :
  enterDepth limits refPath ctx = (.ok (), { ctx with refDepth := ctx.refDepth + 1 })
  := if_neg (Nat.not_le_of_lt h)

/-- A check within a hop. -/
theorem steady_hop {limits : ValidationLimits} {refPath : Text} {validate : Validator}
    (h : ∀ ctx, Steady validate ctx) :
  Steady (enterHop limits refPath >>= fun _ => validate.andFinally ValidationContext.exitHop) ctx
  := by
  rw [enterHop, Action.bind_assoc]
  apply steady_chargeStep.bind
  intro _ steps
  rcases Nat.lt_or_ge ctx.refDepth limits.maxRefDepth with hdepth | hdepth
  · apply (Action.Metered.bracket (fun ctx => { ctx with refDepth := ctx.refDepth + 1 })
      ValidationContext.exitHop (h _) rfl rfl (fun _ => rfl) fun _ => rfl).congr
    intro n
    have hlt : (stepMeter.write n (stepMeter.write steps ctx)).refDepth < limits.maxRefDepth := hdepth
    rw [Action.bind_apply, enterDepth_of_lt hlt]
    rfl
  · apply (Action.Metered.of_read (f := fun ctx =>
      .error (.refDepthExceeded ctx.currentPath limits.maxRefDepth refPath)) fun _ => rfl).congr
    intro n
    have hge : limits.maxRefDepth ≤ (stepMeter.write n (stepMeter.write steps ctx)).refDepth := hdepth
    rw [Action.bind_apply, enterDepth_of_le hge]
    rfl

/-- Checks that are steady in every context. -/
theorem compositional_steady :
  Compositional fun validate _ => ∀ ctx, Steady validate ctx
  where
  leaf _ _ := steady_leaf
  bind hm hn ctx := (hm ctx).bind fun _ _ => hn _
  within h _ := steady_within h

section Hops

variable {env : ValidationEnv} {hop : SchemaDef → DataValue → Validator}

/-- A definition that was not being entered is not after it has been left. -/
theorem leave_visit {id : Text} (h : ctx.visitedRefs id = false) (steps : Nat) :
  (stepMeter.write steps (ctx.visit id)).leave id = stepMeter.write steps ctx
  := by
  change ({ ctx with
    visitedRefs := Function.update (Function.update ctx.visitedRefs id true) id false
    refSteps := steps } : ValidationContext) = _
  rw [Function.update_idem, ← h, Function.update_eq_self]
  rfl

/-- A member of a union that was not being entered for the value is not after it has been left. -/
theorem exitUnionTarget_enter {id : Text} (h : ctx.isNonproductiveUnion id = false) (steps : Nat) :
  (stepMeter.write steps (ctx.enterUnionTarget id)).exitUnionTarget ctx.path.length id =
    stepMeter.write steps ctx
  := by
  change ({ ctx with
    activeUnionFrames := Function.update
      (Function.update ctx.activeUnionFrames (ctx.path.length, id) true) (ctx.path.length, id) false
    activeUnionDefs := Function.update
      (Function.update ctx.activeUnionDefs id (ctx.activeUnionDefs id + 1)) id
      (Function.update ctx.activeUnionDefs id (ctx.activeUnionDefs id + 1) id - 1)
    refSteps := steps } : ValidationContext) = _
  have hframe : ctx.activeUnionFrames (ctx.path.length, id) = false := h
  rw [Function.update_self, Function.update_idem, Function.update_idem, Nat.add_sub_cancel,
    Function.update_eq_self, ← hframe, Function.update_eq_self]
  rfl

theorem steady_refInner (h : ∀ schema value ctx, Steady (hop schema value) ctx) {refPath : Text}
    {value : DataValue} :
  Steady (validateRefInner env hop refPath value) ctx
  := by
  rw [validateRefInner]
  cases resolveRef env.catalog env.baseSchema refPath with
  | none =>
    simp only
    split_ifs
    · exact Action.Metered.pure
    · exact Action.Metered.ofExcept
  | some resolved =>
    by_cases hvisited : ctx.visitedRefs resolved.id = true
    · apply (Action.Metered.ofExcept (x := if env.flags.strictRecursiveValidation then
        .error (.recursiveReference refPath) else .ok ())).congr
      intro n
      have hvisited' : (stepMeter.write n ctx).visitedRefs resolved.id = true := hvisited
      simp only [hvisited', if_true]
      cases env.flags.strictRecursiveValidation with
      | true => rfl
      | false => rfl
    · apply (Action.Metered.bracket (ValidationContext.visit resolved.id)
        (ValidationContext.leave resolved.id) (h resolved.definition value _) rfl rfl
        (fun _ => rfl) ?_).congr
      · intro n
        have hvisited' : ¬ (stepMeter.write n ctx).visitedRefs resolved.id = true := hvisited
        exact if_neg hvisited'
      · intro steps
        exact leave_visit (Bool.eq_false_iff.mpr hvisited) steps

theorem steady_unionInner (h : ∀ schema value ctx, Steady (hop schema value) ctx)
    {refs : List Text} {closed : Bool} {value : DataValue} :
  Steady (validateUnionInner env hop refs closed value) ctx
  := by
  rw [validateUnionInner]
  cases value.getType with
  | none => exact steady_leaf
  | some typeMarker =>
    simp only
    cases refs.find? (matchesRef typeMarker) with
    | none =>
      simp only
      split_ifs
      · exact steady_leaf
      · exact Action.Metered.pure
    | some refPath =>
      simp only
      cases resolveRef env.catalog env.baseSchema refPath with
      | none =>
        simp only
        split_ifs
        · exact Action.Metered.pure
        · exact Action.Metered.ofExcept
      | some resolved =>
        by_cases hactive : (ctx.isNonproductiveUnion resolved.id ||
          env.flags.strictRecursiveValidation && ctx.isRecursiveUnion resolved.id) = true
        · apply (Action.Metered.ofExcept (x := .error (.recursiveReference refPath))).congr
          intro n
          exact if_pos (show ((stepMeter.write n ctx).isNonproductiveUnion resolved.id || _) = true
            from hactive)
        · apply (Action.Metered.bracket (ValidationContext.enterUnionTarget resolved.id)
            (ValidationContext.exitUnionTarget ctx.path.length resolved.id)
            (h resolved.definition value _) rfl rfl (fun _ => rfl) ?_).congr
          · intro n
            exact if_neg (show ¬ ((stepMeter.write n ctx).isNonproductiveUnion resolved.id || _) =
              true from hactive)
          · intro steps
            apply exitUnionTarget_enter
            apply Bool.eq_false_iff.mpr
            intro hframe
            rw [hframe] at hactive
            exact hactive rfl

/-- A check is steady when what is done after a hop is. -/
theorem steady_checkValue (h : ∀ schema value ctx, Steady (hop schema value) ctx)
    (schema : SchemaDef) (value : DataValue) (ctx : ValidationContext) :
  Steady (checkValue env hop schema value) ctx
  := by
  revert ctx
  apply @checkValue_rel_self _ env hop hop compositional_steady
  · intro _ _ _
    exact steady_hop fun _ => steady_refInner h
  · intro _ _ _ _
    exact steady_hop fun _ => steady_unionInner h

end Hops

/-! ### The depth of the hops -/

/-- Two checks do the same in contexts with some hops made, and come back to as many. -/
def AgreeAt (depth : Nat) (m m' : Validator) : Prop :=
  ∀ ctx, ctx.refDepth = depth → m ctx = m' ctx ∧ (m ctx).2.refDepth = depth

variable {depth : Nat} {m m' : Validator}

theorem compositional_agreeAt :
  Compositional (AgreeAt depth)
  where
  leaf check ctx hctx := ⟨rfl, hctx⟩
  bind := by
    intro m m' n n' hm hn ctx hctx
    obtain ⟨heq, hback⟩ := hm ctx hctx
    rw [Action.bind_apply, Action.bind_apply, ← heq]
    cases hrun : m ctx with
    | mk result after =>
      rw [hrun] at hback
      cases result with
      | ok _ => exact hn after hback
      | error e => exact ⟨rfl, hback⟩
  within := by
    intro segment m m' hm ctx hctx
    obtain ⟨heq, hback⟩ := hm (ctx.pushPath segment) hctx
    refine ⟨?_, hback⟩
    change (_, _) = (_, _)
    rw [heq]

theorem agreeAt_hop {limits : ValidationLimits} {refPath : Text}
    (h : depth < limits.maxRefDepth → AgreeAt (depth + 1) m m') :
  AgreeAt depth (enterHop limits refPath >>= fun _ => m.andFinally ValidationContext.exitHop)
    (enterHop limits refPath >>= fun _ => m'.andFinally ValidationContext.exitHop)
  := by
  rw [enterHop, Action.bind_assoc, Action.bind_assoc]
  apply compositional_agreeAt.bind
  · intro ctx hctx
    refine ⟨rfl, ?_⟩
    rw [chargeStep]
    split_ifs
    · exact hctx
    · exact hctx
  · intro ctx hctx
    rcases Nat.lt_or_ge ctx.refDepth limits.maxRefDepth with hdepth | hdepth
    · rw [Action.bind_apply, Action.bind_apply, enterDepth_of_lt hdepth]
      obtain ⟨heq, hback⟩ := h (hctx ▸ hdepth) { ctx with refDepth := ctx.refDepth + 1 }
        (congrArg Nat.succ hctx)
      refine ⟨?_, ?_⟩
      · change (_, _) = (_, _)
        rw [heq]
      · exact congrArg Nat.pred hback
    · rw [Action.bind_apply, Action.bind_apply, enterDepth_of_le hdepth]
      exact ⟨rfl, hctx⟩

section Hops

variable {env : ValidationEnv} {hop hop' : SchemaDef → DataValue → Validator}

theorem agreeAt_refInner (h : ∀ schema value, AgreeAt depth (hop schema value) (hop' schema value))
    (refPath : Text) (value : DataValue) :
  AgreeAt depth (validateRefInner env hop refPath value) (validateRefInner env hop' refPath value)
  := by
  rw [validateRefInner, validateRefInner]
  cases resolveRef env.catalog env.baseSchema refPath with
  | none =>
    simp only
    split_ifs
    · exact compositional_agreeAt.pure
    · exact compositional_agreeAt.leaf fun _ => .error (.unresolvedReference refPath)
  | some resolved =>
    intro ctx hctx
    simp only
    split_ifs
    · exact ⟨rfl, hctx⟩
    · exact ⟨rfl, hctx⟩
    · obtain ⟨heq, hback⟩ := h resolved.definition value (ctx.visit resolved.id) hctx
      refine ⟨?_, hback⟩
      change (_, _) = (_, _)
      rw [heq]

theorem agreeAt_unionInner
    (h : ∀ schema value, AgreeAt depth (hop schema value) (hop' schema value)) (refs : List Text)
    (closed : Bool) (value : DataValue) :
  AgreeAt depth (validateUnionInner env hop refs closed value)
    (validateUnionInner env hop' refs closed value)
  := by
  rw [validateUnionInner, validateUnionInner]
  cases value.getType with
  | none => exact compositional_agreeAt.leaf _
  | some typeMarker =>
    simp only
    cases refs.find? (matchesRef typeMarker) with
    | none =>
      simp only
      split_ifs
      · exact compositional_agreeAt.leaf _
      · exact compositional_agreeAt.pure
    | some refPath =>
      simp only
      cases resolveRef env.catalog env.baseSchema refPath with
      | none =>
        simp only
        split_ifs
        · exact compositional_agreeAt.pure
        · exact compositional_agreeAt.leaf fun _ => .error (.unresolvedReference refPath)
      | some resolved =>
        intro ctx hctx
        simp only
        split_ifs
        · exact ⟨rfl, hctx⟩
        · obtain ⟨heq, hback⟩ := h resolved.definition value (ctx.enterUnionTarget resolved.id) hctx
          refine ⟨?_, hback⟩
          change (_, _) = (_, _)
          rw [heq]

/-- Checks agree at a depth when those after a hop agree one level deeper, as far as there is one. -/
theorem agreeAt_checkValue
    (h : depth < env.limits.maxRefDepth →
      ∀ schema value, AgreeAt (depth + 1) (hop schema value) (hop' schema value))
    (schema : SchemaDef) (value : DataValue) :
  AgreeAt depth (checkValue env hop schema value) (checkValue env hop' schema value)
  := by
  apply checkValue_rel_self compositional_agreeAt
  · intro refPath value
    exact agreeAt_hop fun hdepth => agreeAt_refInner (h hdepth) refPath value
  · intro refs closed value
    exact agreeAt_hop fun hdepth => agreeAt_unionInner (h hdepth) refs closed value

end Hops

/-- With enough levels for all hops that may be made, neither their number nor what is beyond them
matters. -/
theorem agreeAt_levels {env : ValidationEnv} {beyond beyond' : SchemaDef → DataValue → Validator}
    {levels levels' : Nat} (hlevels : env.limits.maxRefDepth ≤ depth + levels)
    (hlevels' : env.limits.maxRefDepth ≤ depth + levels') (schema : SchemaDef) (value : DataValue) :
  AgreeAt depth (validateLevels env beyond levels schema value)
    (validateLevels env beyond' levels' schema value)
  := by
  induction levels generalizing depth levels' schema value with
  | zero =>
    have hdeep : ¬ depth < env.limits.maxRefDepth := Nat.not_lt_of_le hlevels
    cases levels' with
    | zero => exact agreeAt_checkValue (fun hdepth => absurd hdepth hdeep) schema value
    | succ levels' => exact agreeAt_checkValue (fun hdepth => absurd hdepth hdeep) schema value
  | succ levels ih =>
    cases levels' with
    | zero =>
      have hdeep : ¬ depth < env.limits.maxRefDepth := Nat.not_lt_of_le hlevels'
      exact agreeAt_checkValue (fun hdepth => absurd hdepth hdeep) schema value
    | succ levels' =>
      apply agreeAt_checkValue
      intro _ schema value
      apply ih
      · omega
      · omega

/-- What would be done beyond `max_ref_depth` hops does not matter. -/
theorem validateLevels_beyond (env : ValidationEnv) (beyond : SchemaDef → DataValue → Validator) :
  validateLevels env beyond env.limits.maxRefDepth = validateValue env
  := by
  funext schema value ctx
  exact (agreeAt_levels (Nat.le_add_left _ _) (Nat.le_add_left _ _) schema value ctx rfl).1

/-- The recursion of the code, which counts no levels. -/
theorem validateValue_eq (env : ValidationEnv) :
  validateValue env = checkValue env (validateValue env)
  := by
  funext schema value ctx
  apply (@agreeAt_levels _ env _ _ _ (env.limits.maxRefDepth + 1) _ _ schema value ctx rfl).1
  · exact Nat.le_add_left _ _
  · omega

/-! ### Whole validations -/

theorem steady_validateLevels {env : ValidationEnv} {levels : Nat} (schema : SchemaDef)
    (value : DataValue) (ctx : ValidationContext) :
  Steady (validateLevels env (fun _ _ => pure ()) levels schema value) ctx
  := by
  induction levels generalizing schema value ctx with
  | zero => exact steady_checkValue (fun _ _ _ => Action.Metered.pure) schema value ctx
  | succ levels ih => exact steady_checkValue ih schema value ctx

theorem steady_validateValue {env : ValidationEnv} (schema : SchemaDef) (value : DataValue)
    (ctx : ValidationContext) :
  Steady (validateValue env schema value) ctx
  := steady_validateLevels schema value ctx

/-- A value in the one that is checked, with its name or index and what it is checked against. -/
structure SubValue where
  segment : Text
  schema : SchemaDef
  value : DataValue

/-- The check of a part. -/
def SubValue.check (env : ValidationEnv) (part : SubValue) : Validator :=
  within part.segment (validateValue env part.schema part.value)

/-- The context after parts have been checked one after another, whatever was found. -/
def afterParts (env : ValidationEnv) (parts : List SubValue) (ctx : ValidationContext) :
    ValidationContext :=
  parts.foldl (fun ctx part => (part.check env ctx).2) ctx

theorem steady_part {env : ValidationEnv} (part : SubValue) (ctx : ValidationContext) :
  Steady (part.check env) ctx
  := steady_within (steady_validateValue part.schema part.value)

/-- Parts that have been checked have only charged steps. -/
theorem afterParts_eq (env : ValidationEnv) (parts : List SubValue) (ctx : ValidationContext) :
  ∃ extra, afterParts env parts ctx = { ctx with refSteps := ctx.refSteps + extra }
  := by
  induction parts generalizing ctx with
  | nil => exact ⟨0, rfl⟩
  | cons part parts ih =>
    obtain ⟨extra, hafter⟩ := ih (part.check env ctx).2
    have hsteady := @steady_part env part ctx
    have hgrows : ctx.refSteps ≤ (part.check env ctx).2.refSteps := hsteady.grows
    refine ⟨(part.check env ctx).2.refSteps - ctx.refSteps + extra, ?_⟩
    rw [afterParts, List.foldl_cons]
    refine hafter.trans ?_
    rw [← Nat.add_assoc, Nat.add_sub_cancel' hgrows]
    rw [show (part.check env ctx).2 = { ctx with refSteps := (part.check env ctx).2.refSteps } from
      hsteady.restores]

/-- The verdict on a part does not depend on the parts checked before it, unless steps run out. -/
theorem check_afterParts (env : ValidationEnv) (parts : List SubValue) (part : SubValue)
    (ctx : ValidationContext) :
  (∃ e, (part.check env (afterParts env parts ctx)).1 = Except.error e ∧ IsExhausted e) ∨
    (part.check env (afterParts env parts ctx)).1 = (part.check env ctx).1
  := by
  obtain ⟨extra, hafter⟩ := afterParts_eq env parts ctx
  rw [hafter]
  rcases (@steady_part env part ctx).uniform extra with hout | hsame
  · exact Or.inl hout
  · right
    have hfst := congrArg Prod.fst hsame
    exact hfst

/-! ### Records -/

/-- An object with a text of its own has no parts. -/
theorem countValueNodes_parseTagged {fields : List (Text × Json)} {only notString : Text}
    {data : Json} {make : Text → DataValue} (hmake : ∀ text, countValueNodes (make text) = 1)
    {value : DataValue} (h : parseTagged fields only notString data make = .ok value) :
  countValueNodes value = 1
  := by
  rw [parseTagged] at h
  split_ifs at h
  cases htext : data.asStr with
  | none =>
    rw [htext] at h
    cases h
  | some text =>
    rw [htext] at h
    cases h
    exact hmake text

theorem countValueNodes_parseBlob {flags : ValidateFlags} {fields : List (Text × Json)}
    {value : DataValue} (h : parseBlob flags fields = .ok value) :
  countValueNodes value = 1
  := by
  rw [parseBlob] at h
  cases hmime : (lookup (textOf "mimeType") fields).bind Json.asStr with
  | none =>
    rw [hmime] at h
    cases h
  | some mimeType =>
    rw [hmime] at h
    simp only at h
    cases hsize : (lookup (textOf "size") fields).bind asU64 with
    | none =>
      rw [hsize] at h
      cases h
    | some size =>
      rw [hsize] at h
      obtain ⟨refLink, -, h⟩ := Logic.bind_eq_ok.mp h
      split_ifs at h
      cases h
      rfl

/-- Bytes, links and blobs have no parts. -/
theorem countValueNodes_parseSpecial {flags : ValidateFlags} {fields : List (Text × Json)}
    {value : DataValue} (h : parseSpecial flags fields = some (.ok value)) :
  countValueNodes value = 1
  := by
  rw [parseSpecial] at h
  cases hbytes : lookup (textOf "$bytes") fields with
  | some bytes =>
    rw [hbytes] at h
    exact countValueNodes_parseTagged (fun _ => rfl) (Option.some.inj h)
  | none =>
    rw [hbytes] at h
    simp only at h
    cases hlink : lookup (textOf "$link") fields with
    | some link =>
      rw [hlink] at h
      exact countValueNodes_parseTagged (fun _ => rfl) (Option.some.inj h)
    | none =>
      rw [hlink] at h
      simp only at h
      cases htype : lookup (textOf "$type") fields with
      | none =>
        rw [htype] at h
        cases h
      | some type =>
        rw [htype] at h
        simp only at h
        cases hmarker : type.asStr with
        | none =>
          rw [hmarker] at h
          cases h
        | some typeMarker =>
          rw [hmarker] at h
          simp only at h
          split_ifs at h
          · cases h
          · exact countValueNodes_parseBlob (Option.some.inj h)

theorem nodes_pos (data : Json) :
  1 ≤ data.nodes.length
  := by
  cases data with
  | null => exact Nat.le_refl 1
  | bool value => exact Nat.le_refl 1
  | number value => exact Nat.le_refl 1
  | string value => exact Nat.le_refl 1
  | array items => exact Nat.succ_pos _
  | object fields => exact Nat.succ_pos _

mutual

/-- A value has no more values in it than the JSON it was read from. -/
theorem countValueNodes_le {flags : ValidateFlags} :
  ∀ {data : Json} {value : DataValue}, parseJson flags data = .ok value →
    countValueNodes value ≤ data.nodes.length
  | .null, _, h => by
    cases h
    exact Nat.le_refl 1
  | .bool _, _, h => by
    cases h
    exact Nat.le_refl 1
  | .number number, _, h => by
    cases h
    rw [parseNumber]
    cases number.integer with
    | none => exact Nat.le_refl 1
    | some n =>
      simp only
      split_ifs
      · exact Nat.le_refl 1
      · exact Nat.le_refl 1
  | .string _, _, h => by
    cases h
    exact Nat.le_refl 1
  | .array items, _, h => by
    rw [parseJson] at h
    obtain ⟨values, hvalues, h⟩ := Logic.bind_eq_ok.mp h
    cases h
    rw [countValueNodes, Json.nodes, List.length_cons, Nat.add_comm]
    exact Nat.succ_le_succ (countItems_le hvalues)
  | .object fields, _, h => by
    rw [parseJson] at h
    cases hspecial : parseSpecial flags fields with
    | some result =>
      rw [hspecial] at h
      simp only at h
      rw [h] at hspecial
      rw [countValueNodes_parseSpecial hspecial]
      exact nodes_pos _
    | none =>
      rw [hspecial] at h
      obtain ⟨values, hvalues, h⟩ := Logic.bind_eq_ok.mp h
      cases h
      rw [countValueNodes, Json.nodes, List.length_cons, Nat.add_comm]
      exact Nat.succ_le_succ (countFields_le hvalues)

theorem countItems_le {flags : ValidateFlags} :
  ∀ {items : List Json} {values : List DataValue}, parseItems flags items = .ok values →
    countItems values ≤ (Json.nodesOfItems items).length
  | [], _, h => by
    cases h
    exact Nat.le_refl 0
  | _ :: _, _, h => by
    rw [parseItems] at h
    obtain ⟨value, hvalue, h⟩ := Logic.bind_eq_ok.mp h
    obtain ⟨values, hvalues, h⟩ := Logic.bind_eq_ok.mp h
    cases h
    rw [countItems, Json.nodesOfItems, List.length_append]
    exact Nat.add_le_add (countValueNodes_le hvalue) (countItems_le hvalues)

theorem countFields_le {flags : ValidateFlags} :
  ∀ {fields : List (Text × Json)} {values : List (Text × DataValue)},
    parseFields flags fields = .ok values →
    countFields values ≤ (Json.nodesOfFields fields).length
  | [], _, h => by
    cases h
    exact Nat.le_refl 0
  | (_, _) :: _, _, h => by
    rw [parseFields] at h
    split_ifs at h
    obtain ⟨value, hvalue, h⟩ := Logic.bind_eq_ok.mp h
    obtain ⟨values, hvalues, h⟩ := Logic.bind_eq_ok.mp h
    cases h
    rw [countFields, Json.nodesOfFields, List.length_append]
    exact Nat.add_le_add (countValueNodes_le hvalue) (countFields_le hvalues)

end

theorem stepBudget_documentContext (limits : ValidationLimits) (value : DataValue) :
  (documentContext limits value).stepBudget ≤
    limits.maxRefSteps + limits.maxRefStepsPerNode * countValueNodes value
  := by
  change min (limits.maxRefSteps +
    min (limits.maxRefStepsPerNode * min (countValueNodes value) usizeMax) usizeMax) usizeMax ≤ _
  refine (Nat.min_le_left _ _).trans (Nat.add_le_add_left ((Nat.min_le_left _ _).trans ?_) _)
  exact Nat.mul_le_mul_left _ (Nat.min_le_left _ _)

/-- A document is checked within its budget. -/
theorem refSteps_validate (record : PreparedRecord) :
  record.validate.2.refSteps ≤ record.env.limits.maxRefSteps +
    record.env.limits.maxRefStepsPerNode * countValueNodes record.value
  := by
  have hsteady := @steady_validateValue record.env record.schema record.value
    (documentContext record.env.limits record.value)
  exact (hsteady.bounded (Nat.zero_le _)).trans (stepBudget_documentContext _ _)

/-- The value of a prepared record was read from the data. -/
theorem parseJson_of_prepareRecord {library : ValidationLibrary} {nsid : Text} {data : Json}
    {catalog : Catalog} {flags : ValidateFlags} {limits : ValidationLimits}
    {record : PreparedRecord}
    (h : prepareRecord library nsid data catalog flags limits = .ok record) :
  parseJson flags data = .ok record.value ∧ record.env.flags = flags ∧ record.env.limits = limits
  := by
  rw [prepareRecord] at h
  cases hresolve : catalog.resolve nsid with
  | none =>
    rw [hresolve] at h
    cases h
  | some schema =>
    rw [hresolve] at h
    obtain ⟨value, hvalue, h⟩ := Logic.bind_eq_ok.mp h
    obtain ⟨inner, -, h⟩ := Logic.bind_eq_ok.mp h
    obtain ⟨-, -, h⟩ := Logic.bind_eq_ok.mp h
    cases h
    exact ⟨hvalue, rfl, rfl⟩

theorem parseJson_of_prepareRecordWithSchema {library : ValidationLibrary} {data : Json}
    {schemaFile : SchemaFile} {catalog : Catalog} {flags : ValidateFlags}
    {limits : ValidationLimits} {record : PreparedRecord}
    (h : prepareRecordWithSchema library data schemaFile catalog flags limits = .ok record) :
  parseJson flags data = .ok record.value ∧ record.env.flags = flags ∧ record.env.limits = limits
  := by
  rw [prepareRecordWithSchema] at h
  cases hmain : schemaFile.main with
  | none =>
    rw [hmain] at h
    cases h
  | some definition =>
    rw [hmain] at h
    obtain ⟨inner, -, h⟩ := Logic.bind_eq_ok.mp h
    obtain ⟨value, hvalue, h⟩ := Logic.bind_eq_ok.mp h
    obtain ⟨-, -, h⟩ := Logic.bind_eq_ok.mp h
    cases h
    exact ⟨hvalue, rfl, rfl⟩

/-- Whatever the catalog, the record and the limits are, a validation makes a number of hops that the
limits and the values in the record bound, and never more at once than `max_ref_depth`: what would be
done beyond them does not matter.  Checking a value charges steps and leaves everything else in the
context as it was, so that the verdict on a part does not depend on the parts checked before it, unless
the steps run out. -/
theorem validation_within_budget (library : ValidationLibrary) (catalog : Catalog)
    (flags : ValidateFlags) (limits : ValidationLimits) :
  (∀ nsid data record, prepareRecord library nsid data catalog flags limits = .ok record →
    validateRecordWithLimits library nsid data catalog flags limits = record.validate.1 ∧
    record.validate.2.refSteps ≤
      limits.maxRefSteps + limits.maxRefStepsPerNode * data.nodes.length) ∧
  (∀ schemaFile data record,
    prepareRecordWithSchema library data schemaFile catalog flags limits = .ok record →
    validateRecordWithSchemaAndLimits library data schemaFile catalog flags limits =
      record.validate.1 ∧
    record.validate.2.refSteps ≤
      limits.maxRefSteps + limits.maxRefStepsPerNode * data.nodes.length) ∧
  ∀ env : ValidationEnv, env.limits = limits →
    validateValue env = checkValue env (validateValue env) ∧
    (∀ beyond, validateLevels env beyond limits.maxRefDepth = validateValue env) ∧
    (∀ schema value (ctx : ValidationContext), ∃ steps, ctx.refSteps ≤ steps ∧
      (ctx.refSteps ≤ ctx.stepBudget → steps ≤ ctx.stepBudget) ∧
      (validateValue env schema value ctx).2 = { ctx with refSteps := steps }) ∧
    ∀ (parts : List SubValue) (part : SubValue) (ctx : ValidationContext),
      (∃ e, (part.check env (afterParts env parts ctx)).1 = Except.error e ∧ IsExhausted e) ∨
      (part.check env (afterParts env parts ctx)).1 = (part.check env ctx).1
  := by
  refine ⟨?_, ?_, ?_⟩
  · intro nsid data record h
    obtain ⟨hvalue, -, rfl⟩ := parseJson_of_prepareRecord h
    refine ⟨?_, (refSteps_validate record).trans ?_⟩
    · rw [validateRecordWithLimits, h]
      rfl
    · exact Nat.add_le_add_left (Nat.mul_le_mul_left _ (countValueNodes_le hvalue)) _
  · intro schemaFile data record h
    obtain ⟨hvalue, -, rfl⟩ := parseJson_of_prepareRecordWithSchema h
    refine ⟨?_, (refSteps_validate record).trans ?_⟩
    · rw [validateRecordWithSchemaAndLimits, h]
      rfl
    · exact Nat.add_le_add_left (Nat.mul_le_mul_left _ (countValueNodes_le hvalue)) _
  · rintro env rfl
    refine ⟨validateValue_eq env, validateLevels_beyond env, ?_, check_afterParts env⟩
    intro schema value ctx
    have hsteady := @steady_validateValue env schema value ctx
    exact ⟨_, hsteady.grows, hsteady.bounded, hsteady.restores⟩

/-! ### A list of itself -/

/-- Checks that accept every text. -/
def anyText : ValidationLibrary where
  graphemeCount text := text.bytes.length
  validateStringFormat _ _ _ := .ok ()
  validateCid _ := .ok ()
  decodedLen base64 := some base64.bytes.length
  mimeTypeMatchesAny _ _ := true

/-- No options. -/
def noFlags : ValidateFlags := ⟨false, false, false, false⟩

/-- The limits of a validation that is given none. -/
def defaultLimits : ValidationLimits := ⟨256, 100000, 16⟩

/-- A record with a list: a definition of an object that has one of its own kind in it. -/
def listFile : SchemaFile where
  id := textOf "a.b.list"
  defs :=
    [(mainName, .record (.object [] [] [(textOf "head", .ref (textOf "#node"))])),
      (textOf "node", .object [] []
        [(textOf "next", .ref (textOf "#node")), (textOf "value", .boolean ⟨none⟩)])]

/-- A list of two of them. -/
def listData : Json :=
  .object [(textOf "$type", .string (textOf "a.b.list")),
    (textOf "head", .object [(textOf "value", .bool true),
      (textOf "next", .object [(textOf "value", .bool false)])])]

def listCatalog : Catalog := (BaseCatalog.new.addSchema listFile).toCatalog

def listRecord : PreparedRecord where
  env := ⟨anyText, listCatalog, noFlags, listFile, defaultLimits⟩
  schema := .object [] [] [(textOf "head", .ref (textOf "a.b.list#node"))]
  value := .object [(textOf "$type", .string (textOf "a.b.list")),
    (textOf "head", .object [(textOf "value", .boolean true),
      (textOf "next", .object [(textOf "value", .boolean false)])])]

theorem prepare_listRecord :
  prepareRecord anyText (textOf "a.b.list") listData listCatalog noFlags defaultLimits =
    .ok listRecord
  := by
  rfl

/-- The list is checked with two hops. -/
theorem validation_within_budget_list :
  listRecord.validate.1 = .ok () ∧ listRecord.validate.2.refSteps = 2 ∧
    validateRecordWithLimits anyText (textOf "a.b.list") listData listCatalog noFlags defaultLimits =
      listRecord.validate.1 ∧
    2 ≤ defaultLimits.maxRefSteps + defaultLimits.maxRefStepsPerNode * listData.nodes.length
  := by
  have h := (validation_within_budget anyText listCatalog noFlags defaultLimits).1 _ _ _
    prepare_listRecord
  exact ⟨rfl, rfl, h.1, h.2⟩

end Atproto.Lexicon.Validation
