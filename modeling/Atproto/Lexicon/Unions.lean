import Atproto.Lexicon.Conforms

/-!
# The members of unions

A member of a union is named by a full reference, and a value by its type.  A union takes more types
for a member than the full reference: for one of the same file, every type that ends with its name.
Where it takes no other, the order of the references does not matter.
-/

namespace Atproto.Lexicon.Validation

open Atproto.Dasl Atproto.Repo Logic SearchTree

/-! ### Full references -/

/-- The sign before the name of a definition. -/
abbrev hashSign : UInt8 := 0x23

/-- The full reference of the definition that a reference in a file names. -/
def SchemaFile.fullRefOf (file : SchemaFile) (refPath : Text) : Text :=
  match parseRef refPath with
  | (some nsid, name) => if name = mainName then nsid else nsid ++ textOf "#" ++ name
  | (none, name) => file.fullRef name

/-- A reference names a definition of a file. -/
inductive RefersTo : Text → Text → Text → Prop where
  | file (nsid : Text) (h : hashSign ∉ nsid.bytes) : RefersTo nsid nsid mainName
  | definition (nsid name : Text) (h : hashSign ∉ nsid.bytes) (hne : nsid.bytes ≠ []) :
    RefersTo (nsid ++ textOf "#" ++ name) nsid name

theorem bytes_hash (nsid name : Text) :
  (nsid ++ textOf "#" ++ name).bytes = nsid.bytes ++ hashSign :: name.bytes
  := by
  change nsid.bytes ++ [hashSign] ++ name.bytes = _
  rw [List.append_assoc, List.singleton_append]

theorem append_main (nsid : Text) :
  nsid ++ textOf "#main" = nsid ++ textOf "#" ++ mainName
  := by
  apply Text.ext
  change nsid.bytes ++ ((textOf "#").bytes ++ mainName.bytes) = _
  exact (List.append_assoc _ _ _).symm

/-- A text without the sign names the main definition. -/
theorem parseRef_file {nsid : Text} (h : hashSign ∉ nsid.bytes) :
  parseRef nsid = (some nsid, mainName)
  := by
  rw [parseRef, Text.splitOnce, dif_neg h]

/-- A text is parsed at the first sign. -/
theorem parseRef_definition {nsid name : Text} (h : hashSign ∉ nsid.bytes) (hne : nsid.bytes ≠ []) :
  parseRef (nsid ++ textOf "#" ++ name) = (some nsid, name)
  := by
  rw [parseRef, Text.splitOnce_eq_some (bytes_hash nsid name) h]
  exact if_neg hne

/-- A text that begins with the sign names a definition of the same file. -/
theorem parseRef_local (name : Text) :
  parseRef (textOf "#" ++ name) = (none, name)
  := by
  have hbytes : (textOf "#" ++ name).bytes = Text.empty.bytes ++ hashSign :: name.bytes := rfl
  rw [parseRef, Text.splitOnce_eq_some hbytes List.not_mem_nil]
  rfl

theorem parseRef_refersTo {refPath nsid name : Text} (h : RefersTo refPath nsid name) :
  parseRef refPath = (some nsid, name)
  := by
  cases h with
  | file nsid h => exact parseRef_file h
  | definition nsid name h hne => exact parseRef_definition h hne

/-- A reference names a definition of the same file, or one of the file that it names. -/
theorem local_or_refersTo (refPath : Text) :
  (∃ name, refPath = textOf "#" ++ name) ∨ ∃ nsid name, RefersTo refPath nsid name
  := by
  by_cases hmem : hashSign ∈ refPath.bytes
  · obtain ⟨nsid, name, hbytes, hnsid⟩ := Text.exists_split (by decide) hmem
    by_cases hne : nsid.bytes = []
    · left
      use name
      apply Text.ext
      rw [hbytes, hne]
      rfl
    · right
      have heq : refPath = nsid ++ textOf "#" ++ name := by
        apply Text.ext
        rw [hbytes, bytes_hash]
      subst heq
      exact ⟨nsid, name, .definition nsid name hnsid hne⟩
  · right
    exact ⟨refPath, mainName, .file refPath hmem⟩

/-- The name of a definition of a file, with the file. -/
def fullName (nsid name : Text) : Text := if name = mainName then nsid else nsid ++ textOf "#" ++ name

/-- Full names are different for different definitions. -/
theorem fullName_inj {nsid nsid' name name' : Text} (h : hashSign ∉ nsid.bytes)
    (h' : hashSign ∉ nsid'.bytes) (heq : fullName nsid name = fullName nsid' name') :
  nsid = nsid' ∧ name = name'
  := by
  have hmem : ∀ a b : Text, hashSign ∈ (a ++ textOf "#" ++ b).bytes := by
    intro a b
    rw [bytes_hash]
    exact List.mem_append_right _ List.mem_cons_self
  rw [fullName, fullName] at heq
  split_ifs at heq with hname hname' hname'
  · exact ⟨heq, hname.trans hname'.symm⟩
  · rw [heq] at h
    exact absurd (hmem nsid' name') h
  · rw [← heq] at h'
    exact absurd (hmem nsid name) h'
  · have hascii : hashSign.toNat < 0x80 := by decide
    have hsplit : Text.splitOnce hashSign hascii (nsid ++ textOf "#" ++ name) = some (nsid, name) :=
      Text.splitOnce_eq_some (bytes_hash nsid name) h
    rw [heq, Text.splitOnce_eq_some (bytes_hash nsid' name') h'] at hsplit
    cases hsplit
    exact ⟨rfl, rfl⟩

/-- A valid NSID has no number sign. -/
theorem hashSign_not_mem {nsid : Text} (h : validateNsid nsid = .ok ()) :
  hashSign ∉ nsid.bytes ∧ nsid.bytes ≠ []
  := by
  unfold validateNsid at h
  split at h
  · cases h
  rename_i hne
  split at h
  · cases h
  split at h
  · cases h
  rename_i hall
  refine ⟨?_, hne⟩
  intro hmem
  have hbyte := List.all_eq_true.mp (not_not.mp hall) _ hmem
  revert hbyte
  decide

section File

variable {file : SchemaFile} (hid : validateNsid file.id = .ok ())

theorem fullRefOf_local (name : Text) :
  file.fullRefOf (textOf "#" ++ name) = fullName file.id name
  := by
  rw [SchemaFile.fullRefOf, parseRef_local]
  rfl

theorem fullRefOf_refersTo {refPath nsid name : Text} (h : RefersTo refPath nsid name) :
  file.fullRefOf refPath = fullName nsid name
  := by
  rw [SchemaFile.fullRefOf, parseRef_refersTo h]
  rfl

theorem RefersTo.hashSign_not_mem {refPath nsid name : Text} (h : RefersTo refPath nsid name) :
  hashSign ∉ nsid.bytes
  := by
  cases h with
  | file nsid h => exact h
  | definition nsid name h hne => exact h

include hid

/-- A reference to the same file is another one of a file, with the same full reference. -/
theorem expandRef_local (name : Text) :
  RefersTo (SchemaDef.expandRef file.id (textOf "#" ++ name)) file.id name
  := by
  obtain ⟨hhash, hne⟩ := Validation.hashSign_not_mem hid
  have heq : SchemaDef.expandRef file.id (textOf "#" ++ name) = file.id ++ textOf "#" ++ name := by
    have hhead : (textOf "#" ++ name).bytes.head? = some 0x23 := rfl
    rw [SchemaDef.expandRef, if_pos hhead]
    apply Text.ext
    exact (List.append_assoc _ _ _).symm
  rw [heq]
  exact .definition file.id name hhash hne

omit hid in
theorem expandRef_refersTo {refPath nsid name : Text} (h : RefersTo refPath nsid name) :
  SchemaDef.expandRef file.id refPath = refPath
  := by
  apply if_neg
  intro hhead
  cases h with
  | file nsid h =>
    exact h (List.mem_of_mem_head? hhead)
  | definition nsid name h hne =>
    rw [bytes_hash, List.head?_append_of_ne_nil _ hne] at hhead
    exact h (List.mem_of_mem_head? hhead)

theorem fullRefOf_expandRef (refPath : Text) :
  file.fullRefOf (SchemaDef.expandRef file.id refPath) = file.fullRefOf refPath
  := by
  rcases local_or_refersTo refPath with ⟨name, rfl⟩ | ⟨nsid, name, h⟩
  · rw [fullRefOf_local, fullRefOf_refersTo (expandRef_local hid name)]
  · rw [expandRef_refersTo h]

end File

/-- The definition with a name in a file, where another file is at hand. -/
def resolveName (catalog : BaseCatalog) (file : SchemaFile) (nsid name : Text) : Option Schema :=
  if nsid = file.id then
    (file.getDef name).map fun definition => ⟨definition, file.fullRef name⟩
  else
    (catalog.schemas nsid).bind fun other => (other.getDef name).map fun definition =>
      ⟨definition.expandLocalRefs nsid, other.fullRef name⟩

section Resolve

variable {file : SchemaFile} (hid : validateNsid file.id = .ok ()) (catalog : BaseCatalog)

include hid

/-- What a reference resolves to depends only on the file and the name in it. -/
theorem exists_resolveName (refPath : Text) :
  ∃ nsid name, hashSign ∉ nsid.bytes ∧ file.fullRefOf refPath = fullName nsid name ∧
    ∀ (catalog : BaseCatalog) (base : SchemaFile), base.id = file.id →
      resolveRef catalog.toCatalog (some base) refPath = resolveName catalog base nsid name
  := by
  rcases local_or_refersTo refPath with ⟨name, rfl⟩ | ⟨nsid, name, h⟩
  · refine ⟨file.id, name, (hashSign_not_mem hid).1, fullRefOf_local name, ?_⟩
    intro catalog base hbase
    rw [resolveRef, parseRef_local, resolveName, if_pos hbase.symm]
    rfl
  · refine ⟨nsid, name, h.hashSign_not_mem, fullRefOf_refersTo h, ?_⟩
    intro catalog base hbase
    rw [resolveRef, parseRef_refersTo h, resolveName]
    by_cases hnsid : nsid = base.id
    · rw [if_pos hnsid]
      exact if_pos (decide_eq_true hnsid)
    · have hfile : ¬ (some nsid).all (fun nsid => nsid = base.id) = true := by
        rw [Option.all_some, decide_eq_true_iff]
        exact hnsid
      rw [if_neg hnsid]
      change (if (some nsid).all (fun nsid => decide (nsid = base.id)) = true then _
        else catalog.resolve refPath) = _
      rw [if_neg hfile, BaseCatalog.resolve, parseRef_refersTo h]
      dsimp only
      cases catalog.schemas nsid with
      | none => rfl
      | some other => rfl

/-- References with the same full reference resolve to the same definition. -/
theorem resolveRef_congr {refPath refPath' : Text}
    (h : file.fullRefOf refPath = file.fullRefOf refPath') :
  resolveRef catalog.toCatalog (some file) refPath =
    resolveRef catalog.toCatalog (some file) refPath'
  := by
  obtain ⟨nsid, name, hnsid, hfull, hresolve⟩ := exists_resolveName hid refPath
  obtain ⟨nsid', name', hnsid', hfull', hresolve'⟩ := exists_resolveName hid refPath'
  rw [hfull, hfull'] at h
  obtain ⟨rfl, rfl⟩ := fullName_inj hnsid hnsid' h
  rw [hresolve catalog file rfl, hresolve' catalog file rfl]

end Resolve

/-! ### The types that a reference takes -/

theorem matchesRef_local {typeMarker name : Text} :
  matchesRef typeMarker (textOf "#" ++ name) = true ↔
    (textOf "#" ++ name).bytes <:+ typeMarker.bytes ∨ typeMarker = name
  := by
  rw [matchesRef, parseRef_local]
  change ((textOf "#" ++ name).bytes.isSuffixOf typeMarker.bytes || decide (typeMarker = name)) = true
    ↔ _
  rw [Bool.or_eq_true, List.isSuffixOf_iff_suffix, decide_eq_true_iff]

theorem matchesRef_refersTo {typeMarker refPath nsid name : Text} (h : RefersTo refPath nsid name) :
  matchesRef typeMarker refPath = true ↔ typeMarker = fullName nsid name ∨ typeMarker = refPath
  := by
  rw [matchesRef, parseRef_refersTo h]
  change (decide (typeMarker = fullName nsid name) || decide (typeMarker = refPath)) = true ↔ _
  rw [Bool.or_eq_true, decide_eq_true_iff, decide_eq_true_iff]

/-- A reference in a file takes a type for its member that is not the full reference of the member:
another one that ends with the name of a definition of the file, that name alone, or the longer name of
a main definition. -/
def MistakenFor (file : SchemaFile) (typeMarker refPath : Text) : Prop :=
  match parseRef refPath with
  | (none, name) =>
    ((textOf "#" ++ name).bytes <:+ typeMarker.bytes ∨ typeMarker = name) ∧
      typeMarker ≠ file.fullRef name
  | (some nsid, name) => name = mainName ∧ typeMarker = refPath ∧ typeMarker ≠ nsid

/-- The main definition of a file is a member by its name in the file only, and the type is its full
reference. -/
def MissedBy (file : SchemaFile) (typeMarker : Text) (refs : List Text) : Prop :=
  typeMarker = file.id ∧ textOf "#main" ∈ refs ∧ file.id ∉ refs ∧ file.id ++ textOf "#main" ∉ refs

/-- A union reads a type as it is meant. -/
structure ReadsType (file : SchemaFile) (refs : List Text) (typeMarker : Text) : Prop where
  not_mistaken : ∀ refPath ∈ refs, ¬ MistakenFor file typeMarker refPath
  not_missed : ¬ MissedBy file typeMarker refs

section Reads

variable {file : SchemaFile} {typeMarker refPath : Text} {refs refs' : List Text}

/-- A reference is mistaken for a type that it takes and that is not its full reference. -/
theorem mistakenFor_iff :
  MistakenFor file typeMarker refPath ↔
    matchesRef typeMarker refPath = true ∧ typeMarker ≠ file.fullRefOf refPath
  := by
  rcases local_or_refersTo refPath with ⟨name, rfl⟩ | ⟨nsid, name, h⟩
  · rw [MistakenFor, parseRef_local, matchesRef_local, fullRefOf_local]
    exact Iff.rfl
  · rw [MistakenFor, parseRef_refersTo h, matchesRef_refersTo h, fullRefOf_refersTo h]
    change name = mainName ∧ typeMarker = refPath ∧ typeMarker ≠ nsid ↔ _
    by_cases hname : name = mainName
    · rw [fullName, if_pos hname, and_iff_right hname]
      constructor
      · rintro ⟨heq, hne⟩
        exact ⟨.inr heq, hne⟩
      · rintro ⟨heq | heq, hne⟩
        · exact absurd heq hne
        · exact ⟨heq, hne⟩
    · rw [fullName, if_neg hname]
      cases h with
      | file nsid h => exact absurd rfl hname
      | definition nsid name h hne =>
        constructor
        · rintro ⟨h, -⟩
          exact absurd h hname
        · rintro ⟨heq | heq, hne⟩
          · exact absurd heq hne
          · exact absurd heq hne

/-- A reference takes its full reference, apart from one to the main definition of the file. -/
theorem matchesRef_fullRefOf :
  matchesRef (file.fullRefOf refPath) refPath = true ∨
    refPath = textOf "#main" ∧ file.fullRefOf refPath = file.id
  := by
  rcases local_or_refersTo refPath with ⟨name, rfl⟩ | ⟨nsid, name, h⟩
  · rw [matchesRef_local, fullRefOf_local, fullName]
    split_ifs with hname
    · right
      rw [hname]
      exact ⟨rfl, rfl⟩
    · left
      left
      use file.id.bytes
      exact (List.append_assoc _ _ _).symm
  · left
    rw [matchesRef_refersTo h, fullRefOf_refersTo h]
    exact .inl rfl

/-- The member that a union takes a type for is the one whose full reference the type is. -/
theorem ReadsType.find (hid : validateNsid file.id = .ok ()) (h : ReadsType file refs typeMarker)
    (hperm : refs'.Perm refs) {fullRef : Text} :
  (refs'.find? (matchesRef typeMarker)).map file.fullRefOf = some fullRef ↔
    fullRef = typeMarker ∧ typeMarker ∈ refs.map file.fullRefOf
  := by
  obtain ⟨hhash, hne⟩ := hashSign_not_mem hid
  cases hfind : refs'.find? (matchesRef typeMarker) with
  | some refPath =>
    have hmem : refPath ∈ refs := hperm.mem_iff.mp (List.mem_of_find?_eq_some hfind)
    have hfull : typeMarker = file.fullRefOf refPath := by
      by_contra hne
      exact h.not_mistaken refPath hmem (mistakenFor_iff.mpr ⟨List.find?_some hfind, hne⟩)
    rw [Option.map_some, Option.some.injEq, ← hfull, eq_comm]
    refine (and_iff_left ?_).symm
    rw [hfull]
    exact List.mem_map_of_mem hmem
  | none =>
    rw [List.find?_eq_none] at hfind
    constructor
    · nofun
    · rintro ⟨-, hfull⟩
      obtain ⟨refPath, hmem, rfl⟩ := List.mem_map.mp hfull
      rcases @matchesRef_fullRefOf file refPath with hmatches | ⟨rfl, heq⟩
      · exact absurd hmatches (hfind refPath (hperm.mem_iff.mpr hmem))
      · refine absurd ⟨heq, hmem, ?_, ?_⟩ h.not_missed
        · intro hfile
          apply hfind _ (hperm.mem_iff.mpr hfile)
          rw [heq, matchesRef_refersTo (.file file.id hhash)]
          exact .inr rfl
        · intro hmain
          apply hfind _ (hperm.mem_iff.mpr hmain)
          rw [heq, append_main, matchesRef_refersTo (.definition file.id mainName hhash hne)]
          exact .inl rfl

/-- A union that takes types for members as it is meant, whatever the order of its references is, reads
them as it is meant. -/
theorem readsType_of_find
    (hid : validateNsid file.id = .ok ())
    (h : ∀ refs' : List Text, refs'.Perm refs → ∀ fullRef,
      (refs'.find? (matchesRef typeMarker)).map file.fullRefOf = some fullRef ↔
        fullRef = typeMarker ∧ typeMarker ∈ refs.map file.fullRefOf) :
  ReadsType file refs typeMarker
  where
  not_mistaken refPath hmem hmistaken := by
    obtain ⟨hmatches, hne⟩ := mistakenFor_iff.mp hmistaken
    have hfind : (refPath :: refs.erase refPath).find? (matchesRef typeMarker) = some refPath :=
      List.find?_cons_of_pos hmatches
    have hfull := (h _ (List.perm_cons_erase hmem).symm (file.fullRefOf refPath)).mp
      (by rw [hfind]; rfl)
    exact hne hfull.1.symm
  not_missed hmissed := by
    obtain ⟨htype, hmain, hfile, hlong⟩ := hmissed
    have hfull : file.fullRefOf (textOf "#main") = file.id := fullRefOf_local mainName
    have hmem : typeMarker ∈ refs.map file.fullRefOf := by
      rw [htype, ← hfull]
      exact List.mem_map_of_mem hmain
    obtain ⟨refPath, hfind, heq⟩ :=
      Option.map_eq_some_iff.mp ((h refs (List.Perm.refl _) typeMarker).mpr ⟨rfl, hmem⟩)
    have hmatches := List.find?_some hfind
    have hrefs := List.mem_of_find?_eq_some hfind
    have hhash := (hashSign_not_mem hid).1
    have hname : fullName file.id mainName = typeMarker := by
      rw [fullName, if_pos rfl, htype]
    rw [← hname] at heq
    rcases local_or_refersTo refPath with ⟨name, rfl⟩ | ⟨nsid, name, hrefers⟩
    · rw [fullRefOf_local] at heq
      obtain ⟨-, rfl⟩ := fullName_inj hhash hhash heq
      rw [matchesRef_local, htype] at hmatches
      rcases hmatches with hsuffix | heq
      · exact hhash (hsuffix.subset List.mem_cons_self)
      · have hinvalid : (validateNsid mainName).isOk = false := by decide
        rw [← heq, hid] at hinvalid
        cases hinvalid
    · rw [fullRefOf_refersTo hrefers] at heq
      obtain ⟨rfl, rfl⟩ := fullName_inj hrefers.hashSign_not_mem hhash heq
      cases hrefers with
      | file nsid h => exact hfile hrefs
      | definition nsid name h hne =>
        rw [append_main] at hlong
        exact hlong hrefs

end Reads

/-! ### Verdicts -/

/-- Two checks begun in a context accept the same and leave the same context. -/
def SameVerdictAt (ctx : ValidationContext) (m m' : Validator) : Prop :=
  (m ctx).1.isOk = (m' ctx).1.isOk ∧ (m ctx).2 = (m' ctx).2

/-- Two checks accept the same and leave the same context, whatever the context is. -/
def SameVerdict (m m' : Validator) : Prop := ∀ ctx, SameVerdictAt ctx m m'

/-- What comes after a check has to agree only where the check leads to. -/
theorem SameVerdictAt.bind {ctx : ValidationContext} {m m' n n' : Validator}
    (hm : SameVerdictAt ctx m m')
    (hn : ∀ next, m' ctx = (.ok (), next) → SameVerdictAt next n n') :
  SameVerdictAt ctx (m >>= fun _ => n) (m' >>= fun _ => n')
  := by
  obtain ⟨hok, hctx⟩ := hm
  rw [SameVerdictAt, Action.bind_apply, Action.bind_apply]
  revert hok hctx hn
  cases m ctx with
  | mk result after =>
    cases m' ctx with
    | mk result' after' =>
      rintro hn hok ⟨⟩
      cases result with
      | ok u =>
        cases result' with
        | ok u' => exact hn after rfl
        | error e' => cases hok
      | error e =>
        cases result' with
        | ok u' => cases hok
        | error e' => exact ⟨rfl, rfl⟩

namespace SameVerdict

variable {m m' n n' : Validator}

theorem refl (m : Validator) :
  SameVerdict m m
  := fun _ => ⟨rfl, rfl⟩

theorem bind (hm : SameVerdict m m') (hn : SameVerdict n n') :
  SameVerdict (m >>= fun _ => n) (m' >>= fun _ => n')
  := fun ctx => (hm ctx).bind fun next _ => hn next

theorem andFinally (h : SameVerdict m m') (exit : ValidationContext → ValidationContext) :
  SameVerdict (m.andFinally exit) (m'.andFinally exit)
  := by
  intro ctx
  obtain ⟨hok, hctx⟩ := h ctx
  exact ⟨hok, congrArg exit hctx⟩

theorem throw (error error' : ValidationError) :
  SameVerdict (Action.throw error) (Action.throw error')
  := fun _ => ⟨rfl, rfl⟩

/-- A hop is counted whatever it is called. -/
theorem enterHop (limits : ValidationLimits) (refPath refPath' : Text) :
  SameVerdict (Validation.enterHop limits refPath) (Validation.enterHop limits refPath')
  := by
  apply (refl chargeStep).bind
  intro ctx
  rw [SameVerdictAt]
  rcases Nat.lt_or_ge ctx.refDepth limits.maxRefDepth with hdepth | hdepth
  · rw [enterDepth_of_lt hdepth, enterDepth_of_lt hdepth]
    exact ⟨rfl, rfl⟩
  · rw [enterDepth_of_le hdepth, enterDepth_of_le hdepth]
    exact ⟨rfl, rfl⟩

end SameVerdict

section Hops

variable {env : ValidationEnv} {hop : SchemaDef → DataValue → Validator}

/-- References that resolve to the same definition are followed with the same verdict. -/
theorem sameVerdict_ref {refPath refPath' : Text} {value : DataValue}
    (h : resolveRef env.catalog env.baseSchema refPath =
      resolveRef env.catalog env.baseSchema refPath') :
  SameVerdict (validateRef env hop refPath value) (validateRef env hop refPath' value)
  := by
  apply (SameVerdict.enterHop _ _ _).bind
  apply SameVerdict.andFinally
  rw [validateRefInner, validateRefInner, h]
  cases resolveRef env.catalog env.baseSchema refPath' with
  | none =>
    cases env.flags.skipExternalRefs with
    | true => exact .refl _
    | false => exact .throw _ _
  | some resolved =>
    intro ctx
    rw [SameVerdictAt]
    dsimp only
    cases ctx.visitedRefs resolved.id with
    | false => exact ⟨rfl, rfl⟩
    | true =>
      cases env.flags.strictRecursiveValidation with
      | true => exact ⟨rfl, rfl⟩
      | false => exact ⟨rfl, rfl⟩

/-- Unions that take a value for members that resolve to the same definition have the same verdict. -/
theorem sameVerdict_union {refs refs' : List Text} {closed : Bool} {value : DataValue}
    (h : Option.Rel (fun refPath refPath' => resolveRef env.catalog env.baseSchema refPath =
      resolveRef env.catalog env.baseSchema refPath') (memberOf refs value) (memberOf refs' value)) :
  SameVerdict (validateUnion env hop refs closed value) (validateUnion env hop refs' closed value)
  := by
  apply (SameVerdict.enterHop _ _ _).bind
  apply SameVerdict.andFinally
  rw [memberOf, memberOf] at h
  rw [validateUnionInner, validateUnionInner]
  cases htype : value.getType with
  | none =>
    intro ctx
    exact ⟨rfl, rfl⟩
  | some typeMarker =>
    rw [htype, Option.bind_some, Option.bind_some] at h
    dsimp only
    generalize refs.find? (matchesRef typeMarker) = found at h
    generalize refs'.find? (matchesRef typeMarker) = found' at h
    cases h with
    | none =>
      cases closed with
      | true =>
        intro ctx
        exact ⟨rfl, rfl⟩
      | false => exact .refl _
    | @some refPath refPath' h =>
      dsimp only
      rw [h]
      cases resolveRef env.catalog env.baseSchema refPath' with
      | none =>
        cases env.flags.skipExternalRefs with
        | true => exact .refl _
        | false => exact .throw _ _
      | some resolved =>
        intro ctx
        rw [SameVerdictAt]
        dsimp only
        cases ctx.isNonproductiveUnion resolved.id ||
            env.flags.strictRecursiveValidation && ctx.isRecursiveUnion resolved.id with
        | true => exact ⟨rfl, rfl⟩
        | false => exact ⟨rfl, rfl⟩

/-- A closed union accepts no value that it takes for none of its members. -/
theorem closed_union_refuses {refs : List Text} {value : DataValue} {ctx : ValidationContext}
    (h : memberOf refs value = none) :
  (validateUnion env hop refs true value ctx).1.isOk = false
  := by
  have hinner : ∀ ctx, (validateUnionInner env hop refs true value ctx).1.isOk = false := by
    intro ctx
    rw [memberOf] at h
    rw [validateUnionInner]
    cases htype : value.getType with
    | none => rfl
    | some typeMarker =>
      rw [htype, Option.bind_some] at h
      dsimp only
      rw [h]
      rfl
  apply eq_false_of_ne_true
  intro hok
  have hrun : validateUnion env hop refs true value ctx =
      (.ok (), (validateUnion env hop refs true value ctx).2) :=
    Prod.ext (isOk_iff.mp hok) rfl
  rw [validateUnion] at hrun
  obtain ⟨u, after, -, hafter⟩ := Action.bind_eq_ok.mp hrun
  have hresult : (validateUnionInner env hop refs true value after).1 = .ok () :=
    congrArg Prod.fst hafter
  have hrest := hinner after
  rw [hresult] at hrest
  cases hrest

/-- A value is checked against the definition of its member, unless that is already being done. -/
theorem validateUnionInner_of_member {refs : List Text} {closed : Bool} {value : DataValue}
    {refPath : Text} {resolved : Schema} {ctx : ValidationContext}
    (hmember : memberOf refs value = some refPath)
    (hresolved : resolveRef env.catalog env.baseSchema refPath = some resolved)
    (hfresh : ctx.isNonproductiveUnion resolved.id = false)
    (hstrict : (env.flags.strictRecursiveValidation && ctx.isRecursiveUnion resolved.id) = false) :
  (validateUnionInner env hop refs closed value ctx).1 =
    (hop resolved.definition value (ctx.enterUnionTarget resolved.id)).1
  := by
  rw [memberOf] at hmember
  rw [validateUnionInner]
  cases htype : value.getType with
  | none =>
    rw [htype] at hmember
    cases hmember
  | some typeMarker =>
    rw [htype, Option.bind_some] at hmember
    dsimp only
    rw [hmember]
    dsimp only
    rw [hresolved]
    dsimp only
    rw [hfresh, hstrict]
    rfl

end Hops

/-! ### The meaning of a union -/

/-- A value of a type is checked as the member whose full reference the type is, whatever the order of
the references of the union is. -/
structure UnionMeaning (env : ValidationEnv) (file : SchemaFile) (refs : List Text)
    (typeMarker : Text) : Prop where
  member : ∀ refs' : List Text, refs'.Perm refs → ∀ value, value.getType = some typeMarker →
    ∀ fullRef, (memberOf refs' value).map file.fullRefOf = some fullRef ↔
      fullRef = typeMarker ∧ typeMarker ∈ refs.map file.fullRefOf
  checked : ∀ refs' : List Text, refs'.Perm refs → ∀ value, value.getType = some typeMarker →
    ∀ refPath ∈ refs, file.fullRefOf refPath = typeMarker →
    ∀ resolved, resolveRef env.catalog env.baseSchema refPath = some resolved →
    ∀ closed hop ctx, ctx.isNonproductiveUnion resolved.id = false →
      (env.flags.strictRecursiveValidation && ctx.isRecursiveUnion resolved.id) = false →
      (validateUnionInner env hop refs' closed value ctx).1 =
        (hop resolved.definition value (ctx.enterUnionTarget resolved.id)).1
  refused : typeMarker ∉ refs.map file.fullRefOf → ∀ refs' : List Text, refs'.Perm refs →
    ∀ value, value.getType = some typeMarker →
    ∀ hop ctx, (validateUnion env hop refs' true value ctx).1.isOk = false
  order : ∀ refs' : List Text, refs'.Perm refs → ∀ value, value.getType = some typeMarker →
    ∀ closed hop,
      SameVerdict (validateUnion env hop refs' closed value) (validateUnion env hop refs closed value)

section Meaning

variable {library : ValidationLibrary} {file : SchemaFile} {catalog : BaseCatalog}
  {flags : ValidateFlags} {limits : ValidationLimits}

/-- What a validation of a record against a file has at hand. -/
abbrev fileEnv (library : ValidationLibrary) (file : SchemaFile) (catalog : BaseCatalog)
    (flags : ValidateFlags) (limits : ValidationLimits) : ValidationEnv :=
  ⟨library, catalog.toCatalog, flags, some file, limits⟩

/-- References that take a value for members with the same full reference lead to the same definition. -/
theorem member_rel (hid : validateNsid file.id = .ok ()) {refs refs' : List Text} {value : DataValue}
    (h : (memberOf refs value).map file.fullRefOf = (memberOf refs' value).map file.fullRefOf) :
  Option.Rel (fun refPath refPath' => resolveRef catalog.toCatalog (some file) refPath =
    resolveRef catalog.toCatalog (some file) refPath') (memberOf refs value) (memberOf refs' value)
  := by
  revert h
  cases memberOf refs value with
  | none =>
    cases memberOf refs' value with
    | none => exact fun _ => .none
    | some refPath' => nofun
  | some refPath =>
    cases memberOf refs' value with
    | none => nofun
    | some refPath' =>
      intro h
      exact .some (resolveRef_congr hid catalog (Option.some.inj h))

theorem memberOf_of_type {refs : List Text} {value : DataValue} {typeMarker : Text}
    (htype : value.getType = some typeMarker) :
  memberOf refs value = refs.find? (matchesRef typeMarker)
  := by
  rw [memberOf, htype, Option.bind_some]

/-- A union that reads a type as it is meant has that meaning for it. -/
theorem ReadsType.meaning (hid : validateNsid file.id = .ok ()) {refs : List Text} {typeMarker : Text}
    (h : ReadsType file refs typeMarker) :
  UnionMeaning (fileEnv library file catalog flags limits) file refs typeMarker
  where
  member refs' hperm value htype fullRef := by
    rw [memberOf_of_type htype]
    exact h.find hid hperm
  checked refs' hperm value htype refPath hmem hfull resolved hresolved closed hop ctx hfresh hstrict := by
    have hfind : (memberOf refs' value).map file.fullRefOf = some typeMarker := by
      rw [memberOf_of_type htype, h.find hid hperm, ← hfull]
      exact ⟨rfl, List.mem_map_of_mem hmem⟩
    obtain ⟨refPath', hmember, hfull'⟩ := Option.map_eq_some_iff.mp hfind
    apply validateUnionInner_of_member hmember _ hfresh hstrict
    rw [← hresolved]
    exact resolveRef_congr hid catalog (hfull'.trans hfull.symm)
  refused hmem refs' hperm value htype hop ctx := by
    apply closed_union_refuses
    rw [memberOf_of_type htype]
    cases hfind : refs'.find? (matchesRef typeMarker) with
    | none => rfl
    | some refPath =>
      have hfull : (refs'.find? (matchesRef typeMarker)).map file.fullRefOf =
          some (file.fullRefOf refPath) := by
        rw [hfind]
        rfl
      exact absurd ((h.find hid hperm).mp hfull).2 hmem
  order refs' hperm value htype closed hop := by
    apply sameVerdict_union
    apply member_rel hid
    ext fullRef
    rw [memberOf_of_type htype, memberOf_of_type htype, h.find hid hperm,
      h.find hid (List.Perm.refl refs)]

/-- A union with that meaning reads the type as it is meant. -/
theorem UnionMeaning.readsType (hid : validateNsid file.id = .ok ()) {refs : List Text}
    {typeMarker : Text}
    (h : UnionMeaning (fileEnv library file catalog flags limits) file refs typeMarker) :
  ReadsType file refs typeMarker
  := by
  apply readsType_of_find hid
  intro refs' hperm fullRef
  have htype : (DataValue.object [(textOf "$type", .string typeMarker)]).getType = some typeMarker :=
    rfl
  rw [← memberOf_of_type htype]
  exact h.member refs' hperm _ htype fullRef

/-- A union whose references are expanded reads a type as it is meant when the union itself does. -/
theorem ReadsType.expand (hid : validateNsid file.id = .ok ()) {refs : List Text} {typeMarker : Text}
    (h : ReadsType file refs typeMarker) :
  ReadsType file (refs.map (SchemaDef.expandRef file.id)) typeMarker
  where
  not_mistaken refPath' hmem' hmistaken := by
    obtain ⟨refPath, hmem, rfl⟩ := List.mem_map.mp hmem'
    apply h.not_mistaken refPath hmem
    rw [mistakenFor_iff, fullRefOf_expandRef hid] at hmistaken
    rw [mistakenFor_iff]
    refine ⟨?_, hmistaken.2⟩
    rcases local_or_refersTo refPath with ⟨name, rfl⟩ | ⟨nsid, name, hrefers⟩
    · obtain ⟨hmatches, hne⟩ := hmistaken
      rw [fullRefOf_local] at hne
      rw [matchesRef_refersTo (expandRef_local hid name), or_iff_right hne] at hmatches
      rw [matchesRef_local]
      left
      use file.id.bytes
      rw [hmatches]
      rfl
    · rw [← @expandRef_refersTo file refPath nsid name hrefers]
      exact hmistaken.1
  not_missed hmissed := by
    obtain ⟨-, hmain, -, -⟩ := hmissed
    obtain ⟨refPath, -, heq⟩ := List.mem_map.mp hmain
    have hlocal : parseRef (SchemaDef.expandRef file.id refPath) = (none, mainName) := by
      rw [heq]
      exact parseRef_local mainName
    rcases local_or_refersTo refPath with ⟨name, rfl⟩ | ⟨nsid, name, hrefers⟩
    · rw [parseRef_refersTo (expandRef_local hid name)] at hlocal
      cases hlocal
    · rw [expandRef_refersTo hrefers, parseRef_refersTo hrefers] at hlocal
      cases hlocal

end Meaning

end Atproto.Lexicon.Validation
