import Atproto.Dasl.RoundTrip

/-!
# What strict decoding forgets

A value built from an accepted input is serialized as the input is, but with a tag in front
of every byte string that looks like a CID.  So the input comes back exactly when it has no
such byte string outside a tag.
-/

namespace Atproto.Dasl

open Wire SearchTree

variable {format : CidFormat}

namespace CborTree

/-- Building a tree again, with a tag in front of every byte string that looks like a
CID. -/
def tagBuilder (format : CidFormat) : Visitor CborTree where
  bool := .bool
  integer := .integer
  float := .float
  string := .text
  byteBuf data := if (Ipld.cidOfBytes format data).isSome then .link data else .bytes data
  unit := .null
  seq := .array
  map := .map

/-- The tree with a tag in front of every byte string that looks like a CID. -/
def tagged (format : CidFormat) (tree : CborTree) : CborTree :=
  tree.fold (tagBuilder format) .link

/-- The number of byte strings outside tags that look like CIDs. -/
def bareCids (format : CidFormat) (tree : CborTree) : Nat :=
  tree.fold (Ipld.cidCounter format) fun _ => 0

theorem tagged_array (items : List CborTree) :
  tagged format (.array items) = .array (items.map (tagged format))
  := fold_array _ _ items

theorem tagged_map (entries : List (Text × CborTree)) :
  tagged format (.map entries) = .map (entries.map fun e => (e.1, tagged format e.2))
  := fold_map _ _ entries

theorem bareCids_array (items : List CborTree) :
  bareCids format (.array items) = (items.map (bareCids format)).sum
  := fold_array _ _ items

theorem bareCids_map (entries : List (Text × CborTree)) :
  bareCids format (.map entries) = (entries.map fun e => bareCids format e.2).sum
  := by
  rw [bareCids, fold_map]
  change (List.map Prod.snd (List.map _ entries)).sum = _
  rw [List.map_map]
  rfl

theorem tagged_bytes (data : Bytes) :
  tagged format (.bytes data) =
    if (Ipld.cidOfBytes format data).isSome then .link data else .bytes data
  := rfl

theorem bareCids_bytes (data : Bytes) :
  bareCids format (.bytes data) = if (Ipld.cidOfBytes format data).isSome then 1 else 0
  := rfl

/-- Without such byte strings the tree stays as it is. -/
theorem Canonical.tagged_eq {tree : CborTree} (h : tree.Canonical format)
    (hbare : tree.bareCids format = 0) :
  tree.tagged format = tree
  := by
  induction h with
  | bool value => rfl
  | integer hlow hhigh => rfl
  | float hfinite => rfl
  | text hlength => rfl
  | @bytes data hlength =>
    rw [bareCids_bytes] at hbare
    rw [tagged_bytes]
    split_ifs at hbare ⊢ with hcid
    rfl
  | null => rfl
  | array hlength _ ih =>
    rw [bareCids_array, List.sum_eq_zero_iff, List.forall_mem_map] at hbare
    rw [tagged_array, Ipld.map_eq_self.mpr fun item hitem => ih item hitem (hbare item hitem)]
  | map hlength _ _ _ ih =>
    rw [bareCids_map, List.sum_eq_zero_iff, List.forall_mem_map] at hbare
    rw [tagged_map, Ipld.map_eq_self.mpr]
    intro e he
    rw [ih e he (hbare e he)]
  | link hlength cid hcid => rfl

/-- Parts that grow by two bytes for each of their counts. -/
theorem length_flatMap_tagged {β : Type} {encode encode' : β → Bytes} {count : β → Nat}
    {items : List β}
    (h : ∀ item ∈ items, (encode' item).length = (encode item).length + 2 * count item) :
  (items.flatMap encode').length = (items.flatMap encode).length + 2 * (items.map count).sum
  := by
  induction items with
  | nil => rfl
  | cons item items ih =>
    rw [List.forall_mem_cons] at h
    rw [List.flatMap_cons, List.flatMap_cons, List.length_append, List.length_append, h.1, ih h.2,
      List.map_cons, List.sum_cons]
    ring

/-- Every tag takes two bytes. -/
theorem Canonical.length_encode_tagged {tree : CborTree} (h : tree.Canonical format) :
  (tree.tagged format).encode.length = tree.encode.length + 2 * tree.bareCids format
  := by
  induction h with
  | bool value => rfl
  | integer hlow hhigh => rfl
  | float hfinite => rfl
  | text hlength => rfl
  | @bytes data hlength =>
    rw [tagged_bytes, bareCids_bytes]
    split_ifs with hcid
    · change (encodeLink data).length = _
      rw [encodeLink, List.length_append, Nat.add_comm]
      rfl
    · rfl
  | null => rfl
  | @array items hlength _ ih =>
    rw [tagged_array, bareCids_array, encode_array, encode_array, List.length_map, List.flatMap_map,
      List.length_append, List.length_append, length_flatMap_tagged ih, Nat.add_assoc]
  | @map entries hlength _ _ _ ih =>
    have hentries : ∀ e ∈ entries, (entryBytes (e.1, (e.2.tagged format).encode)).length =
        (entryBytes (e.1, e.2.encode)).length + 2 * e.2.bareCids format := by
      intro e he
      rw [entryBytes, entryBytes, List.length_append, List.length_append, ih e he, Nat.add_assoc]
    rw [tagged_map, bareCids_map, encode_map, encode_map, List.length_map, List.flatMap_map,
      List.length_append, List.length_append, length_flatMap_tagged hentries, Nat.add_assoc]
  | link hlength cid hcid => rfl

/-! ### The value of a tree -/

theorem visit_map (entries : List (Text × CborTree)) :
  (CborTree.map entries).visit (Ipld.visitor format) =
    .map (collect (entries.map fun e => (e.1, e.2.visit (Ipld.visitor format))))
  := fold_map _ _ entries

theorem distinct_of_sorted {α : Type} {entries : List (Text × CborTree)} {f : CborTree → α}
    (hsorted : entries.Pairwise fun a b => KeyLess a.1 b.1) :
  Distinct (entries.map fun e => (e.1, f e.2))
  := by
  apply List.pairwise_map.mpr
  apply hsorted.imp
  intro a b hless heq
  dsimp only at heq
  rw [heq] at hless
  exact KeyLess.irrefl _ hless

/-- The tree of the value of a canonical tree has a tag in front of every byte string that
looks like a CID. -/
theorem Canonical.tree_visit (hformat : format.Lawful) (hwhole : format.Whole) {tree : CborTree}
    (h : tree.Canonical format) :
  (tree.visit (Ipld.visitor format)).tree format = tree.tagged format
  := by
  have hbytes : ∀ data cid, Cid.fromDagCborBytes format data = .ok cid →
      (Ipld.visitByteBuf format data).tree format = .link data := by
    intro data cid hcid
    rw [Ipld.visitByteBuf_of_cid hformat hcid]
    exact congrArg CborTree.link (hwhole.toDagCborBytes hcid)
  induction h with
  | bool value => rfl
  | integer hlow hhigh => rfl
  | float hfinite => rfl
  | text hlength => rfl
  | @bytes data hlength =>
    rw [tagged_bytes]
    change (Ipld.visitByteBuf format data).tree format = _
    cases hcid : Ipld.cidOfBytes format data with
    | none =>
      rw [Ipld.visitByteBuf, hcid]
      rfl
    | some cid => exact hbytes data cid ((Ipld.cidOfBytes_eq_some hformat).mp hcid)
  | null => rfl
  | array hlength _ ih =>
    rw [visit, fold_array, tagged_array]
    change Ipld.tree format (.list _) = _
    rw [Ipld.tree_list, List.map_map]
    exact congrArg CborTree.array (List.map_congr_left ih)
  | @map entries hlength _ hsorted _ ih =>
    rw [visit_map, Ipld.tree_map, tagged_map]
    apply congrArg CborTree.map
    apply sortEntries_eq
    · exact List.pairwise_map.mpr hsorted
    · obtain ⟨-, hperm⟩ := collect_spec
        (@distinct_of_sorted _ entries (fun tree => tree.visit (Ipld.visitor format)) hsorted)
      have hmap := hperm.map fun e => (e.1, e.2.tree format)
      rw [List.map_map] at hmap
      have hvalues : entries.map ((fun e : Text × Ipld => (e.1, e.2.tree format)) ∘
          fun e => (e.1, e.2.visit (Ipld.visitor format))) =
          entries.map fun e => (e.1, e.2.tagged format) := by
        apply List.map_congr_left
        intro e he
        exact congrArg (Prod.mk e.1) (ih e he)
      rwa [hvalues] at hmap
  | @link payload hlength cid hcid => exact hbytes payload cid hcid

theorem Canonical.encodable_visit (hformat : format.Lawful) (hwhole : format.Whole)
    {tree : CborTree} (h : tree.Canonical format) :
  (tree.visit (Ipld.visitor format)).Encodable format
  := by
  have hbytes : ∀ data : Bytes, data.length < 2 ^ 64 →
      (Ipld.visitByteBuf format data).Encodable format := by
    intro data hlength
    rw [Ipld.visitByteBuf]
    cases hcid : Ipld.cidOfBytes format data with
    | none => exact .bytes hlength
    | some cid =>
      have hpayload := hwhole.toDagCborBytes ((Ipld.cidOfBytes_eq_some hformat).mp hcid)
      exact .link (hpayload.symm ▸ hlength)
  induction h with
  | bool value => exact .bool value
  | integer hlow hhigh => exact .integer hlow hhigh
  | float hfinite => exact .float hfinite
  | text hlength => exact .string hlength
  | bytes hlength => exact hbytes _ hlength
  | null => exact .null
  | array hlength _ ih =>
    rw [visit, fold_array]
    apply Ipld.Encodable.list
    · rwa [List.length_map]
    · exact List.forall_mem_map.mpr ih
  | @map entries hlength hkeys hsorted _ ih =>
    rw [visit_map]
    obtain ⟨hcollect, hperm⟩ := collect_spec
      (@distinct_of_sorted _ entries (fun tree => tree.visit (Ipld.visitor format)) hsorted)
    apply Ipld.Encodable.map _ _ hcollect
    · intro e he
      obtain ⟨e', he', rfl⟩ := List.mem_map.mp (hperm.subset he)
      exact ih e' he'
    · rwa [hperm.length_eq, List.length_map]
    · intro e he
      obtain ⟨e', he', rfl⟩ := List.mem_map.mp (hperm.subset he)
      exact hkeys e' he'
  | link hlength cid hcid => exact hbytes _ hlength

/-- The value of a canonical tree is serialized as the tree is, with the tags. -/
theorem Canonical.toVec_visit (hformat : format.Lawful) (hwhole : format.Whole) {tree : CborTree}
    (h : tree.Canonical format) :
  Ipld.toVec format (tree.visit (Ipld.visitor format)) = .ok (tree.tagged format).encode
  := by
  rw [Ipld.toVec, (h.encodable_visit hformat hwhole).serialize_ok, h.tree_visit hformat hwhole]

end CborTree

/-! ### Accepted inputs -/

/-- The input is no encoding of a tree with a byte string outside a tag that looks like a
CID. -/
def NoBareCid (format : CidFormat) (input : Bytes) : Prop :=
  ∀ tree : CborTree, tree.Canonical format → tree.encode = input → tree.bareCids format = 0

/-- An accepted input is the encoding of a canonical tree, and its value is that of every
such tree. -/
theorem exists_tree_of_fromSlice {input : Bytes} {value : Ipld}
    (h : Ipld.fromSlice format input = .ok value) :
  ∃ tree : CborTree, tree.Canonical format ∧ tree.encode = input
  := by
  obtain ⟨tree, hinput, hcanonical, -⟩ := fromSlice_parses (CborTree.deserializeAny_parses _) h
  exact ⟨tree, hcanonical, hinput.symm⟩

theorem toVec_of_fromSlice (hformat : format.Lawful) (hwhole : format.Whole) {tree : CborTree}
    (hcanonical : tree.Canonical format) {value : Ipld}
    (h : Ipld.fromSlice format tree.encode = .ok value) :
  Ipld.toVec format value = .ok (tree.tagged format).encode
  := by
  rw [eq_of_fromSlice (hcanonical.reads _) h, hcanonical.toVec_visit hformat hwhole]

/-- The value of an accepted input is serialized as the input exactly when the input has no
byte string outside a tag that looks like a CID. -/
theorem toVec_eq_iff_noBareCid (hformat : format.Lawful) (hwhole : format.Whole) {input : Bytes}
    {value : Ipld} (h : Ipld.fromSlice format input = .ok value) :
  Ipld.toVec format value = .ok input ↔ NoBareCid format input
  := by
  constructor
  · intro htoVec tree hcanonical hinput
    rw [← hinput] at h htoVec
    rw [toVec_of_fromSlice hformat hwhole hcanonical h] at htoVec
    have hlength := hcanonical.length_encode_tagged
    rw [Except.ok.inj htoVec] at hlength
    omega
  · intro hbare
    obtain ⟨tree, hcanonical, rfl⟩ := exists_tree_of_fromSlice h
    rw [toVec_of_fromSlice hformat hwhole hcanonical h,
      hcanonical.tagged_eq (hbare tree hcanonical rfl)]

/-- Strict decoding is canonical exactly for the inputs without a byte string outside a tag
that looks like a CID: the value is serialized as the input and has its CID, and no other
such input has the value. -/
theorem fromSlice_canonical_iff (hformat : format.Lawful) (hwhole : format.Whole) {input : Bytes}
    {value : Ipld} (h : Ipld.fromSlice format input = .ok value) :
  (Ipld.toVec format value = .ok input ∧ (∀ sha256 : Bytes → Bytes,
      (Ipld.toVec format value).map (computeCid sha256) = .ok (computeCid sha256 input)) ↔
    NoBareCid format input) ∧
  ∀ input', Ipld.fromSlice format input' = .ok value → NoBareCid format input →
    NoBareCid format input' → input' = input
  := by
  have hiff := toVec_eq_iff_noBareCid hformat hwhole h
  constructor
  · rw [← hiff]
    refine ⟨And.left, fun htoVec => ⟨htoVec, fun sha256 => ?_⟩⟩
    rw [htoVec]
    rfl
  · intro input' h' hbare hbare'
    have htoVec := hiff.mpr hbare
    rw [(toVec_eq_iff_noBareCid hformat hwhole h').mpr hbare'] at htoVec
    exact Except.ok.inj htoVec

/-- The map of `a` to 1000, `b` to -5, `cid` to a link and `data` to three bytes. -/
def sampleMap : Bytes :=
  [0xa4, 0x61, 0x61, 0x19, 0x03, 0xe8, 0x61, 0x62, 0x24, 0x63, 0x63, 0x69, 0x64, 0xd8, 0x2a, 0x58,
    0x25] ++ Ipld.linkBytes ++ [0x64, 0x64, 0x61, 0x74, 0x61, 0x43, 0x01, 0x02, 0x03]

/-- The value is serialized in as many bytes. -/
theorem length_toVec_sampleMap :
  ((Ipld.fromSlice multiformats sampleMap).toOption.bind fun value =>
    (Ipld.toVec multiformats value).toOption.map List.length) = some sampleMap.length
  := by decide +kernel

theorem noBareCid_sampleMap {value : Ipld}
    (h : Ipld.fromSlice multiformats sampleMap = .ok value) :
  NoBareCid multiformats sampleMap
  := by
  intro tree hcanonical hinput
  have hvalue := h
  rw [← hinput] at hvalue
  have htoVec := toVec_of_fromSlice multiformats_lawful multiformats_whole hcanonical hvalue
  have hsize := length_toVec_sampleMap
  rw [h] at hsize
  change (Ipld.toVec multiformats value).toOption.map List.length = _ at hsize
  rw [htoVec] at hsize
  have hsame := Option.some.inj hsize
  have hlength := hcanonical.length_encode_tagged
  rw [hinput] at hlength
  omega

theorem fromSlice_canonical_sampleMap :
  ∃ value, Ipld.fromSlice multiformats sampleMap = .ok value ∧
    Ipld.toVec multiformats value = .ok sampleMap ∧
    ∀ input, Ipld.fromSlice multiformats input = .ok value → NoBareCid multiformats input →
      input = sampleMap
  := by
  have hsome : (Ipld.fromSlice multiformats sampleMap).toOption.isSome = true := by decide +kernel
  cases h : Ipld.fromSlice multiformats sampleMap with
  | error e =>
    rw [h] at hsome
    cases hsome
  | ok value =>
    obtain ⟨hcanonical, hunique⟩ :=
      fromSlice_canonical_iff multiformats_lawful multiformats_whole h
    have hbare := noBareCid_sampleMap h
    exact ⟨value, rfl, (hcanonical.mpr hbare).1,
      fun input hinput hbare' => hunique input hinput hbare hbare'⟩

/-- The encoding of the bytes of a link as a byte string. -/
def bareLink : Bytes := (CborItem.bytes Ipld.linkBytes).encode

theorem fromSlice_bareLink :
  ∃ value, Ipld.fromSlice multiformats bareLink = .ok value ∧
    Ipld.toVec multiformats value ≠ .ok bareLink
  := by
  refine ⟨_, rfl, ?_⟩
  decide

end Atproto.Dasl
