import Atproto.Dasl.Multiformats
import Atproto.Repo.NodeBytes
import Atproto.Repo.Undo
import Mathlib.Data.List.Sublists

/-!
# The tree of a repository

The Merkle search tree over nodes in DRISL.  The root is a function of the map, lookups and
listings are those of the map, and covering proofs are enough to undo a batch.
-/

namespace Atproto.Repo

open Atproto.Dasl SearchTree Logic

/-- Trees whose nodes are stored in DRISL, with the default limits of its decoder. -/
def drisl (sha256 : Bytes → Bytes) (format : CidFormat) (maxDepth : Nat) : Context where
  sha256 := sha256
  codec := nodeCodec DecodeConfig.default format
  maxDepth := maxDepth

variable {sha256 : Bytes → Bytes} {format : CidFormat} {maxDepth : Nat}

theorem drisl_sound (hhash : Function.Injective sha256) (hformat : format.Lawful) (maxDepth : Nat) :
  (drisl sha256 format maxDepth).Sound
  := ⟨hhash, nodeCodec_faithful DecodeConfig.default hformat⟩

/-- The key of the operation is shorter than `2 ^ 32` bytes. -/
def Operation.ShortKey (op : Operation) : Prop := op.target.bytes.length < 2 ^ 32

/-- The pairs with a short key. -/
def ShortPair (x : Key × Cid) : Prop := x.1.bytes.length < 2 ^ 32

theorem Operation.ShortKey.inserts {op : Operation} (h : op.ShortKey) :
  op.Inserts ShortPair
  := by
  cases op with
  | insert key value => exact h
  | delete key => trivial

/-! ### Nodes within the limits -/

theorem prefixLen_lt_of_toEntries {previous : Key} {children : List NodeEntry}
    {entries : List TreeEntry} (h : toEntries previous children = .ok entries) :
  ∀ entry ∈ entries, entry.prefixLen < 2 ^ 32
  := by
  have hmod : ∀ prev key value, (TreeEntry.withPrefix prev key value).prefixLen < 2 ^ 32 :=
    fun _ _ _ => Nat.mod_lt _ (by decide)
  induction previous, children using toEntries.induct generalizing entries with
  | case1 previous =>
    cases h
    intro entry hentry
    cases hentry
  | case2 previous key value cid rest ih =>
    obtain ⟨more, hmore, heq⟩ := bind_eq_ok.mp h
    cases heq
    exact List.forall_mem_cons.mpr ⟨hmod previous key value, ih hmore⟩
  | case3 previous key value rest hrest ih =>
    rw [toEntries] at h
    · obtain ⟨more, hmore, heq⟩ := bind_eq_ok.mp h
      cases heq
      exact List.forall_mem_cons.mpr ⟨hmod previous key value, ih hmore⟩
    · exact hrest
  | case4 previous cid rest => cases h

theorem prefixLen_lt_of_toNode {children : List NodeEntry} {node : MstNode}
    (h : toNode children = .ok node) :
  ∀ entry ∈ node.entries, entry.prefixLen < 2 ^ 32
  := by
  rw [toNode.eq_def] at h
  split at h
  · obtain ⟨entries, hentries, heq⟩ := bind_eq_ok.mp h
    cases heq
    exact prefixLen_lt_of_toEntries hentries
  · obtain ⟨entries, hentries, heq⟩ := bind_eq_ok.mp h
    cases heq
    exact prefixLen_lt_of_toEntries hentries

/-- Every node that is stored for pairs among `U`, down from the highest layer allowed, is
within the limits of the decoder. -/
def Decodable (ctx : Context) (format : CidFormat) (U : Key × Cid → Prop) : Prop :=
  ∀ L ≤ ctx.maxDepth, ∀ xs node, Within U xs → toNode (canonicalEntries ctx L xs) = .ok node →
    NodeFits DecodeConfig.default format node

theorem nodeSized_of_fits {node : MstNode} (h : NodeFits DecodeConfig.default format node)
    (hlead : ∀ entry ∈ node.entries, entry.prefixLen < 2 ^ 32) :
  NodeSized format node
  := by
  have halloc : DecodeConfig.default.maxAlloc < 2 ^ 64 := by decide
  have hcount : DecodeConfig.default.maxArrayElements < 2 ^ 64 := by decide
  refine ⟨(h.length (by decide)).trans_lt hcount, ?_, ?_⟩
  · intro entry hentry
    have hfits := h.entries entry hentry
    exact ⟨hlead entry hentry, hfits.keySuffix.trans_lt halloc, hfits.value.trans_lt halloc,
      fun cid hcid => (hfits.tree cid hcid).trans_lt halloc⟩
  · exact fun cid hcid => (h.left cid hcid).trans_lt halloc

theorem Decodable.allFit (hformat : format.Lawful) {U : Key × Cid → Prop}
    (h : Decodable (drisl sha256 format maxDepth) format U) :
  AllFit (drisl sha256 format maxDepth) maxDepth U
  := by
  intro L hL xs hxs
  obtain ⟨node, hnode⟩ :
      ∃ node, toNode (canonicalEntries (drisl sha256 format maxDepth) L xs) = .ok node :=
    exists_toNode (spaced_entries L xs)
  have hfits := h L hL xs node hxs hnode
  obtain ⟨bytes, hto, hfrom⟩ := nodeCodec_reads hformat
    (nodeSized_of_fits hfits (prefixLen_lt_of_toNode hnode)) hfits
  exact ⟨node, bytes, hnode, hto, hfrom⟩

/-! ### The root -/

section Runs

variable {S S' : BlockStore sha256} {ops ops' : List Operation}
  {mst mst' : Mst (drisl sha256 format maxDepth)}

/-- A run from the empty tree ends in the tree of its map. -/
theorem represents_of_run (hhash : Function.Injective sha256) (hformat : format.Lawful)
    (hshort : ∀ op ∈ ops, op.ShortKey)
    (hrun : (Mst.new S : Mst (drisl sha256 format maxDepth)).run ops = .ok mst) :
  mst.Represents ShortPair (fun _ => True) (editAll ops [])
  := by
  have hnew := @Mst.represents_new (drisl sha256 format maxDepth) ShortPair (fun _ => True) S
  exact (hnew.run_ok (drisl_sound hhash hformat maxDepth) (fun _ => id)
    (fun op hop => ⟨(hshort op hop).inserts, trivial⟩) hrun).1

theorem editAll_congr (h : mapAfter ops = mapAfter ops') :
  editAll ops [] = editAll ops' []
  := by
  apply (sorted_editAll ops Sorted.nil).ext (sorted_editAll ops' Sorted.nil)
  intro k
  rw [lookup_editAll_nil, lookup_editAll_nil, h]

theorem root_eq_of_mapAfter (hhash : Function.Injective sha256) (hformat : format.Lawful)
    (hshort : ∀ op ∈ ops, op.ShortKey) (hshort' : ∀ op ∈ ops', op.ShortKey)
    (hrun : (Mst.new S : Mst (drisl sha256 format maxDepth)).run ops = .ok mst)
    (hrun' : (Mst.new S' : Mst (drisl sha256 format maxDepth)).run ops' = .ok mst')
    (hmap : mapAfter ops = mapAfter ops') :
  mst.root = mst'.root
  := by
  rw [(represents_of_run hhash hformat hshort hrun).root,
    (represents_of_run hhash hformat hshort' hrun').root, editAll_congr hmap]

/-! ### Permutations of inserts -/

/-- The inserts of some pairs. -/
def inserts (pairs : List (Key × Cid)) : List Operation :=
  pairs.map fun pair => .insert pair.1 pair.2

/-- Pairs with the same key are the same. -/
def Functional (pairs : List (Key × Cid)) : Prop :=
  ∀ a ∈ pairs, ∀ b ∈ pairs, a.1 = b.1 → a = b

theorem foldl_inserts {pairs : List (Key × Cid)} (h : Functional pairs) (map : Key → Option Cid)
    (k : Key) (v : Cid) :
  (inserts pairs).foldl (fun map op => op.update map) map k = some v ↔
    (k, v) ∈ pairs ∨ (∀ pair ∈ pairs, pair.1 ≠ k) ∧ map k = some v
  := by
  induction pairs generalizing map with
  | nil => simp [inserts]
  | cons pair pairs ih =>
    have htail : Functional pairs := fun a ha b hb =>
      h a (List.mem_cons_of_mem pair ha) b (List.mem_cons_of_mem pair hb)
    have hstep := ih htail (Function.update map pair.1 (some pair.2))
    change (inserts pairs).foldl (fun map op => op.update map) _ k = some v ↔ _ at hstep
    change (inserts pairs).foldl (fun map op => op.update map)
      (Function.update map pair.1 (some pair.2)) k = some v ↔ _
    rw [hstep, List.mem_cons, List.forall_mem_cons]
    by_cases hk : pair.1 = k
    · subst hk
      rw [Function.update_self, Option.some.injEq]
      constructor
      · rintro (hmem | ⟨-, rfl⟩)
        · exact Or.inl (Or.inr hmem)
        · exact Or.inl (Or.inl rfl)
      · rintro ((heq | hmem) | ⟨⟨hne, -⟩, -⟩)
        · by_cases hlater : ∃ other ∈ pairs, other.1 = pair.1
          · obtain ⟨other, hother, hkey⟩ := hlater
            have hsame := h other (List.mem_cons_of_mem pair hother) pair List.mem_cons_self hkey
            rw [heq, ← hsame]
            exact Or.inl hother
          · push Not at hlater
            exact Or.inr ⟨hlater, (congrArg Prod.snd heq).symm⟩
        · exact Or.inl hmem
        · exact absurd rfl hne
    · rw [Function.update_of_ne (Ne.symm hk)]
      constructor
      · rintro (hmem | ⟨hne, hv⟩)
        · exact Or.inl (Or.inr hmem)
        · exact Or.inr ⟨⟨hk, hne⟩, hv⟩
      · rintro ((heq | hmem) | ⟨⟨-, hne⟩, hv⟩)
        · exact absurd (congrArg Prod.fst heq).symm hk
        · exact Or.inl hmem
        · exact Or.inr ⟨hne, hv⟩

theorem mapAfter_inserts_perm {pairs pairs' : List (Key × Cid)} (h : Functional pairs)
    (hperm : pairs.Perm pairs') :
  mapAfter (inserts pairs) = mapAfter (inserts pairs')
  := by
  have h' : Functional pairs' := fun a ha b hb =>
    h a (hperm.mem_iff.mpr ha) b (hperm.mem_iff.mpr hb)
  funext k
  apply Option.ext
  intro v
  rw [mapAfter, mapAfter, foldl_inserts h, foldl_inserts h', hperm.mem_iff]
  simp

theorem run_append (mst : Mst (drisl sha256 format maxDepth)) (ops ops' : List Operation) :
  mst.run (ops ++ ops') = mst.run ops >>= fun mst => mst.run ops'
  := by
  induction ops generalizing mst with
  | nil => rfl
  | cons op ops ih =>
    rw [List.cons_append, Mst.run, Mst.run]
    cases mst.apply op with
    | error e => rfl
    | ok next => exact ih next

/-- Inserting a fresh key and deleting it again changes no map. -/
theorem mapAfter_insert_delete {ops : List Operation} {key : Key} (value : Cid)
    (h : mapAfter ops key = none) :
  mapAfter (ops ++ [.insert key value, .delete key]) = mapAfter ops
  := by
  have hfold : mapAfter (ops ++ [.insert key value, .delete key]) =
      Function.update (Function.update (mapAfter ops) key (some value)) key none :=
    List.foldl_append
  rw [hfold, Function.update_idem, ← h, Function.update_eq_self]

/-- The root is a function of the final map: runs with the same map end with the same root,
inserting pairs in another order gives the same root, and inserting a fresh key and
deleting it gives the root back. -/
theorem root_canonical (hhash : Function.Injective sha256) (hformat : format.Lawful) :
  (∀ (S S' : BlockStore sha256) (ops ops' : List Operation)
      (mst mst' : Mst (drisl sha256 format maxDepth)),
    (∀ op ∈ ops, op.ShortKey) → (∀ op ∈ ops', op.ShortKey) →
    (Mst.new S : Mst (drisl sha256 format maxDepth)).run ops = .ok mst →
    (Mst.new S' : Mst (drisl sha256 format maxDepth)).run ops' = .ok mst' →
    mapAfter ops = mapAfter ops' → mst.root = mst'.root) ∧
  (∀ (S S' : BlockStore sha256) (pairs pairs' : List (Key × Cid))
      (mst mst' : Mst (drisl sha256 format maxDepth)),
    (∀ op ∈ inserts pairs, op.ShortKey) → Functional pairs → pairs.Perm pairs' →
    (Mst.new S : Mst (drisl sha256 format maxDepth)).run (inserts pairs) = .ok mst →
    (Mst.new S' : Mst (drisl sha256 format maxDepth)).run (inserts pairs') = .ok mst' →
    mst.root = mst'.root) ∧
  ∀ (S : BlockStore sha256) (ops : List Operation) (key : Key) (value : Cid)
      (mst mst' : Mst (drisl sha256 format maxDepth)),
    (∀ op ∈ ops, op.ShortKey) → key.bytes.length < 2 ^ 32 → mapAfter ops key = none →
    (Mst.new S : Mst (drisl sha256 format maxDepth)).run ops = .ok mst →
    mst.run [.insert key value, .delete key] = .ok mst' → mst'.root = mst.root
  := by
  refine ⟨?_, ?_, ?_⟩
  · intro S S' ops ops' mst mst' hshort hshort' hrun hrun' hmap
    exact root_eq_of_mapAfter hhash hformat hshort hshort' hrun hrun' hmap
  · intro S S' pairs pairs' mst mst' hshort hfunctional hperm hrun hrun'
    have hshort' : ∀ op ∈ inserts pairs', op.ShortKey := fun op hop =>
      hshort op ((hperm.map _).mem_iff.mpr hop)
    exact root_eq_of_mapAfter hhash hformat hshort hshort' hrun hrun'
      (mapAfter_inserts_perm hfunctional hperm)
  · intro S ops key value mst mst' hshort hkey hfresh hrun hrun'
    have hshort' : ∀ op ∈ ops ++ [.insert key value, .delete key], op.ShortKey := by
      intro op hop
      obtain hop | hop := List.mem_append.mp hop
      · exact hshort op hop
      · obtain rfl | hop := List.mem_cons.mp hop
        · exact hkey
        · rw [List.mem_singleton.mp hop]
          exact hkey
    have hlong : (Mst.new S : Mst (drisl sha256 format maxDepth)).run
        (ops ++ [.insert key value, .delete key]) = .ok mst' := by
      rw [run_append, hrun]
      exact hrun'
    exact root_eq_of_mapAfter hhash hformat hshort' hshort hlong hrun
      (mapAfter_insert_delete value hfresh)

/-! ### Trees over a sample hash

Reversal has no collisions, and the height of a key is read off its last byte. -/

/-- Trees over reversal. -/
abbrev mirror (maxDepth : Nat) : Context := drisl List.reverse multiformats maxDepth

/-- An empty tree over reversal. -/
def mirrorMst (maxDepth : Nat) : Mst (mirror maxDepth) := .new .empty

/-- A key of height one. -/
def tallKey : Key := textOf "a/0"

/-- A key of height zero. -/
def flatKey : Key := textOf "b/a"

theorem root_canonical_mirror :
  (∃ mst mst', (mirrorMst 1).run [.insert tallKey default, .insert flatKey default] = .ok mst ∧
    (mirrorMst 1).run [.insert flatKey default, .delete tallKey, .insert tallKey default] =
      .ok mst' ∧ mst.root = mst'.root) ∧
  (∃ mst mst', (mirrorMst 1).run (inserts [(tallKey, default), (flatKey, default)]) = .ok mst ∧
    (mirrorMst 1).run (inserts [(flatKey, default), (tallKey, default)]) = .ok mst' ∧
      mst.root = mst'.root) ∧
  ∃ mst mst', (mirrorMst 1).run [.insert flatKey default] = .ok mst ∧
    mst.run [.insert tallKey default, .delete tallKey] = .ok mst' ∧ mst'.root = mst.root
  := by
  obtain ⟨hmap, hperm, hfresh⟩ := @root_canonical List.reverse multiformats 1
    List.reverse_injective multiformats_lawful
  refine ⟨?_, ?_, ?_⟩
  · obtain ⟨mst, hrun⟩ := exists_eq_ok (by decide +kernel : ((mirrorMst 1).run
      [.insert tallKey default, .insert flatKey default]).toOption.isSome = true)
    obtain ⟨mst', hrun'⟩ := exists_eq_ok (by decide +kernel : ((mirrorMst 1).run
      [.insert flatKey default, .delete tallKey, .insert tallKey default]).toOption.isSome = true)
    refine ⟨mst, mst', hrun, hrun', hmap _ _ _ _ mst mst' ?_ ?_ hrun hrun' ?_⟩
    · simp only [Operation.ShortKey]
      decide
    · simp only [Operation.ShortKey]
      decide
    · have hne : tallKey ≠ flatKey := by decide
      funext k
      simp only [mapAfter, List.foldl, Operation.update, Operation.target, Operation.value?,
        Function.update_apply]
      split_ifs <;> simp_all
  · obtain ⟨mst, hrun⟩ := exists_eq_ok (by decide +kernel : ((mirrorMst 1).run
      (inserts [(tallKey, default), (flatKey, default)])).toOption.isSome = true)
    obtain ⟨mst', hrun'⟩ := exists_eq_ok (by decide +kernel : ((mirrorMst 1).run
      (inserts [(flatKey, default), (tallKey, default)])).toOption.isSome = true)
    refine ⟨mst, mst', hrun, hrun', hperm _ _ _ _ mst mst' ?_ ?_ ?_ hrun hrun'⟩
    · simp only [Operation.ShortKey]
      decide
    · unfold Functional
      decide
    · exact List.Perm.swap _ _ _
  · obtain ⟨mst, hrun⟩ := exists_eq_ok (by decide +kernel : ((mirrorMst 1).run
      [.insert flatKey default]).toOption.isSome = true)
    obtain ⟨mst', hrun'⟩ : ∃ mst', mst.run [.insert tallKey default, .delete tallKey] = .ok mst' := by
      have hboth := exists_eq_ok (by decide +kernel : ((mirrorMst 1).run ([.insert flatKey default] ++
        [.insert tallKey default, .delete tallKey])).toOption.isSome = true)
      rw [run_append, hrun] at hboth
      exact hboth
    refine ⟨mst, mst', hrun, hrun', hfresh _ _ _ default mst mst' ?_ ?_ ?_ hrun hrun'⟩
    · simp only [Operation.ShortKey]
      decide
    · decide
    · decide

/-! ### Lookups and listings -/

/-- Lookups and listings of a tree that was built by operations: what they return is the
map of the operations, and they do return when no key of the map is higher than the limit
on the depth and no node is beyond the limits of the decoder. -/
theorem lookup_of_run (hhash : Function.Injective sha256) (hformat : format.Lawful)
    (hshort : ∀ op ∈ ops, op.ShortKey)
    (hrun : (Mst.new S : Mst (drisl sha256 format maxDepth)).run ops = .ok mst) :
  (∀ key found, mst.get key = .ok found → found = mapAfter ops key) ∧
  (∀ pairs, mst.entries = .ok pairs → Sorted pairs ∧
    ∀ key value, (key, value) ∈ pairs ↔ mapAfter ops key = some value) ∧
  ((∀ key, mapAfter ops key ≠ none → keyHeight sha256 key ≤ maxDepth) →
    Decodable (drisl sha256 format maxDepth) format (fun x => mapAfter ops x.1 = some x.2) →
    (∀ key, mst.get key = .ok (mapAfter ops key)) ∧ ∃ pairs, mst.entries = .ok pairs)
  := by
  have hsound := drisl_sound hhash hformat maxDepth
  have hshortMap : Short fun x : Key × Cid => mapAfter ops x.1 = some x.2 ∧ ShortPair x :=
    fun x hx => hx.2
  have hrun' := represents_of_run hhash hformat hshort hrun
  have hmem : ∀ key value, (key, value) ∈ editAll ops [] ↔ mapAfter ops key = some value := by
    intro key value
    rw [← lookup_editAll_nil]
    exact ⟨fun h => hrun'.within.sorted.lookup_of_mem h, mem_of_lookup⟩
  have hrepr : mst.Represents (fun x => mapAfter ops x.1 = some x.2 ∧ ShortPair x) (fun _ => True)
      (editAll ops []) :=
    ⟨⟨hrun'.within.sorted, fun x hx => ⟨(hmem x.1 x.2).mp hx, hrun'.within.mem x hx⟩⟩,
      hrun'.root, hrun'.holds⟩
  refine ⟨?_, ?_, ?_⟩
  · intro key found hget
    have hspec := @Mst.Represents.get_spec _ _ _ _ _ hrepr hsound hshortMap key trivial
    rw [hget] at hspec
    rw [hspec, lookup_editAll_nil]
  · intro pairs hentries
    have hspec := hrepr.entries_spec hsound hshortMap
    rw [hentries] at hspec
    rw [hspec]
    exact ⟨hrepr.within.sorted, hmem⟩
  · intro hheight hdecodable
    have hfit : AllFit (drisl sha256 format maxDepth) maxDepth
        fun x => mapAfter ops x.1 = some x.2 ∧ ShortPair x := by
      apply Decodable.allFit hformat
      intro L hL xs node hxs
      exact hdecodable L hL xs node ⟨hxs.sorted, fun x hx => (hxs.mem x hx).1⟩
    have htop : topLayer (drisl sha256 format maxDepth) (editAll ops []) ≤ maxDepth := by
      apply topLayer_le hrepr.within
      intro x hx
      apply hheight x.1
      rw [hx.1]
      exact Option.some_ne_none x.2
    constructor
    · intro key
      rw [hrepr.get_eq hsound hshortMap hfit htop trivial, lookup_editAll_nil]
    · have hspec := hrepr.entries_spec hsound hshortMap
      cases hentries : mst.entries with
      | ok pairs => exact ⟨pairs, rfl⟩
      | error e =>
        rw [hentries] at hspec
        obtain hlt | hnot := hspec
        · exact absurd htop (Nat.not_le.mpr hlt)
        · exact absurd (hfit.anti htop) hnot

/-- The node of a list at a layer is within the limits of the decoder, if there is one. -/
def fitsAt (ctx : Context) (format : CidFormat) (L : Nat) (xs : List (Key × Cid)) : Bool :=
  (toNode (canonicalEntries ctx L xs)).toOption.all fun node =>
    decide (NodeFits DecodeConfig.default format node)

/-- For finitely many pairs the nodes of the sublists are enough. -/
theorem decodable_of_sublists {ctx : Context} {pairs : List (Key × Cid)}
    (hpairs : pairs.Pairwise fun a b => a.1 ≤ b.1)
    (h : (pairs.sublists.all fun xs => (List.range (ctx.maxDepth + 1)).all fun L =>
      fitsAt ctx format L xs) = true) :
  Decodable ctx format fun x => x ∈ pairs
  := by
  intro L hL xs node hxs hnode
  have hsublist := hxs.sorted.sublist hpairs hxs.mem
  have hall := List.all_eq_true.mp h xs (List.mem_sublists.mpr hsublist)
  have hfits := List.all_eq_true.mp hall L (List.mem_range.mpr (Nat.lt_succ_of_le hL))
  rw [fitsAt, hnode] at hfits
  exact of_decide_eq_true hfits

/-- Another CID than the default one. -/
def otherCid : Cid := computeCid List.reverse []

/-- A key of height zero before `tallKey`. -/
def lowKey : Key := textOf "A/a"

/-- A key of height one between `flatKey` and `lastKey`. -/
def midKey : Key := textOf "b/a0"

/-- A key of height zero after the others. -/
def lastKey : Key := textOf "b/b"

/-- The pairs of the runs below. -/
def samplePairs : List (Key × Cid) :=
  [(lowKey, default), (lowKey, otherCid), (tallKey, otherCid), (flatKey, default),
    (midKey, otherCid), (lastKey, default)]

theorem decodable_samplePairs :
  Decodable (mirror 1) multiformats fun x => x ∈ samplePairs
  := by
  apply decodable_of_sublists
  · decide
  · decide +kernel

theorem height_samplePairs :
  ∀ x ∈ samplePairs, keyHeight (mirror 1).sha256 x.1 ≤ 1
  := by decide

theorem short_samplePairs :
  ∀ x ∈ samplePairs, ShortPair x
  := by
  unfold ShortPair
  decide

theorem Decodable.mono {ctx : Context} {U U' : Key × Cid → Prop} (h : Decodable ctx format U)
    (hU : ∀ x, U' x → U x) :
  Decodable ctx format U'
  := fun L hL xs node hxs => h L hL xs node ⟨hxs.sorted, fun x hx => hU x (hxs.mem x hx)⟩

/-- Splits, an update and merges that end in four keys in two layers. -/
def sampleRun : List Operation :=
  [.insert lowKey default, .insert flatKey default, .insert lastKey default,
    .insert tallKey otherCid, .insert midKey otherCid, .insert lowKey otherCid, .delete tallKey,
    .delete midKey, .insert tallKey otherCid]

/-- The key of height one is deleted, another one is created, and a value is replaced. -/
def sampleBatch : List Operation :=
  [.delete tallKey, .insert midKey otherCid, .insert lowKey default]

theorem exists_run_samples :
  ∃ mst mst', (mirrorMst 1).run sampleRun = .ok mst ∧ mst.run sampleBatch = .ok mst'
  := by
  have hboth : ((mirrorMst 1).run (sampleRun ++ sampleBatch)).toOption.isSome = true := by
    decide +kernel
  rw [run_append] at hboth
  cases hrun : (mirrorMst 1).run sampleRun with
  | error error =>
    rw [hrun] at hboth
    cases hboth
  | ok mst =>
    rw [hrun] at hboth
    obtain ⟨mst', hrun'⟩ := exists_eq_ok hboth
    exact ⟨mst, mst', rfl, hrun'⟩

/-- The map of the run. -/
def sampleMap : List (Key × Cid) :=
  [(lowKey, otherCid), (tallKey, otherCid), (flatKey, default), (lastKey, default)]

theorem mapAfter_sampleRun (key : Key) :
  mapAfter sampleRun key = lookup key sampleMap
  := by
  have hlist : editAll sampleRun [] = sampleMap := by decide
  rw [← lookup_editAll_nil, hlist]

theorem lookup_of_run_mirror :
  ∃ mst, (mirrorMst 1).run sampleRun = .ok mst ∧ (∀ key, mst.get key = .ok (lookup key sampleMap)) ∧
    mst.entries = .ok sampleMap
  := by
  obtain ⟨mst, -, hrun, -⟩ := exists_run_samples
  obtain ⟨-, hlisted, hlimits⟩ := lookup_of_run List.reverse_injective multiformats_lawful
    (by simp only [Operation.ShortKey]; decide) hrun
  have hmem : ∀ x : Key × Cid, mapAfter sampleRun x.1 = some x.2 → x ∈ samplePairs := by
    intro x hx
    rw [mapAfter_sampleRun] at hx
    have hsubset : ∀ x ∈ sampleMap, x ∈ samplePairs := by decide
    exact hsubset x (mem_of_lookup hx)
  have hheight : ∀ key, mapAfter sampleRun key ≠ none → keyHeight List.reverse key ≤ 1 := by
    intro key hkey
    obtain ⟨value, hvalue⟩ := Option.ne_none_iff_exists'.mp hkey
    exact height_samplePairs (key, value) (hmem (key, value) hvalue)
  obtain ⟨hget, pairs, hentries⟩ := hlimits hheight (decodable_samplePairs.mono hmem)
  obtain ⟨hsorted, hpairs⟩ := hlisted pairs hentries
  refine ⟨mst, hrun, fun key => by rw [hget, mapAfter_sampleRun], ?_⟩
  have heq : pairs = sampleMap := by
    have hsample : Sorted sampleMap := by
      unfold Sorted
      decide
    apply hsorted.ext hsample
    intro key
    apply Option.ext
    intro value
    rw [← mapAfter_sampleRun, ← hpairs]
    exact ⟨mem_of_lookup, fun h => hsorted.lookup_of_mem h⟩
  rw [hentries, heq]

theorem exists_run_tooDeep :
  ∃ mst, (mirrorMst 0).run [.insert tallKey default, .insert flatKey default] = .ok mst ∧
    (mst.get flatKey).toOption = none
  := by
  obtain ⟨mst, hrun⟩ := exists_eq_ok (by decide +kernel : ((mirrorMst 0).run
    [.insert tallKey default, .insert flatKey default]).toOption.isSome = true)
  have hget : ((mirrorMst 0).run [.insert tallKey default, .insert flatKey default] >>= fun mst =>
      mst.get flatKey).toOption = none := by decide +kernel
  rw [hrun] at hget
  exact ⟨mst, hrun, hget⟩

/-- A tree can be built that is too deep to be read. -/
theorem lookup_of_run_tooDeep :
  ¬ ∀ (maxDepth : Nat) (ops : List Operation) (mst : Mst (mirror maxDepth)),
    (mirrorMst maxDepth).run ops = .ok mst → ∀ key, mst.get key = .ok (mapAfter ops key)
  := by
  intro hclaim
  obtain ⟨mst, hrun, hget⟩ := exists_run_tooDeep
  rw [hclaim 0 _ mst hrun flatKey] at hget
  cases hget

/-! ### Covering proofs -/

/-- The blocks of the covering proofs of the keys of a batch are enough to read these keys
and to undo the batch in any order, when no key is higher than the limit on the depth and
no node is beyond the limits of the decoder. -/
theorem coveringProofs_undo {U : Key × Cid → Prop} {xs : List (Key × Cid)} {steps : Nat}
    (hhash : Function.Injective sha256) (hformat : format.Lawful)
    (h : mst.Represents U (fun _ => True) xs) (hU : ∀ x, U x → ShortPair x)
    (hheight : ∀ x, U x → keyHeight sha256 x.1 ≤ maxDepth)
    (hdecodable : Decodable (drisl sha256 format maxDepth) format U)
    (hvalid : ∀ x ∈ xs, validateKey x.1 = .ok ()) (hops : (ops.map Operation.target).Nodup)
    (hinserts : ∀ op ∈ ops, op.Inserts U) (hrun : mst.run ops = .ok mst')
    (hsteps : topLayer (drisl sha256 format maxDepth) (editAll ops xs) < steps) :
  ∃ blocks, mst'.coveringProofs steps (ops.map Operation.target) = .ok blocks ∧
    (∀ op ∈ ops, (mst'.withBlocks blocks).get op.target = .ok op.value? ∧
      mst'.get op.target = .ok op.value?) ∧
    ∀ undos : List Operation, undos.Perm (ops.map fun op => op.undo fun k => lookup k xs) →
      ∃ last, (mst'.withBlocks blocks).run undos = .ok last ∧ last.root = mst.root
  := h.undo_batch (drisl_sound hhash hformat maxDepth) hU (hdecodable.allFit hformat) hheight hvalid
    hops hinserts hrun hsteps

theorem coveringProofs_undo_mirror :
  ∃ mst mst' blocks, (mirrorMst 1).run sampleRun = .ok mst ∧ mst.run sampleBatch = .ok mst' ∧
    mst'.coveringProofs 2 [tallKey, midKey, lowKey] = .ok blocks ∧
    (mst'.withBlocks blocks).get tallKey = .ok none ∧
    (mst'.withBlocks blocks).get midKey = .ok (some otherCid) ∧
    ∃ last, (mst'.withBlocks blocks).run
      [.delete midKey, .insert lowKey otherCid, .insert tallKey otherCid] = .ok last ∧
      last.root = mst.root
  := by
  obtain ⟨mst, mst', hrun, hrun'⟩ := exists_run_samples
  have hvalues : ∀ op ∈ sampleRun ++ sampleBatch, ∀ value ∈ op.value?,
    (op.target, value) ∈ samplePairs := by decide
  have hinserts : ∀ op ∈ sampleRun ++ sampleBatch, op.Inserts fun x => x ∈ samplePairs := by
    intro op hop
    cases op with
    | insert key value => exact hvalues _ hop value rfl
    | delete key => trivial
  have hnew := @Mst.represents_new (mirror 1) (fun x => x ∈ samplePairs) (fun _ => True) .empty
  obtain ⟨hrepr, -⟩ := hnew.run_ok (drisl_sound List.reverse_injective multiformats_lawful 1)
    short_samplePairs (fun op hop => ⟨hinserts op (List.mem_append_left _ hop), trivial⟩) hrun
  have hlist : editAll sampleRun [] = sampleMap := by decide
  rw [hlist] at hrepr
  obtain ⟨blocks, hblocks, hread, hundo⟩ := @coveringProofs_undo List.reverse multiformats 1
    sampleBatch mst mst' (fun x => x ∈ samplePairs) _ 2 List.reverse_injective multiformats_lawful
    hrepr short_samplePairs height_samplePairs decodable_samplePairs (by decide) (by decide)
    (fun op hop => hinserts op (List.mem_append_right _ hop)) hrun' (by decide)
  have hperm : List.Perm [Operation.delete midKey, .insert lowKey otherCid, .insert tallKey otherCid]
      (sampleBatch.map fun op => op.undo fun k => lookup k sampleMap) := by decide
  obtain ⟨last, hlast, hroot⟩ := hundo _ hperm
  refine ⟨mst, mst', blocks, hrun, hrun', hblocks, ?_, ?_, last, hlast, hroot⟩
  · exact (hread (.delete tallKey) (by decide)).1
  · exact (hread (.insert midKey otherCid) (by decide)).1

/-- After a batch that makes a tree too deep to be read no covering proof is enough. -/
theorem coveringProofs_undo_tooDeep :
  ¬ ∀ (maxDepth : Nat) (ops : List Operation) (mst' : Mst (mirror maxDepth)),
    (ops.map Operation.target).Nodup → (mirrorMst maxDepth).run ops = .ok mst' →
    ∃ steps blocks, mst'.coveringProofs steps (ops.map Operation.target) = .ok blocks ∧
      ∀ op ∈ ops, (mst'.withBlocks blocks).get op.target = .ok op.value? ∧
        mst'.get op.target = .ok op.value?
  := by
  intro hclaim
  obtain ⟨mst', hrun, hget⟩ := exists_run_tooDeep
  obtain ⟨_, _, -, hproved⟩ := hclaim 0 _ mst' (by decide) hrun
  obtain ⟨-, hget'⟩ := hproved (.insert flatKey default) (by simp)
  change mst'.get flatKey = .ok _ at hget'
  rw [hget'] at hget
  cases hget

end Runs

end Atproto.Repo