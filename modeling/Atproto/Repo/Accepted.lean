import Atproto.Repo.Canonicity
import Atproto.Repo.Entries
import Atproto.Repo.Inductive
import Atproto.SearchTree.Unfolding

/-!
# Trees that were accepted

The walk over the blocks of a commit checks the CIDs, and not the order of the keys.  So what a
lookup finds in an accepted tree is what the tree lists only when every key is placed where the
comparisons arrive.
-/

namespace Atproto.Repo

open Atproto.Dasl Logic SearchTree

variable {ctx : Context} {S T : BlockStore ctx.sha256}

/-- The child list of the node at a CID, when the store has a block there that is one. -/
def nodeAt (S : BlockStore ctx.sha256) (cid : Cid) : Option (List NodeEntry) :=
  (loadEntries ctx cid S).1.toOption

/-! ### Reading nodes -/

theorem loadNode_state (cid : Cid) :
  (loadNode ctx cid S).2 = S
  := by
  rw [loadNode, Action.bind_apply, Action.read]
  cases S.blocks cid with
  | none => rfl
  | some bytes => rfl

theorem loadEntries_state (cid : Cid) :
  (loadEntries ctx cid S).2 = S
  := by
  have hstate := loadNode_state (S := S) cid
  rw [loadEntries, Action.bind_apply]
  cases hload : loadNode ctx cid S with
  | mk result T =>
    rw [hload] at hstate
    cases result with
    | ok node => exact hstate
    | error e => exact hstate

theorem loadEntries_eq_ok {cid : Cid} {entries : List NodeEntry} :
  loadEntries ctx cid S = (.ok entries, T) ↔ nodeAt S cid = some entries ∧ T = S
  := by
  have hstate := loadEntries_state (S := S) cid
  rw [nodeAt]
  cases hload : loadEntries ctx cid S with
  | mk result S' =>
    rw [hload] at hstate
    obtain rfl : S' = S := hstate
    cases result with
    | error e =>
      constructor
      · nofun
      · rintro ⟨h, -⟩
        cases h
    | ok entries' =>
      constructor
      · intro h
        obtain ⟨⟨⟩, rfl⟩ := Prod.ext_iff.mp h
        exact ⟨rfl, rfl⟩
      · rintro ⟨h, rfl⟩
        cases h
        rfl

/-- In a child list no subtrees are adjacent. -/
theorem spaced_fromEntries {previous : Key} {entries : List TreeEntry} {children : List NodeEntry}
    (h : fromEntries previous entries = .ok children) :
  Spaced children ∧ (children = [] ∨ ∃ k v rest, children = .leaf k v :: rest)
  := by
  induction entries generalizing previous children with
  | nil =>
    cases h
    exact ⟨trivial, .inl rfl⟩
  | cons entry entries ih =>
    rw [fromEntries] at h
    obtain ⟨key, -, hrest⟩ := bind_eq_ok.mp h
    obtain ⟨more, hmore, heq⟩ := bind_eq_ok.mp hrest
    cases heq
    obtain ⟨hspaced, hstart⟩ := ih hmore
    refine ⟨?_, .inr ⟨key, entry.value, _, rfl⟩⟩
    cases entry.tree with
    | none => exact hspaced
    | some child =>
      rcases hstart with rfl | ⟨k, v, rest, rfl⟩
      · trivial
      · exact hspaced

theorem nodeAt_eq_some {cid : Cid} {entries : List NodeEntry} :
  nodeAt S cid = some entries ↔
    ∃ node, loadNode ctx cid S = (.ok node, S) ∧ fromNode node = .ok entries
  := by
  have hiff : nodeAt S cid = some entries ↔ loadEntries ctx cid S = (.ok entries, S) := by
    rw [loadEntries_eq_ok, and_iff_left rfl]
  rw [hiff, loadEntries, Action.bind_eq_ok]
  constructor
  · rintro ⟨node, T, hload, hentries⟩
    obtain ⟨hnode, rfl⟩ := Action.ofExcept_eq_ok.mp hentries
    exact ⟨node, hload, hnode⟩
  · rintro ⟨node, hload, hnode⟩
    exact ⟨node, S, hload, Action.ofExcept_eq_ok.mpr ⟨hnode, rfl⟩⟩

theorem spaced_nodeAt {cid : Cid} {entries : List NodeEntry} (h : nodeAt S cid = some entries) :
  Spaced entries
  := by
  obtain ⟨node, -, hnode⟩ := nodeAt_eq_some.mp h
  obtain ⟨children, hchildren, heq⟩ := bind_eq_ok.mp hnode
  cases heq
  obtain ⟨hspaced, hstart⟩ := spaced_fromEntries hchildren
  cases node.left with
  | none => exact hspaced
  | some left =>
    rcases hstart with rfl | ⟨k, v, rest, rfl⟩
    · trivial
    · exact hspaced

/-! ### Lookups -/

/-- A key cuts a child list before the first leaf that is not below it. -/
theorem exists_cut (entries : List NodeEntry) (key : Key) :
  ∃ lo hi, entries = lo ++ hi ∧ LeavesBelow key lo ∧
    (hi = [] ∨ ∃ k v rest, hi = .leaf k v :: rest ∧ key ≤ k)
  := by
  induction entries with
  | nil => exact ⟨[], [], rfl, fun _ _ hmem => absurd hmem List.not_mem_nil, .inl rfl⟩
  | cons entry entries ih =>
    obtain ⟨lo, hi, rfl, hlo, hhi⟩ := ih
    cases entry with
    | tree child => exact ⟨.tree child :: lo, hi, rfl, hlo.cons_tree, hhi⟩
    | leaf k v =>
      by_cases hlt : k < key
      · exact ⟨.leaf k v :: lo, hi, rfl, hlo.cons_leaf hlt, hhi⟩
      · exact ⟨[], .leaf k v :: (lo ++ hi), rfl, fun _ _ hmem => absurd hmem List.not_mem_nil,
          .inr ⟨k, v, _, rfl, not_lt.mp hlt⟩⟩

/-- There is only one such cut. -/
theorem cut_unique {key : Key} {lo lo' hi hi' : List NodeEntry} (h : lo ++ hi = lo' ++ hi')
    (hlo : LeavesBelow key lo) (hhi : hi = [] ∨ ∃ k v rest, hi = .leaf k v :: rest ∧ key ≤ k)
    (hlo' : LeavesBelow key lo') (hhi' : hi' = [] ∨ ∃ k v rest, hi' = .leaf k v :: rest ∧ key ≤ k) :
  lo = lo' ∧ hi = hi'
  := by
  have hindex := findLeafIndex_append hlo hhi
  rw [h, findLeafIndex_append hlo' hhi'] at hindex
  exact List.append_inj h hindex.symm

/-- In a node that is cut at a leaf of the key, the key has the value of the leaf only. -/
theorem placed_of_leaf {levels : Nat} {cid value value' : Cid} {key : Key}
    {lo hi : List NodeEntry} (hnode : nodeAt S cid = some (lo ++ .leaf key value :: hi))
    (hlo : LeavesBelow key lo) :
  Placed (nodeAt S) (levels + 1) cid key value' ↔ value' = value
  := by
  have hhi : (.leaf key value :: hi : List NodeEntry) = [] ∨
      ∃ k v rest, (.leaf key value :: hi : List NodeEntry) = .leaf k v :: rest ∧ key ≤ k :=
    .inr ⟨key, value, hi, rfl, le_rfl⟩
  constructor
  · rintro ⟨entries, hentries, hplaced⟩
    obtain rfl := Option.some.inj (hnode.symm.trans hentries)
    rcases hplaced with ⟨lo', hi', heq, hlo'⟩ | ⟨lo', child, hi', heq, hlo', hhi', -⟩
    · obtain ⟨-, heq⟩ := cut_unique heq hlo hhi hlo' (.inr ⟨key, value', hi', rfl, le_rfl⟩)
      exact (Entry.leaf.inj (List.cons.inj heq).1).2.symm
    · rw [List.append_cons lo'] at heq
      have hbelow : LeavesBelow key (lo' ++ [.tree child]) := by
        intro k v hmem
        rcases List.mem_append.mp hmem with hmem | hmem
        · exact hlo' k v hmem
        · cases List.mem_singleton.mp hmem
      have hafter : hi' = [] ∨ ∃ k v rest, hi' = .leaf k v :: rest ∧ key ≤ k := by
        refine hhi'.imp_right ?_
        rintro ⟨k, v, rest, heq, hlt⟩
        exact ⟨k, v, rest, heq, hlt.le⟩
      obtain ⟨-, heq⟩ := cut_unique heq hlo hhi hbelow hafter
      subst heq
      rcases hhi' with hnil | ⟨k, v, rest, heq, hlt⟩
      · cases hnil
      · obtain ⟨rfl, -⟩ := Entry.leaf.inj (List.cons.inj heq).1
        exact absurd hlt (lt_irrefl _)
  · rintro rfl
    exact ⟨_, hnode, .inl ⟨lo, hi, rfl, hlo⟩⟩

/-- In a node that is cut between leaves around the key, the key has the values that it has below
the subtree before the cut. -/
theorem placed_of_gap {levels : Nat} {cid value : Cid} {key : Key} {lo hi : List NodeEntry}
    (hnode : nodeAt S cid = some (lo ++ hi)) (hlo : LeavesBelow key lo)
    (hhi : StartsAbove key hi) :
  Placed (nodeAt S) (levels + 1) cid key value ↔
    ∃ child, childBefore (lo ++ hi) lo.length = some child ∧
      Placed (nodeAt S) levels child key value
  := by
  have hafter : ∀ hi : List NodeEntry, StartsAbove key hi →
      hi = [] ∨ ∃ k v rest, hi = .leaf k v :: rest ∧ key ≤ k := by
    intro hi hhi
    refine hhi.imp_right ?_
    rintro ⟨k, v, rest, heq, hlt⟩
    exact ⟨k, v, rest, heq, hlt.le⟩
  rw [childBefore_append]
  constructor
  · rintro ⟨entries, hentries, hplaced⟩
    obtain rfl := Option.some.inj (hnode.symm.trans hentries)
    rcases hplaced with ⟨lo', hi', heq, hlo'⟩ | ⟨lo', child, hi', heq, hlo', hhi', hchild⟩
    · obtain ⟨-, rfl⟩ := cut_unique heq hlo (hafter hi hhi) hlo'
        (.inr ⟨key, value, hi', rfl, le_rfl⟩)
      rcases hhi with hnil | ⟨k, v, rest, heq, hlt⟩
      · cases hnil
      · obtain ⟨rfl, -⟩ := Entry.leaf.inj (List.cons.inj heq).1
        exact absurd hlt (lt_irrefl _)
    · rw [List.append_cons lo'] at heq
      have hbelow : LeavesBelow key (lo' ++ [.tree child]) := by
        intro k v hmem
        rcases List.mem_append.mp hmem with hmem | hmem
        · exact hlo' k v hmem
        · cases List.mem_singleton.mp hmem
      obtain ⟨rfl, rfl⟩ := cut_unique heq hlo (hafter hi hhi) hbelow (hafter hi' hhi')
      refine ⟨child, ?_, hchild⟩
      rw [List.getLast?_concat]
  · rintro ⟨child, hlast, hchild⟩
    rcases List.eq_nil_or_concat' lo with rfl | ⟨lo', entry, rfl⟩
    · cases hlast
    · rw [List.getLast?_concat] at hlast
      cases entry with
      | leaf k v => cases hlast
      | tree child' =>
        obtain rfl := Option.some.inj hlast
        refine ⟨_, hnode, .inr ⟨lo', child', hi, ?_, ?_, hhi, hchild⟩⟩
        · exact (List.append_cons _ _ _).symm
        · exact fun k v hmem => hlo k v (List.mem_append_left _ hmem)

/-- A lookup finds a value exactly where it is placed. -/
theorem getAt_eq_some {levels : Nat} {cid value : Cid} {key : Key} :
  (getAt ctx levels cid key S).1 = .ok (some value) ↔ Placed (nodeAt S) levels cid key value
  := by
  induction levels generalizing cid with
  | zero =>
    constructor
    · intro h
      cases h
    · exact fun h => absurd h not_false
  | succ levels ih =>
    cases hnode : nodeAt S cid with
    | none =>
      constructor
      · intro h
        rw [getAt, Action.bind_apply] at h
        cases hload : loadEntries ctx cid S with
        | mk result T =>
          rw [hload] at h
          cases result with
          | error e => cases h
          | ok entries =>
            have hsome := (loadEntries_eq_ok.mp hload).1
            rw [hnode] at hsome
            cases hsome
      · rintro ⟨entries, hentries, -⟩
        rw [hnode] at hentries
        cases hentries
    | some entries =>
      obtain ⟨lo, hi, rfl, hlo, hhi⟩ := exists_cut entries key
      have hload := loadEntries_eq_ok.mpr ⟨hnode, rfl⟩
      have hindex := findLeafIndex_append hlo hhi
      rw [getAt, Action.bind_apply, hload]
      dsimp only
      rw [hindex]
      by_cases hleaf : ∃ v rest, hi = .leaf key v :: rest
      · obtain ⟨v, rest, rfl⟩ := hleaf
        rw [leafAt_of_head, placed_of_leaf hnode hlo]
        constructor
        · intro h
          exact (Option.some.inj (Except.ok.inj h)).symm
        · rintro rfl
          rfl
      · have hstart : StartsAbove key hi := by
          refine hhi.imp_right ?_
          rintro ⟨k, v, rest, rfl, hle⟩
          refine ⟨k, v, rest, rfl, lt_of_le_of_ne hle ?_⟩
          rintro rfl
          exact hleaf ⟨v, rest, rfl⟩
        have hnone : leafAt (lo ++ hi) lo.length key = none := by
          rcases hstart with rfl | ⟨k, v, rest, rfl, hlt⟩
          · simp [leafAt]
          · simp [leafAt, hlt.ne']
        rw [hnone, placed_of_gap hnode hlo hstart]
        dsimp only
        cases childBefore (lo ++ hi) lo.length with
        | none =>
          constructor
          · intro h
            cases h
          · rintro ⟨child, hchild, -⟩
            cases hchild
        | some child =>
          dsimp only
          rw [ih]
          constructor
          · exact fun h => ⟨child, rfl, h⟩
          · rintro ⟨child', ⟨⟩, h⟩
            exact h

/-! ### Listings -/

/-- A walk has added pairs and seen nodes for the first time. -/
structure Advances (state state' : WalkState) (nodes : List Cid) (pairs : List (Key × Cid)) :
    Prop where
  collected : state'.1 = state.1 ++ pairs
  visited : state'.2 = nodes.reverse ++ state.2
  nodup : nodes.Nodup
  fresh : ∀ cid ∈ nodes, cid ∉ state.2

theorem Advances.refl (state : WalkState) :
  Advances state state [] []
  := ⟨(List.append_nil _).symm, rfl, List.nodup_nil, fun _ h => absurd h List.not_mem_nil⟩

/-- Two walks one after another. -/
theorem advances_append {state state'' : WalkState} {nodes nodes' : List Cid}
    {pairs pairs' : List (Key × Cid)} :
  Advances state state'' (nodes ++ nodes') (pairs ++ pairs') ↔
    ∃ state', Advances state state' nodes pairs ∧ Advances state' state'' nodes' pairs'
  := by
  constructor
  · intro h
    obtain ⟨hnodup, hnodup', hdisjoint⟩ := List.nodup_append.mp h.nodup
    refine ⟨(state.1 ++ pairs, nodes.reverse ++ state.2), ⟨rfl, rfl, hnodup, ?_⟩, ?_, ?_, hnodup', ?_⟩
    · exact fun cid hcid => h.fresh cid (List.mem_append_left _ hcid)
    · rw [h.collected, List.append_assoc]
    · rw [h.visited, List.reverse_append, List.append_assoc]
    · intro cid hcid hmem
      rcases List.mem_append.mp hmem with hmem | hmem
      · exact hdisjoint cid (List.mem_reverse.mp hmem) cid hcid rfl
      · exact h.fresh cid (List.mem_append_right _ hcid) hmem
  · rintro ⟨state', h, h'⟩
    constructor
    · rw [h'.collected, h.collected, List.append_assoc]
    · rw [h'.visited, h.visited, List.reverse_append, List.append_assoc]
    · apply List.nodup_append.mpr
      refine ⟨h.nodup, h'.nodup, ?_⟩
      rintro cid hcid cid' hcid' rfl
      apply h'.fresh cid hcid'
      rw [h.visited]
      exact List.mem_append_left _ (List.mem_reverse.mpr hcid)
    · intro cid hcid
      rcases List.mem_append.mp hcid with hcid | hcid
      · exact h.fresh cid hcid
      · intro hmem
        apply h'.fresh cid hcid
        rw [h.visited]
        exact List.mem_append_right _ hmem

/-- A walk into an address succeeds as the address unfolds. -/
def WalksAs (S : BlockStore ctx.sha256) (walk : Cid → WalkState → StoreM ctx WalkState)
    (below : Cid → List Cid → List (Key × Cid) → Prop) : Prop :=
  ∀ cid state state' T, walk cid state S = (.ok state', T) ↔
    T = S ∧ ∃ nodes pairs, below cid nodes pairs ∧ Advances state state' nodes pairs

/-- A walk over a child list succeeds as the list spreads. -/
theorem walkEntries_eq_ok {walk : Cid → WalkState → StoreM ctx WalkState}
    {below : Cid → List Cid → List (Key × Cid) → Prop} (hwalk : WalksAs S walk below)
    {entries : List NodeEntry} {state state' : WalkState} :
  walkEntries walk entries state S = (.ok state', T) ↔
    T = S ∧ ∃ nodes pairs, Spread below entries nodes pairs ∧ Advances state state' nodes pairs
  := by
  induction entries generalizing state with
  | nil =>
    constructor
    · intro h
      obtain ⟨⟨⟩, rfl⟩ := Prod.ext_iff.mp h
      exact ⟨rfl, [], [], .nil, .refl _⟩
    · rintro ⟨rfl, nodes, pairs, hspread, hadvances⟩
      cases hspread
      have hstate : state' = state := by
        apply Prod.ext
        · rw [hadvances.collected, List.append_nil]
        · exact hadvances.visited
      rw [hstate]
      rfl
  | cons entry entries ih =>
    cases entry with
    | leaf key value =>
      have hone : ∀ {nodes pairs}, Advances state state' nodes ((key, value) :: pairs) ↔
          Advances (state.1 ++ [(key, value)], state.2) state' nodes pairs := by
        intro nodes pairs
        constructor
        · intro h
          refine ⟨?_, h.visited, h.nodup, h.fresh⟩
          rw [h.collected]
          exact List.append_cons _ _ _
        · intro h
          refine ⟨?_, h.visited, h.nodup, h.fresh⟩
          rw [h.collected]
          exact (List.append_cons _ _ _).symm
      rw [walkEntries, ih]
      apply and_congr_right
      rintro -
      constructor
      · rintro ⟨nodes, pairs, hspread, hadvances⟩
        exact ⟨nodes, _, .leaf hspread, hone.mpr hadvances⟩
      · rintro ⟨nodes, pairs, hspread, hadvances⟩
        cases hspread with
        | leaf hspread => exact ⟨nodes, _, hspread, hone.mp hadvances⟩
    | tree child =>
      rw [walkEntries, Action.bind_eq_ok]
      constructor
      · rintro ⟨middle, S', hchild, hrest⟩
        obtain ⟨rfl, nodes, pairs, hbelow, hadvances⟩ := (hwalk _ _ _ _).mp hchild
        obtain ⟨rfl, nodes', pairs', hspread, hadvances'⟩ := ih.mp hrest
        exact ⟨rfl, _, _, .tree hbelow hspread, advances_append.mpr ⟨middle, hadvances, hadvances'⟩⟩
      · rintro ⟨rfl, nodes, pairs, hspread, hadvances⟩
        cases hspread with
        | tree hbelow hspread =>
          obtain ⟨middle, hadvances, hadvances'⟩ := advances_append.mp hadvances
          refine ⟨middle, _, (hwalk _ _ _ _).mpr ⟨rfl, _, _, hbelow, hadvances⟩, ?_⟩
          exact ih.mpr ⟨rfl, _, _, hspread, hadvances'⟩

/-- The entries of a node are walked as its child list is. -/
theorem collectNode_eq_ok {walk : Cid → WalkState → StoreM ctx WalkState} {previous : Key}
    {entries : List TreeEntry} {state state' : WalkState} :
  collectNode ctx walk previous entries state S = (.ok state', T) ↔
    ∃ children, fromEntries previous entries = .ok children ∧
      walkEntries walk children state S = (.ok state', T)
  := by
  induction entries generalizing previous state S with
  | nil =>
    constructor
    · intro h
      exact ⟨[], rfl, h⟩
    · rintro ⟨children, hchildren, h⟩
      cases hchildren
      exact h
  | cons entry entries ih =>
    rw [collectNode, Action.bind_eq_ok]
    have hchildren : ∀ children, fromEntries previous (entry :: entries) = .ok children ↔
        ∃ key, entry.reconstructKey previous = .ok key ∧ ∃ more, fromEntries key entries = .ok more ∧
          children = .leaf key entry.value :: (entry.tree.toList.map .tree ++ more) := by
      intro children
      rw [fromEntries, bind_eq_ok]
      apply exists_congr
      intro key
      rw [bind_eq_ok]
      apply and_congr_right
      rintro -
      apply exists_congr
      intro more
      apply and_congr_right
      rintro -
      rw [Except.ok.injEq]
      exact eq_comm
    constructor
    · rintro ⟨key, S', hkey, hrest⟩
      obtain ⟨hok, rfl⟩ := Action.ofExcept_eq_ok.mp hkey
      obtain ⟨middle, S', hchild, hrest⟩ := Action.bind_eq_ok.mp hrest
      obtain ⟨more, hmore, hwalk⟩ := ih.mp hrest
      refine ⟨_, (hchildren _).mpr ⟨key, hok, more, hmore, rfl⟩, ?_⟩
      rw [walkEntries]
      cases htree : entry.tree with
      | none =>
        rw [htree] at hchild
        obtain ⟨⟨⟩, rfl⟩ := Prod.ext_iff.mp hchild
        exact hwalk
      | some child =>
        rw [htree] at hchild
        exact Action.bind_eq_ok.mpr ⟨middle, S', hchild, hwalk⟩
    · rintro ⟨children, hok, hwalk⟩
      obtain ⟨key, hkey, more, hmore, rfl⟩ := (hchildren children).mp hok
      refine ⟨key, S, Action.ofExcept_eq_ok.mpr ⟨hkey, rfl⟩, ?_⟩
      rw [walkEntries] at hwalk
      apply Action.bind_eq_ok.mpr
      cases htree : entry.tree with
      | none =>
        rw [htree] at hwalk
        exact ⟨_, S, rfl, ih.mpr ⟨more, hmore, hwalk⟩⟩
      | some child =>
        rw [htree] at hwalk
        obtain ⟨middle, S', hchild, hwalk⟩ := Action.bind_eq_ok.mp hwalk
        exact ⟨middle, S', hchild, ih.mpr ⟨more, hmore, hwalk⟩⟩

/-- A node that was not seen yet is walked as its child list is. -/
theorem collectEntries_succ {levels : Nat} {cid : Cid} {state state' : WalkState} :
  collectEntries ctx (levels + 1) cid state S = (.ok state', T) ↔
    cid ∉ state.2 ∧ ∃ entries, nodeAt S cid = some entries ∧
      walkEntries (collectEntries ctx levels) entries (state.1, cid :: state.2) S =
        (.ok state', T)
  := by
  obtain ⟨results, visited⟩ := state
  rw [collectEntries]
  by_cases hseen : cid ∈ visited
  · rw [if_pos hseen]
    constructor
    · intro h
      cases h
    · rintro ⟨hnot, -⟩
      exact absurd hseen hnot
  · rw [if_neg hseen, Action.bind_eq_ok]
    have hentries : ∀ entries, nodeAt S cid = some entries ↔
        ∃ node, loadNode ctx cid S = (.ok node, S) ∧ ∃ children,
          fromEntries Text.empty node.entries = .ok children ∧
            entries = node.left.toList.map .tree ++ children := by
      intro entries
      rw [nodeAt_eq_some]
      apply exists_congr
      intro node
      apply and_congr_right
      rintro -
      rw [fromNode, bind_eq_ok]
      apply exists_congr
      intro children
      apply and_congr_right
      rintro -
      rw [Except.ok.injEq]
      exact eq_comm
    constructor
    · rintro ⟨node, S', hload, hrest⟩
      obtain rfl : S' = S := by
        have hstate := loadNode_state (S := S) cid
        rwa [hload] at hstate
      obtain ⟨middle, S'', hleft, hcollect⟩ := Action.bind_eq_ok.mp hrest
      obtain ⟨children, hchildren, hwalk⟩ := collectNode_eq_ok.mp hcollect
      refine ⟨hseen, _, (hentries _).mpr ⟨node, hload, children, hchildren, rfl⟩, ?_⟩
      cases hnode : node.left with
      | none =>
        rw [hnode] at hleft
        obtain ⟨⟨⟩, rfl⟩ := Prod.ext_iff.mp hleft
        exact hwalk
      | some left =>
        rw [hnode] at hleft
        exact Action.bind_eq_ok.mpr ⟨middle, S'', hleft, hwalk⟩
    · rintro ⟨-, entries, hsome, hwalk⟩
      obtain ⟨node, hload, children, hchildren, rfl⟩ := (hentries entries).mp hsome
      refine ⟨node, S, hload, ?_⟩
      apply Action.bind_eq_ok.mpr
      cases hnode : node.left with
      | none =>
        rw [hnode] at hwalk
        exact ⟨_, S, rfl, collectNode_eq_ok.mpr ⟨children, hchildren, hwalk⟩⟩
      | some left =>
        rw [hnode] at hwalk
        obtain ⟨middle, S', hleft, hwalk⟩ := Action.bind_eq_ok.mp hwalk
        exact ⟨middle, S', hleft, collectNode_eq_ok.mpr ⟨children, hchildren, hwalk⟩⟩

/-- The walk from a CID succeeds as the CID unfolds. -/
theorem collectEntries_walksAs (levels : Nat) :
  WalksAs S (collectEntries ctx levels) (Unfolds (nodeAt S) levels)
  := by
  induction levels with
  | zero =>
    intro cid state state' T
    constructor
    · nofun
    · rintro ⟨-, nodes, pairs, h, -⟩
      exact absurd h not_false
  | succ levels ih =>
    intro cid state state' T
    rw [collectEntries_succ]
    have hfirst : ∀ {nodes pairs}, Advances state state' (cid :: nodes) pairs ↔
        cid ∉ state.2 ∧ Advances (state.1, cid :: state.2) state' nodes pairs := by
      intro nodes pairs
      constructor
      · intro h
        obtain ⟨hcid, hnodup⟩ := List.nodup_cons.mp h.nodup
        refine ⟨h.fresh cid List.mem_cons_self, h.collected, ?_, hnodup, ?_⟩
        · rw [h.visited, List.reverse_cons, List.append_assoc]
          rfl
        · intro cid' hmem hseen
          rcases List.mem_cons.mp hseen with rfl | hseen
          · exact hcid hmem
          · exact h.fresh cid' (List.mem_cons_of_mem _ hmem) hseen
      · rintro ⟨hnot, h⟩
        refine ⟨h.collected, ?_, ?_, ?_⟩
        · rw [h.visited, List.reverse_cons, List.append_assoc]
          rfl
        · exact List.nodup_cons.mpr ⟨fun hmem => h.fresh cid hmem List.mem_cons_self, h.nodup⟩
        · intro cid' hmem hseen
          rcases List.mem_cons.mp hmem with rfl | hmem
          · exact hnot hseen
          · exact h.fresh cid' hmem (List.mem_cons_of_mem _ hseen)
    constructor
    · rintro ⟨hnot, entries, hnode, hwalk⟩
      obtain ⟨rfl, nodes, pairs, hspread, hadvances⟩ := (walkEntries_eq_ok ih).mp hwalk
      exact ⟨rfl, _, pairs, ⟨entries, nodes, hnode, rfl, hspread⟩, hfirst.mpr ⟨hnot, hadvances⟩⟩
    · rintro ⟨rfl, _, pairs, ⟨entries, nodes, hnode, rfl, hspread⟩, hadvances⟩
      obtain ⟨hnot, hadvances⟩ := hfirst.mp hadvances
      exact ⟨hnot, entries, hnode,
        (walkEntries_eq_ok ih).mpr ⟨rfl, nodes, pairs, hspread, hadvances⟩⟩

/-- The listing of a tree succeeds when the linked nodes unfold and none is linked twice. -/
theorem Mst.entries_eq_ok {root : Cid} {pairs : List (Key × Cid)} :
  (Mst.fromRoot root S).entries = .ok pairs ↔
    ∃ nodes, Unfolds (nodeAt S) (allowedLevels ctx) root nodes pairs ∧ nodes.Nodup
  := by
  have hwalks := collectEntries_walksAs (S := S) (allowedLevels ctx) root ([], [])
  have hmap : (Mst.fromRoot root S).entries =
      (collectEntries ctx (allowedLevels ctx) root ([], []) S).1.map Prod.fst := rfl
  rw [hmap]
  constructor
  · intro h
    cases hwalk : collectEntries ctx (allowedLevels ctx) root ([], []) S with
    | mk result T =>
      rw [hwalk] at h
      cases result with
      | error e => cases h
      | ok state =>
        obtain ⟨rfl, nodes, pairs', hunfolds, hadvances⟩ := (hwalks state T).mp hwalk
        obtain rfl : pairs' = pairs := hadvances.collected.symm.trans (Except.ok.inj h)
        exact ⟨nodes, hunfolds, hadvances.nodup⟩
  · rintro ⟨nodes, hunfolds, hnodup⟩
    have hwalk := (hwalks (pairs, nodes.reverse) S).mpr ⟨rfl, nodes, pairs, hunfolds, rfl,
      (List.append_nil _).symm, hnodup, fun _ _ => List.not_mem_nil⟩
    rw [hwalk]
    rfl

theorem Mst.get_eq_some {root value : Cid} {key : Key} :
  (Mst.fromRoot root S).get key = .ok (some value) ↔
    Placed (nodeAt S) (allowedLevels ctx) root key value
  := getAt_eq_some

/-- Lookups and the listing of a tree agree exactly when the linked nodes are a search tree. -/
theorem Mst.agrees_iff {root : Cid} :
  (∃ pairs, (Mst.fromRoot root S).entries = .ok pairs ∧
    ∀ key value, (Mst.fromRoot root S).get key = .ok (some value) ↔ (key, value) ∈ pairs) ↔
  ∃ pairs, IsSearchTree (nodeAt S) (allowedLevels ctx) root pairs
  := by
  apply exists_congr
  intro pairs
  rw [Mst.entries_eq_ok]
  constructor
  · rintro ⟨hunfolds, hagree⟩
    exact ⟨hunfolds, fun key value hmem => Mst.get_eq_some.mp ((hagree key value).mpr hmem)⟩
  · rintro ⟨⟨nodes, hunfolds, hnodup⟩, hplaced⟩
    refine ⟨⟨nodes, hunfolds, hnodup⟩, fun key value => ?_⟩
    rw [Mst.get_eq_some]
    exact ⟨fun h => h.mem hunfolds, hplaced key value⟩

/-- A tree whose keys are listed in order is a search tree. -/
theorem Mst.isSearchTree_of_sorted {root : Cid} {pairs : List (Key × Cid)}
    (h : (Mst.fromRoot root S).entries = .ok pairs) (hsorted : Sorted pairs) :
  IsSearchTree (nodeAt S) (allowedLevels ctx) root pairs
  := by
  obtain ⟨nodes, hunfolds, hnodup⟩ := Mst.entries_eq_ok.mp h
  exact hunfolds.isSearchTree (fun _ _ => spaced_nodeAt) hnodup hsorted

/-! ### Verdicts on operations -/

section Verdicts

variable {mst : Mst ctx} {pairs : List (Key × Cid)}

/-- A verified operation tells the truth about some pairs: a deletion names a key that does not
occur, and another operation names the only value of its key. -/
def Tells (pairs : List (Key × Cid)) (op : RepoOp) (verdict : OpInclusion) : Prop :=
  verdict.verified = true →
    match op.action with
    | .delete => ∀ value, (op.path, value) ∉ pairs
    | .create => ∀ value, (op.path, value) ∈ pairs ↔ op.cid = some value
    | .update => ∀ value, (op.path, value) ∈ pairs ↔ op.cid = some value

/-- Where lookups agree with the listing, a verdict tells the truth. -/
theorem opInclusion_tells
    (hagree : ∀ key value, mst.get key = .ok (some value) ↔ (key, value) ∈ pairs) {op : RepoOp}
    {verdict : OpInclusion} (h : opInclusion mst op = .ok verdict) :
  Tells pairs op verdict
  := by
  obtain ⟨found, hget, hrest⟩ := bind_eq_ok.mp h
  rw [mapError_eq_ok] at hget
  have hvalue : ∀ value, (op.path, value) ∈ pairs ↔ found = some value := by
    intro value
    rw [← hagree, hget, Except.ok.injEq]
  obtain ⟨verified, hverdict, heq⟩ := bind_eq_ok.mp hrest
  cases heq
  have hcid : ∀ expected, op.cid = some expected → decide (found = some expected) = true →
      ∀ value, (op.path, value) ∈ pairs ↔ some expected = some value := by
    intro expected hop hverified value
    rw [hvalue, of_decide_eq_true hverified]
  intro hverified
  cases haction : op.action with
  | delete =>
    rw [haction] at hverdict
    obtain rfl := Except.ok.inj hverdict
    intro value hmem
    have hfound : found = none := Option.isNone_iff_eq_none.mp hverified
    rw [hvalue, hfound] at hmem
    cases hmem
  | create =>
    rw [haction] at hverdict
    cases hop : op.cid with
    | none =>
      rw [hop] at hverdict
      cases hverdict
    | some expected =>
      rw [hop] at hverdict
      obtain rfl := Except.ok.inj hverdict
      exact hcid expected hop hverified
  | update =>
    rw [haction] at hverdict
    cases hop : op.cid with
    | none =>
      rw [hop] at hverdict
      cases hverdict
    | some expected =>
      rw [hop] at hverdict
      obtain rfl := Except.ok.inj hverdict
      exact hcid expected hop hverified

/-- There is a verdict for every tracked operation. -/
theorem opInclusions_eq_ok {collections : List Text} {ops : List RepoOp}
    {verdicts : List OpInclusion} (h : opInclusions mst collections ops = .ok verdicts) :
  List.Forall₂ (fun op verdict => opInclusion mst op = .ok verdict)
    (ops.filter (isTracked collections)) verdicts
  := by
  induction ops generalizing verdicts with
  | nil =>
    cases h
    exact .nil
  | cons op ops ih =>
    rw [opInclusions] at h
    split at h
    · rename_i htracked
      rw [List.filter_cons_of_pos htracked]
      obtain ⟨verdict, hverdict, hrest⟩ := bind_eq_ok.mp h
      obtain ⟨more, hmore, heq⟩ := bind_eq_ok.mp hrest
      cases heq
      exact .cons hverdict (ih hmore)
    · rename_i htracked
      rw [List.filter_cons_of_neg htracked]
      exact ih h

end Verdicts

/-! ### Accepted slices -/

/-- What an accepted slice is relied on for: the blocks have their CIDs, whatever the root reaches
is among them, the tree has the values of a key that it lists, and verified operations tell the
truth about them. -/
structure WellFormed (ctx : Context) (root : Cid) (blocks : List CarBlock) : Prop where
  hashed : ∀ block ∈ blocks, computeCid ctx.sha256 block.data = block.cid
  closed : ∀ cid, Reaches ctx blocks root cid → ∃ block ∈ blocks, block.cid = cid
  agrees : ∃ pairs, (sliceTree ctx root blocks).entries = .ok pairs ∧
    (∀ key value, (sliceTree ctx root blocks).get key = .ok (some value) ↔ (key, value) ∈ pairs) ∧
    ∀ ops collections verdicts,
      verifyOpInclusion ctx root ops blocks collections = .ok verdicts →
        List.Forall₂ (Tells pairs) (ops.filter (isTracked collections)) verdicts

/-- An accepted slice is well formed exactly when the nodes that the root links are linked once,
and every key in them is placed with its value. -/
theorem accepted_wellFormed_iff {root : Cid} {blocks : List CarBlock}
    {result : InductiveVerification} (h : verifyInductive ctx none root blocks = .ok result) :
  WellFormed ctx root blocks ↔
    ∃ pairs, IsSearchTree (nodeAt (sliceTree ctx root blocks).storage) (allowedLevels ctx) root pairs
  := by
  obtain ⟨hcheck, -, usedPrevData, hwalk, -⟩ := verifyInductive_eq_ok.mp h
  rw [← Mst.agrees_iff]
  constructor
  · rintro ⟨-, -, pairs, hentries, hagree, -⟩
    exact ⟨pairs, hentries, hagree⟩
  · rintro ⟨pairs, hentries, hagree⟩
    refine ⟨checkBlocks_eq_ok.mp hcheck, ?_, pairs, hentries, hagree, ?_⟩
    · intro cid hcid
      obtain ⟨data, hdata⟩ := Option.isSome_iff_exists.mp (walkSlice_reaches hwalk hcid)
      obtain ⟨block, hmem, hblock, -⟩ := mem_of_findBlock hdata
      exact ⟨block, hmem, hblock⟩
    · intro ops collections verdicts hverdicts
      rw [verifyOpInclusion] at hverdicts
      split at hverdicts
      · exact (opInclusions_eq_ok hverdicts).imp fun _ _ hverdict =>
          opInclusion_tells hagree hverdict
      · rename_i hnone
        cases hverdicts
        have hnil : ops.filter (isTracked collections) = [] := by
          apply List.filter_eq_nil_iff.mpr
          intro op hop htracked
          exact hnone (List.any_eq_true.mpr ⟨op, hop, htracked⟩)
        rw [hnil]
        exact .nil

/-! ### Slices over a sample hash -/

/-- The block of a record. -/
def recordBlock : CarBlock where
  cid := computeCid List.reverse [0xa0]
  data := [0xa0]

/-- The block of a node with some keys, whose values are the record. -/
def nodeBlock (keys : List Key) : CarBlock :=
  let node : MstNode := ⟨none, keys.map fun key => ⟨0, key.bytes, recordBlock.cid, none⟩⟩
  let data := ((mirror 64).codec.toBytes node).toOption.getD []
  ⟨computeCid List.reverse data, data⟩

/-- A node and the record that its keys have. -/
def sampleSlice (keys : List Key) : List CarBlock := [nodeBlock keys, recordBlock]

/-- A slice that is accepted, with its keys in order. -/
theorem accepted_wellFormed_sample :
  ∃ result, verifyInductive (mirror 64) none (nodeBlock [tallKey, flatKey]).cid
      (sampleSlice [tallKey, flatKey]) = .ok result ∧
    (WellFormed (mirror 64) (nodeBlock [tallKey, flatKey]).cid (sampleSlice [tallKey, flatKey]) ↔
      ∃ pairs, IsSearchTree (nodeAt (sliceTree (mirror 64) (nodeBlock [tallKey, flatKey]).cid
        (sampleSlice [tallKey, flatKey])).storage) (allowedLevels (mirror 64))
        (nodeBlock [tallKey, flatKey]).cid pairs)
  := by
  obtain ⟨result, hresult⟩ := exists_eq_ok (by decide +kernel : (verifyInductive (mirror 64) none
    (nodeBlock [tallKey, flatKey]).cid (sampleSlice [tallKey, flatKey])).toOption.isSome = true)
  exact ⟨result, hresult, accepted_wellFormed_iff hresult⟩

/-- A slice that is accepted with its keys out of order.  The second key occurs in the tree, and no
lookup finds it. -/
theorem accepted_not_wellFormed :
  (∃ result, verifyInductive (mirror 64) none (nodeBlock [flatKey, tallKey]).cid
    (sampleSlice [flatKey, tallKey]) = .ok result) ∧
  ¬ WellFormed (mirror 64) (nodeBlock [flatKey, tallKey]).cid (sampleSlice [flatKey, tallKey])
  := by
  constructor
  · exact exists_eq_ok (by decide +kernel)
  · intro h
    obtain ⟨pairs, hentries, hagree, -⟩ := h.agrees
    have hlisted : (tallKey, recordBlock.cid) ∈ ((sliceTree (mirror 64)
        (nodeBlock [flatKey, tallKey]).cid
        (sampleSlice [flatKey, tallKey])).entries.toOption.getD []) := by
      decide +kernel
    have hlookup : ((sliceTree (mirror 64) (nodeBlock [flatKey, tallKey]).cid
        (sampleSlice [flatKey, tallKey])).get tallKey).toOption = some none := by
      decide +kernel
    rw [hentries] at hlisted
    have hget := (hagree tallKey recordBlock.cid).mpr hlisted
    rw [hget] at hlookup
    cases hlookup

end Atproto.Repo
