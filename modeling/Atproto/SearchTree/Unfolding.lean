import Atproto.SearchTree.Canonical
import Atproto.SearchTree.SortedList

/-!
# Unfolding linked nodes

Nodes are found by their addresses, and nothing is known of how they are linked or of the order of
their keys.  What is below a node is unfolded to the addresses and the pairs that occur there, in
the order of the child lists.  A pair is placed where a search by comparisons arrives, and only
pairs that occur are placed.
-/

namespace SearchTree

variable {K V A : Type}

/-- What is below the entries of a node, given what is below an address. -/
inductive Spread (below : A → List A → List (K × V) → Prop) :
    List (Entry K V A) → List A → List (K × V) → Prop
  | nil : Spread below [] [] []
  | leaf {k : K} {v : V} {rest : List (Entry K V A)} {nodes : List A} {pairs : List (K × V)}
    (hrest : Spread below rest nodes pairs) :
    Spread below (.leaf k v :: rest) nodes ((k, v) :: pairs)
  | tree {child : A} {rest : List (Entry K V A)} {nodes nodes' : List A} {pairs pairs' : List (K × V)}
    (hchild : below child nodes' pairs') (hrest : Spread below rest nodes pairs) :
    Spread below (.tree child :: rest) (nodes' ++ nodes) (pairs' ++ pairs)

/-- The addresses of the nodes from an address down and the pairs that occur in them, on so many
levels at most. -/
def Unfolds (node : A → Option (List (Entry K V A))) : Nat → A → List A → List (K × V) → Prop
  | 0, _, _, _ => False
  | levels + 1, a, nodes, pairs =>
    ∃ entries nodes', node a = some entries ∧ nodes = a :: nodes' ∧
      Spread (Unfolds node levels) entries nodes' pairs

variable [LinearOrder K]

/-- All keys of the leaves are below a key. -/
def LeavesBelow (k : K) (entries : List (Entry K V A)) : Prop :=
  ∀ k' v', Entry.leaf k' v' ∈ entries → k' < k

/-- The entries are none, or begin with a leaf above a key. -/
def StartsAbove (k : K) (entries : List (Entry K V A)) : Prop :=
  entries = [] ∨ ∃ k' v' rest, entries = .leaf k' v' :: rest ∧ k < k'

/-- From an address down a pair is between the keys around it: the leaves before it are below its
key, and the leaf behind a subtree that it is in is above it. -/
def Placed (node : A → Option (List (Entry K V A))) : Nat → A → K → V → Prop
  | 0, _, _, _ => False
  | levels + 1, a, k, v =>
    ∃ entries, node a = some entries ∧
      ((∃ lo hi, entries = lo ++ .leaf k v :: hi ∧ LeavesBelow k lo) ∨
        ∃ lo child hi, entries = lo ++ .tree child :: hi ∧ LeavesBelow k lo ∧ StartsAbove k hi ∧
          Placed node levels child k v)

variable {node : A → Option (List (Entry K V A))}

omit [LinearOrder K] in
theorem Spread.leaf_mem {below : A → List A → List (K × V) → Prop} {entries : List (Entry K V A)}
    {nodes : List A} {pairs : List (K × V)} (h : Spread below entries nodes pairs) {k : K} {v : V}
    (hmem : .leaf k v ∈ entries) :
  (k, v) ∈ pairs
  := by
  induction h with
  | nil => exact absurd hmem List.not_mem_nil
  | leaf hrest ih =>
    rcases List.mem_cons.mp hmem with heq | hmem
    · obtain ⟨rfl, rfl⟩ := Entry.leaf.inj heq
      exact List.mem_cons_self
    · exact List.mem_cons_of_mem _ (ih hmem)
  | tree hchild hrest ih =>
    rcases List.mem_cons.mp hmem with heq | hmem
    · cases heq
    · exact List.mem_append_right _ (ih hmem)

omit [LinearOrder K] in
theorem Spread.tree_mem {below : A → List A → List (K × V) → Prop} {entries : List (Entry K V A)}
    {nodes : List A} {pairs : List (K × V)} (h : Spread below entries nodes pairs) {child : A}
    (hmem : .tree child ∈ entries) :
  ∃ nodes' pairs', below child nodes' pairs' ∧ ∀ x ∈ pairs', x ∈ pairs
  := by
  induction h with
  | nil => exact absurd hmem List.not_mem_nil
  | leaf hrest ih =>
    rcases List.mem_cons.mp hmem with heq | hmem
    · cases heq
    · obtain ⟨nodes', pairs', hbelow, hsub⟩ := ih hmem
      exact ⟨nodes', pairs', hbelow, fun x hx => List.mem_cons_of_mem _ (hsub x hx)⟩
  | tree hchild hrest ih =>
    rcases List.mem_cons.mp hmem with heq | hmem
    · obtain rfl := Entry.tree.inj heq
      exact ⟨_, _, hchild, fun x hx => List.mem_append_left _ hx⟩
    · obtain ⟨nodes', pairs', hbelow, hsub⟩ := ih hmem
      exact ⟨nodes', pairs', hbelow, fun x hx => List.mem_append_right _ (hsub x hx)⟩

/-- A pair that is placed occurs. -/
theorem Placed.mem {levels : Nat} {a : A} {nodes : List A} {pairs : List (K × V)} {k : K} {v : V}
    (h : Placed node levels a k v) (hunfolds : Unfolds node levels a nodes pairs) :
  (k, v) ∈ pairs
  := by
  induction levels generalizing a nodes pairs with
  | zero => exact absurd h not_false
  | succ levels ih =>
    obtain ⟨entries, hnode, hplaced⟩ := h
    obtain ⟨entries', nodes', hnode', -, hspread⟩ := hunfolds
    obtain rfl := Option.some.inj (hnode.symm.trans hnode')
    rcases hplaced with ⟨lo, hi, rfl, -⟩ | ⟨lo, child, hi, rfl, -, -, hchild⟩
    · exact hspread.leaf_mem (List.mem_append_right _ List.mem_cons_self)
    · obtain ⟨nodes', pairs', hbelow, hsub⟩ :=
        hspread.tree_mem (List.mem_append_right _ List.mem_cons_self)
      exact hsub _ (ih hchild hbelow)

/-- The linked nodes are unfolded, none is linked twice, and every pair that occurs is placed. -/
structure IsSearchTree (node : A → Option (List (Entry K V A))) (levels : Nat) (a : A)
    (pairs : List (K × V)) : Prop where
  unfolds : ∃ nodes, Unfolds node levels a nodes pairs ∧ nodes.Nodup
  placed : ∀ k v, (k, v) ∈ pairs → Placed node levels a k v

/-! ### Keys that increase -/

omit [LinearOrder K] in
/-- After a subtree there is a leaf, or nothing. -/
theorem Spaced.after_tree {child : A} {rest : List (Entry K V A)} (h : Spaced (.tree child :: rest)) :
  Spaced rest ∧ (rest = [] ∨ ∃ k v rest', rest = .leaf k v :: rest')
  := by
  cases rest with
  | nil => exact ⟨trivial, .inl rfl⟩
  | cons entry rest =>
    cases entry with
    | leaf k v => exact ⟨h, .inr ⟨k, v, rest, rfl⟩⟩
    | tree child' => exact absurd h not_false

theorem LeavesBelow.cons_leaf {k k' : K} {v' : V} {lo : List (Entry K V A)} (hlt : k' < k)
    (h : LeavesBelow k lo) :
  LeavesBelow k (.leaf k' v' :: lo)
  := by
  intro k'' v'' hmem
  rcases List.mem_cons.mp hmem with heq | hmem
  · rw [(Entry.leaf.inj heq).1]
    exact hlt
  · exact h k'' v'' hmem

theorem LeavesBelow.cons_tree {k : K} {child : A} {lo : List (Entry K V A)}
    (h : LeavesBelow k lo) :
  LeavesBelow k (.tree child :: lo)
  := by
  intro k'' v'' hmem
  rcases List.mem_cons.mp hmem with heq | hmem
  · cases heq
  · exact h k'' v'' hmem

/-- Where the keys increase, a pair is a leaf above the leaves before it, or it is below a subtree
between leaves below and above it. -/
theorem Spread.between {below : A → List A → List (K × V) → Prop} {entries : List (Entry K V A)}
    {nodes : List A} {pairs : List (K × V)} (h : Spread below entries nodes pairs)
    (hspaced : Spaced entries) (hsorted : Sorted pairs) {k : K} {v : V} (hmem : (k, v) ∈ pairs) :
  (∃ lo hi, entries = lo ++ .leaf k v :: hi ∧ LeavesBelow k lo) ∨
    ∃ lo child hi, entries = lo ++ .tree child :: hi ∧ LeavesBelow k lo ∧ StartsAbove k hi ∧
      ∃ nodes' pairs', below child nodes' pairs' ∧ Sorted pairs' ∧ (k, v) ∈ pairs'
  := by
  induction h with
  | nil => exact absurd hmem List.not_mem_nil
  | @leaf k' v' rest nodes pairs hrest ih =>
    rcases List.mem_cons.mp hmem with heq | hmem
    · obtain ⟨rfl, rfl⟩ := Prod.ext_iff.mp heq
      exact .inl ⟨[], rest, rfl, fun _ _ hmem => absurd hmem List.not_mem_nil⟩
    · have hlt : k' < k := hsorted.cons_lt hmem
      rcases ih hspaced hsorted.tail hmem with
        ⟨lo, hi, rfl, hlo⟩ | ⟨lo, child, hi, rfl, hlo, hhi, hchild⟩
      · exact .inl ⟨.leaf k' v' :: lo, hi, rfl, hlo.cons_leaf hlt⟩
      · exact .inr ⟨.leaf k' v' :: lo, child, hi, rfl, hlo.cons_leaf hlt, hhi, hchild⟩
  | @tree child rest nodes nodes' pairs pairs' hchild hrest ih =>
    obtain ⟨hspaced, hafter⟩ := hspaced.after_tree
    rcases List.mem_append.mp hmem with hmem | hmem
    · right
      refine ⟨[], child, rest, rfl, fun _ _ hmem => absurd hmem List.not_mem_nil, ?_, nodes', pairs',
        hchild, hsorted.left, hmem⟩
      refine hafter.imp_right ?_
      rintro ⟨k', v', rest', rfl⟩
      exact ⟨k', v', rest', rfl, hsorted.lt hmem (hrest.leaf_mem List.mem_cons_self)⟩
    · rcases ih hspaced hsorted.right hmem with
        ⟨lo, hi, rfl, hlo⟩ | ⟨lo, child', hi, rfl, hlo, hhi, hbelow⟩
      · exact .inl ⟨.tree child :: lo, hi, rfl, hlo.cons_tree⟩
      · exact .inr ⟨.tree child :: lo, child', hi, rfl, hlo.cons_tree, hhi, hbelow⟩

/-- Where the keys increase, every pair is placed. -/
theorem Unfolds.placed (hspaced : ∀ a entries, node a = some entries → Spaced entries)
    {levels : Nat} {a : A} {nodes : List A} {pairs : List (K × V)}
    (h : Unfolds node levels a nodes pairs) (hsorted : Sorted pairs) {k : K} {v : V}
    (hmem : (k, v) ∈ pairs) :
  Placed node levels a k v
  := by
  induction levels generalizing a nodes pairs with
  | zero => exact absurd h not_false
  | succ levels ih =>
    obtain ⟨entries, nodes', hnode, -, hspread⟩ := h
    refine ⟨entries, hnode, ?_⟩
    rcases hspread.between (hspaced a entries hnode) hsorted hmem with
      hleaf | ⟨lo, child, hi, heq, hlo, hhi, nodes', pairs', hbelow, hsorted', hmem'⟩
    · exact .inl hleaf
    · exact .inr ⟨lo, child, hi, heq, hlo, hhi, ih hbelow hsorted' hmem'⟩

/-- Nodes that are linked once and whose keys increase are a search tree. -/
theorem Unfolds.isSearchTree (hspaced : ∀ a entries, node a = some entries → Spaced entries)
    {levels : Nat} {a : A} {nodes : List A} {pairs : List (K × V)}
    (h : Unfolds node levels a nodes pairs) (hnodup : nodes.Nodup) (hsorted : Sorted pairs) :
  IsSearchTree node levels a pairs
  := ⟨⟨nodes, h, hnodup⟩, fun _ _ hmem => h.placed hspaced hsorted hmem⟩

end SearchTree
