import Atproto.Repo.Codec
import Atproto.Repo.Diff
import Atproto.SearchTree.SortedList

/-!
# The difference of two lists of entries

Two lists that are sorted by key are walked side by side.  What comes out is one change for
each key whose value is not the same in both, in the order of the keys.
-/

namespace Atproto.Repo

open Atproto.Dasl SearchTree

/-- The key of a change. -/
def MstDiff.key : MstDiff → Key
  | .add key _ => key
  | .update key _ _ => key
  | .delete key _ => key

/-- Apply an operation to a map that has its previous value. -/
def RepoOp.apply (map : Key → Option Cid) (op : RepoOp) : Option (Key → Option Cid) :=
  if map op.path = op.prev then some (Function.update map op.path op.cid) else none

/-- Apply operations one after another. -/
def applyOps : List RepoOp → (Key → Option Cid) → Option (Key → Option Cid)
  | [], map => some map
  | op :: ops, map =>
    match op.apply map with
    | some map => applyOps ops map
    | none => none

variable {old new : List (Key × Cid)}

/-- A change of one list to another at its key. -/
structure IsChange (old new : List (Key × Cid)) (diff : MstDiff) : Prop where
  prev : diff.repoOp.prev = lookup diff.key old
  cid : diff.repoOp.cid = lookup diff.key new
  ne : diff.repoOp.prev ≠ diff.repoOp.cid

/-- A change is at a key of one of the lists. -/
theorem IsChange.mem {diff : MstDiff} (h : IsChange old new diff) :
  diff.key ∈ old.map Prod.fst ∨ diff.key ∈ new.map Prod.fst
  := by
  by_contra hnone
  obtain ⟨hold, hnew⟩ := not_or.mp hnone
  have hprev : lookup diff.key old = none :=
    lookup_eq_none fun x hx heq => hold (heq ▸ List.mem_map_of_mem hx)
  have hcid : lookup diff.key new = none :=
    lookup_eq_none fun x hx heq => hnew (heq ▸ List.mem_map_of_mem hx)
  exact h.ne (h.prev.trans (hprev.trans (hcid.symm.trans h.cid.symm)))

/-- A key of a change is above what is below both lists. -/
theorem IsChange.lt {key : Key} {diff : MstDiff} (h : IsChange old new diff)
    (hold : ∀ x ∈ old, key < x.1) (hnew : ∀ x ∈ new, key < x.1) :
  key < diff.key
  := by
  rcases h.mem with hmem | hmem
  · obtain ⟨x, hx, hkey⟩ := List.mem_map.mp hmem
    exact hkey ▸ hold x hx
  · obtain ⟨x, hx, hkey⟩ := List.mem_map.mp hmem
    exact hkey ▸ hnew x hx

end Atproto.Repo
