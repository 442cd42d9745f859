import Atproto.Repo.Key

/-!
# Operations of a commit

What a commit did to the records of a repository, one operation for each path.
-/

namespace Atproto.Repo

open Atproto.Dasl

/-- The kind of an operation. -/
inductive RepoOpAction where
  | create
  | update
  | delete
deriving DecidableEq

/-- An operation, as the payload of a commit lists it.  The path is a collection and a record
key, `cid` is the new record and `prev` the one before. -/
structure RepoOp where
  action : RepoOpAction
  path : Text
  cid : Option Cid
  prev : Option Cid

/-- A change of the tree at one key. -/
inductive MstDiff where
  | add (key : Key) (cid : Cid)
  | update (key : Key) (oldCid newCid : Cid)
  | delete (key : Key) (cid : Cid)

/-- The operation of a change. -/
def MstDiff.repoOp : MstDiff → RepoOp
  | .add key cid => ⟨.create, key, some cid, none⟩
  | .update key oldCid newCid => ⟨.update, key, some newCid, some oldCid⟩
  | .delete key cid => ⟨.delete, key, none, some cid⟩

end Atproto.Repo
