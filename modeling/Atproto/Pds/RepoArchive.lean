import Atproto.Pds.ExportCar
import Atproto.Pds.Import

/-!
# Archives that are imported

An importer reads an archive as a reader does, up to its own limit on the bytes of the blocks.
-/

namespace Atproto.Pds

open Atproto.Dasl Atproto.Repo Atproto.Pds.Export Car CborTree Logic

/-! ### Reading -/

/-- A block that was read. -/
def readBlockOf (block : Car.CarBlock) : Repo.CarBlock := ⟨block.cid, block.data⟩

/-- The bytes of the data of some blocks. -/
def dataSize (blocks : List Car.CarBlock) : Nat := (blocks.map fun block => block.data.length).sum

section Reading

variable {σ : Type} {sha256 : Bytes → Bytes} {format : CidFormat} {source : Wire.Source σ}
  {maxBytes : Nat}

/-- Blocks within the limit are ingested as they are read. -/
theorem ingest_of_drain (hmax : maxBytes < 2 ^ 64) {r : CarReader σ} {total : Nat}
    {blocks : List Car.CarBlock} (hread : r.drain format sha256 source = .ok blocks)
    (hsize : total + dataSize blocks ≤ maxBytes) :
  ingest sha256 format source maxBytes r total = .ok (blocks.map readBlockOf)
  := by
  induction blocks generalizing r total with
  | nil =>
    rw [ingest]
    split
    · next h =>
      rw [drain_of_error h] at hread
      cases hread
    · rfl
    · next h =>
      rw [drain_of_some h] at hread
      obtain ⟨rest, -, hcons⟩ := bind_eq_ok.mp hread
      cases hcons
  | cons block blocks ih =>
    rw [dataSize, List.map_cons, List.sum_cons, ← dataSize] at hsize
    rw [ingest]
    split
    · next h =>
      rw [drain_of_error h] at hread
      cases hread
    · next h =>
      rw [drain_of_none h] at hread
      cases hread
    · next r' h =>
      rw [drain_of_some h] at hread
      obtain ⟨rest, hrest, hcons⟩ := bind_eq_ok.mp hread
      cases hcons
      have hmin : min (total + block.data.length) (2 ^ 64 - 1) = total + block.data.length :=
        Nat.min_eq_left (by omega)
      dsimp only
      rw [hmin, if_neg (by omega), ih hrest (by omega)]
      rfl

end Reading

variable {ctx : Context} {account : Account} {importer : Importer}

/-- What is verified are the blocks that a reader reads. -/
theorem readVerified_of_readCar {σ : Type} {source : Wire.Source σ} {s : σ} {root : Cid}
    {roots : List Cid} {blocks : List Car.CarBlock}
    (hread : readCar account.format ctx.sha256 source .default s = .ok (root :: roots, blocks))
    (hmax : importer.maxBytes < 2 ^ 64) (hsize : dataSize blocks ≤ importer.maxBytes) :
  readVerified account importer ctx source s =
    verifyBlocks account importer ctx root (blocks.map readBlockOf)
  := by
  obtain ⟨r, hheader, hread⟩ := bind_eq_ok.mp hread
  obtain ⟨found, hdrain, heq⟩ := bind_eq_ok.mp hread
  obtain ⟨hroots, rfl⟩ := Prod.ext_iff.mp (Except.ok.inj heq)
  dsimp only at hroots hdrain hsize
  refine bind_congr_ok (mapError_eq_ok.mpr hheader) ?_
  dsimp only
  rw [hroots, List.head?_cons]
  dsimp only
  exact bind_congr_ok (ingest_of_drain hmax hdrain (by omega)) rfl

/-! ### Blocks under their CIDs -/

section Standard

variable {format : CidFormat} {sha256 : Bytes → Bytes} {root : Bytes} {data : List Bytes}

/-- The roots of an archive of one commit fit into its header. -/
theorem Export.Standard.length_headerOne (h : Standard format sha256) (data : Bytes) :
  (headerEncoding format [computeCid sha256 data]).length = 58
  := by
  have hcids : (cidsEncoding format [computeCid sha256 data]).length = 42 := by
    rw [cidsEncoding, List.flatMap_cons, List.flatMap_nil, List.length_append,
      List.length_append, h.length_link]
    rfl
  rw [headerEncoding, encodeMap, List.flatMap_cons, List.flatMap_cons, List.flatMap_nil,
    entryBytes, entryBytes]
  simp only [List.length_append, hcids]
  rfl

/-- An archive of blocks with room for them is read back. -/
theorem Export.Standard.readCar_blocks (h : Standard format sha256) (hformat : Framed format)
    (hlawful : format.Lawful) (hroom : Room format .default (data.map (blockOf sha256))) :
  readCar format sha256 Wire.slice .default
      (archive format [computeCid sha256 root] (data.map (blockOf sha256))) =
    .ok ([computeCid sha256 root], data.map (blockOf sha256))
  := by
  have hblock : ∀ block ∈ data.map (blockOf sha256), block = blockOf sha256 block.data := by
    intro block hmem
    obtain ⟨bytes, -, rfl⟩ := List.mem_map.mp hmem
    rfl
  have hwritten : Written format sha256 .default [computeCid sha256 root]
      (data.map (blockOf sha256)) := by
    refine ⟨List.cons_ne_nil _ _, ⟨?_, ?_⟩, ?_, ?_⟩
    · change 1 < 2 ^ 64
      decide
    · rw [List.forall_mem_singleton]
      exact h.cidSized _
    · rw [h.length_headerOne]
      decide
    · intro block hmem
      have hsize := hroom.sizes block hmem
      have hmax : LimitsConfig.default.maxBlockSize = 1048576 := rfl
      rw [hblock block hmem]
      use h.check _ _
      change (format.toBytes (computeCid sha256 block.data) ++ block.data).length < 2 ^ 64
      rw [List.length_append, h.length]
      change 36 + block.data.length < _
      omega
  have hlimits : WithinLimits format CarConfig.default.limits (data.map (blockOf sha256)) := by
    refine ⟨?_, hroom.sizes, hroom.count.le, hroom.total⟩
    intro block hmem
    rw [hblock block hmem]
    exact h.representable _
  apply (readCar_archive hformat hlawful hwritten hlimits).mpr
  refine ⟨?_, hroom.count, hroom.data⟩
  rw [h.length_headerOne]
  decide

end Standard

end Atproto.Pds
