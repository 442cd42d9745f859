import Atproto.Dasl.RoundTrip

/-!
# Values with the same bytes

The limits of a configuration can be raised until a canonical tree is within them, so the
bytes of a tree determine its value, and the bytes of a value without byte strings that
look like CIDs determine the value.
-/

namespace Atproto.Dasl

open Wire SearchTree

variable {format : CidFormat}

/-- A configuration whose limits no length of 64 bits exceeds. -/
def wideConfig : DecodeConfig where
  maxDepth := 2 ^ 64
  maxAlloc := 2 ^ 64
  maxArrayElements := 2 ^ 64
  maxMapEntries := 2 ^ 64

namespace CborTree

theorem Fits.mono {config : DecodeConfig} {levels more : Nat} {tree : CborTree}
    (h : tree.Fits config levels) (hle : levels ≤ more) :
  tree.Fits config more
  := by
  induction h generalizing more with
  | bool levels value => exact .bool _ _
  | integer levels value => exact .integer _ _
  | float levels bits => exact .float _ _
  | text levels hlength => exact .text _ hlength
  | bytes levels hlength => exact .bytes _ hlength
  | null levels => exact .null _
  | array hlength hitems ih =>
    obtain ⟨more, rfl⟩ := Nat.exists_eq_add_of_le' ((Nat.le_add_left 1 _).trans hle)
    exact .array hlength fun item hitem => ih item hitem (Nat.le_of_succ_le_succ hle)
  | map hlength hkeys hvalues ih =>
    obtain ⟨more, rfl⟩ := Nat.exists_eq_add_of_le' ((Nat.le_add_left 1 _).trans hle)
    exact .map hlength hkeys fun e he => ih e he (Nat.le_of_succ_le_succ hle)
  | link levels hlength => exact .link _ hlength

/-- Finitely many bounds have a common one. -/
theorem exists_bound {α : Type} {p : Nat → α → Prop}
    (hmono : ∀ a m n, p m a → m ≤ n → p n a) {items : List α}
    (h : ∀ item ∈ items, ∃ n, p n item) :
  ∃ n, ∀ item ∈ items, p n item
  := by
  induction items with
  | nil => exact ⟨0, nofun⟩
  | cons item items ih =>
    obtain ⟨hitem, hitems⟩ := List.forall_mem_cons.mp h
    obtain ⟨m, hm⟩ := hitem
    obtain ⟨n, hn⟩ := ih hitems
    refine ⟨max m n, List.forall_mem_cons.mpr ⟨hmono _ _ _ hm (le_max_left m n), ?_⟩⟩
    intro other hother
    exact hmono _ _ _ (hn other hother) (le_max_right m n)

/-- A canonical tree is within the limits when these are wide and the levels are enough. -/
theorem Canonical.exists_fits {tree : CborTree} (h : tree.Canonical format) :
  ∃ levels, tree.Fits wideConfig levels
  := by
  induction h with
  | bool value => exact ⟨0, .bool _ _⟩
  | integer hlow hhigh => exact ⟨0, .integer _ _⟩
  | float hfinite => exact ⟨0, .float _ _⟩
  | text hlength => exact ⟨0, .text _ hlength.le⟩
  | bytes hlength => exact ⟨0, .bytes _ hlength.le⟩
  | null => exact ⟨0, .null _⟩
  | array hlength hitems ih =>
    obtain ⟨levels, hlevels⟩ := exists_bound
      (p := fun n (item : CborTree) => item.Fits wideConfig n) (fun _ _ _ => Fits.mono) ih
    exact ⟨levels + 1, .array (fun _ => hlength.le) hlevels⟩
  | map hlength hkeys hsorted hvalues ih =>
    obtain ⟨levels, hlevels⟩ := exists_bound
      (p := fun n (e : Text × CborTree) => e.2.Fits wideConfig n) (fun _ _ _ => Fits.mono) ih
    exact ⟨levels + 1, .map (fun _ => hlength.le) (fun e he => (hkeys e he).le) hlevels⟩
  | link hlength cid hcid => exact ⟨0, .link _ hlength.le⟩

/-- Canonical trees with the same encoding are visited alike. -/
theorem Canonical.visit_eq {α : Type} {a b : CborTree} (ha : a.Canonical format)
    (hb : b.Canonical format) (heq : a.encode = b.encode) (visitor : Visitor α) :
  a.visit visitor = b.visit visitor
  := by
  obtain ⟨levels, hfits⟩ := ha.exists_fits
  have hwithin : ¬ a.Exceeds wideConfig levels := by
    rintro (halloc | hfits')
    · exact absurd halloc (by decide)
    · exact hfits' hfits
  have hread : fromSlice (deserializeAny wideConfig format visitor levels) a.encode =
      .ok (a.visit visitor) := fromSlice_of_reads (ha.reads levels) hwithin
  rw [heq] at hread
  exact eq_of_fromSlice (hb.reads levels) hread

end CborTree

namespace Ipld

/-- Values with the same bytes are the same when no byte string of theirs looks like a CID. -/
theorem Encodable.eq_of_serialize (hformat : format.Lawful) {a b : Ipld} (ha : a.Encodable format)
    (hb : b.Encodable format) (hbare : a.bareCids format = 0) (hbare' : b.bareCids format = 0)
    (heq : serialize format a = serialize format b) :
  a = b
  := by
  rw [ha.serialize_ok, hb.serialize_ok] at heq
  calc a = (a.tree format).visit (visitor format) := ((ha.visit_tree_iff hformat).mpr hbare).symm
    _ = (b.tree format).visit (visitor format) :=
      (ha.canonical hformat).visit_eq (hb.canonical hformat) (Except.ok.inj heq) _
    _ = b := (hb.visit_tree_iff hformat).mpr hbare'

end Ipld

end Atproto.Dasl
