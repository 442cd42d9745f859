import Atproto.Logic.Groups
import Atproto.Space.Replay
import Mathlib.Data.List.Dedup

/-!
# Listing the records of a space

The records of one collection are listed by their keys, in either direction, with a cursor while
there are more of them.
-/

namespace Atproto.Space

open Atproto.Dasl Logic SearchTree

/-- A page of records. -/
structure RecordPage where
  records : List RecordRow
  cursor : Option Text

/-- The record key comes after the cursor in the direction of the listing. -/
def isBeyond (reverse : Bool) (cursor rkey : Text) : Bool :=
  if reverse then rkey < cursor else cursor < rkey

/-- The rows of a collection in the direction of the listing. -/
def SpaceStore.rowsIn (store : SpaceStore) (reverse : Bool) (collection : Text) :
    List RecordRow :=
  let rows := (store.records.map Prod.snd).filter fun row => row.collection = collection
  if reverse then rows.reverse else rows

/-- The rows that come after a cursor. -/
def skipRows (reverse : Bool) (cursor : Text) (rows : List RecordRow) : List RecordRow :=
  rows.filter fun row => isBeyond reverse cursor row.rkey

/-- A page of a collection in SQL.  One row more is read to see whether there is a next page. -/
def SpaceStore.listRecords (store : SpaceStore) (collection : Text) (cursor : Option Text)
    (limit : Nat) (reverse : Bool) : RecordPage :=
  let limit := max 1 (min limit 100)
  let rows := (skipOption (skipRows reverse) cursor (store.rowsIn reverse collection)).take
    (limit + 1)
  if limit < rows.length then
    ⟨rows.take limit, (rows.take limit).getLast?.map RecordRow.rkey⟩
  else ⟨rows, none⟩

/-- The collections that have records, in ascending order. -/
def SpaceStore.listCollections (store : SpaceStore) : List Text :=
  ((store.records.map Prod.snd).map RecordRow.collection).dedup

theorem isBeyond_asymm {reverse : Bool} {a b : Text} (h : isBeyond reverse a b = true) :
  ¬ isBeyond reverse b a = true
  := by
  cases reverse with
  | false => exact fun hlt => lt_asymm (of_decide_eq_true h) (of_decide_eq_true hlt)
  | true => exact fun hlt => lt_asymm (of_decide_eq_true h) (of_decide_eq_true hlt)

theorem isBeyond_irrefl {reverse : Bool} {a : Text} :
  ¬ isBeyond reverse a a = true
  := fun h => isBeyond_asymm h h

/-- The records of a page are the first ones after the cursor. -/
theorem listRecords_records {store : SpaceStore} {collection : Text} {cursor : Option Text}
    {limit : Nat} {reverse : Bool} (hlimit : 0 < limit) (hmax : limit ≤ 100) :
  (store.listRecords collection cursor limit reverse).records =
    (skipOption (skipRows reverse) cursor (store.rowsIn reverse collection)).take limit
  := by
  have hclamp : max 1 (min limit 100) = limit := by omega
  rw [SpaceStore.listRecords, hclamp]
  split
  · rw [List.take_take, Nat.min_eq_left (Nat.le_succ _)]
  · rename_i hlength
    rw [List.length_take] at hlength
    rw [List.take_of_length_le (by omega), List.take_of_length_le (by omega)]

section Rows

variable {store : SpaceStore}

theorem mem_rowsIn {reverse : Bool} {collection : Text} {row : RecordRow} :
  row ∈ store.rowsIn reverse collection ↔
    row ∈ store.records.map Prod.snd ∧ row.collection = collection
  := by
  have hmem : row ∈ (store.records.map Prod.snd).filter (fun row => row.collection = collection) ↔
      row ∈ store.records.map Prod.snd ∧ row.collection = collection := by
    rw [List.mem_filter, decide_eq_true_iff]
  cases reverse with
  | false => exact hmem
  | true => exact List.mem_reverse.trans hmem

/-- The rows of the table are ordered by collection and record key. -/
theorem rows_ordered (hsorted : Sorted store.records) (hkeyed : Keyed store.records) :
  Ordered RecordRow.key (store.records.map Prod.snd)
  := by
  apply List.pairwise_map.mpr
  refine hsorted.imp_of_mem ?_
  intro x y hx hy hlt
  rwa [hkeyed x hx, hkeyed y hy]

/-- The rows of a collection are ordered by record key in the direction of the listing. -/
theorem rowsIn_ordered (hsorted : Sorted store.records) (hkeyed : Keyed store.records)
    {reverse : Bool} {collection : Text} :
  (store.rowsIn reverse collection).Pairwise fun a b => isBeyond reverse a.rkey b.rkey = true
  := by
  have hordered : ((store.records.map Prod.snd).filter fun row =>
      row.collection = collection).Pairwise fun a b => a.rkey < b.rkey := by
    have hrows := (rows_ordered hsorted hkeyed).filter fun row => row.collection = collection
    refine hrows.imp_of_mem ?_
    intro a b ha hb hlt
    have ha := of_decide_eq_true (List.mem_filter.mp ha).2
    have hb := of_decide_eq_true (List.mem_filter.mp hb).2
    rcases Prod.Lex.toLex_lt_toLex.mp hlt with hlt | ⟨-, hlt⟩
    · rw [ha, hb] at hlt
      exact absurd hlt (lt_irrefl _)
    · exact hlt
  cases reverse with
  | false => exact hordered.imp fun hlt => decide_eq_true hlt
  | true => exact List.pairwise_reverse.mpr (hordered.imp fun hlt => decide_eq_true hlt)

/-- No row of a collection is repeated, and a cursor leaves the rows behind it. -/
theorem rowsIn_unrepeated (hsorted : Sorted store.records) (hkeyed : Keyed store.records)
    {reverse : Bool} {collection : Text} :
  Unrepeated RecordRow.rkey (skipRows reverse) (store.rowsIn reverse collection)
  := by
  have hordered := @rowsIn_ordered store hsorted hkeyed reverse collection
  constructor
  · refine hordered.imp ?_
    rintro a b hbeyond rfl
    exact isBeyond_irrefl hbeyond
  · intro xs x ys hsplit
    rw [hsplit] at hordered ⊢
    obtain ⟨-, htail, hlt⟩ := List.pairwise_append.mp hordered
    have hxs : skipRows reverse x.rkey xs = [] := by
      apply List.filter_eq_nil_iff.mpr
      intro y hy hbeyond
      exact isBeyond_asymm (hlt y hy x List.mem_cons_self) hbeyond
    have hys : skipRows reverse x.rkey ys = ys := by
      apply List.filter_eq_self.mpr
      exact (List.pairwise_cons.mp htail).1
    have hx : skipRows reverse x.rkey (x :: ys) = skipRows reverse x.rkey ys :=
      List.filter_cons_of_neg isBeyond_irrefl
    have happend : skipRows reverse x.rkey (xs ++ x :: ys) =
        skipRows reverse x.rkey xs ++ skipRows reverse x.rkey (x :: ys) := List.filter_append _ _
    rw [happend, hxs, hx, hys, List.nil_append]

/-- The collections are listed in ascending order. -/
theorem listCollections_ordered (hsorted : Sorted store.records) (hkeyed : Keyed store.records) :
  store.listCollections.Pairwise (· < ·)
  := by
  have hle : ((store.records.map Prod.snd).map RecordRow.collection).Pairwise (· ≤ ·) := by
    apply List.pairwise_map.mpr
    refine (rows_ordered hsorted hkeyed).imp ?_
    intro a b hlt
    rcases Prod.Lex.toLex_lt_toLex.mp hlt with hlt | ⟨heq, -⟩
    · exact hlt.le
    · exact heq.le
  have hsub : store.listCollections.Pairwise (· ≤ ·) :=
    List.Pairwise.sublist (List.dedup_sublist _) hle
  exact hsub.imp₂ (fun _ _ hle hne => lt_of_le_of_ne hle hne) (List.nodup_dedup _)

end Rows

end Atproto.Space
