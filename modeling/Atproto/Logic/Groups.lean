import Atproto.Logic.Cursor
import Mathlib.Data.List.Nodup
import Mathlib.Algebra.Order.Ring.Nat
import Mathlib.Tactic.ByContra

/-!
# Reading groups by pages

The elements of several groups are listed one group after another, and some of them are hidden.
A page takes as many elements of a group as it has room for, leaves out the hidden ones, and goes
on with the next group.  So a hidden element that is taken makes a page leave out the shown ones
that it had no room for.
-/

namespace Logic

/-- A reader that follows the cursors of the pages comes to an end and has read some elements. -/
inductive Follows {α τ : Type} (read : Option τ → List α × Option τ) : Option τ → List α → Prop
  | last {cursor : Option τ} (h : (read cursor).2 = none) : Follows read cursor (read cursor).1
  | next {cursor : Option τ} {next : τ} {rest : List α} (h : (read cursor).2 = some next)
    (hrest : Follows read (some next) rest) : Follows read cursor ((read cursor).1 ++ rest)

/-- After a page without a cursor nothing is read. -/
theorem follows_of_none {α τ : Type} {read : Option τ → List α × Option τ} {cursor : Option τ}
    (h : (read cursor).2 = none) {elements : List α} :
  Follows read cursor elements ↔ elements = (read cursor).1
  := by
  constructor
  · intro hfollows
    cases hfollows with
    | last => rfl
    | next hnext => exact absurd (h.symm.trans hnext) (Option.some_ne_none _).symm
  · rintro rfl
    exact .last h

/-- After a page with a cursor the reader goes on from there. -/
theorem follows_of_some {α τ : Type} {read : Option τ → List α × Option τ} {cursor : Option τ}
    {next : τ} (h : (read cursor).2 = some next) {elements : List α} :
  Follows read cursor elements ↔
    ∃ rest, elements = (read cursor).1 ++ rest ∧ Follows read (some next) rest
  := by
  constructor
  · intro hfollows
    cases hfollows with
    | last hnone => exact absurd (hnone.symm.trans h) (Option.some_ne_none _).symm
    | next hnext hrest =>
      obtain rfl := Option.some.inj (hnext.symm.trans h)
      exact ⟨_, rfl, hrest⟩
  · rintro ⟨rest, rfl, hrest⟩
    exact .next h hrest

/-- What is read begins with the first page. -/
theorem Follows.begins {α τ : Type} {read : Option τ → List α × Option τ} {cursor : Option τ}
    {elements : List α} (h : Follows read cursor elements) :
  (read cursor).1 <+: elements
  := by
  cases h with
  | last => exact List.prefix_refl _
  | next _ _ => exact List.prefix_append _ _

/-- Pages whose elements are shown in another form. -/
def mapPages {α β τ : Type} (f : α → β) (read : Option τ → List α × Option τ)
    (cursor : Option τ) : List β × Option τ :=
  ((read cursor).1.map f, (read cursor).2)

theorem Follows.map {α β τ : Type} {read : Option τ → List α × Option τ} (f : α → β)
    {cursor : Option τ} {elements : List α} (h : Follows read cursor elements) :
  Follows (mapPages f read) cursor (elements.map f)
  := by
  induction h with
  | @last cursor hnone =>
    have hlast : (mapPages f read cursor).2 = none := hnone
    exact .last hlast
  | @next cursor next rest hsome _ ih =>
    have hnext : (mapPages f read cursor).2 = some next := hsome
    rw [List.map_append]
    exact .next hnext ih

/-- Another form that tells the elements apart makes no difference for a reader. -/
theorem follows_map_iff {α β τ : Type} {read : Option τ → List α × Option τ} {f : α → β} {g : β → α}
    (hpages : ∀ cursor, ∀ x ∈ (read cursor).1, g (f x) = x) {cursor : Option τ} {elements : List α}
    (helements : ∀ x ∈ elements, g (f x) = x) :
  Follows (mapPages f read) cursor (elements.map f) ↔ Follows read cursor elements
  := by
  have hback : ∀ xs : List α, (∀ x ∈ xs, g (f x) = x) → (xs.map f).map g = xs := by
    intro xs hxs
    rw [List.map_map]
    exact (List.map_congr_left hxs).trans (List.map_id _)
  have hread : mapPages g (mapPages f read) = read := by
    funext cursor
    exact Prod.ext (hback _ (hpages cursor)) rfl
  constructor
  · intro h
    have hmap := h.map g
    rwa [hread, hback elements helements] at hmap
  · exact Follows.map f

section Gather

variable {γ α : Type} (shown : γ → α → Bool)

/-- The elements of the groups that are shown. -/
def listing (groups : List (γ × List α)) : List (γ × α) :=
  groups.flatMap fun group => (group.2.filter (shown group.1)).map fun x => (group.1, x)

/-- The elements on a page that has some room. -/
def gather : Nat → List (γ × List α) → List (γ × α)
  | _, [] => []
  | room, (c, rows) :: groups =>
    if room = 0 then []
    else
      ((rows.take room).filter (shown c)).map (fun x => (c, x)) ++
        gather (room - ((rows.take room).filter (shown c)).length) groups

/-- In a group before which `n` elements are shown, no hidden element comes before a shown one of a
later page. -/
def OnePage (limit n : Nat) (c : γ) (rows : List α) : Prop :=
  ∀ i j x y, i < j → rows[i]? = some x → shown c x = false → rows[j]? = some y → shown c y = true →
    (n + i) / limit = (n + j) / limit

/-- No hidden element of a group comes before a shown one of a later page. -/
def Kept (limit : Nat) : Nat → List (γ × List α) → Prop
  | _, [] => True
  | n, (c, rows) :: groups =>
    OnePage shown limit n c rows ∧ Kept limit (n + (rows.filter (shown c)).length) groups

variable {shown} {limit n room i j : Nat} {c : γ} {rows : List α} {groups : List (γ × List α)}

theorem listing_cons :
  listing shown ((c, rows) :: groups) =
    (rows.filter (shown c)).map (fun x => (c, x)) ++ listing shown groups
  := List.flatMap_cons

theorem listing_append {groups' : List (γ × List α)} :
  listing shown (groups ++ groups') = listing shown groups ++ listing shown groups'
  := List.flatMap_append

theorem mem_listing {p : γ × α} :
  p ∈ listing shown groups ↔ ∃ rows, (p.1, rows) ∈ groups ∧ p.2 ∈ rows ∧ shown p.1 p.2 = true
  := by
  rw [listing, List.mem_flatMap]
  constructor
  · rintro ⟨⟨c, rows⟩, hgroup, hp⟩
    obtain ⟨x, hx, rfl⟩ := List.mem_map.mp hp
    obtain ⟨hmem, hshown⟩ := List.mem_filter.mp hx
    exact ⟨rows, hgroup, hmem, hshown⟩
  · rintro ⟨rows, hgroup, hmem, hshown⟩
    exact ⟨(p.1, rows), hgroup, List.mem_map.mpr ⟨p.2, List.mem_filter.mpr ⟨hmem, hshown⟩, rfl⟩⟩

/-- Elements that fit on the page are on it. -/
theorem page_eq (hroom : n % limit + room = limit) (h : i < room) :
  (n + i) / limit = n / limit
  := by
  have hdiv := Nat.div_add_mod n limit
  apply Nat.div_eq_of_lt_le
  · rw [Nat.mul_comm]
    omega
  · rw [Nat.mul_comm, Nat.mul_add]
    omega

/-- Elements that do not fit on the page are on a later one. -/
theorem page_lt (hlimit : 0 < limit) (hroom : n % limit + room = limit) (h : room ≤ j) :
  n / limit < (n + j) / limit
  := by
  have hdiv := Nat.div_add_mod n limit
  apply (Nat.le_div_iff_mul_le hlimit).mpr
  rw [Nat.mul_comm, Nat.mul_succ]
  omega

/-- When no hidden element is taken, what was taken does not matter for the others. -/
theorem onePage_drop (hall : ∀ x ∈ rows.take room, shown c x = true) :
  OnePage shown limit n c rows ↔ OnePage shown limit (n + room) c (rows.drop room)
  := by
  constructor
  · intro h i j x y hlt hx hhidden hy hshown
    rw [List.getElem?_drop] at hx hy
    rw [Nat.add_assoc, Nat.add_assoc]
    exact h (room + i) (room + j) x y (by omega) hx hhidden hy hshown
  · intro h i j x y hlt hx hhidden hy hshown
    have hle : room ≤ i := by
      by_contra hnot
      have hmem : x ∈ rows.take room := by
        apply List.mem_of_getElem? (i := i)
        rw [List.getElem?_take_of_lt (by omega), hx]
      rw [hall x hmem] at hhidden
      cases hhidden
    have hpage := h (i - room) (j - room) x y (by omega)
    rw [List.getElem?_drop, List.getElem?_drop, Nat.add_sub_cancel' hle,
      Nat.add_sub_cancel' (hle.trans hlt.le)] at hpage
    have hpage := hpage hx hhidden hy hshown
    rw [Nat.add_assoc, Nat.add_assoc, Nat.add_sub_cancel' hle,
      Nat.add_sub_cancel' (hle.trans hlt.le)] at hpage
    exact hpage

/-- When all elements behind those that are taken are hidden, the shown ones are on this page. -/
theorem onePage_of_hidden (hroom : n % limit + room = limit)
    (hhidden : ∀ x ∈ rows.drop room, shown c x = false) :
  OnePage shown limit n c rows
  := by
  intro i j x y hlt _ _ hy hshown
  have hj : j < room := by
    by_contra hnot
    have hmem : y ∈ rows.drop room := by
      apply List.mem_of_getElem? (i := j - room)
      rw [List.getElem?_drop, Nat.add_sub_cancel' (by omega), hy]
    rw [hhidden y hmem] at hshown
    cases hshown
  rw [page_eq hroom hj, page_eq hroom (hlt.trans hj)]

/-- A hidden element is taken, and a shown one is behind those that are taken. -/
theorem not_onePage (hlimit : 0 < limit) (hroom : n % limit + room = limit) {x y : α}
    (hx : x ∈ rows.take room) (hhidden : shown c x = false) (hy : y ∈ rows.drop room)
    (hshown : shown c y = true) :
  ¬ OnePage shown limit n c rows
  := by
  intro h
  obtain ⟨i, hi⟩ := List.mem_iff_getElem?.mp hx
  obtain ⟨j, hj⟩ := List.mem_iff_getElem?.mp hy
  rw [List.getElem?_drop] at hj
  have hlt : i < room := by
    by_contra hnot
    rw [List.getElem?_take_eq_none (by omega)] at hi
    cases hi
  rw [List.getElem?_take_of_lt hlt] at hi
  have hpage := h i (room + j) x y (by omega) hi hhidden hj hshown
  rw [page_eq hroom hlt] at hpage
  exact absurd hpage (page_lt hlimit hroom (Nat.le_add_right _ _)).ne

/-- What a page holds. -/
inductive Gathered (shown : γ → α → Bool) (limit n room : Nat) (groups : List (γ × List α))
    (page : List (γ × α)) : Prop
  /-- It holds all that is shown, and has room for more. -/
  | all (hlength : page.length < room) (hpage : page = listing shown groups)
    (hkept : Kept shown limit n groups)
  /-- It is full, and holds all that is shown up to an element. -/
  | full (before : List (γ × List α)) (c : γ) (xs : List α) (x : α) (ys : List α)
    (after : List (γ × List α)) (hgroups : groups = before ++ (c, xs ++ x :: ys) :: after)
    (hlength : page.length = room) (hroom : xs.length < room)
    (hpage : page = listing shown (before ++ [(c, xs ++ [x])])) (hshown : shown c x = true)
    (hkept : Kept shown limit n groups ↔ Kept shown limit (n + room) ((c, ys) :: after))
  /-- It leaves out a shown element. -/
  | lost (hkept : ¬ Kept shown limit n groups)
    (hpage : ∀ rest, (page.length < room → rest = []) → page ++ rest ≠ listing shown groups)

/-- The elements of a group go on the page before the ones of the groups behind it. -/
theorem gather_cons (hroom : room ≠ 0) :
  gather shown room ((c, rows) :: groups) =
    ((rows.take room).filter (shown c)).map (fun x => (c, x)) ++
      gather shown (room - ((rows.take room).filter (shown c)).length) groups
  := if_neg hroom

theorem gather_zero :
  gather shown 0 groups = []
  := by
  cases groups with
  | nil => rfl
  | cons group groups => exact if_pos rfl

theorem gather_mem {p : γ × α} (h : p ∈ gather shown room groups) :
  ∃ rows, (p.1, rows) ∈ groups ∧ p.2 ∈ rows
  := by
  induction groups generalizing room with
  | nil => exact absurd h List.not_mem_nil
  | cons group groups ih =>
    by_cases hroom : room = 0
    · rw [hroom, gather_zero] at h
      exact absurd h List.not_mem_nil
    · rw [gather_cons hroom] at h
      rcases List.mem_append.mp h with hmem | hmem
      · obtain ⟨x, hx, rfl⟩ := List.mem_map.mp hmem
        refine ⟨group.2, List.mem_cons_self, ?_⟩
        exact List.mem_of_mem_take (List.mem_of_mem_filter hx)
      · obtain ⟨rows, hgroup, hx⟩ := ih hmem
        exact ⟨rows, List.mem_cons_of_mem _ hgroup, hx⟩

/-- When all that is shown of a group fits on a page that is not full yet, the page goes on with
the next group. -/
theorem Gathered.cons {page : List (γ × α)} (hfit : (rows.filter (shown c)).length < room)
    (hone : OnePage shown limit n c rows)
    (h : Gathered shown limit (n + (rows.filter (shown c)).length)
      (room - (rows.filter (shown c)).length) groups page) :
  Gathered shown limit n room ((c, rows) :: groups)
    ((rows.filter (shown c)).map (fun x => (c, x)) ++ page)
  := by
  have hkept : Kept shown limit n ((c, rows) :: groups) ↔
      Kept shown limit (n + (rows.filter (shown c)).length) groups :=
    and_iff_right hone
  cases h with
  | all hlength hpage hrest =>
    apply Gathered.all
    · rw [List.length_append, List.length_map]
      omega
    · rw [hpage, listing_cons]
    · exact hkept.mpr hrest
  | full before c' xs x ys after hgroups hlength hlt hpage hshown hrest =>
    apply Gathered.full ((c, rows) :: before) c' xs x ys after
    · rw [hgroups, List.cons_append]
    · rw [List.length_append, List.length_map]
      omega
    · omega
    · rw [hpage, List.cons_append, listing_cons]
    · exact hshown
    · rw [hkept, hrest, Nat.add_assoc, Nat.add_sub_cancel' hfit.le]
  | lost hrest hpage =>
    apply Gathered.lost
    · exact fun hall => hrest (hkept.mp hall)
    · intro rest hnil heq
      rw [listing_cons, List.append_assoc] at heq
      apply hpage rest _ (List.append_cancel_left heq)
      intro hlength
      apply hnil
      rw [List.length_append, List.length_map]
      omega

/-- A page is in one of the three cases. -/
theorem gathered (hlimit : 0 < limit) (hnodup : (groups.map Prod.fst).Nodup) (hpos : 0 < room)
    (hroom : n % limit + room = limit) :
  Gathered shown limit n room groups (gather shown room groups)
  := by
  induction groups generalizing n room with
  | nil => exact .all hpos rfl trivial
  | cons group groups ih =>
    obtain ⟨c, rows⟩ := group
    obtain ⟨hc, hnodup⟩ := List.nodup_cons.mp hnodup
    rw [gather_cons hpos.ne']
    have hsplit := List.take_append_drop room rows
    by_cases hall : room ≤ rows.length ∧ ∀ x ∈ rows.take room, shown c x = true
    · -- the page is full with the elements of this group
      obtain ⟨hle, hall⟩ := hall
      have hlength : (rows.take room).length = room := List.length_take_of_le hle
      rw [List.filter_eq_self.mpr hall, hlength, Nat.sub_self, gather_zero, List.append_nil]
      obtain ⟨xs, x, hx⟩ : ∃ xs x, rows.take room = xs ++ [x] := by
        rcases List.eq_nil_or_concat' (rows.take room) with hnil | ⟨xs, x, hx⟩
        · rw [hnil, List.length_nil] at hlength
          omega
        · exact ⟨xs, x, hx⟩
      apply Gathered.full [] c xs x (rows.drop room) groups
      · have hrows : xs ++ x :: rows.drop room = rows := by rw [List.append_cons, ← hx, hsplit]
        rw [hrows, List.nil_append]
      · rw [List.length_map, hlength]
      · rw [hx, List.length_append, List.length_singleton] at hlength
        omega
      · rw [List.nil_append, listing_cons, ← hx, List.filter_eq_self.mpr hall]
        exact (List.append_nil _).symm
      · apply hall
        rw [hx]
        exact List.mem_append_right _ List.mem_cons_self
      · have hfilter : (rows.filter (shown c)).length =
            room + ((rows.drop room).filter (shown c)).length := by
          rw [← hsplit, List.filter_append, List.length_append, List.filter_eq_self.mpr hall,
            hlength, hsplit]
        rw [Kept, Kept, onePage_drop hall, hfilter, Nat.add_assoc]
    · have hfit : ((rows.take room).filter (shown c)).length < room := by
        by_contra hnot
        apply hall
        have hle := List.length_filter_le (shown c) (rows.take room)
        have htake := List.length_take_le room rows
        have htake' := List.length_take_le' room rows
        refine ⟨by omega, ?_⟩
        apply List.filter_eq_self.mp
        apply List.filter_sublist.eq_of_length
        omega
      by_cases hhidden : ∀ x ∈ rows.drop room, shown c x = false
      · -- all that is shown of this group is on the page
        have hfilter : (rows.take room).filter (shown c) = rows.filter (shown c) := by
          have hnil : (rows.drop room).filter (shown c) = [] := by
            apply List.filter_eq_nil_iff.mpr
            intro x hx
            rw [hhidden x hx]
            exact Bool.false_ne_true
          rw [← hsplit, List.filter_append, hnil, List.append_nil, hsplit]
        rw [hfilter] at hfit ⊢
        apply Gathered.cons hfit (onePage_of_hidden hroom hhidden)
        apply ih hnodup (by omega)
        have hmod : (n + (rows.filter (shown c)).length) % limit =
            n % limit + (rows.filter (shown c)).length := by
          have hlt : (rows.filter (shown c)).length < limit := by omega
          rw [Nat.add_mod, Nat.mod_eq_of_lt hlt, Nat.mod_eq_of_lt]
          omega
        omega
      · -- a hidden element was taken, and a shown one is behind those that were taken
        push Not at hhidden
        obtain ⟨y, hy, hshown⟩ := hhidden
        have hshown : shown c y = true := eq_true_of_ne_false hshown
        obtain ⟨x, hx, hhidden⟩ : ∃ x ∈ rows.take room, shown c x = false := by
          by_contra hnone
          push Not at hnone
          apply hall
          refine ⟨?_, fun x hx => eq_true_of_ne_false (hnone x hx)⟩
          have hlength := List.length_pos_of_mem hy
          rw [List.length_drop] at hlength
          omega
        apply Gathered.lost
        · exact fun hkept => not_onePage hlimit hroom hx hhidden hy hshown hkept.1
        · intro rest hnil heq
          have hfilter : rows.filter (shown c) =
              (rows.take room).filter (shown c) ++ (rows.drop room).filter (shown c) := by
            rw [← List.filter_append, hsplit]
          rw [listing_cons, hfilter, List.map_append, List.append_assoc, List.append_assoc] at heq
          have hrest := List.append_cancel_left heq
          obtain ⟨z, zs, hz⟩ : ∃ z zs, (rows.drop room).filter (shown c) = z :: zs := by
            apply List.exists_cons_of_ne_nil
            exact List.ne_nil_of_mem (List.mem_filter.mpr ⟨hy, hshown⟩)
          rw [hz, List.map_cons, List.cons_append] at hrest
          cases hgather : gather shown (room - ((rows.take room).filter (shown c)).length)
            groups with
          | nil =>
            rw [hgather, hnil] at hrest
            · cases hrest
            · rw [hgather, List.append_nil, List.length_map]
              exact hfit
          | cons p page =>
            rw [hgather] at hrest
            obtain rfl : p = (c, z) := (List.cons.inj hrest).1
            obtain ⟨rows', hgroup, -⟩ := gather_mem (hgather ▸ List.mem_cons_self)
            exact hc (List.mem_map.mpr ⟨_, hgroup, rfl⟩)

/-- A page on which a group is reached with all its room, or before which something else is on it,
holds an element that does not come after a given one. -/
theorem gather_head (before after : List (γ × List α)) {xs : List α} (ys : List α) {x : α} (hroom : xs.length < room)
    (hshown : shown c x = true) :
  ∃ p page, gather shown room (before ++ (c, xs ++ x :: ys) :: after) = p :: page ∧
    ((∃ group ∈ before, group.1 = p.1) ∨ p.1 = c ∧ p.2 ∈ xs ++ [x])
  := by
  induction before with
  | nil =>
    rw [List.nil_append, gather_cons (by omega)]
    have htake : (xs ++ x :: ys).take room = (xs ++ [x]) ++ ys.take (room - (xs.length + 1)) := by
      rw [List.append_cons, List.take_append, List.take_of_length_le, List.length_append,
        List.length_singleton]
      rw [List.length_append, List.length_singleton]
      exact hroom
    have hmem : x ∈ (xs ++ [x]).filter (shown c) :=
      List.mem_filter.mpr ⟨List.mem_append_right _ List.mem_cons_self, hshown⟩
    obtain ⟨z, zs, hz⟩ := List.exists_cons_of_ne_nil (List.ne_nil_of_mem hmem)
    have hzmem : z ∈ xs ++ [x] := by
      apply List.mem_of_mem_filter (p := shown c)
      rw [hz]
      exact List.mem_cons_self
    rw [htake, List.filter_append, hz]
    exact ⟨(c, z), _, rfl, .inr ⟨rfl, hzmem⟩⟩
  | cons group before ih =>
    rw [List.cons_append, gather_cons (by omega)]
    cases hpage : (group.2.take room).filter (shown group.1) with
    | nil =>
      rw [List.length_nil, Nat.sub_zero, List.map_nil, List.nil_append]
      obtain ⟨p, page, hgather, hp⟩ := ih
      refine ⟨p, page, hgather, hp.imp_left ?_⟩
      rintro ⟨group', hmem, hfst⟩
      exact ⟨group', List.mem_cons_of_mem _ hmem, hfst⟩
    | cons z zs =>
      exact ⟨(group.1, z), _, rfl, .inl ⟨group, List.mem_cons_self, rfl⟩⟩

end Gather

/-! ### Following the cursors -/

section Cursors

variable {γ α κ τ : Type} [LinearOrder γ] (shown : γ → α → Bool) (key : α → κ)
  (skip : κ → List α → List α)

/-- The elements of a group that come after a cursor, or all of them when there is none. -/
def skipOption (cursor : Option κ) (rows : List α) : List α :=
  match cursor with
  | none => rows
  | some cursor => skip cursor rows

/-- The groups from a group on, of whose elements the ones after a cursor are left. -/
def startAt (position : γ × Option κ) (groups : List (γ × List α)) : List (γ × List α) :=
  (groups.filter fun group => position.1 ≤ group.1).map fun group =>
    if group.1 = position.1 then (group.1, skipOption skip position.2 group.2) else group

variable (mark : γ → κ → τ) (resume : τ → γ × Option κ)

/-- The groups that are left after a cursor. -/
def groupsAfter (groups : List (γ × List α)) (cursor : Option τ) : List (γ × List α) :=
  match cursor with
  | none => groups
  | some cursor => startAt skip (resume cursor) groups

/-- A page of the groups after a cursor.  A full page has the mark of its last element as its
cursor. -/
def readGroups (groups : List (γ × List α)) (limit : Nat) (cursor : Option τ) :
    List (γ × α) × Option τ :=
  let page := gather shown limit (groupsAfter skip resume groups cursor)
  (page, if limit ≤ page.length then page.getLast?.map fun x => mark x.1 (key x.2) else none)

/-- The marks in a group lead back to where they were made. -/
def Resumes (c : γ) : Prop := ∀ k, resume (mark c k) = (c, some k)

/-- The mark of a full page leads back to where it was made. -/
def Resumable (limit : Nat) (elements : List (γ × α)) : Prop :=
  ∀ i x, elements[i]? = some x → limit ∣ i + 1 → Resumes mark resume x.1

/-- The groups that are left at some point of a run. -/
inductive Rest (groups : List (γ × List α)) : List (γ × List α) → Prop
  | start : Rest groups groups
  | after {before after : List (γ × List α)} {c : γ} {xs ys : List α}
    (h : groups = before ++ (c, xs ++ ys) :: after) (hresumes : Resumes mark resume c) :
    Rest groups ((c, ys) :: after)

/-- No element is repeated, and skipping to an element leaves the ones behind it. -/
structure Unrepeated (rows : List α) : Prop where
  nodup : rows.Nodup
  skip_eq : ∀ xs x ys, rows = xs ++ x :: ys → skip (key x) rows = ys

variable {shown key skip mark resume} {groups : List (γ × List α)}

variable {before after : List (γ × List α)} {c d : γ} {k : Option κ} {rows : List α}

theorem startAt_append_groups (position : γ × Option κ) (before after : List (γ × List α)) :
  startAt skip position (before ++ after) =
    startAt skip position before ++ startAt skip position after
  := by
  rw [startAt, List.filter_append, List.map_append]
  rfl

theorem startAt_self :
  startAt skip (c, k) [(c, rows)] = [(c, skipOption skip k rows)]
  := by
  simp [startAt]

/-- The groups above a position are left as they are. -/
theorem startAt_above (h : ∀ group ∈ groups, d < group.1) :
  startAt skip (d, k) groups = groups
  := by
  have hall : (groups.filter fun group => d ≤ group.1) = groups := by
    apply List.filter_eq_self.mpr
    exact fun group hgroup => decide_eq_true (h group hgroup).le
  rw [startAt, hall]
  apply (List.map_congr_left _).trans (List.map_id _)
  exact fun group hgroup => if_neg (h group hgroup).ne'

/-- The groups below a position are left out. -/
theorem startAt_below (h : ∀ group ∈ groups, group.1 < d) :
  startAt skip (d, k) groups = []
  := by
  have hnil : (groups.filter fun group => d ≤ group.1) = [] := by
    apply List.filter_eq_nil_iff.mpr
    exact fun group hgroup hle => not_le_of_gt (h group hgroup) (of_decide_eq_true hle)
  rw [startAt, hnil, List.map_nil]

theorem startAt_fst {position : γ × Option κ} {group : γ × List α}
    (h : group ∈ startAt skip position groups) :
  ∃ group' ∈ groups, group.1 = group'.1
  := by
  obtain ⟨group', hmem, rfl⟩ := List.mem_map.mp h
  refine ⟨group', List.mem_of_mem_filter hmem, ?_⟩
  split
  · rfl
  · rfl

variable (skip) in
/-- In a group the elements up to the cursor are left out. -/
theorem startAt_eq (h : Ordered Prod.fst (before ++ (c, rows) :: after)) :
  startAt skip (c, k) (before ++ (c, rows) :: after) = (c, skipOption skip k rows) :: after
  := by
  obtain ⟨-, hafter, hbefore⟩ := List.pairwise_append.mp h
  have hbelow : ∀ group ∈ before, group.1 < c :=
    fun group hgroup => hbefore group hgroup _ List.mem_cons_self
  rw [startAt_append_groups, startAt_below hbelow, List.nil_append, ← List.singleton_append,
    startAt_append_groups, startAt_self, startAt_above (List.pairwise_cons.mp hafter).1,
    List.singleton_append]

variable (skip) in
/-- From a position in an earlier group on, a group is left as it is. -/
theorem startAt_earlier (hlt : d < c) (h : Ordered Prod.fst (before ++ (c, rows) :: after)) :
  ∃ before', startAt skip (d, k) (before ++ (c, rows) :: after) = before' ++ (c, rows) :: after ∧
    ∀ group ∈ before', group.1 < c
  := by
  obtain ⟨-, hafter, hbefore⟩ := List.pairwise_append.mp h
  refine ⟨startAt skip (d, k) before, ?_, ?_⟩
  · have habove : ∀ group ∈ (c, rows) :: after, d < group.1 := by
      intro group hgroup
      rcases List.mem_cons.mp hgroup with rfl | hmem
      · exact hlt
      · exact hlt.trans ((List.pairwise_cons.mp hafter).1 group hmem)
    rw [startAt_append_groups, startAt_above habove]
  · intro group hgroup
    obtain ⟨group', hmem, hfst⟩ := startAt_fst hgroup
    rw [hfst]
    exact hbefore group' hmem _ List.mem_cons_self

omit [LinearOrder γ] in
/-- What comes after an element on a page is left at some point. -/
theorem Rest.split {rest : List (γ × List α)} {xs ys : List α} {x : α}
    (h : Rest mark resume groups rest) (hrest : rest = before ++ (c, xs ++ x :: ys) :: after) :
  ∃ before' zs, groups = before' ++ (c, zs ++ (xs ++ x :: ys)) :: after ∧
    (zs = [] ∨ Resumes mark resume c)
  := by
  cases h with
  | start => exact ⟨before, [], hrest, .inl rfl⟩
  | @after before' after' c' xs' ys' hgroups hresumes =>
    cases before with
    | nil =>
      obtain ⟨⟨⟩, rfl⟩ := List.cons.inj hrest
      exact ⟨before', xs', hgroups, .inr hresumes⟩
    | cons group before =>
      obtain ⟨rfl, rfl⟩ := List.cons.inj hrest
      refine ⟨before' ++ (c', xs' ++ ys') :: before, [], ?_, .inl rfl⟩
      rw [hgroups, List.append_assoc]
      rfl

theorem Rest.nodup {rest : List (γ × List α)} (h : Rest mark resume groups rest)
    (hordered : Ordered Prod.fst groups) :
  (rest.map Prod.fst).Nodup
  := by
  have hnodup : (groups.map Prod.fst).Nodup :=
    (List.pairwise_map.mpr hordered).imp fun hlt => ne_of_lt hlt
  cases h with
  | start => exact hnodup
  | after hgroups hresumes =>
    rw [hgroups, List.map_append] at hnodup
    exact hnodup.of_append_right

/-- A page that is not full has no cursor. -/
theorem readGroups_short {limit : Nat} {cursor : Option τ}
    (h : (readGroups shown key skip mark resume groups limit cursor).1.length < limit) :
  (readGroups shown key skip mark resume groups limit cursor).2 = none
  := if_neg (not_le_of_gt h)

/-- A full page has the mark of its last element as its cursor. -/
theorem readGroups_full {limit : Nat} {cursor : Option τ} {page : List (γ × α)} {x : γ × α}
    (hpage : (readGroups shown key skip mark resume groups limit cursor).1 = page ++ [x])
    (h : limit ≤ (readGroups shown key skip mark resume groups limit cursor).1.length) :
  (readGroups shown key skip mark resume groups limit cursor).2 = some (mark x.1 (key x.2))
  := by
  have hlast : (readGroups shown key skip mark resume groups limit cursor).1.getLast? = some x := by
    rw [hpage, List.getLast?_concat]
  apply (if_pos h).trans
  exact congrArg (Option.map _) hlast

omit [LinearOrder γ] in
/-- Only the mark at the end of a page matters, when it leads back. -/
theorem resumable_append {limit : Nat} {page elements : List (γ × α)}
    {x : γ × α} (hlength : (page ++ [x]).length = limit) :
  Resumable mark resume limit (page ++ [x] ++ elements) ↔
    Resumes mark resume x.1 ∧ Resumable mark resume limit elements
  := by
  have hlast : (page ++ [x]).length = page.length + 1 := List.length_append
  constructor
  · intro h
    constructor
    · apply h page.length x
      · rw [List.append_assoc, List.getElem?_append_right le_rfl, Nat.sub_self]
        rfl
      · exact dvd_of_eq (hlength.symm.trans hlast)
    · intro i y hy hdvd
      apply h (limit + i) y
      · rw [← hlength, List.getElem?_append_right (Nat.le_add_right _ _), Nat.add_sub_cancel_left]
        exact hy
      · rw [Nat.add_assoc]
        exact Nat.dvd_add_self_left.mpr hdvd
  · rintro ⟨hx, h⟩ i y hy hdvd
    by_cases hi : i < limit
    · have hle := Nat.le_of_dvd (Nat.succ_pos i) hdvd
      obtain rfl : i = page.length := by omega
      rw [List.append_assoc, List.getElem?_append_right le_rfl, Nat.sub_self] at hy
      obtain rfl := Option.some.inj hy
      exact hx
    · apply h (i - limit) y
      · rw [List.getElem?_append_right (by omega), hlength] at hy
        exact hy
      · have hdvd := Nat.dvd_sub hdvd (Nat.dvd_refl limit)
        rwa [Nat.sub_add_comm (by omega)] at hdvd

omit [LinearOrder γ] in
/-- On a page that is not full all marks matter for later pages only. -/
theorem resumable_of_short {limit : Nat} {elements : List (γ × α)} (h : elements.length < limit) :
  Resumable mark resume limit elements
  := by
  intro i x hx hdvd
  have hle := Nat.le_of_dvd (Nat.succ_pos i) hdvd
  have hlt := (List.getElem?_eq_some_iff.mp hx).1
  omega

/-- After a mark that leads back to an earlier group, something is read again or out of order. -/
theorem not_follows_earlier {limit : Nat} (hordered : Ordered Prod.fst groups)
    (hnodup : rows.Nodup) {xs ys : List α} {x : α} (hgroups : groups = before ++ (c, rows) :: after)
    (hsplit : rows = xs ++ x :: ys) (hxs : xs.length < limit) (hshown : shown c x = true)
    {cursor : τ} (hcursor : (resume cursor).1 < c) :
  ¬ Follows (readGroups shown key skip mark resume groups limit) (some cursor)
    (listing shown ((c, ys) :: after))
  := by
  intro hfollows
  obtain ⟨before', hstart, hbefore⟩ := startAt_earlier skip (k := (resume cursor).2) hcursor
    (hgroups ▸ hordered)
  rw [hsplit] at hstart
  obtain ⟨p, page, hgather, hp⟩ :=
    gather_head before' after ys hxs hshown
  have hpage : (readGroups shown key skip mark resume groups limit (some cursor)).1 = p :: page := by
    rw [← hgather, ← hstart, hgroups, hsplit]
    rfl
  have hmem : p ∈ listing shown ((c, ys) :: after) := by
    apply hfollows.begins.subset
    rw [hpage]
    exact List.mem_cons_self
  obtain ⟨rows', hgroup, hp2, -⟩ := mem_listing.mp hmem
  rw [hgroups] at hordered
  have hafter := (List.pairwise_append.mp hordered).2.1
  have hlt : ∀ group ∈ after, c < group.1 := (List.pairwise_cons.mp hafter).1
  rcases hp with ⟨group, hgroup', hfst⟩ | ⟨hfst, hp⟩
  · have hearlier := hbefore group hgroup'
    rw [hfst] at hearlier
    rcases List.mem_cons.mp hgroup with heq | hmem
    · exact absurd (Prod.ext_iff.mp heq).1 hearlier.ne
    · exact lt_asymm hearlier (hlt _ hmem)
  · rcases List.mem_cons.mp hgroup with heq | hmem
    · obtain rfl : rows' = ys := (Prod.ext_iff.mp heq).2
      rw [hsplit, List.append_cons] at hnodup
      exact List.disjoint_of_nodup_append hnodup hp hp2
    · exact absurd hfst (hlt _ hmem).ne'

/-- Following the cursors from some point on gives what is shown of the groups that are left,
exactly when no hidden element comes before a shown one of a later page and the marks lead back. -/
theorem follows_rest {limit : Nat} (hlimit : 0 < limit) (hordered : Ordered Prod.fst groups)
    (hrows : ∀ group ∈ groups, Unrepeated key skip group.2)
    (hresume : ∀ c, Resumes mark resume c ∨ ∀ k, (resume (mark c k)).1 < c)
    {rest : List (γ × List α)} (hrest : Rest mark resume groups rest) {cursor : Option τ} {n : Nat}
    (hn : n % limit = 0)
    (hpage : (readGroups shown key skip mark resume groups limit cursor).1 = gather shown limit rest) :
  Follows (readGroups shown key skip mark resume groups limit) cursor (listing shown rest) ↔
    Kept shown limit n rest ∧ Resumable mark resume limit (listing shown rest)
  := by
  induction hlength : (listing shown rest).length using Nat.strong_induction_on
    generalizing rest cursor n with
  | _ m ih =>
    have hroom : n % limit + limit = limit := by omega
    have hgathered : Gathered shown limit n limit rest (gather shown limit rest) :=
      gathered hlimit (hrest.nodup hordered) hlimit hroom
    rw [← hpage] at hgathered
    cases hgathered with
    | all hshort hlisting hkept =>
      rw [follows_of_none (readGroups_short hshort), hlisting]
      rw [hlisting] at hshort
      exact iff_of_true rfl ⟨hkept, resumable_of_short hshort⟩
    | lost hkept hlost =>
      apply iff_of_false _ fun h => hkept h.1
      intro hfollows
      cases hcursor : (readGroups shown key skip mark resume groups limit cursor).2 with
      | none =>
        rw [follows_of_none hcursor] at hfollows
        exact hlost [] (fun _ => rfl) (by rw [List.append_nil, hfollows])
      | some next =>
        obtain ⟨elements, heq, -⟩ := (follows_of_some hcursor).mp hfollows
        refine hlost elements ?_ heq.symm
        intro hshort
        rw [readGroups_short hshort] at hcursor
        cases hcursor
    | full before c xs x ys after hsplit hfull hxs hlisting hshown hkept =>
      obtain ⟨page, hend⟩ : ∃ page, (readGroups shown key skip mark resume groups limit cursor).1 =
          page ++ [(c, x)] := by
        refine ⟨listing shown before ++ (xs.filter (shown c)).map fun x => (c, x), ?_⟩
        rw [hlisting, listing_append, listing_cons, List.filter_append, List.map_append,
          List.filter_cons_of_pos hshown, List.append_assoc, List.append_assoc]
        rfl
      have hlisted : listing shown rest = page ++ [(c, x)] ++ listing shown ((c, ys) :: after) := by
        rw [← hend, hlisting, hsplit, listing_append, listing_append, listing_cons, listing_cons,
          listing_cons, List.append_cons xs, List.filter_append, List.map_append]
        simp only [List.append_assoc]
        rfl
      have hcursor := readGroups_full hend hfull.ge
      obtain ⟨before', zs, hgroups, hzs⟩ := hrest.split hsplit
      have hrowsc := hrows _ (hgroups ▸ List.mem_append_right _ List.mem_cons_self)
      rw [hend] at hfull
      rw [follows_of_some hcursor, hend, hlisted, resumable_append hfull, hkept]
      have hcancel : (∃ elements, page ++ [(c, x)] ++ listing shown ((c, ys) :: after) =
          page ++ [(c, x)] ++ elements ∧
          Follows (readGroups shown key skip mark resume groups limit) (some (mark c (key x))) elements) ↔
          Follows (readGroups shown key skip mark resume groups limit) (some (mark c (key x)))
            (listing shown ((c, ys) :: after)) := by
        constructor
        · rintro ⟨elements, heq, hfollows⟩
          rw [List.append_cancel_left heq]
          exact hfollows
        · exact fun hfollows => ⟨_, rfl, hfollows⟩
      rw [hcancel]
      by_cases hres : Resumes mark resume c
      · rw [and_iff_right hres]
        have hrest' : Rest mark resume groups ((c, ys) :: after) := by
          refine @Rest.after _ _ _ _ _ _ _ before' after c (zs ++ (xs ++ [x])) ys ?_ hres
          rw [hgroups, List.append_assoc, List.append_assoc, List.singleton_append]
        have hpage' : (readGroups shown key skip mark resume groups limit
            (some (mark c (key x)))).1 = gather shown limit ((c, ys) :: after) := by
          have hys : skipOption skip (some (key x)) (zs ++ (xs ++ x :: ys)) = ys :=
            hrowsc.skip_eq (zs ++ xs) x ys (List.append_assoc _ _ _).symm
          have hstart := startAt_eq skip (k := some (key x)) (hgroups ▸ hordered)
          rw [hys, ← hgroups, ← hres (key x)] at hstart
          exact congrArg (gather shown limit) hstart
        apply ih (listing shown ((c, ys) :: after)).length _ hrest' _ hpage' rfl
        · rw [← hlength, hlisted, List.length_append]
          omega
        · rw [Nat.add_mod_right, hn]
      · apply iff_of_false _ fun h => hres h.2.1
        obtain rfl : zs = [] := hzs.resolve_right hres
        rw [List.nil_append] at hgroups hrowsc
        exact not_follows_earlier hordered hrowsc.nodup hgroups rfl hxs hshown
          ((hresume c).resolve_left hres (key x))

/-- Following the cursors from the beginning gives what is shown, in order and each element once,
exactly when no hidden element comes before a shown one of a later page and the marks of full pages
lead back. -/
theorem follows_listing_iff {limit : Nat} (hlimit : 0 < limit) (hordered : Ordered Prod.fst groups)
    (hrows : ∀ group ∈ groups, Unrepeated key skip group.2)
    (hresume : ∀ c, Resumes mark resume c ∨ ∀ k, (resume (mark c k)).1 < c) :
  Follows (readGroups shown key skip mark resume groups limit) none (listing shown groups) ↔
    Kept shown limit 0 groups ∧ Resumable mark resume limit (listing shown groups)
  := follows_rest hlimit hordered hrows hresume .start (Nat.zero_mod _) rfl

end Cursors

end Logic
