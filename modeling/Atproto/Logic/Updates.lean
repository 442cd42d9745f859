import Mathlib.Data.List.Induction
import Mathlib.Logic.Function.Basic

/-!
# Updates of a map

Updates of a map are made one after another, and the last one of a key counts.  When a part of
the updates gives keys a value and the others take it away, they may also be made in two rounds,
first all values and then the removals; the result is the same under a condition on the last
update of each key that is removed.
-/

namespace Logic

variable {κ κ' β γ : Type} [DecidableEq κ] [DecidableEq κ']

/-- A map after some updates. -/
def updateAll (updates : List (κ × β)) (map : κ → β) : κ → β :=
  updates.foldl (fun map update => Function.update map update.1 update.2) map

/-- The last update of a key. -/
def lastUpdate (updates : List (κ × β)) (key : κ) : Option β :=
  updates.foldl (fun last update => if update.1 = key then some update.2 else last) none

variable {updates : List (κ × β)} {map : κ → β} {key : κ}

theorem lastUpdate_concat (update : κ × β) :
  lastUpdate (updates ++ [update]) key =
    if update.1 = key then some update.2 else lastUpdate updates key
  := by
  rw [lastUpdate, List.foldl_append]
  rfl

/-- A key has its last update, or what it had before. -/
theorem updateAll_apply :
  updateAll updates map key = (lastUpdate updates key).getD (map key)
  := by
  induction updates using List.reverseRecOn with
  | nil => rfl
  | append_singleton updates update ih =>
    rw [updateAll, List.foldl_append, List.foldl_cons, List.foldl_nil, Function.update_apply,
      lastUpdate_concat]
    by_cases h : update.1 = key
    · rw [if_pos h, if_pos h.symm]
      rfl
    · rw [if_neg h, if_neg (Ne.symm h)]
      exact ih

theorem mem_of_lastUpdate {value : β} (h : lastUpdate updates key = some value) :
  (key, value) ∈ updates
  := by
  induction updates using List.reverseRecOn with
  | nil => cases h
  | append_singleton updates update ih =>
    rw [lastUpdate_concat] at h
    split at h
    · rename_i hkey
      cases h
      rw [← hkey]
      exact List.mem_append_right _ List.mem_cons_self
    · exact List.mem_append_left _ (ih h)

/-- A key that is not updated keeps its value. -/
theorem updateAll_of_not_mem (h : key ∉ updates.map Prod.fst) :
  updateAll updates map key = map key
  := by
  rw [updateAll_apply]
  cases hlast : lastUpdate updates key with
  | none => rfl
  | some value => exact absurd (List.mem_map.mpr ⟨_, mem_of_lastUpdate hlast, rfl⟩) h

/-- A key that is updated has a last update. -/
theorem lastUpdate_ne_none {value : β} (h : (key, value) ∈ updates) :
  lastUpdate updates key ≠ none
  := by
  induction updates using List.reverseRecOn with
  | nil => cases h
  | append_singleton updates update ih =>
    rw [lastUpdate_concat]
    split
    · exact Option.some_ne_none _
    · rename_i hkey
      obtain hmem | hmem := List.mem_append.mp h
      · exact ih hmem
      · rw [← List.mem_singleton.mp hmem] at hkey
        exact absurd rfl hkey

/-- Updates that give all their keys one value. -/
theorem updateAll_const (keys : List κ) (value : β) (map : κ → β) (key : κ) :
  updateAll (keys.map fun key => (key, value)) map key = if key ∈ keys then value else map key
  := by
  rw [updateAll_apply]
  cases hlast : lastUpdate (keys.map fun key => (key, value)) key with
  | none =>
    rw [if_neg]
    · rfl
    · intro hmem
      apply @lastUpdate_ne_none κ β _ _ key value _ hlast
      exact List.mem_map.mpr ⟨key, hmem, rfl⟩
  | some last =>
    obtain ⟨key', hmem, heq⟩ := List.mem_map.mp (mem_of_lastUpdate hlast)
    cases heq
    rw [if_pos hmem]
    rfl

/-- Updates whose values are changed. -/
theorem lastUpdate_mapValue (f : β → γ) :
  lastUpdate (updates.map fun update => (update.1, f update.2)) key =
    (lastUpdate updates key).map f
  := by
  induction updates using List.reverseRecOn with
  | nil => rfl
  | append_singleton updates update ih =>
    rw [List.map_append, List.map_cons, List.map_nil, lastUpdate_concat, lastUpdate_concat, ih]
    dsimp only
    split
    · rfl
    · rfl

/-- Updates whose keys are renamed, where the renaming does not confuse the key with others. -/
theorem lastUpdate_mapKey {f : κ → κ'} (h : ∀ update ∈ updates, f update.1 = f key → update.1 = key) :
  lastUpdate (updates.map fun update => (f update.1, update.2)) (f key) = lastUpdate updates key
  := by
  induction updates using List.reverseRecOn with
  | nil => rfl
  | append_singleton updates update ih =>
    obtain ⟨hupdates, hupdate⟩ := List.forall_mem_append.mp h
    rw [List.map_append, List.map_cons, List.map_nil, lastUpdate_concat, lastUpdate_concat,
      ih hupdates]
    dsimp only
    have hiff : f update.1 = f key ↔ update.1 = key :=
      ⟨hupdate update List.mem_cons_self, congrArg f⟩
    exact if_congr hiff rfl rfl

/-! ### Two rounds -/

/-- The updates that give a value. -/
def writes (updates : List (κ × Option β)) : List (κ × Option β) :=
  updates.filter fun update => update.2.isSome

omit [DecidableEq κ] in
theorem writes_concat (updates : List (κ × Option β)) (update : κ × Option β) :
  writes (updates ++ [update]) =
    if update.2.isSome then writes updates ++ [update] else writes updates
  := by
  obtain ⟨key, value⟩ := update
  rw [writes, List.filter_append]
  cases value with
  | none => exact List.append_nil _
  | some value => rfl

/-- A value that is given last is the last of the values. -/
theorem lastUpdate_writes_of_some {updates : List (κ × Option β)} {value : β}
    (h : lastUpdate updates key = some (some value)) :
  lastUpdate (writes updates) key = some (some value)
  := by
  induction updates using List.reverseRecOn with
  | nil => cases h
  | append_singleton updates update ih =>
    rw [lastUpdate_concat] at h
    rw [writes_concat]
    split at h
    · rename_i hkey
      have hvalue := Option.some.inj h
      rw [hvalue, Option.isSome_some, if_pos rfl, lastUpdate_concat, if_pos hkey, hvalue]
    · rename_i hkey
      split
      · rw [lastUpdate_concat, if_neg hkey]
        exact ih h
      · exact ih h

/-- A key that is never removed has only values. -/
theorem lastUpdate_writes_of_not_mem {updates : List (κ × Option β)}
    (h : (key, none) ∉ updates) :
  lastUpdate (writes updates) key = lastUpdate updates key
  := by
  induction updates using List.reverseRecOn with
  | nil => rfl
  | append_singleton updates update ih =>
    have hupdates := ih fun hmem => h (List.mem_append_left _ hmem)
    rw [writes_concat, lastUpdate_concat, ← hupdates]
    split
    · rw [lastUpdate_concat]
    · rename_i hnone
      rw [if_neg]
      rintro rfl
      apply h
      apply List.mem_append_right
      rw [Option.not_isSome_iff_eq_none] at hnone
      rw [List.mem_singleton, ← hnone]

/-- The keys that are removed. -/
def removals (updates : List (κ × Option β)) : List κ :=
  updates.filterMap fun update => if update.2.isSome then none else some update.1

omit [DecidableEq κ] in
theorem mem_removals {updates : List (κ × Option β)} :
  key ∈ removals updates ↔ (key, none) ∈ updates
  := by
  rw [removals, List.mem_filterMap]
  constructor
  · rintro ⟨⟨key', value⟩, hmem, hkey⟩
    cases value with
    | none =>
      cases hkey
      exact hmem
    | some value => cases hkey
  · exact fun hmem => ⟨(key, none), hmem, rfl⟩

/-- A map after the updates in two rounds: first those that give a value, then the removal of
those removed keys that are dropped. -/
def updateTwice (updates : List (κ × Option β)) (drops : κ → Bool) (map : κ → Option β) :
    κ → Option β := fun key =>
  if key ∈ removals updates ∧ drops key then none else updateAll (writes updates) map key

/-- Two rounds make the same map when the removed keys that are dropped are those whose last
update is the removal. -/
theorem updateTwice_eq {updates : List (κ × Option β)} {drops : κ → Bool} {map : κ → Option β}
    (h : ∀ key, (key, none) ∈ updates → (lastUpdate updates key = some none ↔ drops key)) :
  updateTwice updates drops map = updateAll updates map
  := by
  funext key
  rw [updateTwice, updateAll_apply, updateAll_apply]
  by_cases hremoved : (key, none) ∈ updates
  · by_cases hdrops : drops key
    · rw [if_pos ⟨mem_removals.mpr hremoved, hdrops⟩, (h key hremoved).mpr hdrops]
      rfl
    · rw [if_neg fun hand => hdrops hand.2]
      cases hlast : lastUpdate updates key with
      | none => exact absurd hlast (lastUpdate_ne_none hremoved)
      | some last =>
        cases last with
        | none => exact absurd ((h key hremoved).mp hlast) hdrops
        | some value => rw [lastUpdate_writes_of_some hlast]
  · rw [if_neg fun hand => hremoved (mem_removals.mp hand.1),
      lastUpdate_writes_of_not_mem hremoved]

end Logic
