import Atproto.Identity.Webvh.Log

/-!
# Lines that are appended to a log

A version that was resolved once is resolved to the same document after more lines are appended
exactly when the longer log is unbroken: every line is an entry, an entry that comes to be
checked is JSON with known parameters, and the last valid entry is not in the future.
-/

namespace Atproto.Identity.Webvh

open Atproto.Dasl Atproto.Repo SearchTree

/-! ### Lines -/

/-- The lines that are not blank, without white space around them. -/
def entryLines (body : List Char) : List (List Char) :=
  ((lines body).map trim).filter (· ≠ [])

/-- A carriage return at the end is white space. -/
theorem trim_append {line : List Char} :
  trim (line ++ ['\r']) = trim line
  := by
  rw [trim, trim, List.dropWhile_append]
  split_ifs with hblank
  · rw [List.isEmpty_iff.mp hblank]
    rfl
  · rw [List.reverse_append]
    rfl

theorem linesFrom_append (current before behind : List Char) :
  linesFrom current (before ++ '\n' :: behind) =
    linesFrom current (before ++ ['\n']) ++ linesFrom [] behind
  := by
  induction before generalizing current with
  | nil =>
    rw [List.nil_append, List.nil_append, linesFrom, linesFrom, if_pos rfl, if_pos rfl]
    rfl
  | cons c before ih =>
    rw [List.cons_append, List.cons_append, linesFrom, linesFrom, ih [], ih (c :: current)]
    split_ifs
    · rfl
    · rfl
    · rfl

/-- A line that ends is the same line, but for white space. -/
theorem linesFrom_newline (current before : List Char) :
  ((linesFrom current (before ++ ['\n'])).map trim).filter (· ≠ []) =
    ((linesFrom current before).map trim).filter (· ≠ [])
  := by
  induction before generalizing current with
  | nil =>
    rw [List.nil_append, linesFrom, linesFrom, if_pos rfl, linesFrom, if_pos rfl]
    cases current with
    | nil => rfl
    | cons c current =>
      rw [if_neg (List.cons_ne_nil c current)]
      split_ifs with hreturn
      · obtain rfl := Option.some.inj hreturn
        rw [List.map_singleton, List.map_singleton, List.tail_cons, List.reverse_cons, trim_append]
      · rfl
  | cons c before ih =>
    rw [List.cons_append, linesFrom, linesFrom]
    split_ifs
    · rw [List.map_cons, List.map_cons, List.filter_cons, List.filter_cons, ih]
    · rw [List.map_cons, List.map_cons, List.filter_cons, List.filter_cons, ih]
    · exact ih _

theorem entryLines_append (before behind : List Char) :
  entryLines (before ++ '\n' :: behind) = entryLines before ++ entryLines behind
  := by
  rw [entryLines, lines, linesFrom_append, List.map_append, List.filter_append, linesFrom_newline]
  rfl

/-- A text is another one with further lines behind it. -/
def Extends (body longer : List Char) : Prop :=
  (∃ more, longer = body ++ '\n' :: more) ∨
    (body = [] ∨ body.getLast? = some '\n') ∧ ∃ more, longer = body ++ more

theorem Extends.entryLines {body longer : List Char} (h : Extends body longer) :
  ∃ extra, entryLines longer = entryLines body ++ extra
  := by
  obtain ⟨more, rfl⟩ | ⟨rfl | hlast, more, rfl⟩ := h
  · exact ⟨_, entryLines_append body more⟩
  · exact ⟨_, rfl⟩
  · obtain ⟨before, rfl⟩ := List.getLast?_eq_some_iff.mp hlast
    refine ⟨Webvh.entryLines more, ?_⟩
    rw [List.append_assoc, List.singleton_append, entryLines_append, entryLines_append]
    exact (List.append_nil _).symm ▸ rfl

/-! ### Reading -/

variable {library : LogLibrary} {did scid : Text}
  {witnessProofs : Option (List WitnessProofEntry)} {body longer : List Char} {now : Int}

theorem parseLines_eq_ok {number : Nat} {texts : List (List Char)} {entries : List LogEntry} :
  parseLines library number texts = .ok entries ↔
    ((texts.map trim).filter (· ≠ [])).map library.entryFromStr = entries.map .ok
  := by
  induction texts generalizing number entries with
  | nil =>
    rw [parseLines, Except.ok.injEq]
    cases entries with
    | nil => exact iff_of_true rfl rfl
    | cons entry entries => exact iff_of_false nofun nofun
  | cons text texts ih =>
    rw [parseLines, List.map_cons, List.filter_cons]
    by_cases hblank : trim text = []
    · rw [if_pos hblank, if_neg (by simpa using hblank), ih]
    · rw [if_neg hblank, if_pos (by simpa using hblank), List.map_cons]
      constructor
      · intro h
        obtain ⟨entry, hentry, h⟩ := Logic.bind_eq_ok.mp h
        obtain ⟨rest, hrest, h⟩ := Logic.bind_eq_ok.mp h
        cases h
        rw [List.map_cons, ← ih.mp hrest, Logic.mapError_eq_ok.mp hentry]
      · intro h
        cases entries with
        | nil => cases h
        | cons entry entries =>
          obtain ⟨hentry, hentries⟩ := List.cons.inj h
          rw [Logic.mapError_eq_ok.mpr hentry]
          exact Logic.bind_eq_ok.mpr ⟨entry, rfl, Logic.bind_eq_ok.mpr ⟨_, ih.mpr hentries, rfl⟩⟩

theorem parseLogEntries_eq_ok {entries : List LogEntry} :
  parseLogEntries library body = .ok entries ↔
    (entryLines body).map library.entryFromStr = entries.map .ok
  := parseLines_eq_ok

theorem parseRawEntry_eq {index : Nat} {line : List Char}
    (h : (entryLines body)[index]? = some line) :
  parseRawEntry library body index =
    (library.jsonText.fromStr line).mapError (.logEntryParseFailed (index + 1))
  := by
  rw [entryLines, List.filter_map, List.getElem?_map] at h
  obtain ⟨text, htext, rfl⟩ := Option.map_eq_some_iff.mp h
  rw [parseRawEntry]
  have hfilter : (lines body).filter (fun line => decide (trim line ≠ [])) =
      (lines body).filter ((fun line => decide (line ≠ [])) ∘ trim) := rfl
  rw [hfilter, htext]

/-! ### Unbroken logs -/

/-- An entry has no time, or one that is not in the future. -/
def NotInFuture (library : LogLibrary) (now : Int) (entry : LogEntry) : Prop :=
  ∀ time, library.parseFromRfc3339 entry.versionTime = some time → time ≤ now

theorem checkNotInFuture_eq_ok {entry : LogEntry} {entryNumber : Nat} :
  checkNotInFuture library now entry entryNumber = .ok () ↔ NotInFuture library now entry
  := by
  rw [checkNotInFuture, NotInFuture]
  cases library.parseFromRfc3339 entry.versionTime with
  | none => exact iff_of_true rfl nofun
  | some time =>
    simp only [Option.some.injEq, forall_eq']
    split_ifs with hfuture
    · exact iff_of_false nofun (not_le.mpr hfuture)
    · exact iff_of_true rfl (not_lt.mp hfuture)

/-- The lines after the last valid entry do not abort: each line that comes to be checked is
an entry and JSON with known parameters, until an entry is not valid or no line is left, and the
last valid entry is not in the future. -/
def Unbroken (library : LogLibrary) (did scid : Text)
    (witnessProofs : Option (List WitnessProofEntry)) (now : Int) :
    Nat → LogState → Option LogEntry → List (List Char) → Prop
  | _, _, last, [] => ∃ entry, last = some entry ∧ NotInFuture library now entry
  | index, state, last, line :: lines =>
    ∃ entry rawEntry, library.entryFromStr line = .ok entry ∧
      library.jsonText.fromStr line = .ok rawEntry ∧
      validateKnownParameters (normalizeNullParameters entry).parameters (index + 1) = .ok () ∧
      ((∃ next, checkEntry library did scid witnessProofs index entry
            (normalizeNullParameters entry) rawEntry state = .ok next ∧
          Unbroken library did scid witnessProofs now (index + 1) next (some entry) lines) ∨
        (∃ error, checkEntry library did scid witnessProofs index entry
            (normalizeNullParameters entry) rawEntry state = .error error) ∧
          ∃ entry, last = some entry ∧ NotInFuture library now entry)

variable {index : Nat} {state : LogState} {entries more : List LogEntry} {progress : Progress}

/-- One entry is checked, and then the others unless it is not valid. -/
theorem processEntries_cons {entry : LogEntry} :
  processEntries library did scid witnessProofs body index state (entry :: entries) =
      .ok progress ↔
    ∃ rawEntry, parseRawEntry library body index = .ok rawEntry ∧
      validateKnownParameters (normalizeNullParameters entry).parameters (index + 1) = .ok () ∧
      ((∃ next, checkEntry library did scid witnessProofs index entry
            (normalizeNullParameters entry) rawEntry state = .ok next ∧
          processEntries library did scid witnessProofs body (index + 1) next entries =
            .ok progress) ∨
        ∃ error, checkEntry library did scid witnessProofs index entry
            (normalizeNullParameters entry) rawEntry state = .error error ∧ index ≠ 0 ∧
          progress = { state := state, valid := index, firstError := some error })
  := by
  rw [processEntries, Logic.bind_eq_ok]
  refine exists_congr fun rawEntry => and_congr_right fun _ => ?_
  rw [Logic.bind_eq_ok]
  constructor
  · rintro ⟨⟨⟩, hknown, h⟩
    refine ⟨hknown, ?_⟩
    cases hcheck : checkEntry library did scid witnessProofs index entry
        (normalizeNullParameters entry) rawEntry state with
    | ok next =>
      rw [hcheck] at h
      exact Or.inl ⟨next, rfl, h⟩
    | error error =>
      rw [hcheck] at h
      simp only at h
      split_ifs at h with hzero
      exact Or.inr ⟨error, rfl, hzero, (Except.ok.inj h).symm⟩
  · rintro ⟨hknown, h⟩
    refine ⟨(), hknown, ?_⟩
    rcases h with ⟨next, hcheck, hrest⟩ | ⟨error, hcheck, hzero, rfl⟩
    · rw [hcheck]
      exact hrest
    · rw [hcheck]
      exact if_neg hzero

/-- The check of the entries does not abort, and the last valid one is not in the future, exactly
when the lines are unbroken. -/
theorem processEntries_iff_unbroken {done : List LogEntry} {doneLines texts : List (List Char)}
    (htexts : texts.map library.entryFromStr = entries.map .ok)
    (hbody : entryLines body = doneLines ++ texts) (hlength : doneLines.length = done.length) :
  (∃ progress entry, processEntries library did scid witnessProofs body done.length state entries =
      .ok progress ∧ ((done ++ entries).take progress.valid).getLast? = some entry ∧
      NotInFuture library now entry) ↔
    Unbroken library did scid witnessProofs now done.length state done.getLast? texts
  := by
  induction entries generalizing done doneLines texts state with
  | nil =>
    obtain rfl := List.map_eq_nil_iff.mp htexts
    rw [Unbroken, List.append_nil, processEntries]
    constructor
    · rintro ⟨progress, entry, hprogress, hlast, hfuture⟩
      cases hprogress
      rw [List.take_length] at hlast
      exact ⟨entry, hlast, hfuture⟩
    · rintro ⟨entry, hlast, hfuture⟩
      refine ⟨_, entry, rfl, ?_, hfuture⟩
      rwa [List.take_length]
  | cons entry entries ih =>
    obtain ⟨line, texts, rfl, hentry, htexts⟩ := List.map_eq_cons_iff.mp htexts
    have hline : (entryLines body)[done.length]? = some line := by
      rw [hbody, ← hlength, List.getElem?_append_right (Nat.le_refl _), Nat.sub_self]
      rfl
    have hnext : ∀ next, (∃ progress last, processEntries library did scid witnessProofs body
        (done.length + 1) next entries = .ok progress ∧
        ((done ++ entry :: entries).take progress.valid).getLast? = some last ∧
        NotInFuture library now last) ↔
        Unbroken library did scid witnessProofs now (done.length + 1) next (some entry) texts := by
      intro next
      have hstep := @ih next (done ++ [entry]) (doneLines ++ [line]) texts htexts
        (by rw [hbody, List.append_assoc, List.singleton_append])
        (by rw [List.length_append, List.length_append, hlength]; rfl)
      rwa [List.length_append, List.length_singleton, List.getLast?_concat, List.append_assoc,
        List.singleton_append] at hstep
    rw [Unbroken]
    constructor
    · rintro ⟨progress, last, hprogress, hlast, hfuture⟩
      obtain ⟨rawEntry, hraw, hknown, hrest⟩ := processEntries_cons.mp hprogress
      rw [parseRawEntry_eq hline, Logic.mapError_eq_ok] at hraw
      refine ⟨entry, rawEntry, hentry, hraw, hknown, ?_⟩
      rcases hrest with ⟨next, hcheck, hprogress⟩ | ⟨error, hcheck, -, rfl⟩
      · exact Or.inl ⟨next, hcheck, (hnext next).mp ⟨progress, last, hprogress, hlast, hfuture⟩⟩
      · rw [List.take_left] at hlast
        exact Or.inr ⟨⟨error, hcheck⟩, last, hlast, hfuture⟩
    · rintro ⟨other, rawEntry, hother, hraw, hknown, hrest⟩
      obtain rfl := Except.ok.inj (hentry.symm.trans hother)
      have hrawEntry : parseRawEntry library body done.length = .ok rawEntry := by
        rw [parseRawEntry_eq hline, Logic.mapError_eq_ok.mpr hraw]
      rcases hrest with ⟨next, hcheck, hunbroken⟩ | ⟨⟨error, hcheck⟩, last, hlast, hfuture⟩
      · obtain ⟨progress, last, hprogress, hlast, hfuture⟩ := (hnext next).mpr hunbroken
        exact ⟨progress, last, processEntries_cons.mpr
          ⟨rawEntry, hrawEntry, hknown, Or.inl ⟨next, hcheck, hprogress⟩⟩, hlast, hfuture⟩
      · have hpos : done.length ≠ 0 := by
          intro hzero
          rw [List.length_eq_zero_iff.mp hzero] at hlast
          cases hlast
        refine ⟨_, last, processEntries_cons.mpr
          ⟨rawEntry, hrawEntry, hknown, Or.inr ⟨error, hcheck, hpos, rfl⟩⟩, ?_, hfuture⟩
        rwa [List.take_left]

/-- A log is unbroken when the check of its entries does not abort and the last valid one is not
in the future. -/
theorem unbroken_iff (hentries : (entryLines body).map library.entryFromStr = entries.map .ok) :
  (∃ progress entry, processEntries library did scid witnessProofs body 0 .start entries =
      .ok progress ∧ (entries.take progress.valid).getLast? = some entry ∧
      NotInFuture library now entry) ↔
    Unbroken library did scid witnessProofs now 0 .start none (entryLines body)
  := @processEntries_iff_unbroken library did scid witnessProofs body now .start entries [] []
    (entryLines body) hentries (List.nil_append _).symm rfl

/-! ### Longer logs -/

/-- The number of valid entries. -/
theorem le_valid (h : processEntries library did scid witnessProofs body index state entries =
    .ok progress) :
  index ≤ progress.valid ∧ progress.valid ≤ index + entries.length
  := by
  induction entries generalizing index state with
  | nil =>
    cases h
    exact ⟨Nat.le_refl _, Nat.le_refl _⟩
  | cons entry entries ih =>
    rw [List.length_cons]
    obtain ⟨rawEntry, -, -, ⟨next, -, hrest⟩ | ⟨error, -, -, rfl⟩⟩ := processEntries_cons.mp h
    · have hvalid := ih hrest
      omega
    · exact ⟨Nat.le_refl _, Nat.le_add_right _ _⟩

/-- The valid entries stay valid when more entries follow. -/
theorem valid_le_of_append {longerProgress : Progress}
    (hraw : ∀ i < index + entries.length,
      parseRawEntry library longer i = parseRawEntry library body i)
    (h : processEntries library did scid witnessProofs body index state entries = .ok progress)
    (hlonger : processEntries library did scid witnessProofs longer index state (entries ++ more) =
      .ok longerProgress) :
  progress.valid ≤ longerProgress.valid
  := by
  induction entries generalizing index state with
  | nil =>
    cases h
    exact (le_valid hlonger).1
  | cons entry entries ih =>
    rw [List.length_cons] at hraw
    obtain ⟨rawEntry, hrawEntry, -, hrest⟩ := processEntries_cons.mp h
    obtain ⟨other, hother, -, hrest'⟩ := processEntries_cons.mp hlonger
    rw [hraw index (by omega)] at hother
    obtain rfl := Except.ok.inj (hrawEntry.symm.trans hother)
    rcases hrest with ⟨next, hcheck, hrest⟩ | ⟨error, hcheck, -, rfl⟩
    · rcases hrest' with ⟨next', hcheck', hrest'⟩ | ⟨error, hcheck', -, -⟩
      · obtain rfl := Except.ok.inj (hcheck.symm.trans hcheck')
        exact ih (fun i hi => hraw i (by omega)) hrest hrest'
      · cases hcheck.symm.trans hcheck'
    · exact (le_valid hlonger).1

/-- What an entry that is valid leaves. -/
theorem didIdMatched_of_checkEntry {entry activeEntry : LogEntry} {rawEntry : Json}
    {next : LogState} (hpos : index ≠ 0 → state.didIdMatched = true)
    (h : checkEntry library did scid witnessProofs index entry activeEntry rawEntry state =
      .ok next) :
  next.didIdMatched = true
  := by
  rw [checkEntry] at h
  split_ifs at h with hzero
  · obtain ⟨params, -, h⟩ := Logic.bind_eq_ok.mp h
    obtain ⟨⟨⟩, -, h⟩ := Logic.bind_eq_ok.mp h
    obtain ⟨⟨⟩, -, h⟩ := Logic.bind_eq_ok.mp h
    cases h
    rfl
  · obtain ⟨params, -, h⟩ := Logic.bind_eq_ok.mp h
    obtain ⟨matched, hmatched, h⟩ := Logic.bind_eq_ok.mp h
    obtain ⟨⟨⟩, -, h⟩ := Logic.bind_eq_ok.mp h
    obtain ⟨⟨⟩, -, h⟩ := Logic.bind_eq_ok.mp h
    cases h
    rw [checkStateId, hpos hzero] at hmatched
    cases hid : stringField "id" activeEntry.state with
    | none =>
      rw [hid] at hmatched
      exact (Except.ok.inj hmatched).symm
    | some id =>
      rw [hid] at hmatched
      simp only at hmatched
      split_ifs at hmatched
      · exact (Except.ok.inj hmatched).symm
      · exact (Except.ok.inj hmatched).symm

/-- The identifier of the log is in the document of the first entry. -/
theorem didIdMatched_of_valid (hpos : index ≠ 0 → state.didIdMatched = true)
    (h : processEntries library did scid witnessProofs body index state entries = .ok progress)
    (hvalid : progress.valid ≠ 0) :
  progress.state.didIdMatched = true
  := by
  induction entries generalizing index state with
  | nil =>
    cases h
    exact hpos hvalid
  | cons entry entries ih =>
    obtain ⟨rawEntry, -, -, ⟨next, hcheck, hrest⟩ | ⟨error, -, hzero, rfl⟩⟩ :=
      processEntries_cons.mp h
    · exact ih (fun _ => didIdMatched_of_checkEntry hpos hcheck) hrest
    · exact hpos hzero

/-! ### Queries -/

/-- A query by the identifier or the number of a version. -/
def QueryParams.ByVersion (queryParams : QueryParams) : Prop :=
  queryParams.versionId.isSome ∨ queryParams.versionTime = none ∧ queryParams.versionNumber.isSome

/-- What a query by version selects is selected from a longer list. -/
theorem selectEntryByQuery_append {queryParams : QueryParams} (hquery : queryParams.ByVersion)
    {entry : LogEntry} {number : Nat}
    (h : selectEntryByQuery entries queryParams = .ok (entry, number)) :
  selectEntryByQuery (entries ++ more) queryParams = .ok (entry, number)
  := by
  obtain ⟨versionId, versionTime, versionNumber⟩ := queryParams
  cases versionId with
  | some vid =>
    rw [selectEntryByQuery] at h ⊢
    cases hfind : entries.findIdx? fun entry => entry.versionId = vid with
    | none =>
      rw [hfind] at h
      cases h
    | some position =>
      rw [hfind] at h
      rw [List.findIdx?_append, hfind, Option.some_or]
      simp only at h ⊢
      cases hentry : entries[position]? with
      | none =>
        rw [hentry] at h
        cases h
      | some found =>
        rw [hentry] at h
        obtain ⟨hlt, -⟩ := List.getElem?_eq_some_iff.mp hentry
        rw [List.getElem?_append_left hlt, hentry]
        exact h
  | none =>
    obtain hsome | ⟨htime, hnumber⟩ := hquery
    · cases hsome
    · obtain rfl := htime
      obtain ⟨vnum, hvnum⟩ := Option.isSome_iff_exists.mp hnumber
      obtain rfl := hvnum
      rw [selectEntryByQuery] at h ⊢
      split_ifs at h with hrange
      cases hentry : entries[vnum - 1]? with
      | none =>
        rw [hentry] at h
        cases h
      | some found =>
        rw [hentry] at h
        obtain ⟨hlt, -⟩ := List.getElem?_eq_some_iff.mp hentry
        rw [if_neg (by rw [List.length_append]; omega), List.getElem?_append_left hlt, hentry]
        exact h

/-! ### The result -/

theorem resolvedLog_of_document (params : MergedParameters) (entryCount : Nat)
    (firstEntry lastValidEntry : LogEntry) {entry : LogEntry} (number : Nat)
    {document : library.Document} (h : library.documentFromValue entry.state = .ok document) :
  ∃ resolved, resolvedLog library params entryCount firstEntry lastValidEntry entry number =
      .ok resolved ∧ resolved.document = document ∧ resolved.versionId = entry.versionId ∧
    resolved.versionNumber = number
  := by
  rw [resolvedLog, Logic.mapError_eq_ok.mpr h]
  exact ⟨_, rfl, rfl, rfl, rfl⟩

/-- What a query gets from a log whose entries were checked. -/
theorem finishLog_iff {queryParams : QueryParams} {document : library.Document} {versionId : Text}
    {number : Nat} :
  (∃ resolved, finishLog library did entries progress (some queryParams) now = .ok resolved ∧
      resolved.document = document ∧ resolved.versionId = versionId ∧
      resolved.versionNumber = number) ↔
    (∃ last, (entries.take progress.valid).getLast? = some last ∧ NotInFuture library now last) ∧
      ¬ (progress.state.params.portable ∧ progress.state.didIdMatched = false) ∧
      ∃ entry, selectEntryByQuery (entries.take progress.valid) queryParams = .ok (entry, number) ∧
        library.documentFromValue entry.state = .ok document ∧ entry.versionId = versionId
  := by
  rw [finishLog]
  cases htake : entries.take progress.valid with
  | nil =>
    apply iff_of_false
    · rintro ⟨resolved, hresolved, -⟩
      cases hresolved
    · rintro ⟨⟨last, hlast, -⟩, -⟩
      cases hlast
  | cons first rest =>
    rw [List.getLast?_eq_some_getLast (List.cons_ne_nil first rest)]
    simp only
    constructor
    · rintro ⟨resolved, h, rfl, rfl, rfl⟩
      obtain ⟨⟨⟩, hfuture, h⟩ := Logic.bind_eq_ok.mp h
      split_ifs at h with hportable
      obtain ⟨⟨entry, number⟩, hselect, h⟩ := Logic.bind_eq_ok.mp h
      obtain ⟨document, hdocument, h⟩ := Logic.bind_eq_ok.mp h
      cases h
      exact ⟨⟨_, rfl, checkNotInFuture_eq_ok.mp hfuture⟩, hportable, entry, hselect,
        Logic.mapError_eq_ok.mp hdocument, rfl⟩
    · rintro ⟨⟨last, hlast, hfuture⟩, hportable, entry, hselect, hdocument, rfl⟩
      obtain rfl := Option.some.inj hlast
      obtain ⟨resolved, hresolved, hanswer⟩ := resolvedLog_of_document progress.state.params
        entries.length first ((first :: rest).getLast (List.cons_ne_nil first rest)) number hdocument
      refine ⟨resolved, ?_, hanswer⟩
      apply Logic.bind_eq_ok.mpr ⟨(), checkNotInFuture_eq_ok.mpr hfuture, _⟩
      rw [if_neg hportable]
      exact Logic.bind_eq_ok.mpr ⟨(entry, number), hselect, hresolved⟩

/-- The same answer from another log. -/
def SameAnswer (a b : ResolvedLog library) : Prop :=
  a.document = b.document ∧ a.versionId = b.versionId ∧ a.versionNumber = b.versionNumber

theorem exists_entries {texts : List (List Char)}
    (h : ∀ line ∈ texts, ∃ entry, library.entryFromStr line = .ok entry) :
  ∃ entries : List LogEntry, texts.map library.entryFromStr = entries.map .ok
  := by
  induction texts with
  | nil => exact ⟨[], rfl⟩
  | cons line texts ih =>
    obtain ⟨⟨entry, hentry⟩, htexts⟩ := List.forall_mem_cons.mp h
    obtain ⟨entries, hentries⟩ := ih htexts
    use entry :: entries
    rw [List.map_cons, List.map_cons, hentry, hentries]

/-- The raw entries of a log are those of a longer one. -/
theorem parseRawEntry_among {extra : List (List Char)}
    (hextra : entryLines longer = entryLines body ++ extra)
    (hentries : (entryLines body).map library.entryFromStr = entries.map .ok) :
  ∀ i < 0 + entries.length, parseRawEntry library longer i = parseRawEntry library body i
  := by
  intro i hi
  have hlength : (entryLines body).length = entries.length := by
    have hmap := congrArg List.length hentries
    rwa [List.length_map, List.length_map] at hmap
  have hlt : i < (entryLines body).length := by omega
  have hline := List.getElem?_eq_getElem hlt
  rw [parseRawEntry_eq hline]
  apply parseRawEntry_eq
  rw [hextra, List.getElem?_append_left hlt, hline]

/-- A version that a log answers for is answered for in the same way by a log with further
lines exactly when all lines of the longer log are entries and it is unbroken. -/
theorem history_stable_iff {queryParams : QueryParams} {now' : Int} {resolved : ResolvedLog library}
    (hquery : queryParams.ByVersion) (hextends : Extends body longer)
    (hok : processLogWithParams library did scid body witnessProofs queryParams now = .ok resolved) :
  (∃ answer, processLogWithParams library did scid longer witnessProofs queryParams now' =
      .ok answer ∧ SameAnswer answer resolved) ↔
    (∀ line ∈ entryLines longer, ∃ entry, library.entryFromStr line = .ok entry) ∧
      Unbroken library did scid witnessProofs now' 0 .start none (entryLines longer)
  := by
  obtain ⟨extra, hextra⟩ := hextends.entryLines
  obtain ⟨entries, hentries, hrest⟩ := Logic.bind_eq_ok.mp hok
  obtain ⟨progress, hprogress, hfinish⟩ := Logic.bind_eq_ok.mp hrest
  rw [parseLogEntries_eq_ok] at hentries
  constructor
  · rintro ⟨answer, hanswer, -⟩
    obtain ⟨entries', hentries', hrest'⟩ := Logic.bind_eq_ok.mp hanswer
    obtain ⟨progress', hprogress', hfinish'⟩ := Logic.bind_eq_ok.mp hrest'
    rw [parseLogEntries_eq_ok] at hentries'
    obtain ⟨⟨last, hlast, hfuture⟩, -⟩ := finishLog_iff.mp ⟨answer, hfinish', rfl, rfl, rfl⟩
    constructor
    · intro line hline
      have hmem := List.mem_map_of_mem (f := library.entryFromStr) hline
      rw [hentries'] at hmem
      obtain ⟨entry, -, hentry⟩ := List.mem_map.mp hmem
      exact ⟨entry, hentry.symm⟩
    · exact (unbroken_iff hentries').mp ⟨progress', last, hprogress', hlast, hfuture⟩
  · rintro ⟨hparse, hunbroken⟩
    obtain ⟨⟨last, hlast, -⟩, -, entry, hselect, hdocument, hversion⟩ :=
      finishLog_iff.mp ⟨resolved, hfinish, rfl, rfl, rfl⟩
    obtain ⟨more, hmore⟩ : ∃ more : List LogEntry,
        extra.map library.entryFromStr = more.map .ok := by
      apply exists_entries
      intro line hline
      exact hparse line (hextra ▸ List.mem_append_right _ hline)
    have hlonger : (entryLines longer).map library.entryFromStr = (entries ++ more).map .ok := by
      rw [hextra, List.map_append, hentries, hmore, List.map_append]
    obtain ⟨progress', last', hprogress', hlast', hfuture'⟩ :=
      (unbroken_iff hlonger).mpr hunbroken
    have hvalid := valid_le_of_append (parseRawEntry_among hextra hentries) hprogress hprogress'
    obtain ⟨rest, hprefix⟩ : entries.take progress.valid <+:
        (entries ++ more).take progress'.valid := by
      have hle := (le_valid hprogress).2
      have htake : (entries ++ more).take progress.valid = entries.take progress.valid :=
        List.take_append_of_le_length (by omega)
      rw [← htake]
      exact List.take_prefix_take_left hvalid
    have hmatched : progress'.state.didIdMatched = true := by
      apply didIdMatched_of_valid (fun h => absurd rfl h) hprogress'
      intro hzero
      rw [hzero] at hlast'
      cases hlast'
    obtain ⟨answer, hanswer, hsame⟩ := finishLog_iff.mpr
      ⟨⟨last', hlast', hfuture'⟩, fun h => absurd (hmatched.symm.trans h.2) (by decide), entry,
        hprefix ▸ selectEntryByQuery_append hquery hselect, hdocument, hversion⟩
    refine ⟨answer, ?_, hsame⟩
    exact Logic.bind_eq_ok.mpr ⟨entries ++ more, parseLogEntries_eq_ok.mpr hlonger,
      Logic.bind_eq_ok.mpr ⟨progress', hprogress', hanswer⟩⟩

/-! ### Libraries for short logs -/

/-- A digest that tells the sum of the bytes. -/
def checksum (data : Bytes) : Bytes :=
  List.replicate 31 0 ++ [UInt8.ofNat (data.map UInt8.toNat).sum]

/-- A multibase text that shows the last byte in two letters. -/
def lastByteText (bytes : Bytes) : Text :=
  let value := (bytes.getLastD 0).toNat
  textOf (String.ofList ('z' :: List.replicate 43 '1' ++
    [base58btcAlphabet.getD (value / 58) '1', base58btcAlphabet.getD (value % 58) '1']))

/-- Libraries for keys of two letters, whose signatures have three: the second letter is that of
the key. -/
def shortLibrary : WebvhLibrary where
  multibaseDecode bytes :=
    if bytes.length = 2 then .ok (0xed :: 0x01 :: List.replicate 32 (bytes.getLastD 0))
    else if bytes.length = 3 then .ok (List.replicate 64 (bytes.getD 1 0))
    else .ok (0x12 :: 0x20 :: bytes)
  multibaseEncode := lastByteText
  sha256 := checksum
  verifyingKey _ := .ok ()
  verifySignature publicKey _ signature :=
    if signature.head? = publicKey.head? then .ok () else .error "signature error"
  floatText _ := []

/-- The text of a JSON value. -/
def shortText (value : Json) : List Char :=
  (canonicalize shortLibrary.floatText value).map fun byte => Char.ofNat byte.toNat

/-- Reading an entry from a JSON value. -/
def entryFromValue (value : Json) : Except Text LogEntry :=
  let proof (value : Json) : Option DataIntegrityProof := do
    let type ← stringField "type" value
    let cryptosuite ← stringField "cryptosuite" value
    let verificationMethod ← stringField "verificationMethod" value
    let created ← stringField "created" value
    let proofPurpose ← stringField "proofPurpose" value
    let proofValue ← stringField "proofValue" value
    some {
      type := type
      cryptosuite := cryptosuite
      verificationMethod := verificationMethod
      created := created
      proofPurpose := proofPurpose
      proofValue := proofValue }
  let entry : Option LogEntry := do
    let versionId ← stringField "versionId" value
    let versionTime ← stringField "versionTime" value
    let parameters ← value.get (textOf "parameters")
    let state ← value.get (textOf "state")
    let proofs ← ((value.get (textOf "proof")).bind Json.asArray).bind fun items => items.mapM proof
    some {
      versionId := versionId
      versionTime := versionTime
      parameters := parameters
      state := state
      proof := proofs }
  entry.elim (.error (textOf "missing field")) .ok

/-- Libraries that read the texts of some JSON values and no others. -/
def shortLogs (values : List Json) : LogLibrary where
  webvh := shortLibrary
  jsonText := {
    toString := shortText
    fromStr line := (values.find? fun value => shortText value = line).elim
      (.error (textOf "expected value")) .ok }
  entryFromStr line := (values.find? fun value => shortText value = line).elim
    (.error (textOf "expected value")) entryFromValue
  witnessFromValue _ := .error (textOf "missing field")
  Document := Json
  documentFromValue := .ok
  parseFromRfc3339 _ := none

/-- An object with texts as keys. -/
def jsonObject (fields : List (String × Json)) : Json :=
  .object (fields.map fun field => (textOf field.1, field.2))

/-- An entry without proofs. -/
def unsignedEntry (parameters state : Json) (versionId versionTime : Text) : Json :=
  jsonObject [("parameters", parameters), ("state", state), ("versionId", .string versionId),
    ("versionTime", .string versionTime)]

/-- An entry with its hash and a proof by a key. -/
def signedEntry (number : String) (parameters state : Json) (versionTime : String)
    (key proofValue : String) : Json :=
  let versionTime := textOf versionTime
  let hash := computeMultihashBase58btc shortLibrary
    (hashedBytes shortLibrary (unsignedEntry parameters state Text.empty versionTime))
  setField "proof" (.array [jsonObject [("created", .string versionTime),
    ("cryptosuite", .string (textOf "eddsa-jcs-2022")),
    ("proofPurpose", .string (textOf "assertionMethod")),
    ("proofValue", .string (textOf proofValue)), ("type", .string (textOf "DataIntegrityProof")),
    ("verificationMethod", .string (textOf ("did:key:" ++ key)))]])
    (unsignedEntry parameters state (textOf (number ++ "-") ++ hash) versionTime)

/-- The parameters of a first entry with the key `zA` and announced keys. -/
def genesisParameters (announced : List Text) (scid : Text) : Json :=
  jsonObject [("method", .string (textOf "did:webvh:1.0")),
    ("nextKeyHashes", .array (announced.map .string)), ("scid", .string scid),
    ("updateKeys", .array [.string (textOf "zA")])]

/-- The identifier of a log. -/
def shortDid (scid : Text) : Text := textOf "did:webvh:" ++ scid ++ textOf ":example.com"

/-- The document of an identifier. -/
def shortState (scid : Text) : Json := jsonObject [("id", .string (shortDid scid))]

/-- A first entry with the placeholder. -/
def placeholderEntry (announced : List Text) : Json :=
  unsignedEntry (genesisParameters announced (textOf scidPlaceholder))
    (shortState (textOf scidPlaceholder)) (textOf scidPlaceholder) (textOf "2025-01-01T00:00:00Z")

/-- The identifier that the hash of the first entry is. -/
def shortScid (announced : List Text) : Text :=
  computeMultihashBase58btc shortLibrary
    (canonicalize shortLibrary.floatText (placeholderEntry announced))

/-- A first entry. -/
def genesisEntry (announced : List Text) : Json :=
  signedEntry "1" (genesisParameters announced (shortScid announced))
    (shortState (shortScid announced)) "2025-01-01T00:00:00Z" "zA" "sA1"

/-- A second entry, by the same key. -/
def furtherEntry : Json :=
  signedEntry "2" (jsonObject []) (shortState (shortScid [])) "2025-01-02T00:00:00Z" "zA" "sA2"

/-- A third entry, by a key that is not in force. -/
def forgedEntry : Json :=
  signedEntry "3" (jsonObject []) (shortState (shortScid [])) "2025-01-03T00:00:00Z" "zB" "sB3"

/-- The logs of these entries. -/
def genesisLogs : LogLibrary :=
  shortLogs [placeholderEntry [], genesisEntry [], furtherEntry, forgedEntry]

/-- A query for the first version. -/
def firstVersion : QueryParams where
  versionId := none
  versionTime := none
  versionNumber := some 1

/-- What a log of the first entry, and these characters behind it, answers for the first
version. -/
def firstAnswer (behind : List Char) : Except WebvhDidError (ResolvedLog genesisLogs) :=
  processLogWithParams genesisLogs (shortDid (shortScid [])) (shortScid [])
    (shortText (genesisEntry []) ++ behind) none firstVersion 0

/-- The second entry and the forged one behind the first. -/
def moreLines : List Char := '\n' :: (shortText furtherEntry ++ '\n' :: shortText forgedEntry)

theorem firstAnswer_isSome :
  (firstAnswer []).toOption.isSome = true
  := by decide +kernel

/-- Whether the last valid entry is not in the future. -/
def endsWell (library : LogLibrary) (now : Int) : Option LogEntry → Bool
  | none => false
  | some entry =>
    match library.parseFromRfc3339 entry.versionTime with
    | none => true
    | some time => decide (time ≤ now)

/-- Whether a log is unbroken. -/
def isUnbroken (library : LogLibrary) (did scid : Text)
    (witnessProofs : Option (List WitnessProofEntry)) (now : Int) :
    Nat → LogState → Option LogEntry → List (List Char) → Bool
  | _, _, last, [] => endsWell library now last
  | index, state, last, line :: lines =>
    match library.entryFromStr line, library.jsonText.fromStr line with
    | .ok entry, .ok rawEntry =>
      (validateKnownParameters (normalizeNullParameters entry).parameters (index + 1)).isOk &&
        match checkEntry library did scid witnessProofs index entry
          (normalizeNullParameters entry) rawEntry state with
        | .ok next =>
          isUnbroken library did scid witnessProofs now (index + 1) next (some entry) lines
        | .error _ => endsWell library now last
    | .ok _, .error _ => false
    | .error _, _ => false

theorem exists_of_endsWell {last : Option LogEntry} (h : endsWell library now last = true) :
  ∃ entry, last = some entry ∧ NotInFuture library now entry
  := by
  cases last with
  | none => cases h
  | some entry =>
    refine ⟨entry, rfl, fun time htime => ?_⟩
    rw [endsWell, htime] at h
    exact of_decide_eq_true h

/-- What is checked is what an unbroken log is. -/
theorem unbroken_of_isUnbroken {last : Option LogEntry} {texts : List (List Char)}
    (h : isUnbroken library did scid witnessProofs now index state last texts = true) :
  Unbroken library did scid witnessProofs now index state last texts
  := by
  induction texts generalizing index state last with
  | nil => exact exists_of_endsWell h
  | cons line lines ih =>
    rw [isUnbroken] at h
    split at h
    · rename_i entry rawEntry hentry hraw
      obtain ⟨hknown, hrest⟩ := (Bool.and_eq_true _ _).mp h
      refine ⟨entry, rawEntry, hentry, hraw, Logic.isOk_iff.mp hknown, ?_⟩
      split at hrest
      · rename_i next hnext
        exact Or.inl ⟨next, hnext, ih hrest⟩
      · rename_i error herror
        exact Or.inr ⟨⟨error, herror⟩, exists_of_endsWell hrest⟩
    · cases h
    · cases h

/-- A valid entry and a forged one are appended, and the answer for the first version stays. -/
theorem history_stable_more :
  ∃ resolved, firstAnswer [] = .ok resolved ∧
    ∃ answer, firstAnswer moreLines = .ok answer ∧ SameAnswer answer resolved
  := by
  obtain ⟨resolved, hresolved⟩ := Logic.exists_eq_ok firstAnswer_isSome
  have hextends : ∀ body : List Char, Extends (body ++ []) (body ++ moreLines) := by
    intro body
    rw [List.append_nil]
    exact Or.inl ⟨_, rfl⟩
  have hiff := @history_stable_iff genesisLogs _ _ none _ _ 0 firstVersion 0 resolved
    (Or.inr ⟨rfl, rfl⟩) (hextends (shortText (genesisEntry []))) hresolved
  have hall : (entryLines (shortText (genesisEntry []) ++ moreLines)).all
      (fun line => (genesisLogs.entryFromStr line).toOption.isSome) = true := by decide +kernel
  have hunbroken : isUnbroken genesisLogs (shortDid (shortScid [])) (shortScid []) none 0 0 .start
      none (entryLines (shortText (genesisEntry []) ++ moreLines)) = true := by decide +kernel
  generalize entryLines (shortText (genesisEntry []) ++ moreLines) = texts at hiff hall hunbroken
  exact ⟨resolved, hresolved, hiff.mpr ⟨fun line hline =>
    Logic.exists_eq_ok (List.all_eq_true.mp hall line hline), unbroken_of_isUnbroken hunbroken⟩⟩

/-- A log answers for its first version, and with a line behind it that is no entry it does not. -/
theorem history_broken :
  (∃ resolved, firstAnswer [] = .ok resolved) ∧
    Extends (shortText (genesisEntry []) ++ []) (shortText (genesisEntry []) ++ ['\n', 'x']) ∧
    ¬ ∃ answer, firstAnswer ['\n', 'x'] = .ok answer
  := by
  refine ⟨Logic.exists_eq_ok firstAnswer_isSome, Or.inl ⟨['x'], ?_⟩, ?_⟩
  · rw [List.append_nil]
  · rintro ⟨answer, hanswer⟩
    have hnone : (firstAnswer ['\n', 'x']).toOption.isSome = false := by decide +kernel
    rw [hanswer] at hnone
    cases hnone

end Atproto.Identity.Webvh
