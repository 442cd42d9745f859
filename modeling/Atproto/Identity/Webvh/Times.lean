import Atproto.Identity.Webvh.Authority

/-!
# Times of entries

The texts of two times are compared where the instants are meant.  The entries of a log that is
accepted and the answers for a time are right exactly when these comparisons have the outcome that a
comparison of the instants has.
-/

namespace Atproto.Identity.Webvh

open Atproto.Dasl Atproto.Repo

/-- The instant of an RFC 3339 text. -/
def LogLibrary.instant (library : LogLibrary) (time : Text) : Int :=
  (library.parseFromRfc3339 time).getD 0

/-- Two texts compare as their instants. -/
def LogLibrary.ComparesInstants (library : LogLibrary) (a b : Text) : Prop :=
  a ≤ b ↔ library.instant a ≤ library.instant b

/-- The query for the version at a time. -/
def atTime (time : Text) : QueryParams where
  versionId := none
  versionTime := some time
  versionNumber := none

/-- The last entry whose time is at or before an instant. -/
def lastAt (library : LogLibrary) (instant : Int) (entries : List LogEntry) : Option LogEntry :=
  entries.reverse.find? fun entry => library.instant entry.versionTime ≤ instant

/-- The times of the entries increase, and a query for a time selects the last entry at or before
that instant. -/
structure TimesAreInstants (library : LogLibrary) (entries : List LogEntry) (time : Text) :
    Prop where
  increase : entries.Pairwise fun a b => library.instant a.versionTime < library.instant b.versionTime
  selects : (selectEntryByQuery entries (atTime time)).toOption.map Prod.fst =
    lastAt library (library.instant time) entries

/-- Each comparison of an entry with the one before it, and of the entries with the time of a query,
is one of instants. -/
structure ComparisonsAgree (library : LogLibrary) (entries : List LogEntry) (time : Text) :
    Prop where
  neighbours : entries.IsChain fun previous entry =>
    library.ComparesInstants entry.versionTime previous.versionTime
  query : ∀ entry ∈ entries, library.ComparesInstants entry.versionTime time

variable {library : LogLibrary} {did scid : Text}
  {witnessProofs : Option (List WitnessProofEntry)} {body : List Char} {now : Int} {index : Nat}
  {entries : List LogEntry} {state : LogState} {progress : Progress} {time : Text}

/-! ### Entries that are accepted -/

/-- The checks of an entry compare its time with the time before it. -/
theorem prevVersionTime_of_checkEntry {entry activeEntry : LogEntry} {rawEntry : Json}
    {next : LogState}
    (h : checkEntry library did scid witnessProofs index entry activeEntry rawEntry state = .ok next) :
  next.prevVersionTime = some entry.versionTime ∧
    ∀ previous ∈ state.prevVersionTime, previous < entry.versionTime
  := by
  have htime : ∀ number, checkVersionTime state.prevVersionTime entry number = .ok () →
      ∀ previous ∈ state.prevVersionTime, previous < entry.versionTime := by
    intro number hcheck previous hprevious
    rw [Option.mem_def] at hprevious
    simp only [checkVersionTime, hprevious] at hcheck
    split_ifs at hcheck with hle
    exact not_le.mp hle
  rw [checkEntry] at h
  split_ifs at h with hindex
  · obtain ⟨params, -, h⟩ := Logic.bind_eq_ok.mp h
    obtain ⟨-, -, h⟩ := Logic.bind_eq_ok.mp h
    obtain ⟨u, hcheck, h⟩ := Logic.bind_eq_ok.mp h
    cases h
    exact ⟨rfl, htime _ hcheck⟩
  · obtain ⟨params, -, h⟩ := Logic.bind_eq_ok.mp h
    obtain ⟨matched, -, h⟩ := Logic.bind_eq_ok.mp h
    obtain ⟨-, -, h⟩ := Logic.bind_eq_ok.mp h
    obtain ⟨u, hcheck, h⟩ := Logic.bind_eq_ok.mp h
    cases h
    exact ⟨rfl, htime _ hcheck⟩

/-- In a log without an entry that fails all entries are valid, and the texts of their times
increase. -/
theorem texts_increase
    (h : processEntries library did scid witnessProofs body index state entries = .ok progress)
    (hnone : progress.firstError = none) :
  progress.valid = index + entries.length ∧
    (∀ previous ∈ state.prevVersionTime, ∀ entry ∈ entries, previous < entry.versionTime) ∧
    entries.Pairwise fun a b => a.versionTime < b.versionTime
  := by
  induction entries generalizing index state with
  | nil =>
    cases h
    exact ⟨rfl, fun _ _ entry hentry => absurd hentry List.not_mem_nil, List.Pairwise.nil⟩
  | cons first rest ih =>
    obtain ⟨rawEntry, -, -, ⟨next, hcheck, hrest⟩ | ⟨error, -, -, rfl⟩⟩ := processEntries_cons.mp h
    · obtain ⟨hvalid, hlater, hpairwise⟩ := ih hrest
      obtain ⟨hnext, hprevious⟩ := prevVersionTime_of_checkEntry hcheck
      have hfirst : ∀ entry ∈ rest, first.versionTime < entry.versionTime :=
        hlater first.versionTime hnext
      refine ⟨?_, ?_, List.Pairwise.cons hfirst hpairwise⟩
      · rw [hvalid, List.length_cons]
        omega
      · intro previous hmem entry hentry
        rcases List.mem_cons.mp hentry with rfl | hentry
        · exact hprevious previous hmem
        · exact (hprevious previous hmem).trans (hfirst entry hentry)
    · cases hnone

/-- What is known of a log that is accepted without a query. -/
theorem accepted_entries {resolved : ResolvedLog library}
    (h : processLogFull library did scid body witnessProofs none now = .ok resolved) :
  ∃ first rest, parseLogEntries library body = .ok (first :: rest) ∧
    (first :: rest).Pairwise (fun a b => a.versionTime < b.versionTime) ∧
    ∀ queryParams, processLogWithParams library did scid body witnessProofs queryParams now =
      selectEntryByQuery (first :: rest) queryParams >>= fun found =>
        resolvedLog library resolved.parameters (rest.length + 1) first
          ((first :: rest).getLast (List.cons_ne_nil first rest)) found.1 found.2
  := by
  obtain ⟨entries, hentries, h⟩ := Logic.bind_eq_ok.mp h
  obtain ⟨progress, hprogress, hfinish⟩ := Logic.bind_eq_ok.mp h
  rw [finishLog] at hfinish
  cases htake : entries.take progress.valid with
  | nil =>
    rw [htake] at hfinish
    cases hfinish
  | cons first rest =>
    rw [htake] at hfinish
    obtain ⟨u, hfuture, hfinish⟩ := Logic.bind_eq_ok.mp hfinish
    split_ifs at hfinish with hportable
    obtain ⟨selected, hselect, hresolved⟩ := Logic.bind_eq_ok.mp hfinish
    rw [selectEntry] at hselect
    split_ifs at hselect
    cases herror : progress.firstError with
    | some error =>
      rw [herror] at hselect
      cases hselect
    | none =>
      obtain ⟨hvalid, -, hpairwise⟩ := texts_increase hprogress herror
      have hall : entries = first :: rest := by
        rw [← htake, hvalid, Nat.zero_add, List.take_length]
      have hparameters : resolved.parameters = progress.state.params := by
        obtain ⟨document, -, heq⟩ := Logic.bind_eq_ok.mp hresolved
        cases heq
        rfl
      subst hall
      refine ⟨first, rest, hentries, hpairwise, fun queryParams => ?_⟩
      rw [processLogWithParams, processLogFull, hentries]
      change (processEntries library did scid witnessProofs body 0 .start (first :: rest) >>= _) = _
      rw [hprogress]
      change finishLog library did (first :: rest) progress (some queryParams) now = _
      rw [finishLog, htake]
      simp only [hfuture, if_neg hportable, hparameters, selectEntry]
      rfl

/-! ### Selection -/

/-- Two searches from the end find the same entry exactly when their conditions agree, for conditions
that an entry has when a later one does. -/
theorem find_reverse_eq_iff {p q : LogEntry → Bool}
    (hdistinct : entries.Pairwise fun a b => a ≠ b)
    (hp : entries.Pairwise fun a b => p b = true → p a = true)
    (hq : entries.Pairwise fun a b => q b = true → q a = true) :
  entries.reverse.find? p = entries.reverse.find? q ↔ ∀ entry ∈ entries, p entry = q entry
  := by
  induction entries using List.reverseRecOn with
  | nil => exact iff_of_true rfl fun entry hentry => absurd hentry List.not_mem_nil
  | append_singleton entries last ih =>
    obtain ⟨hdistinct', -, hlast⟩ := List.pairwise_append.mp hdistinct
    obtain ⟨hp', -, hplast⟩ := List.pairwise_append.mp hp
    obtain ⟨hq', -, hqlast⟩ := List.pairwise_append.mp hq
    have hne : ∀ condition : LogEntry → Bool, entries.reverse.find? condition ≠ some last := by
      intro condition hfind
      have hmem := List.mem_reverse.mp (List.mem_of_find?_eq_some hfind)
      exact hlast last hmem last (List.mem_singleton_self last) rfl
    rw [List.reverse_append, List.reverse_singleton, List.singleton_append, List.find?_cons,
      List.find?_cons]
    constructor
    · intro h entry hentry
      cases hplastValue : p last with
      | true =>
        cases hqlastValue : q last with
        | true =>
          rcases List.mem_append.mp hentry with hold | hnew
          · rw [hplast entry hold last (List.mem_singleton_self last) hplastValue,
              hqlast entry hold last (List.mem_singleton_self last) hqlastValue]
          · rw [List.mem_singleton.mp hnew, hplastValue, hqlastValue]
        | false =>
          rw [hplastValue, hqlastValue] at h
          exact absurd h.symm (hne q)
      | false =>
        cases hqlastValue : q last with
        | true =>
          rw [hplastValue, hqlastValue] at h
          exact absurd h (hne p)
        | false =>
          rw [hplastValue, hqlastValue] at h
          rcases List.mem_append.mp hentry with hold | hnew
          · exact (ih hdistinct' hp' hq').mp h entry hold
          · rw [List.mem_singleton.mp hnew, hplastValue, hqlastValue]
    · intro h
      rw [h last (List.mem_append_right _ (List.mem_singleton_self last)),
        (ih hdistinct' hp' hq').mpr fun entry hentry => h entry (List.mem_append_left _ hentry)]

/-- A query for a time selects by comparing texts. -/
theorem select_atTime :
  (selectEntryByQuery entries (atTime time)).toOption.map Prod.fst =
    entries.reverse.find? fun entry => entry.versionTime ≤ time
  := by
  rw [atTime, selectEntryByQuery]
  cases hfind : entries.reverse.find? fun entry => entry.versionTime ≤ time with
  | none => rfl
  | some found =>
    have hmem : found ∈ entries := List.mem_reverse.mp (List.mem_of_find?_eq_some hfind)
    have hsome : (entries.findIdx? fun entry => entry.versionId = found.versionId).isSome := by
      rw [List.findIdx?_isSome, List.any_eq_true]
      exact ⟨found, hmem, decide_eq_true rfl⟩
    obtain ⟨position, hposition⟩ := Option.isSome_iff_exists.mp hsome
    simp only [hposition]
    rfl

/-- Instants increase exactly when neighbours compare as instants, in a log whose texts increase. -/
theorem increase_iff (htexts : entries.Pairwise fun a b => a.versionTime < b.versionTime) :
  entries.Pairwise (fun a b => library.instant a.versionTime < library.instant b.versionTime) ↔
    entries.IsChain fun previous entry =>
      library.ComparesInstants entry.versionTime previous.versionTime
  := by
  have htrans : IsTrans LogEntry fun a b =>
      library.instant a.versionTime < library.instant b.versionTime :=
    ⟨fun _ _ _ => lt_trans⟩
  rw [← List.isChain_iff_pairwise]
  induction entries with
  | nil => exact iff_of_true List.IsChain.nil List.IsChain.nil
  | cons first rest ih =>
    cases rest with
    | nil => exact iff_of_true (List.IsChain.singleton first) (List.IsChain.singleton first)
    | cons second rest =>
      obtain ⟨hfirst, hrest⟩ := List.pairwise_cons.mp htexts
      have htext := not_le.mpr (hfirst second List.mem_cons_self)
      rw [List.isChain_cons_cons, List.isChain_cons_cons]
      apply and_congr _ (ih hrest)
      rw [LogLibrary.ComparesInstants, iff_false_left htext, not_le]

/-- A search by texts and one by instants find the same entry exactly when the comparisons agree. -/
theorem selects_iff (htexts : entries.Pairwise fun a b => a.versionTime < b.versionTime)
    (hinstants : entries.Pairwise fun a b =>
      library.instant a.versionTime < library.instant b.versionTime) :
  (selectEntryByQuery entries (atTime time)).toOption.map Prod.fst =
      lastAt library (library.instant time) entries ↔
    ∀ entry ∈ entries, library.ComparesInstants entry.versionTime time
  := by
  have hdistinct : entries.Pairwise fun a b => a ≠ b := by
    apply htexts.imp
    rintro a b hlt rfl
    exact lt_irrefl _ hlt
  rw [select_atTime, lastAt, find_reverse_eq_iff hdistinct]
  · simp only [decide_eq_decide, LogLibrary.ComparesInstants]
  · apply htexts.imp
    intro a b hlt hle
    rw [decide_eq_true_eq] at hle ⊢
    exact hlt.le.trans hle
  · apply hinstants.imp
    intro a b hlt hle
    rw [decide_eq_true_eq] at hle ⊢
    exact hlt.le.trans hle

/-- In a log that is accepted the times increase as instants and a query for a time answers with the
last entry at or before that instant, exactly when each of the comparisons of two texts is one of
their instants. -/
theorem times_are_instants_iff {resolved : ResolvedLog library}
    (h : processLogFull library did scid body witnessProofs none now = .ok resolved) (time : Text) :
  ∃ first rest, parseLogEntries library body = .ok (first :: rest) ∧
    processLogWithParams library did scid body witnessProofs (atTime time) now =
      (selectEntryByQuery (first :: rest) (atTime time) >>= fun found =>
        resolvedLog library resolved.parameters (rest.length + 1) first
          ((first :: rest).getLast (List.cons_ne_nil first rest)) found.1 found.2) ∧
    (TimesAreInstants library (first :: rest) time ↔
      ComparisonsAgree library (first :: rest) time)
  := by
  obtain ⟨first, rest, hentries, htexts, hanswers⟩ := accepted_entries h
  refine ⟨first, rest, hentries, hanswers _, ?_⟩
  constructor
  · rintro ⟨hincrease, hselects⟩
    exact ⟨(increase_iff htexts).mp hincrease, (selects_iff htexts hincrease).mp hselects⟩
  · rintro ⟨hneighbours, hquery⟩
    have hincrease := (increase_iff htexts).mpr hneighbours
    exact ⟨hincrease, (selects_iff htexts hincrease).mpr hquery⟩

/-! ### A log of two entries -/

/-- A second entry, with the clock of another country. -/
def offsetEntry : Json :=
  signedEntry "2" (jsonObject []) (shortState (shortScid [])) "2025-01-02T03:00:00+03:00" "zA" "sA2"

/-- A time between the two entries, with the clock of a third country. -/
def betweenTime : Text := textOf "2025-01-01T20:00:00-01:00"

/-- An hour before the time of the first entry, with the clock of another country. -/
def earlierTime : Text := textOf "2025-01-01T01:00:00+02:00"

/-- The logs of the two entries, with the seconds since the epoch of their times and of the others. -/
def timedLogs : LogLibrary :=
  { shortLogs [placeholderEntry [], genesisEntry [], offsetEntry] with
    parseFromRfc3339 := fun time =>
      if time = textOf "2025-01-01T00:00:00Z" then some 1735689600
      else if time = textOf "2025-01-02T03:00:00+03:00" then some 1735776000
      else if time = betweenTime then some 1735765200
      else if time = earlierTime then some 1735686000
      else none }

/-- The log of the two entries. -/
def offsetBody : List Char := shortText (genesisEntry []) ++ '\n' :: shortText offsetEntry

/-- Each entry is at its instant, and its time compares as an instant with the one before it and
with the time between them. -/
theorem offset_answers :
  (processLogFull timedLogs (shortDid (shortScid [])) (shortScid []) offsetBody none none
      1735776001).toOption.isSome = true ∧
    (parseLogEntries timedLogs offsetBody).toOption.map (List.map LogEntry.versionTime) =
      some [textOf "2025-01-01T00:00:00Z", textOf "2025-01-02T03:00:00+03:00"]
  := ⟨by decide +kernel, by decide +kernel⟩

instance (library : LogLibrary) (a b : Text) : Decidable (library.ComparesInstants a b) :=
  inferInstanceAs (Decidable (_ ↔ _))

/-- The times of the two entries increase as instants, and the time between them selects the
first. -/
theorem times_are_instants_offset :
  ∃ first second, parseLogEntries timedLogs offsetBody = .ok [first, second] ∧
    TimesAreInstants timedLogs [first, second] betweenTime
  := by
  obtain ⟨resolved, hresolved⟩ := Logic.exists_eq_ok offset_answers.1
  obtain ⟨first, rest, hentries, -, hiff⟩ := times_are_instants_iff hresolved betweenTime
  have htimes := offset_answers.2
  rw [hentries] at htimes
  obtain ⟨hfirst, hrest⟩ := List.cons.inj (Option.some.inj htimes)
  obtain ⟨second, rest, rfl, hsecond, hnil⟩ := List.map_eq_cons_iff.mp hrest
  obtain rfl := List.map_eq_nil_iff.mp hnil
  refine ⟨first, second, hentries, hiff.mpr ⟨?_, ?_⟩⟩
  · refine .cons_cons ?_ (.singleton second)
    rw [hfirst, hsecond]
    decide +kernel
  · refine List.forall_mem_cons.mpr ⟨?_, List.forall_mem_singleton.mpr ?_⟩
    · rw [hfirst]
      decide +kernel
    · rw [hsecond]
      decide +kernel

/-- The log of the first entry, a second later. -/
def timedAnswer : Except WebvhDidError (ResolvedLog timedLogs) :=
  processLogFull timedLogs (shortDid (shortScid [])) (shortScid []) (shortText (genesisEntry []))
    none none 1735689601

theorem timedAnswer_isSome :
  timedAnswer.toOption.isSome = true
  := by decide +kernel

/-- The log is accepted, its time and the time asked for are known, and the query selects the entry
although the entry is later. -/
theorem times_are_instants_broken :
  (∃ resolved, timedAnswer = .ok resolved) ∧
    timedLogs.parseFromRfc3339 earlierTime = some 1735686000 ∧
    ∃ entries, parseLogEntries timedLogs (shortText (genesisEntry [])) = .ok entries ∧
      (∀ entry ∈ entries, timedLogs.parseFromRfc3339 entry.versionTime = some 1735689600) ∧
      ¬ TimesAreInstants timedLogs entries earlierTime
  := by
  refine ⟨Logic.exists_eq_ok timedAnswer_isSome, by decide +kernel, ?_⟩
  have hentries : (parseLogEntries timedLogs (shortText (genesisEntry []))).toOption.any
      (fun entries => entries.all (fun entry =>
          timedLogs.parseFromRfc3339 entry.versionTime = some 1735689600) &&
        (selectEntryByQuery entries (atTime earlierTime)).toOption.isSome &&
        (lastAt timedLogs (timedLogs.instant earlierTime) entries).isNone) = true := by
    decide +kernel
  obtain ⟨entries, hparsed, hchecks⟩ := (Option.any_eq_true _ _).mp hentries
  rw [Bool.and_eq_true, Bool.and_eq_true, List.all_eq_true] at hchecks
  obtain ⟨⟨htimes, hselected⟩, hnone⟩ := hchecks
  refine ⟨entries, Logic.toOption_eq_some.mp hparsed, fun entry hentry =>
    of_decide_eq_true (htimes entry hentry), ?_⟩
  rintro ⟨-, hselects⟩
  obtain ⟨selected, hsome⟩ := Option.isSome_iff_exists.mp hselected
  rw [Option.isNone_iff_eq_none.mp hnone, hsome] at hselects
  cases hselects

end Atproto.Identity.Webvh
