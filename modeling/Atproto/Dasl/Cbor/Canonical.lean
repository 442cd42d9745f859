import Atproto.Dasl.Cbor.Tree

/-!
# The deserializer accepts canonical trees

The deserializer reads the encoding of a canonical tree and builds its value, and whatever
it reads is the encoding of one.
-/

namespace Atproto.Dasl

open Wire CborTree

variable {config : DecodeConfig} {format : CidFormat} {α β σ : Type} {excuse : Prop}

/-! ### Keys -/

/-- The order of keys is transitive. -/
theorem KeyLess.trans {a b c : Text} (hab : KeyLess a b) (hbc : KeyLess b c) :
  KeyLess a c
  := by
  obtain hab | ⟨hlength, hab⟩ := hab
  · obtain hbc | ⟨hlength', -⟩ := hbc
    · exact Or.inl (hab.trans hbc)
    · exact Or.inl (hlength' ▸ hab)
  · obtain hbc | ⟨hlength', hbc⟩ := hbc
    · exact Or.inl (hlength ▸ hbc)
    · exact Or.inr ⟨hlength.trans hlength', hab.trans hbc⟩

/-- The comparison of keys answers as the order says. -/
theorem keyOrdering_eq_gt {a b : Text} :
  keyOrdering a b = .gt ↔ KeyLess b a
  := by
  rw [keyOrdering, KeyLess]
  obtain hlt | heq | hgt := Nat.lt_trichotomy a.bytes.length b.bytes.length
  · rw [compare_lt_iff_lt.mpr hlt]
    simp
    omega
  · rw [heq, compare_eq_iff_eq.mpr rfl]
    simp [compare_gt_iff_gt]
  · rw [compare_gt_iff_gt.mpr hgt]
    simp [hgt]

/-- A key after the last one is let through. -/
theorem checkKeyOrder_of_less {lastKey : Option Text} {key : Text}
    (h : ∀ previous ∈ lastKey, KeyLess previous key) :
  checkKeyOrder lastKey key = pure ()
  := by
  cases lastKey with
  | none => rfl
  | some previous =>
    rw [checkKeyOrder]
    simp only [keyOrdering_eq_gt.mpr (h previous rfl)]

/-- A key that is let through comes after the last one. -/
theorem checkKeyOrder_parses {lastKey : Option Text} {key : Text} :
  Parses (checkKeyOrder lastKey key) fun _ bytes =>
    bytes = [] ∧ ∀ previous ∈ lastKey, KeyLess previous key
  := by
  cases lastKey with
  | none => exact Parses.pure ⟨rfl, nofun⟩
  | some previous =>
    rw [checkKeyOrder]
    cases hordering : keyOrdering key previous with
    | lt => exact Parses.fail
    | eq => exact Parses.fail
    | gt =>
      apply Parses.pure
      use rfl
      rintro _ ⟨rfl⟩
      exact keyOrdering_eq_gt.mp hordering

/-- What has to be read starts with the byte that is looked at. -/
theorem peekByte_bind_reads {f : UInt8 → Decoder α} {byte : UInt8} {tail : Bytes} {a : α}
    {need : Nat} (h : Reads (f byte) (byte :: tail) a need excuse) :
  Reads (peekByte >>= f) (byte :: tail) a need excuse
  := h

theorem peekByte_parses :
  Parses peekByte fun _ bytes => bytes = []
  := by
  intro input byte rest hok
  cases input with
  | nil => cases hok
  | cons first input =>
    cases hok
    exact ⟨[], rfl, rfl⟩

/-- The excuse for not reading a text: it is beyond a limit. -/
abbrev TextExceeds (config : DecodeConfig) (text : Text) : Prop :=
  (CborItem.text text).Exceeds config

/-- The bytes of a greater key are read as the key. -/
theorem nextKey_reads {lastKey : Option Text} {key : Text} (hkey : key.bytes.length < 2 ^ 64)
    (horder : ∀ previous ∈ lastKey, KeyLess previous key) :
  Reads (nextKey config lastKey) (CborItem.text key).encode key 0 (TextExceeds config key)
  := by
  have hitem : Reads (decodeItem config) (CborItem.text key).encode (.text key) 0
    (TextExceeds config key) := decodeItem_reads _ hkey
  rw [CborItem.encode, encodeHead_eq, List.cons_append] at hitem ⊢
  apply peekByte_bind_reads
  rw [majorTypeFromByte_makeInitialByte (by decide) (expectedAdditional_lt _),
    if_neg (not_not.mpr rfl)]
  apply hitem.bind_nil _ (le_refl 0)
  change Reads (checkKeyOrder lastKey key >>= fun _ => pure key) _ _ _ _
  rw [checkKeyOrder_of_less horder]
  exact Reads.pure key

/-- A key that is read is the one that is encoded, and comes after the last one. -/
theorem nextKey_parses {lastKey : Option Text} :
  Parses (nextKey config lastKey) fun key bytes =>
    bytes = (CborItem.text key).encode ∧ key.bytes.length < 2 ^ 64 ∧
      ∀ previous ∈ lastKey, KeyLess previous key
  := by
  apply peekByte_parses.bind
  rintro byte _ rfl
  apply Parses.ite (fun _ => Parses.fail)
  intro _
  apply decodeItem_parses.bind
  rintro item _ ⟨rfl, hvalid, -⟩
  cases item with
  | text key =>
    change Parses (checkKeyOrder lastKey key >>= fun _ => pure key) _
    apply checkKeyOrder_parses.bind
    rintro _ _ ⟨rfl, horder⟩
    apply Parses.pure
    rw [List.append_nil, List.append_nil, List.nil_append]
    exact ⟨rfl, hvalid, horder⟩
  | _ => exact Parses.fail

/-! ### Arrays and maps -/

/-- The bytes of elements are read as their values. -/
theorem seqAccess_reads {element : Decoder α} {encode : β → Bytes} {value : β → α}
    {items : List β} (h : ∀ item ∈ items, Reads element (encode item) (value item) 0 excuse) :
  Reads (seqAccess element items.length) (items.flatMap encode) (items.map value) 0 excuse
  := by
  induction items with
  | nil => exact Reads.pure []
  | cons item items ih =>
    rw [List.flatMap_cons]
    apply (h item List.mem_cons_self).bind _ (Nat.zero_le _)
    apply (ih fun other hother => h other (List.mem_cons_of_mem item hother)).bind_nil _ (le_refl 0)
    exact Reads.pure _

/-- Elements that are read are the ones that are encoded. -/
theorem seqAccess_parses {element : Decoder α} {Good : β → Prop} {encode : β → Bytes}
    {value : β → α}
    (h : Parses element fun a bytes => ∃ item, bytes = encode item ∧ Good item ∧ a = value item)
    (length : Nat) :
  Parses (seqAccess element length) fun values bytes =>
    ∃ items : List β, items.length = length ∧ bytes = items.flatMap encode ∧
      (∀ item ∈ items, Good item) ∧ values = items.map value
  := by
  induction length with
  | zero => exact Parses.pure ⟨[], rfl, rfl, nofun, rfl⟩
  | succ length ih =>
    apply h.bind
    rintro _ _ ⟨item, rfl, hitem, rfl⟩
    apply ih.bind
    rintro _ _ ⟨items, rfl, rfl, hitems, rfl⟩
    apply Parses.pure
    refine ⟨item :: items, rfl, ?_, ?_, rfl⟩
    · rw [List.append_nil, List.flatMap_cons]
    · exact List.forall_mem_cons.mpr ⟨hitem, hitems⟩

/-- An entry is read before the rest of its map. -/
theorem mapAccess_reads_cons {step : σ → Text → Decoder σ} {state next final : σ}
    {lastKey : Option Text} {key : Text} {value rest : Bytes} {remaining : Nat}
    (hkey : key.bytes.length < 2 ^ 64) (horder : ∀ previous ∈ lastKey, KeyLess previous key)
    (hexcuse : TextExceeds config key → excuse) (hstep : Reads (step state key) value next 0 excuse)
    (hrest : Reads (mapAccess config step next (some key) remaining) rest final 0 excuse) :
  Reads (mapAccess config step state lastKey (remaining + 1)) (entryBytes (key, value) ++ rest)
    final 0 excuse
  := by
  rw [entryBytes, List.append_assoc]
  apply ((nextKey_reads hkey horder).mono (le_refl 0) hexcuse).bind _ (Nat.zero_le _)
  exact hstep.bind hrest (Nat.zero_le _)

/-- The bytes of entries in order are read as the entries. -/
theorem pushEntries_reads {element : Decoder α} {encode : β → Bytes} {value : β → α}
    {entries : List (Text × β)} (hkeys : ∀ e ∈ entries, e.1.bytes.length < 2 ^ 64)
    (hsorted : entries.Pairwise fun a b => KeyLess a.1 b.1)
    (hexcuse : ∀ e ∈ entries, TextExceeds config e.1 → excuse)
    (hvalues : ∀ e ∈ entries, Reads element (encode e.2) (value e.2) 0 excuse)
    (state : List (Text × α)) {lastKey : Option Text}
    (horder : ∀ previous ∈ lastKey, ∀ e ∈ entries, KeyLess previous e.1) :
  Reads (mapAccess config (pushEntry element) state lastKey entries.length)
    (entries.flatMap fun e => entryBytes (e.1, encode e.2))
    (state ++ entries.map fun e => (e.1, value e.2)) 0 excuse
  := by
  induction entries generalizing state lastKey with
  | nil =>
    rw [List.map_nil, List.append_nil]
    exact Reads.pure state
  | cons entry entries ih =>
    rw [List.forall_mem_cons] at hkeys hexcuse hvalues
    obtain ⟨hless, hsorted⟩ := List.pairwise_cons.mp hsorted
    have hnext : ∀ previous ∈ some entry.1, ∀ e ∈ entries, KeyLess previous e.1 := by
      rintro _ ⟨rfl⟩
      exact hless
    have hrest := ih hkeys.2 hsorted hexcuse.2 hvalues.2 (state ++ [(entry.1, value entry.2)]) hnext
    rw [List.append_assoc, List.singleton_append] at hrest
    rw [List.flatMap_cons]
    apply mapAccess_reads_cons hkeys.1 _ hexcuse.1 _ hrest
    · exact fun previous hprevious => horder previous hprevious entry List.mem_cons_self
    · exact hvalues.1.bind_nil (Reads.pure _) (le_refl 0)

/-- Entries that are read are the ones that are encoded, in order. -/
theorem pushEntries_parses {element : Decoder α} {Good : β → Prop} {encode : β → Bytes}
    {value : β → α}
    (h : Parses element fun a bytes => ∃ item, bytes = encode item ∧ Good item ∧ a = value item)
    (state : List (Text × α)) (lastKey : Option Text) (length : Nat) :
  Parses (mapAccess config (pushEntry element) state lastKey length) fun values bytes =>
    ∃ entries : List (Text × β), entries.length = length ∧
      (bytes = entries.flatMap fun e => entryBytes (e.1, encode e.2)) ∧
      (∀ e ∈ entries, e.1.bytes.length < 2 ^ 64) ∧
      (entries.Pairwise fun a b => KeyLess a.1 b.1) ∧
      (∀ previous ∈ lastKey, ∀ e ∈ entries, KeyLess previous e.1) ∧
      (∀ e ∈ entries, Good e.2) ∧ values = state ++ entries.map fun e => (e.1, value e.2)
  := by
  induction length generalizing state lastKey with
  | zero =>
    apply Parses.pure
    refine ⟨[], rfl, rfl, nofun, List.Pairwise.nil, nofun, nofun, ?_⟩
    rw [List.map_nil, List.append_nil]
  | succ length ih =>
    apply nextKey_parses.bind
    rintro key _ ⟨rfl, hkey, horder⟩
    have hstep : Parses (pushEntry element state key) fun values bytes =>
      ∃ item, bytes = encode item ∧ Good item ∧ values = state ++ [(key, value item)] := by
      apply h.bind
      rintro _ _ ⟨item, rfl, hitem, rfl⟩
      apply Parses.pure
      rw [List.append_nil]
      exact ⟨item, rfl, hitem, rfl⟩
    apply hstep.bind
    rintro _ _ ⟨item, rfl, hitem, rfl⟩
    apply (ih _ (some key)).mono
    rintro _ _ ⟨entries, rfl, rfl, hkeys, hsorted, hless, hgood, rfl⟩
    have hless := hless key rfl
    refine ⟨(key, item) :: entries, rfl, ?_, ?_, ?_, ?_, ?_, ?_⟩
    · rw [List.flatMap_cons, entryBytes, List.append_assoc]
    · exact List.forall_mem_cons.mpr ⟨hkey, hkeys⟩
    · exact List.pairwise_cons.mpr ⟨hless, hsorted⟩
    · intro previous hprevious
      have hfirst := horder previous hprevious
      exact List.forall_mem_cons.mpr ⟨hfirst, fun e he => KeyLess.trans hfirst (hless e he)⟩
    · exact List.forall_mem_cons.mpr ⟨hitem, hgood⟩
    · rw [List.append_assoc, List.singleton_append, List.map_cons]

/-! ### CIDs -/

/-- The bytes of a tagged CID are read as the CID. -/
theorem taggedCid_reads {payload : Bytes} {cid : Cid} (hlength : payload.length < 2 ^ 64)
    (hcid : Cid.fromDagCborBytes format payload = .ok cid) :
  Reads (taggedCid config format) (CborItem.bytes payload).encode (payload, cid) 0
    ((CborItem.bytes payload).Exceeds config)
  := by
  apply (decodeItem_reads (.bytes payload) hlength).bind_nil _ (le_refl 0)
  rw [cidOfItem, hcid]
  exact Reads.pure _

/-- A tagged CID that is read is the one that is encoded. -/
theorem taggedCid_parses :
  Parses (taggedCid config format) fun p bytes =>
    bytes = (CborItem.bytes p.1).encode ∧ p.1.length < 2 ^ 64 ∧
      Cid.fromDagCborBytes format p.1 = .ok p.2
  := by
  apply decodeItem_parses.bind
  rintro item _ ⟨rfl, hvalid, -⟩
  cases item with
  | bytes payload =>
    rw [cidOfItem]
    cases hcid : Cid.fromDagCborBytes format payload with
    | error e => exact Parses.fail
    | ok cid =>
      apply Parses.pure
      rw [List.append_nil]
      exact ⟨rfl, hvalid, hcid⟩
  | _ => exact Parses.fail

/-! ### Trees -/

theorem encodeHead_ne_nil (major arg : Nat) :
  encodeHead major arg ≠ []
  := by
  rw [encodeHead_eq]
  exact List.cons_ne_nil _ _

theorem CborItem.encode_ne_nil (item : CborItem) :
  item.encode ≠ []
  := by
  cases item with
  | bytes data => exact List.append_ne_nil_of_left_ne_nil (encodeHead_ne_nil _ _) _
  | text string => exact List.append_ne_nil_of_left_ne_nil (encodeHead_ne_nil _ _) _
  | bool value => exact List.cons_ne_nil _ _
  | null => exact List.cons_ne_nil _ _
  | float bits => exact List.cons_ne_nil _ _
  | _ => exact encodeHead_ne_nil _ _

namespace CborTree

/-- A tree is encoded by at least one byte. -/
theorem encode_ne_nil (tree : CborTree) :
  tree.encode ≠ []
  := by
  cases tree with
  | array items =>
    rw [encode_array]
    exact List.append_ne_nil_of_left_ne_nil (CborItem.encode_ne_nil _) _
  | map entries =>
    rw [encode_map]
    exact List.append_ne_nil_of_left_ne_nil (CborItem.encode_ne_nil _) _
  | link payload => exact List.append_ne_nil_of_left_ne_nil (CborItem.encode_ne_nil _) _
  | bool value => exact CborItem.encode_ne_nil (.bool value)
  | integer value => exact CborItem.encode_ne_nil (integerItem value)
  | float bits => exact CborItem.encode_ne_nil (.float bits)
  | text string => exact CborItem.encode_ne_nil (.text string)
  | bytes data => exact CborItem.encode_ne_nil (.bytes data)
  | null => exact CborItem.encode_ne_nil .null

/-- Every part takes at least so many bytes. -/
theorem le_length_flatMap {encode : β → Bytes} {n : Nat} {items : List β}
    (h : ∀ item ∈ items, n ≤ (encode item).length) :
  n * items.length ≤ (items.flatMap encode).length
  := by
  induction items with
  | nil => exact Nat.le_refl 0
  | cons item items ih =>
    rw [List.forall_mem_cons] at h
    have hrest := ih h.2
    rw [List.flatMap_cons, List.length_append, List.length_cons, Nat.mul_succ]
    omega

theorem length_le_flatMap_encode (items : List CborTree) :
  items.length ≤ (items.flatMap encode).length
  := by
  have h := @le_length_flatMap _ encode 1 items fun item _ =>
    List.length_pos_iff.mpr item.encode_ne_nil
  omega

theorem length_le_flatMap_entryBytes (entries : List (Text × CborTree)) :
  2 * entries.length ≤ (entries.flatMap fun e => entryBytes (e.1, e.2.encode)).length
  := by
  apply le_length_flatMap
  intro e _
  have hkey := List.length_pos_iff.mpr (CborItem.text e.1).encode_ne_nil
  have hvalue := List.length_pos_iff.mpr e.2.encode_ne_nil
  calc 2 ≤ (CborItem.text e.1).encode.length + e.2.encode.length := by omega
    _ = (entryBytes (e.1, e.2.encode)).length := List.length_append.symm

/-- The excuse for not reading a tree: it is beyond a limit. -/
abbrev Exceeds (config : DecodeConfig) (levels : Nat) (tree : CborTree) : Prop :=
  config.maxAlloc < 8 ∨ ¬ tree.Fits config levels

variable {visitor : Visitor α}

/-- A tree without parts is read as its item is visited. -/
theorem leaf_reads (item : CborItem) {tree : CborTree} {levels : Nat} (hvalid : item.Valid)
    (hneed : item.need = 0) (hencode : tree.encode = item.encode)
    (hvisit : ∀ nested : Option (Decoder α),
      visitItem config format visitor nested item = pure (tree.visit visitor))
    (hfits : tree.Fits config levels → item.Fits config) :
  Reads (deserializeAny config format visitor levels) tree.encode (tree.visit visitor) 0
    (tree.Exceeds config levels)
  := by
  have hexcuse : item.Exceeds config → tree.Exceeds config levels := Or.imp_right (mt hfits)
  have hitem := (decodeItem_reads item hvalid).mono (Nat.le_of_eq hneed) hexcuse
  rw [deserializeAny_eq, hencode]
  apply hitem.bind_nil _ (le_refl 0)
  rw [hvisit]
  exact Reads.pure _

/-- An integer in the range of the format has a valid item. -/
theorem integerItem_valid {value : Int} (hlow : -2 ^ 64 ≤ value) (hhigh : value < 2 ^ 64) :
  (integerItem value).Valid
  := by
  rw [integerItem]
  split_ifs with hsign
  · change value.toNat < 2 ^ 64
    omega
  · change value < 0 ∧ -1 - value < 2 ^ 64
    omega

/-- The deserializer reads the encoding of a canonical tree and builds its value. -/
theorem Canonical.reads {tree : CborTree} (h : tree.Canonical format) (levels : Nat) :
  Reads (deserializeAny config format visitor levels) tree.encode (tree.visit visitor) 0
    (tree.Exceeds config levels)
  := by
  induction h generalizing levels with
  | bool value => exact leaf_reads (.bool value) trivial rfl rfl (fun _ => rfl) fun _ => trivial
  | @integer value hlow hhigh =>
    have hvalid := integerItem_valid hlow hhigh
    apply leaf_reads (integerItem value) hvalid _ rfl
    · intro nested
      rw [integerItem]
      split_ifs with hsign
      · rw [visitItem, Int.toNat_of_nonneg hsign]
        rfl
      · rfl
    · intro _
      rw [integerItem]
      split_ifs
      · trivial
      · trivial
    · rw [integerItem]
      split_ifs
      · rfl
      · rfl
  | @float bits hfinite =>
    exact leaf_reads (.float bits) hfinite rfl rfl (fun _ => rfl) fun _ => trivial
  | @text string hlength =>
    apply leaf_reads (.text string) hlength rfl rfl (fun _ => rfl)
    intro h
    cases h with
    | text _ h => exact h
  | @bytes data hlength =>
    apply leaf_reads (.bytes data) hlength rfl rfl (fun _ => rfl)
    intro h
    cases h with
    | bytes _ h => exact h
  | null => exact leaf_reads .null trivial rfl rfl (fun _ => rfl) fun _ => trivial
  | @array items hlength _ ih =>
    rw [deserializeAny_eq, encode_array]
    have hheader : (CborItem.array items.length).Exceeds config →
        (CborTree.array items).Exceeds config levels := by
      refine Or.imp_right fun hfits h => hfits ?_
      cases h with
      | array h _ => exact h
    have hneed : (CborItem.array items.length).need ≤ (items.flatMap encode).length :=
      length_le_flatMap_encode items
    apply ((decodeItem_reads (.array _) hlength).mono (le_refl _) hheader).bind _ hneed
    cases levels with
    | zero => exact Reads.fail (Or.inr nofun)
    | succ levels =>
      have hitems : ∀ item ∈ items, Reads (deserializeAny config format visitor levels)
          item.encode (item.visit visitor) 0 ((CborTree.array items).Exceeds config (levels + 1)) := by
        intro item hitem
        apply (ih item hitem levels).mono (le_refl 0)
        refine Or.imp_right fun hfits h => hfits ?_
        cases h with
        | array _ h => exact h item hitem
      apply (seqAccess_reads hitems).bind_nil _ (le_refl 0)
      rw [visit, fold_array]
      exact Reads.pure _
  | @map entries hlength hkeys hsorted _ ih =>
    rw [deserializeAny_eq, encode_map]
    have hheader : (CborItem.map entries.length).Exceeds config →
        (CborTree.map entries).Exceeds config levels := by
      refine Or.imp_right fun hfits h => hfits ?_
      cases h with
      | map h _ _ => exact h
    have hneed : (CborItem.map entries.length).need ≤
        (entries.flatMap fun e => entryBytes (e.1, e.2.encode)).length :=
      length_le_flatMap_entryBytes entries
    apply ((decodeItem_reads (.map _) hlength).mono (le_refl _) hheader).bind _ hneed
    cases levels with
    | zero => exact Reads.fail (Or.inr nofun)
    | succ levels =>
      have hexcuse : ∀ e ∈ entries, TextExceeds config e.1 →
          (CborTree.map entries).Exceeds config (levels + 1) := by
        intro e he
        refine Or.imp_right fun hfits h => hfits ?_
        cases h with
        | map _ h _ => exact h e he
      have hvalues : ∀ e ∈ entries, Reads (deserializeAny config format visitor levels)
          e.2.encode (e.2.visit visitor) 0 ((CborTree.map entries).Exceeds config (levels + 1)) := by
        intro e he
        apply (ih e he levels).mono (le_refl 0)
        refine Or.imp_right fun hfits h => hfits ?_
        cases h with
        | map _ _ h => exact h e he
      have hentries := pushEntries_reads hkeys hsorted hexcuse hvalues []
        (fun previous hprevious => nomatch (hprevious : previous ∈ none))
      apply hentries.bind_nil _ (le_refl 0)
      rw [visit, fold_map]
      exact Reads.pure _
  | @link payload hlength cid hcid =>
    rw [deserializeAny_eq]
    have htag : Reads (decodeItem config) (CborItem.tag cidTag).encode (.tag cidTag) 0
        ((CborTree.link payload).Exceeds config levels) :=
      (decodeItem_reads (.tag cidTag) rfl).mono (le_refl 0)
        fun h => h.imp_right fun hfits _ => hfits trivial
    apply htag.bind _ (Nat.zero_le _)
    have hpayload : (CborItem.bytes payload).Exceeds config →
        (CborTree.link payload).Exceeds config levels := by
      refine Or.imp_right fun hfits h => hfits ?_
      cases h with
      | link _ h => exact h
    apply ((taggedCid_reads hlength hcid).mono (le_refl 0) hpayload).bind_nil _ (le_refl 0)
    exact Reads.pure _

/-- What is read: the encoding of a canonical tree, for its value. -/
def ReadsTree (format : CidFormat) (visitor : Visitor α) (a : α) (bytes : Bytes) : Prop :=
  ∃ tree : CborTree, bytes = tree.encode ∧ tree.Canonical format ∧ a = tree.visit visitor

/-- A value that is read from an item is the one that is encoded. -/
theorem visitItem_parses {nested : Option (Decoder α)}
    (hnested : ∀ element ∈ nested, Parses element (ReadsTree format visitor)) {item : CborItem}
    (hvalid : item.Valid) :
  Parses (visitItem config format visitor nested item) fun a bytes =>
    ReadsTree format visitor a (item.encode ++ bytes)
  := by
  cases item with
  | unsigned value =>
    apply Parses.pure
    rw [List.append_nil]
    have hvalue : (value : Int) < 2 ^ 64 := by
      change value < 2 ^ 64 at hvalid
      omega
    have hitem : integerItem value = .unsigned value := if_pos (Int.natCast_nonneg value)
    refine ⟨.integer value, ?_, .integer (by omega) hvalue, rfl⟩
    exact congrArg CborItem.encode hitem.symm
  | negative value =>
    apply Parses.pure
    rw [List.append_nil]
    obtain ⟨hneg, hlow⟩ := hvalid
    have hitem : integerItem value = .negative value := if_neg (Int.not_le.mpr hneg)
    refine ⟨.integer value, ?_, .integer (by omega) (by omega), rfl⟩
    exact congrArg CborItem.encode hitem.symm
  | bytes data =>
    apply Parses.pure
    rw [List.append_nil]
    exact ⟨.bytes data, rfl, .bytes hvalid, rfl⟩
  | text string =>
    apply Parses.pure
    rw [List.append_nil]
    exact ⟨.text string, rfl, .text hvalid, rfl⟩
  | array length =>
    cases nested with
    | none => exact Parses.fail
    | some element =>
      apply (seqAccess_parses (hnested element rfl) length).bind
      rintro _ _ ⟨items, rfl, rfl, hitems, rfl⟩
      apply Parses.pure
      refine ⟨.array items, ?_, .array hvalid hitems, ?_⟩
      · rw [List.append_nil, encode_array]
      · rw [visit, fold_array]
        rfl
  | map length =>
    cases nested with
    | none => exact Parses.fail
    | some element =>
      apply (pushEntries_parses (hnested element rfl) [] none length).bind
      rintro _ _ ⟨entries, rfl, rfl, hkeys, hsorted, -, hvalues, rfl⟩
      apply Parses.pure
      refine ⟨.map entries, ?_, .map hvalid hkeys hsorted hvalues, ?_⟩
      · rw [List.append_nil, encode_map]
      · rw [visit, fold_map]
        rfl
  | tag number =>
    obtain rfl : number = cidTag := hvalid
    apply taggedCid_parses.bind
    rintro ⟨payload, cid⟩ _ ⟨rfl, hlength, hcid⟩
    apply Parses.pure
    rw [List.append_nil]
    exact ⟨.link payload, rfl, .link hlength cid hcid, rfl⟩
  | bool value =>
    apply Parses.pure
    rw [List.append_nil]
    exact ⟨.bool value, rfl, .bool value, rfl⟩
  | null =>
    apply Parses.pure
    rw [List.append_nil]
    exact ⟨.null, rfl, .null, rfl⟩
  | float bits =>
    apply Parses.pure
    rw [List.append_nil]
    exact ⟨.float bits, rfl, .float hvalid, rfl⟩

/-- What the deserializer reads is the encoding of a canonical tree. -/
theorem deserializeAny_parses (levels : Nat) :
  Parses (deserializeAny config format visitor levels) (ReadsTree format visitor)
  := by
  induction levels with
  | zero =>
    apply decodeItem_parses.bind
    rintro item _ ⟨rfl, hvalid, -⟩
    exact visitItem_parses nofun hvalid
  | succ levels ih =>
    apply decodeItem_parses.bind
    rintro item _ ⟨rfl, hvalid, -⟩
    apply visitItem_parses _ hvalid
    rintro _ ⟨rfl⟩
    exact ih

end CborTree

/-! ### Whole inputs -/

section Whole

variable {deserialize : Decoder α} {a b : α} {bytes : Bytes}

/-- An input is accepted when a value is read from it and nothing is left. -/
theorem fromSlice_eq_ok {input : Bytes} :
  fromSlice deserialize input = .ok a ↔ deserialize input = .ok (a, [])
  := by
  rw [fromSlice]
  cases deserialize input with
  | error e => simp
  | ok p =>
    obtain ⟨value, rest⟩ := p
    cases rest with
    | nil => simp
    | cons first rest => simp

/-- The bytes of a value are accepted. -/
theorem fromSlice_of_reads (h : Reads deserialize bytes a 0 excuse) (hexcuse : ¬ excuse) :
  fromSlice deserialize bytes = .ok a
  := by
  have hok := h.ok hexcuse (Nat.zero_le ([] : Bytes).length)
  rw [List.append_nil] at hok
  exact fromSlice_eq_ok.mpr hok

theorem eq_of_fromSlice (h : Reads deserialize bytes a 0 excuse)
    (hok : fromSlice deserialize bytes = .ok b) :
  b = a
  := by
  have hok := fromSlice_eq_ok.mp hok
  rw [← List.append_nil bytes] at hok
  exact (h.of_ok (Nat.zero_le _) hok).1

/-- An accepted input is the one that the value is encoded as. -/
theorem fromSlice_parses {post : α → Bytes → Prop} (h : Parses deserialize post)
    (hok : fromSlice deserialize bytes = .ok a) :
  post a bytes
  := by
  obtain ⟨taken, hbytes, hpost⟩ := h _ _ _ (fromSlice_eq_ok.mp hok)
  rwa [hbytes, List.append_nil]

end Whole

end Atproto.Dasl
