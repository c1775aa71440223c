import ChainQuery.Proofs.RoundTrip

/-! # Rereading — what was read is written and read again

    Readers are lenient, so many texts read as one thing; but whatever has
    been read once is read again from the text that it is written as.  The
    route:

    * a reader puts entries in key order, whatever order they come in, and
      opens as many containers as there are in the form of what it gives
      (`Tagged.Fits`), so reading keeps within its room (`fits_datum`,
      `fits_term`);
    * a thing of which that holds returns from its form
      (`text_reread`). -/

namespace ChainQuery

open Json

/-! ## All of the parts -/

namespace Json

theorem depthOfItems_le {js : List Json} {room : Nat} :
    depthOfItems js ≤ room ↔ ∀ j ∈ js, j.depth ≤ room := by
  induction js with
  | nil => exact ⟨fun _ => List.forall_mem_nil _, fun _ => Nat.zero_le _⟩
  | cons j js ih =>
      rw [List.forall_mem_cons, ← ih]
      exact Nat.max_le

theorem depthOfMembers_le {ms : List (Text × Json)} {room : Nat} :
    depthOfMembers ms ≤ room ↔ ∀ m ∈ ms, m.2.depth ≤ room := by
  induction ms with
  | nil => exact ⟨fun _ => List.forall_mem_nil _, fun _ => Nat.zero_le _⟩
  | cons m ms ih =>
      rw [List.forall_mem_cons, ← ih]
      exact Nat.max_le

end Json

theorem keyedItems_iff {ds : List Datum} :
    KeyedItems ds ↔ ∀ d ∈ ds, d.Keyed := by
  induction ds with
  | nil => exact ⟨fun _ => List.forall_mem_nil _, fun _ => trivial⟩
  | cons d ds ih => rw [KeyedItems, ih, List.forall_mem_cons]

theorem keyedMembers_iff {es : List (String × Datum)} :
    KeyedMembers es ↔ ∀ e ∈ es, e.2.Keyed := by
  induction es with
  | nil => exact ⟨fun _ => List.forall_mem_nil _, fun _ => trivial⟩
  | cons e es ih => rw [KeyedMembers, ih, List.forall_mem_cons]

theorem keyedArgs_iff {ts : List Term} :
    KeyedArgs ts ↔ ∀ t ∈ ts, t.Keyed := by
  induction ts with
  | nil => exact ⟨fun _ => List.forall_mem_nil _, fun _ => trivial⟩
  | cons t ts ih => rw [KeyedArgs, ih, List.forall_mem_cons]

theorem keyedNamed_iff {es : List (String × Term)} :
    KeyedNamed es ↔ ∀ e ∈ es, e.2.Keyed := by
  induction es with
  | nil => exact ⟨fun _ => List.forall_mem_nil _, fun _ => trivial⟩
  | cons e es ih => rw [KeyedNamed, ih, List.forall_mem_cons]

namespace Tagged

/-- What came out of a reader with this much room: it is keyed, and its
    form has no more containers inside one another. -/
structure Fits {α : Type} (Keyed : α → Prop) (form : α → Json)
    (room : Nat) (a : α) : Prop where
  keyed : Keyed a
  depth : (form a).depth ≤ room

variable {α : Type} {room : Nat}

/-- A form with a payload takes one container more than the payload. -/
theorem depth_tagged {name : String} {payload : Json}
    (h : payload.depth ≤ room) : (tagged name payload).depth ≤ room + 1 :=
  Nat.succ_le_succ (Nat.max_le.mpr ⟨h, Nat.zero_le _⟩)

/-- Entries that were put in order, with what fits in each of them. -/
structure Shelved (Q : α → Prop) (entries : List (String × α)) :
    Prop where
  sorted : Entries.Sorted entries
  each : ∀ e ∈ entries, Q e.2

theorem shelved_nil {Q : α → Prop} : Shelved Q ([] : List (String × α)) :=
  ⟨.nil, List.forall_mem_nil _⟩

theorem shelved_put {Q : α → Prop} {entries : List (String × α)}
    (key : String) {a : α} (h : Shelved Q entries) (ha : Q a) :
    Shelved Q (Entries.put key a entries) where
  sorted := Entries.sorted_put a h.sorted
  each e he := by
    rcases Entries.mem_put he with rfl | he
    · exact ha
    · exact h.each e he

/-! ## Values -/

theorem depth_ofBinary64 (x : Binary64) : (ofBinary64 x).depth ≤ room := by
  rw [ofBinary64]
  split
  · exact Nat.zero_le _
  · exact Nat.zero_le _

theorem depth_bytes (bytes : List UInt8) :
    (Json.array (bytes.map fun b => ofInt b.toNat)).depth ≤ room + 1 := by
  refine Nat.succ_le_succ (depthOfItems_le.mpr fun j hj => ?_)
  obtain ⟨b, -, rfl⟩ := List.mem_map.mp hj
  exact Nat.zero_le _

theorem depth_values {vs : List Value}
    (h : ∀ v ∈ vs, (ofValue v).depth ≤ room) :
    (Json.array (ofValues vs)).depth ≤ room + 1 := by
  rw [ofValues_eq]
  exact Nat.succ_le_succ
    (depthOfItems_le.mpr (List.forall_mem_map.mpr h))

mutual

/-- The form of a value that was read has room where it was read. -/
theorem depth_of_toValue :
    ∀ (j : Json) (room : Nat) (v : Value), toValue? room j = some v →
      (ofValue v).depth ≤ room
  | j, room, v, h => by
      rw [toValue?.eq_def] at h
      split at h
      · cases h
        exact Nat.zero_le _
      · split at h
        · cases h
        · split at h
          · cases h
            exact Nat.zero_le _
          · cases h
            exact depth_tagged (Nat.zero_le _)
          · obtain ⟨i, -, rfl⟩ := Option.map_eq_some_iff.mp h
            exact depth_tagged (Nat.zero_le _)
          · obtain ⟨n, -, rfl⟩ := Option.map_eq_some_iff.mp h
            exact depth_tagged (Nat.zero_le _)
          · obtain ⟨x, -, rfl⟩ := Option.map_eq_some_iff.mp h
            exact depth_tagged (depth_ofBinary64 x)
          · cases h
            exact depth_tagged (Nat.zero_le _)
          · -- Bytes are in a container, and not one of them is.
            split at h
            · cases h
            · next hroom =>
                obtain ⟨bytes, -, rfl⟩ := Option.map_eq_some_iff.mp h
                obtain ⟨room, rfl⟩ := Nat.exists_eq_succ_of_ne_zero hroom
                exact depth_tagged (depth_bytes bytes)
          · -- Items.
            split at h
            · cases h
            · obtain ⟨vs, hvs, rfl⟩ := Option.map_eq_some_iff.mp h
              exact depth_tagged (depth_values (depth_of_toValues _ _ vs hvs))
          · -- Entries, each of them in a container of its own.
            split at h
            · cases h
            · obtain ⟨es, hes, rfl⟩ := Option.map_eq_some_iff.mp h
              exact depth_tagged
                (Nat.succ_le_succ (depth_of_toEntries _ _ es hes))
          · cases h
      · cases h
termination_by j => sizeOf j

theorem depth_of_toValues :
    ∀ (js : List Json) (room : Nat) (vs : List Value),
      toValues? room js = some vs → ∀ v ∈ vs, (ofValue v).depth ≤ room
  | [], _, _, h => by
      cases h
      exact List.forall_mem_nil _
  | j :: js, room, _, h => by
      obtain ⟨v, hv, h⟩ := Option.bind_eq_some_iff.mp h
      obtain ⟨vs, hvs, h⟩ := Option.bind_eq_some_iff.mp h
      cases h
      exact List.forall_mem_cons.mpr
        ⟨depth_of_toValue j room v hv, depth_of_toValues js room vs hvs⟩
termination_by js => sizeOf js

theorem depth_of_toEntries :
    ∀ (js : List Json) (room : Nat) (es : List (Value × Value)),
      toEntries? room js = some es → depthOfItems (ofEntries es) ≤ room
  | js, room, _, h => by
      rw [toEntries?.eq_def] at h
      split at h
      · cases h
        exact Nat.zero_le _
      · split at h
        · cases h
        · obtain ⟨key, hkey, h⟩ := Option.bind_eq_some_iff.mp h
          obtain ⟨item, hitem, h⟩ := Option.bind_eq_some_iff.mp h
          obtain ⟨es, hes, h⟩ := Option.bind_eq_some_iff.mp h
          cases h
          have hpair : depthOfItems [ofValue key, ofValue item] ≤ _ :=
            Nat.max_le.mpr ⟨depth_of_toValue _ _ key hkey, Nat.max_le.mpr
              ⟨depth_of_toValue _ _ item hitem, Nat.zero_le _⟩⟩
          exact Nat.max_le.mpr
            ⟨Nat.succ_le_succ hpair, depth_of_toEntries _ _ es hes⟩
      · cases h
termination_by js => sizeOf js

end

/-! ## Datums -/

/-- A datum that was read with this much room. -/
abbrev FitsDatum (room : Nat) (d : Datum) : Prop :=
  Fits Datum.Keyed ofDatum room d

/-- A form without containers of its own below the payload. -/
theorem fits_scalar {d : Datum} (hkeyed : d.Keyed) {name : String}
    {payload : Json} (hform : ofDatum d = tagged name payload)
    (hpayload : payload.depth ≤ room) : FitsDatum (room + 1) d := by
  refine ⟨hkeyed, ?_⟩
  rw [hform]
  exact depth_tagged hpayload

theorem fits_array {ds : List Datum} (h : ∀ d ∈ ds, FitsDatum room d) :
    FitsDatum (room + 1 + 1) (.array ds) := by
  refine fits_scalar (keyedItems_iff.mpr fun d hd => (h d hd).keyed) rfl ?_
  rw [ofDatums_eq]
  exact Nat.succ_le_succ (depthOfItems_le.mpr
    (List.forall_mem_map.mpr fun d hd => (h d hd).depth))

theorem fits_object {es : List (String × Datum)}
    (h : Shelved (FitsDatum room) es) :
    FitsDatum (room + 1 + 1) (.object es) := by
  have hkeyed : KeyedMembers es :=
    keyedMembers_iff.mpr fun e he => (h.each e he).keyed
  refine fits_scalar ⟨h.sorted, hkeyed⟩ rfl ?_
  rw [ofMembers_eq]
  exact Nat.succ_le_succ (depthOfMembers_le.mpr
    (List.forall_mem_map.mpr fun e he => (h.each e he).depth))

mutual

/-- A datum that is read fits the room it was read with. -/
theorem fits_datum :
    ∀ (j : Json) (room : Nat) (d : Datum), toDatum? room j = some d →
      FitsDatum room d
  | j, room, d, h => by
      rw [toDatum?.eq_def] at h
      split at h
      · cases h
        exact ⟨trivial, Nat.zero_le _⟩
      · split at h
        · cases h
        · split at h
          · cases h
            exact ⟨trivial, Nat.zero_le _⟩
          · cases h
            exact fits_scalar trivial rfl (Nat.zero_le _)
          · obtain ⟨x, -, rfl⟩ := Option.map_eq_some_iff.mp h
            exact fits_scalar trivial rfl (depth_ofBinary64 x)
          · cases h
            exact fits_scalar trivial rfl (Nat.zero_le _)
          · -- Items.
            split at h
            · cases h
            · obtain ⟨ds, hds, rfl⟩ := Option.map_eq_some_iff.mp h
              exact fits_array (fits_datums _ _ ds hds)
          · -- Entries, put in order from none.
            split at h
            · cases h
            · obtain ⟨es, hes, rfl⟩ := Option.map_eq_some_iff.mp h
              exact fits_object (fits_members _ _ [] es shelved_nil hes)
          · cases h
      · cases h
termination_by j => sizeOf j

theorem fits_datums :
    ∀ (js : List Json) (room : Nat) (ds : List Datum),
      toDatums? room js = some ds → ∀ d ∈ ds, FitsDatum room d
  | [], _, _, h => by
      cases h
      exact List.forall_mem_nil _
  | j :: js, room, _, h => by
      obtain ⟨d, hd, h⟩ := Option.bind_eq_some_iff.mp h
      obtain ⟨ds, hds, h⟩ := Option.bind_eq_some_iff.mp h
      cases h
      exact List.forall_mem_cons.mpr
        ⟨fits_datum j room d hd, fits_datums js room ds hds⟩
termination_by js => sizeOf js

theorem fits_members :
    ∀ (ms : List (Text × Json)) (room : Nat)
      (done es : List (String × Datum)), Shelved (FitsDatum room) done →
      toMembers? room ms done = some es → Shelved (FitsDatum room) es
  | [], _, _, _, hdone, h => by
      cases h
      exact hdone
  | (none, _) :: _, _, _, _, _, h => by cases h
  | (some key, j) :: ms, room, done, es, hdone, h => by
      obtain ⟨d, hd, h⟩ := Option.bind_eq_some_iff.mp h
      have hput := shelved_put key hdone (fits_datum j room d hd)
      exact fits_members ms room _ es hput h
termination_by ms => sizeOf ms

end

/-! ## Terms -/

/-- A term that was read with this much room. -/
abbrev FitsTerm (room : Nat) (t : Term) : Prop :=
  Fits Term.Keyed ofTerm room t

/-- Positional arguments that were read with this much room. -/
abbrev FitsArgs (room : Nat) (ts : List Term) : Prop :=
  Fits KeyedArgs (fun ts => .array (ofTerms ts)) room ts

/-- Named arguments that were read with this much room. -/
abbrev FitsNamed (room : Nat) (es : List (String × Term)) : Prop :=
  Fits (fun es => Entries.Sorted es ∧ KeyedNamed es)
    (fun es => .object (ofNamed es)) room es

theorem fits_args {ts : List Term} (h : ∀ t ∈ ts, FitsTerm room t) :
    FitsArgs (room + 1) ts := by
  refine ⟨keyedArgs_iff.mpr fun t ht => (h t ht).keyed, ?_⟩
  rw [ofTerms_eq]
  exact Nat.succ_le_succ (depthOfItems_le.mpr
    (List.forall_mem_map.mpr fun t ht => (h t ht).depth))

theorem fits_named {es : List (String × Term)}
    (h : Shelved (FitsTerm room) es) : FitsNamed (room + 1) es := by
  have hkeyed : KeyedNamed es :=
    keyedNamed_iff.mpr fun e he => (h.each e he).keyed
  refine ⟨⟨h.sorted, hkeyed⟩, ?_⟩
  rw [ofNamed_eq]
  exact Nat.succ_le_succ (depthOfMembers_le.mpr
    (List.forall_mem_map.mpr fun e he => (h.each e he).depth))

theorem fits_apply {kind : Term.Kind} {args : List Term}
    {optargs : List (String × Term)} (hargs : FitsArgs room args)
    (hoptargs : FitsNamed room optargs) :
    FitsTerm (room + 1 + 1) (.apply kind args optargs) := by
  refine ⟨⟨hargs.keyed, hoptargs.keyed⟩, ?_⟩
  rw [ofTerm]
  refine depth_tagged (Nat.succ_le_succ (depthOfMembers_le.mpr ?_))
  refine List.forall_mem_cons.mpr ⟨Nat.zero_le _, ?_⟩
  refine List.forall_mem_cons.mpr ⟨hargs.depth, ?_⟩
  exact List.forall_mem_singleton.mpr hoptargs.depth

/-- Fields read so far. -/
structure Fields.Fit (room : Nat) (f : Fields) : Prop where
  args : ∀ ts ∈ f.args, FitsArgs room ts
  optargs : ∀ es ∈ f.optargs, FitsNamed room es

/-- Once every field is there, they make a term. -/
theorem fits_fields {f : Fields} {t : Term} (h : f.Fit room)
    (ht : f.toTerm? = some t) : FitsTerm (room + 1 + 1) t := by
  obtain ⟨kind, -, ht⟩ := Option.bind_eq_some_iff.mp ht
  obtain ⟨ts, hts, ht⟩ := Option.bind_eq_some_iff.mp ht
  obtain ⟨es, hes, ht⟩ := Option.bind_eq_some_iff.mp ht
  cases ht
  exact fits_apply (h.args ts hts) (h.optargs es hes)

mutual

/-- A term that is read fits the room it was read with. -/
theorem fits_term :
    ∀ (j : Json) (room : Nat) (t : Term), toTerm? room j = some t →
      FitsTerm room t
  | j, room, t, h => by
      rw [toTerm?.eq_def] at h
      split at h
      · split at h
        · cases h
        · split at h
          · obtain ⟨d, hd, rfl⟩ := Option.map_eq_some_iff.mp h
            have hfits := fits_datum _ _ d hd
            exact ⟨hfits.keyed, depth_tagged hfits.depth⟩
          · split at h
            · cases h
            · -- The fields by name.
              exact fits_of_fields _ _ .none t
                ⟨fun _ h => (by cases h), fun _ h => (by cases h)⟩ h
          · split at h
            · cases h
            · cases h
            · -- The fields by position.
              obtain ⟨kind, -, h⟩ := Option.bind_eq_some_iff.mp h
              obtain ⟨ts, hts, h⟩ := Option.bind_eq_some_iff.mp h
              obtain ⟨es, hes, h⟩ := Option.bind_eq_some_iff.mp h
              cases h
              exact fits_apply (fits_args (fits_terms _ _ ts hts))
                (fits_named (fits_optargs _ _ [] es shelved_nil hes))
          · cases h
      · cases h
termination_by j => sizeOf j

theorem fits_terms :
    ∀ (js : List Json) (room : Nat) (ts : List Term),
      toTerms? room js = some ts → ∀ t ∈ ts, FitsTerm room t
  | [], _, _, h => by
      cases h
      exact List.forall_mem_nil _
  | j :: js, room, _, h => by
      obtain ⟨t, ht, h⟩ := Option.bind_eq_some_iff.mp h
      obtain ⟨ts, hts, h⟩ := Option.bind_eq_some_iff.mp h
      cases h
      exact List.forall_mem_cons.mpr
        ⟨fits_term j room t ht, fits_terms js room ts hts⟩
termination_by js => sizeOf js

theorem fits_optargs :
    ∀ (ms : List (Text × Json)) (room : Nat)
      (done es : List (String × Term)), Shelved (FitsTerm room) done →
      toNamed? room ms done = some es → Shelved (FitsTerm room) es
  | [], _, _, _, hdone, h => by
      cases h
      exact hdone
  | (none, _) :: _, _, _, _, _, h => by cases h
  | (some name, j) :: ms, room, done, es, hdone, h => by
      obtain ⟨t, ht, h⟩ := Option.bind_eq_some_iff.mp h
      have hput := shelved_put name hdone (fits_term j room t ht)
      exact fits_optargs ms room _ es hput h
termination_by ms => sizeOf ms

theorem fits_of_fields :
    ∀ (ms : List (Text × Json)) (room : Nat) (f : Fields) (t : Term),
      f.Fit room → toFields? room ms f = some t →
        FitsTerm (room + 1 + 1) t
  | ms, room, f, t, hf, h => by
      rw [toFields?.eq_def] at h
      split at h
      · exact fits_fields hf h
      · split at h
        · cases h
        · obtain ⟨kind, -, h⟩ := Option.bind_eq_some_iff.mp h
          refine fits_of_fields _ _ _ t ?_ h
          exact ⟨hf.args, hf.optargs⟩
      · split at h
        · cases h
        · split at h
          · cases h
          · obtain ⟨ts, hts, h⟩ := Option.bind_eq_some_iff.mp h
            have hargs := fits_args (fits_terms _ _ ts hts)
            refine fits_of_fields _ _ _ t ?_ h
            refine ⟨?_, hf.optargs⟩
            rintro _ ⟨⟩
            exact hargs
      · cases h
      · split at h
        · cases h
        · split at h
          · cases h
          · obtain ⟨es, hes, h⟩ := Option.bind_eq_some_iff.mp h
            have hnamed :=
              fits_named (fits_optargs _ _ [] es shelved_nil hes)
            refine fits_of_fields _ _ _ t ?_ h
            refine ⟨hf.args, ?_⟩
            rintro _ ⟨⟩
            exact hnamed
      · cases h
      · -- A field of another name is left out.
        exact fits_of_fields _ _ f t hf h
      · cases h
termination_by ms => sizeOf ms

end

end Tagged

/-! ## Texts -/

/-- **What was read once is read again.**  Readers are lenient: entries
    may come in any order and more than once, fields that mean nothing are
    left out, and blanks may stand between all parts.  But whatever a text
    is read as lies within the nesting limit, and has the entries of its
    objects and its named arguments in key order, each once; so it is read
    again, as the same, from the text that it is written as, when the texts
    that are printed for its numbers read back. -/
theorem text_reread (text : String) :
    (∀ v, Tagged.valueOfText? text = some v →
      (Tagged.ofValue v).depth ≤ Tagged.nestingLimit ∧
      ((∀ x ∈ v.floats, x.ReadsBack) →
        Tagged.valueOfText? (Tagged.valueText v) = some v)) ∧
    (∀ d, Tagged.datumOfText? text = some d →
      d.Keyed ∧ (Tagged.ofDatum d).depth ≤ Tagged.nestingLimit ∧
      ((∀ x ∈ d.floats, x.ReadsBack) →
        Tagged.datumOfText? (Tagged.datumText d) = some d)) ∧
    ∀ t, Tagged.termOfText? text = some t →
      t.Keyed ∧ (Tagged.ofTerm t).depth ≤ Tagged.nestingLimit ∧
      ((∀ x ∈ t.floats, x.ReadsBack) →
        Tagged.termOfText? (Tagged.termText t) = some t) := by
  refine ⟨?_, ?_, ?_⟩
  · intro v h
    obtain ⟨j, -, hj⟩ := Option.bind_eq_some_iff.mp h
    have hdepth := Tagged.depth_of_toValue j _ v hj
    refine ⟨hdepth, fun hfloats => ?_⟩
    exact Tagged.text_of_returns (Tagged.returns_value v hfloats) hdepth
  · intro d h
    obtain ⟨j, -, hj⟩ := Option.bind_eq_some_iff.mp h
    obtain ⟨hkeyed, hdepth⟩ := Tagged.fits_datum j _ d hj
    refine ⟨hkeyed, hdepth, fun hfloats => ?_⟩
    exact Tagged.text_of_returns (Tagged.returns_datum d hkeyed hfloats)
      hdepth
  · intro t h
    obtain ⟨j, -, hj⟩ := Option.bind_eq_some_iff.mp h
    obtain ⟨hkeyed, hdepth⟩ := Tagged.fits_term j _ t hj
    refine ⟨hkeyed, hdepth, fun hfloats => ?_⟩
    exact Tagged.text_of_returns (Tagged.returns_term t hkeyed hfloats)
      hdepth

/-- The fields of a table in no order, with one that means nothing; its
    names out of order, and one of them twice. -/
theorem text_reread_unordered :
    let leaf (payload : Json) : Json := Tagged.tagged "Datum" payload
    let j : Json := Tagged.tagged "Apply" (.object
      [(some "note", .null),
        (some "optargs", .object
          [(some "b", leaf (Tagged.bare "Null")),
            (some "a", leaf (Tagged.tagged "String" (.string (some "x")))),
            (some "b", leaf (Tagged.tagged "Bool" (.bool true)))]),
        (some "args", .array []),
        (some "kind", Tagged.bare "Table")])
    let t : Term := .apply .table []
      [("a", .datum (.string "x")), ("b", .datum (.bool true))]
    Tagged.termOfText? j.toText = some t ∧ t.Keyed ∧
      Tagged.termText t ≠ j.toText ∧
      Tagged.termOfText? (Tagged.termText t) = some t := by
  intro leaf j t
  have hplain : j.Plain := by
    simp [j, leaf, Plain, PlainItems, PlainMembers, Tagged.tagged,
      Tagged.bare]
  have hread : Tagged.termOfText? j.toText = some t := by
    rw [Tagged.termOfText?, ofText_toText hplain]
    rfl
  obtain ⟨-, -, hterm⟩ := text_reread j.toText
  obtain ⟨hkeyed, -, hagain⟩ := hterm t hread
  exact ⟨hread, hkeyed, by decide +kernel, hagain (by decide +kernel)⟩

end ChainQuery
