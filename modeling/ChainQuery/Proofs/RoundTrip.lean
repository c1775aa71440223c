import ChainQuery.Proofs.JsonText
import ChainQuery.Proofs.KeyOrder
import ChainQuery.Tagged

/-! # Round trip — what is written in tagged form is read again

    A value, a datum or a term is found again from its text.  The route:

    * integers are written in full, so they are read exactly, each in its
      own range (`toInt64_ofInt`, `toUInt64_ofNat`, `toUInt8_ofNat`);
    * a number whose text reads back is written by the grammar
      (`number_of_readsBack`);
    * `Tagged.Returns` says that a document can be written and that a
      reader with room for its containers gets something from it; it
      passes through payloads, items, entries and fields, so every form
      returns what it was made from (`returns_value`, `returns_datum`,
      `returns_term`). -/

namespace ChainQuery

open Json

/-! ## Integers -/

namespace Json.Number

theorem valueOf_digits (n : Nat) : valueOf (digits n) = n :=
  Nat.ofDigitChars_ten_toDigits

theorem digits_rows (n : Nat) : Digits (digits n) := fun _ hc =>
  Nat.isDigit_of_mem_toDigits (by decide) (by decide) hc

/-- No zero leads the digits of a natural number. -/
theorem leading_digits (n : Nat) :
    ∀ ds, digits n = '0' :: ds → ds = [] := by
  induction n using Nat.strongRecOn with
  | ind n ih =>
      intro ds hds
      by_cases hn : n < 10
      · rw [digits, Nat.toDigits_of_lt_base hn] at hds
        exact (List.cons.inj hds).2.symm
      · have hsplit : digits n = digits (n / 10) ++ [(n % 10).digitChar] :=
          Nat.toDigits_of_base_le (by decide) (Nat.le_of_not_lt hn)
        have hrest := ih (n / 10) (by omega)
        cases hfirst : digits (n / 10) with
        | nil => exact absurd hfirst Nat.toDigits_ne_nil
        | cons d es =>
            rw [hsplit, hfirst] at hds
            obtain ⟨rfl, -⟩ := List.cons.inj hds
            -- A zero alone would be all of the digits before the last.
            have hvalue := valueOf_digits (n / 10)
            rw [hfirst, hrest es hfirst] at hvalue
            replace hvalue : 0 = n / 10 := hvalue
            omega

/-- An integer is written by the grammar. -/
theorem grammatical_ofInt (i : Int) : (ofInt i).Grammatical where
  whole := digits_rows _
  fraction := List.forall_mem_nil _
  exponent _ he := by cases he
  nonempty := Nat.toDigits_ne_nil
  leading := leading_digits _

/-- An integer is read exactly. -/
theorem toInt_ofInt (i : Int) : (ofInt i).toInt? = some i := by
  show (if decide (i < 0) = true then
      if valueOf (digits i.natAbs) = 0 then none
      else some (-(valueOf (digits i.natAbs) : Int))
    else some (valueOf (digits i.natAbs) : Int)) = some i
  rw [valueOf_digits]
  by_cases hi : i < 0
  · rw [if_pos (decide_eq_true hi),
      if_neg (Int.natAbs_ne_zero.mpr (Int.ne_of_lt hi))]
    congr 1
    omega
  · rw [if_neg fun h => hi (of_decide_eq_true h)]
    congr 1
    omega

theorem toInt64_ofInt (i : Int64) : (ofInt i.toInt).toInt64? = some i := by
  rw [toInt64?, toInt_ofInt, Option.bind_some,
    if_pos ⟨i.le_toInt, i.toInt_lt⟩, Int64.ofInt_toInt]

theorem toUInt64_ofNat (n : UInt64) :
    (ofInt n.toNat).toUInt64? = some n := by
  have hlt := n.toNat_lt
  rw [toUInt64?, toInt_ofInt, Option.bind_some, if_pos (by omega),
    Int.toNat_natCast, UInt64.ofNat_toNat]

theorem toUInt8_ofNat (b : UInt8) : (ofInt b.toNat).toUInt8? = some b := by
  have hlt := b.toNat_lt
  rw [toUInt8?, toInt_ofInt, Option.bind_some, if_pos (by omega),
    Int.toNat_natCast, UInt8.ofNat_toNat]

/-! ## Other numbers -/

theorem digits_zeros (n : Nat) : Digits (List.replicate n '0') := by
  intro c hc
  rw [List.eq_of_mem_replicate hc]
  rfl

theorem digits_append {ds es : List Char} (h : Digits ds)
    (h' : Digits es) : Digits (ds ++ es) :=
  List.forall_mem_append.mpr ⟨h, h'⟩

theorem digits_dropTrailingZeros {ds : List Char} (h : Digits ds) :
    Digits (dropTrailingZeros ds) := by
  intro c hc
  have hmem := (List.dropWhile_sublist _).subset (List.mem_reverse.mp hc)
  exact h c (List.mem_reverse.mp hmem)

/-- Wherever the point is put, rows of digits are left on both sides. -/
theorem rows_ofDigits {ds : List Char} (h : Digits ds) (negative : Bool)
    (point : Int) : (ofDigits negative ds point).Rows := by
  have hnone : ∀ e ∈ (none : Option (Bool × List Char)),
      Digits e.2 ∧ e.2 ≠ [] := fun _ he => by cases he
  have hzero : Digits ['0'] := digits_zeros 1
  rw [ofDigits]
  split
  · exact ⟨digits_append h (digits_zeros _), hzero, hnone⟩
  split
  · exact ⟨fun c hc => h c (List.mem_of_mem_take hc),
      fun c hc => h c (List.mem_of_mem_drop hc), hnone⟩
  split
  · exact ⟨hzero, digits_append (digits_zeros _) h, hnone⟩
  · refine ⟨fun c hc => h c (List.mem_of_mem_take hc),
      fun c hc => h c (List.mem_of_mem_drop hc), ?_⟩
    rintro e he
    cases he
    exact ⟨digits_rows _, Nat.toDigits_ne_nil⟩

/-- Numbers are written as rows of digits. -/
theorem rows_ofBinary64 (x : Binary64) : (ofBinary64 x).Rows := by
  rw [ofBinary64]
  split
  · exact ⟨digits_zeros 1, digits_zeros 1, fun _ he => by cases he⟩
  · exact rows_ofDigits (digits_dropTrailingZeros (digits_rows _)) _ _

end Json.Number

/-- The text that is printed for a number reads back as it. -/
def Binary64.ReadsBack (x : Binary64) : Prop :=
  (ofText? (Tagged.ofBinary64 x).toText).bind Tagged.toBinary64? = some x

instance (x : Binary64) : Decidable x.ReadsBack :=
  inferInstanceAs (Decidable (_ = _))

/-- A number whose text reads back is finite, and written by the
    grammar. -/
theorem number_of_readsBack {x : Binary64} (h : x.ReadsBack) :
    ∃ n, Tagged.ofBinary64 x = .number n ∧ (Json.number n).Plain ∧
      n.toBinary64? = some x := by
  obtain ⟨j, hj, hx⟩ := Option.bind_eq_some_iff.mp h
  by_cases hfinite : x.isFinite = true
  · have hform : Tagged.ofBinary64 x = .number (.ofBinary64 x) :=
      if_pos hfinite
    rw [hform] at hj
    have hplain : (Json.number (.ofBinary64 x)).Plain :=
      grammatical_of_ofText (Number.rows_ofBinary64 x) hj
    rw [ofText_toText hplain] at hj
    cases hj
    exact ⟨_, hform, hplain, hx⟩
  · -- What is not finite is written as null.
    have hform : Tagged.ofBinary64 x = .null := if_neg hfinite
    rw [hform] at hj
    cases hj
    cases hx

/-! ## Documents that return -/

namespace Json

mutual

/-- How deep containers lie inside one another. -/
def depth : Json → Nat
  | .array items => depthOfItems items + 1
  | .object members => depthOfMembers members + 1
  | .null => 0
  | .bool _ => 0
  | .number _ => 0
  | .string _ => 0
termination_by structural j => j

/-- How deep containers lie in items. -/
def depthOfItems : List Json → Nat
  | [] => 0
  | j :: js => max (depth j) (depthOfItems js)
termination_by structural js => js

/-- How deep containers lie in members. -/
def depthOfMembers : List (Text × Json) → Nat
  | [] => 0
  | (_, j) :: rest => max (depth j) (depthOfMembers rest)
termination_by structural members => members

end

end Json

namespace Tagged

/-- A document has a written form, and given room for its containers a
    reader gets something from it. -/
structure Returns {α : Type} (read : Nat → Json → Option α) (j : Json)
    (a : α) : Prop where
  plain : j.Plain
  read : ∀ room, j.depth ≤ room → read room j = some a

variable {α : Type} {read : Nat → Json → Option α}

/-- What a document returns is read from its text. -/
theorem text_of_returns {j : Json} {a : α} (h : Returns read j a)
    (hdepth : j.depth ≤ nestingLimit) :
    (ofText? j.toText).bind (read nestingLimit) = some a := by
  rw [ofText_toText h.plain, Option.bind_some, h.read _ hdepth]

/-- A form with a payload returns what is read from the payload one
    container further in. -/
theorem returns_tagged {name : String} {payload : Json} {a : α}
    (hplain : payload.Plain)
    (h : ∀ room, payload.depth ≤ room →
      read (room + 1) (tagged name payload) = some a) :
    Returns read (tagged name payload) a where
  plain := ⟨rfl, hplain, trivial⟩
  read room hroom := by
    replace hroom : max payload.depth 0 + 1 ≤ room := hroom
    obtain ⟨room, rfl, hinner⟩ := exists_succ hroom
    exact h room (Nat.max_le.mp hinner).1

variable {β : Type} {name : String} {payload : Json} {b : β}

/-- A payload that is read wherever it stands. -/
theorem returns_scalar (f : β → α) {r : Option β} (hplain : payload.Plain)
    (hread : r = some b)
    (hform : ∀ room, read (room + 1) (tagged name payload) = r.map f) :
    Returns read (tagged name payload) (f b) := by
  refine returns_tagged hplain fun room _ => ?_
  rw [hform, hread, Option.map_some]

/-- A payload that is a container, with what is read from the inside of
    it. -/
theorem returns_container (f : β → α) {n : Nat} {inside : Nat → Option β}
    (hplain : payload.Plain) (hdepth : payload.depth = n + 1)
    (hread : ∀ room, n ≤ room → inside room = some b)
    (hform : ∀ room,
      read (room + 2) (tagged name payload) = (inside room).map f) :
    Returns read (tagged name payload) (f b) := by
  refine returns_tagged hplain fun room hroom => ?_
  rw [hdepth] at hroom
  obtain ⟨room, rfl, hinner⟩ := exists_succ hroom
  rw [hform, hread room hinner, Option.map_some]

section Sequences

variable {write : α → Json}

/-- Items that return are read one after another. -/
theorem returns_all (readAll : Nat → List Json → Option (List α))
    (hnil : ∀ room, readAll room [] = some [])
    (hcons : ∀ room j js, readAll room (j :: js)
      = (read room j).bind fun a =>
          (readAll room js).bind fun as => some (a :: as))
    {as : List α} (h : ∀ a ∈ as, Returns read (write a) a) :
    (Json.array (as.map write)).Plain ∧
      ∀ room, depthOfItems (as.map write) ≤ room →
        readAll room (as.map write) = some as := by
  induction as with
  | nil => exact ⟨trivial, fun room _ => hnil room⟩
  | cons a as ih =>
      obtain ⟨ha, has⟩ := List.forall_mem_cons.mp h
      obtain ⟨hplain, hread⟩ := ih has
      refine ⟨⟨ha.plain, hplain⟩, fun room hroom => ?_⟩
      obtain ⟨hfirst, hrest⟩ := Nat.max_le.mp hroom
      rw [List.map_cons, hcons, ha.read room hfirst, Option.bind_some,
        hread room hrest]
      rfl

/-- Entries in key order are read one after another, each put after those
    before it. -/
theorem returns_named
    (readNamed : Nat → List (Text × Json) → List (String × α) →
      Option (List (String × α)))
    (hnil : ∀ room done, readNamed room [] done = some done)
    (hcons : ∀ room key j rest done,
      readNamed room ((some key, j) :: rest) done
        = (read room j).bind fun a =>
            readNamed room rest (Entries.put key a done))
    {entries : List (String × α)}
    (h : ∀ e ∈ entries, Returns read (write e.2) e.2)
    (done : List (String × α)) (hsorted : Entries.Sorted (done ++ entries)) :
    (Json.object (entries.map fun e => (some e.1, write e.2))).Plain ∧
      ∀ room, depthOfMembers (entries.map fun e =>
          (some e.1, write e.2)) ≤ room →
        readNamed room (entries.map fun e => (some e.1, write e.2)) done
          = some (done ++ entries) := by
  induction entries generalizing done with
  | nil =>
      refine ⟨trivial, fun room _ => ?_⟩
      rw [List.map_nil, hnil, List.append_nil]
  | cons e rest ih =>
      obtain ⟨key, a⟩ := e
      obtain ⟨ha, hrest⟩ := List.forall_mem_cons.mp h
      -- Keys in order: the next entry is put last.
      have hlast : ∀ e ∈ done, KeyBefore e.1 key := fun e he =>
        (List.pairwise_append.mp hsorted).2.2 e he _ List.mem_cons_self
      have hput := Entries.put_last a hlast
      rw [List.append_cons] at hsorted
      obtain ⟨hplain, hread⟩ := ih hrest _ hsorted
      refine ⟨⟨rfl, ha.plain, hplain⟩, fun room hroom => ?_⟩
      obtain ⟨hfirst, hothers⟩ := Nat.max_le.mp hroom
      rw [List.map_cons, hcons, ha.read room hfirst, Option.bind_some, hput,
        hread room hothers, ← List.append_cons]

end Sequences

end Tagged

/-! ## Values -/

mutual

/-- The floating numbers in a value, those in keys too. -/
def Value.floats : Value → List Binary64
  | .float x => [x]
  | .list items => floatsOfItems items
  | .map entries => floatsOfEntries entries
  | .null => []
  | .bool _ => []
  | .int _ => []
  | .uint _ => []
  | .text _ => []
  | .blob _ => []
termination_by structural v => v

/-- The floating numbers in list items. -/
def floatsOfItems : List Value → List Binary64
  | [] => []
  | v :: vs => Value.floats v ++ floatsOfItems vs
termination_by structural vs => vs

/-- The floating numbers in map entries. -/
def floatsOfEntries : List (Value × Value) → List Binary64
  | [] => []
  | (key, item) :: rest =>
      Value.floats key ++ Value.floats item ++ floatsOfEntries rest
termination_by structural entries => entries

end

namespace Tagged

theorem ofValues_eq (vs : List Value) : ofValues vs = vs.map ofValue := by
  induction vs with
  | nil => rfl
  | cons v vs ih => rw [ofValues, ih, List.map_cons]

theorem plain_ofInt (i : Int) : (ofInt i).Plain :=
  Number.grammatical_ofInt i

/-- Bytes are read as they were written. -/
theorem bytes_read (bytes : List UInt8) :
    (Json.array (bytes.map fun b => ofInt b.toNat)).Plain ∧
      (bytes.map fun b => ofInt b.toNat).mapM toByte? = some bytes := by
  induction bytes with
  | nil => exact ⟨trivial, rfl⟩
  | cons b bytes ih =>
      obtain ⟨hplain, hread⟩ := ih
      refine ⟨⟨plain_ofInt _, hplain⟩, ?_⟩
      have hbyte : toByte? (ofInt b.toNat) = some b :=
        Number.toUInt8_ofNat b
      rw [List.map_cons, List.mapM_cons, hbyte, hread]
      rfl

/-- What a value is read from. -/
abbrev ValueReturns (v : Value) : Prop :=
  Returns toValue? (ofValue v) v

theorem returns_float {x : Binary64} (h : x.ReadsBack) :
    ValueReturns (.float x) := by
  obtain ⟨n, hform, hplain, hread⟩ := number_of_readsBack h
  rw [ValueReturns, ofValue, hform]
  exact returns_scalar Value.float hplain hread fun _ => rfl

theorem returns_int (i : Int64) : ValueReturns (.int i) :=
  returns_scalar Value.int (plain_ofInt _) (Number.toInt64_ofInt i)
    fun _ => rfl

theorem returns_uint (n : UInt64) : ValueReturns (.uint n) :=
  returns_scalar Value.uint (plain_ofInt _) (Number.toUInt64_ofNat n)
    fun _ => rfl

theorem returns_blob (bytes : List UInt8) : ValueReturns (.blob bytes) := by
  obtain ⟨hplain, hread⟩ := bytes_read bytes
  exact returns_container Value.blob hplain rfl (fun _ _ => hread) fun _ => rfl

theorem returns_list {items : List Value}
    (h : ∀ v ∈ items, ValueReturns v) : ValueReturns (.list items) := by
  obtain ⟨hplain, hread⟩ := returns_all toValues?
    (fun _ => rfl) (fun _ _ _ => rfl) h
  rw [ValueReturns, ofValue, ofValues_eq]
  exact returns_container Value.list hplain rfl hread fun _ => rfl

/-- Entries are read as pairs, each in a container of its own. -/
theorem returns_pairs {entries : List (Value × Value)}
    (h : ∀ e ∈ entries, ValueReturns e.1 ∧ ValueReturns e.2) :
    (Json.array (ofEntries entries)).Plain ∧
      ∀ room, depthOfItems (ofEntries entries) ≤ room →
        toEntries? room (ofEntries entries) = some entries := by
  induction entries with
  | nil => exact ⟨trivial, fun _ _ => rfl⟩
  | cons e rest ih =>
      obtain ⟨key, item⟩ := e
      obtain ⟨⟨hkey, hitem⟩, hrest⟩ := List.forall_mem_cons.mp h
      obtain ⟨hplain, hread⟩ := ih hrest
      refine ⟨⟨⟨hkey.plain, hitem.plain, trivial⟩, hplain⟩, ?_⟩
      intro room hroom
      obtain ⟨hpair, hothers⟩ := Nat.max_le.mp hroom
      obtain ⟨room, rfl, hinner⟩ := exists_succ hpair
      obtain ⟨hfirst, hsecond⟩ := Nat.max_le.mp hinner
      show (toValue? room _).bind _ = _
      rw [hkey.read room hfirst]
      show (toValue? room _).bind _ = _
      rw [hitem.read room (Nat.max_le.mp hsecond).1]
      show (toEntries? (room + 1) _).bind _ = _
      rw [hread _ hothers]
      rfl

theorem returns_map {entries : List (Value × Value)}
    (h : ∀ e ∈ entries, ValueReturns e.1 ∧ ValueReturns e.2) :
    ValueReturns (.map entries) := by
  obtain ⟨hplain, hread⟩ := returns_pairs h
  exact returns_container Value.map hplain rfl hread fun _ => rfl

mutual

/-- A value whose numbers read back is read from what it is written as. -/
theorem returns_value :
    ∀ v : Value, (∀ x ∈ v.floats, x.ReadsBack) → ValueReturns v
  | .null => fun _ => ⟨rfl, fun _ _ => rfl⟩
  | .bool _ => fun _ => returns_tagged trivial fun _ _ => rfl
  | .int i => fun _ => returns_int i
  | .uint n => fun _ => returns_uint n
  | .float _ => fun h => returns_float (List.forall_mem_singleton.mp h)
  | .text _ => fun _ => returns_tagged rfl fun _ _ => rfl
  | .blob bytes => fun _ => returns_blob bytes
  | .list items => fun h => returns_list (returns_items items h)
  | .map entries => fun h => returns_map (returns_entries entries h)
termination_by structural v => v

/-- Items whose numbers read back. -/
theorem returns_items :
    ∀ vs : List Value, (∀ x ∈ floatsOfItems vs, x.ReadsBack) →
      ∀ v ∈ vs, ValueReturns v
  | [] => fun _ => List.forall_mem_nil _
  | v :: vs => fun h => by
      obtain ⟨hv, hvs⟩ := List.forall_mem_append.mp h
      exact List.forall_mem_cons.mpr
        ⟨returns_value v hv, returns_items vs hvs⟩
termination_by structural vs => vs

/-- Entries whose numbers read back. -/
theorem returns_entries :
    ∀ es : List (Value × Value), (∀ x ∈ floatsOfEntries es, x.ReadsBack) →
      ∀ e ∈ es, ValueReturns e.1 ∧ ValueReturns e.2
  | [] => fun _ => List.forall_mem_nil _
  | (key, item) :: rest => fun h => by
      obtain ⟨hfirst, hrest⟩ := List.forall_mem_append.mp h
      obtain ⟨hkey, hitem⟩ := List.forall_mem_append.mp hfirst
      exact List.forall_mem_cons.mpr
        ⟨⟨returns_value key hkey, returns_value item hitem⟩,
          returns_entries rest hrest⟩
termination_by structural es => es

end

end Tagged

/-! ## Datums -/

mutual

/-- The numbers in a datum. -/
def Datum.floats : Datum → List Binary64
  | .number x => [x]
  | .array items => floatsOfDatums items
  | .object entries => floatsOfMembers entries
  | .null => []
  | .bool _ => []
  | .string _ => []
termination_by structural d => d

/-- The numbers in array items. -/
def floatsOfDatums : List Datum → List Binary64
  | [] => []
  | d :: ds => Datum.floats d ++ floatsOfDatums ds
termination_by structural ds => ds

/-- The numbers in object entries. -/
def floatsOfMembers : List (String × Datum) → List Binary64
  | [] => []
  | (_, d) :: rest => Datum.floats d ++ floatsOfMembers rest
termination_by structural entries => entries

end

mutual

/-- At every depth, object entries have their keys in order and each key
    once. -/
def Datum.Keyed : Datum → Prop
  | .object entries => Entries.Sorted entries ∧ KeyedMembers entries
  | .array items => KeyedItems items
  | .null => True
  | .bool _ => True
  | .number _ => True
  | .string _ => True
termination_by structural d => d

/-- Array items are keyed. -/
def KeyedItems : List Datum → Prop
  | [] => True
  | d :: ds => Datum.Keyed d ∧ KeyedItems ds
termination_by structural ds => ds

/-- Object entries are keyed. -/
def KeyedMembers : List (String × Datum) → Prop
  | [] => True
  | (_, d) :: rest => Datum.Keyed d ∧ KeyedMembers rest
termination_by structural entries => entries

end

namespace Tagged

theorem ofDatums_eq (ds : List Datum) : ofDatums ds = ds.map ofDatum := by
  induction ds with
  | nil => rfl
  | cons d ds ih => rw [ofDatums, ih, List.map_cons]

theorem ofMembers_eq (es : List (String × Datum)) :
    ofMembers es = es.map fun e => (some e.1, ofDatum e.2) := by
  induction es with
  | nil => rfl
  | cons e es ih => rw [ofMembers, ih, List.map_cons]

/-- What a datum is read from. -/
abbrev DatumReturns (d : Datum) : Prop :=
  Returns toDatum? (ofDatum d) d

theorem returns_number {x : Binary64} (h : x.ReadsBack) :
    DatumReturns (.number x) := by
  obtain ⟨n, hform, hplain, hread⟩ := number_of_readsBack h
  rw [DatumReturns, ofDatum, hform]
  exact returns_scalar Datum.number hplain hread fun _ => rfl

theorem returns_array {items : List Datum}
    (h : ∀ d ∈ items, DatumReturns d) : DatumReturns (.array items) := by
  obtain ⟨hplain, hread⟩ := returns_all toDatums?
    (fun _ => rfl) (fun _ _ _ => rfl) h
  rw [DatumReturns, ofDatum, ofDatums_eq]
  exact returns_container Datum.array hplain rfl hread fun _ => rfl

theorem returns_object {entries : List (String × Datum)}
    (hsorted : Entries.Sorted entries)
    (h : ∀ e ∈ entries, DatumReturns e.2) :
    DatumReturns (.object entries) := by
  obtain ⟨hplain, hread⟩ := returns_named toMembers?
    (fun _ _ => rfl) (fun _ _ _ _ _ => rfl) h [] hsorted
  rw [DatumReturns, ofDatum, ofMembers_eq]
  exact returns_container Datum.object hplain rfl hread fun _ => rfl

mutual

/-- A datum whose numbers read back is read from what it is written
    as. -/
theorem returns_datum :
    ∀ d : Datum, d.Keyed → (∀ x ∈ d.floats, x.ReadsBack) →
      DatumReturns d
  | .null => fun _ _ => ⟨rfl, fun _ _ => rfl⟩
  | .bool _ => fun _ _ => returns_tagged trivial fun _ _ => rfl
  | .number _ => fun _ h => returns_number (List.forall_mem_singleton.mp h)
  | .string _ => fun _ _ => returns_tagged rfl fun _ _ => rfl
  | .array items => fun hkeyed h =>
      returns_array (returns_datums items hkeyed h)
  | .object entries => fun hkeyed h =>
      returns_object hkeyed.1 (returns_members entries hkeyed.2 h)
termination_by structural d => d

/-- Array items whose numbers read back. -/
theorem returns_datums :
    ∀ ds : List Datum, KeyedItems ds →
      (∀ x ∈ floatsOfDatums ds, x.ReadsBack) → ∀ d ∈ ds, DatumReturns d
  | [] => fun _ _ => List.forall_mem_nil _
  | d :: ds => fun hkeyed h => by
      obtain ⟨hd, hds⟩ := List.forall_mem_append.mp h
      exact List.forall_mem_cons.mpr
        ⟨returns_datum d hkeyed.1 hd, returns_datums ds hkeyed.2 hds⟩
termination_by structural ds => ds

/-- Object entries whose numbers read back. -/
theorem returns_members :
    ∀ es : List (String × Datum), KeyedMembers es →
      (∀ x ∈ floatsOfMembers es, x.ReadsBack) →
        ∀ e ∈ es, DatumReturns e.2
  | [] => fun _ _ => List.forall_mem_nil _
  | (_, d) :: rest => fun hkeyed h => by
      obtain ⟨hd, hrest⟩ := List.forall_mem_append.mp h
      exact List.forall_mem_cons.mpr
        ⟨returns_datum d hkeyed.1 hd, returns_members rest hkeyed.2 hrest⟩
termination_by structural es => es

end

end Tagged

/-! ## Terms -/

mutual

/-- The numbers in the leaves of a term. -/
def Term.floats : Term → List Binary64
  | .datum d => d.floats
  | .apply _ args optargs => floatsOfArgs args ++ floatsOfNamed optargs
termination_by structural t => t

/-- The numbers in positional arguments. -/
def floatsOfArgs : List Term → List Binary64
  | [] => []
  | t :: ts => Term.floats t ++ floatsOfArgs ts
termination_by structural ts => ts

/-- The numbers in named arguments. -/
def floatsOfNamed : List (String × Term) → List Binary64
  | [] => []
  | (_, t) :: rest => Term.floats t ++ floatsOfNamed rest
termination_by structural optargs => optargs

end

mutual

/-- At every depth, named arguments and object entries have their names in
    order and each name once. -/
def Term.Keyed : Term → Prop
  | .datum d => d.Keyed
  | .apply _ args optargs =>
      KeyedArgs args ∧ Entries.Sorted optargs ∧ KeyedNamed optargs
termination_by structural t => t

/-- Positional arguments are keyed. -/
def KeyedArgs : List Term → Prop
  | [] => True
  | t :: ts => Term.Keyed t ∧ KeyedArgs ts
termination_by structural ts => ts

/-- Named arguments are keyed. -/
def KeyedNamed : List (String × Term) → Prop
  | [] => True
  | (_, t) :: rest => Term.Keyed t ∧ KeyedNamed rest
termination_by structural optargs => optargs

end

/-- Every kind is found by its name. -/
theorem Term.Kind.ofName_name (kind : Kind) :
    ofName? kind.name = some kind := by
  have hall : ∀ kind ∈ all, ofName? kind.name = some kind := by
    decide +kernel
  exact hall kind (List.mem_of_find?_eq_some (Canonical.find_tag kind))

namespace Tagged

theorem ofTerms_eq (ts : List Term) : ofTerms ts = ts.map ofTerm := by
  induction ts with
  | nil => rfl
  | cons t ts ih => rw [ofTerms, ih, List.map_cons]

theorem ofNamed_eq (es : List (String × Term)) :
    ofNamed es = es.map fun e => (some e.1, ofTerm e.2) := by
  induction es with
  | nil => rfl
  | cons e es ih => rw [ofNamed, ih, List.map_cons]

/-- What a term is read from. -/
abbrev TermReturns (t : Term) : Prop :=
  Returns toTerm? (ofTerm t) t

theorem returns_leaf {d : Datum} (h : DatumReturns d) :
    TermReturns (.datum d) := by
  refine returns_tagged h.plain fun room hroom => ?_
  show (toDatum? room _).map Term.datum = _
  rw [h.read room hroom]
  rfl

/-- A kind is read from its name. -/
theorem kind_read (room : Nat) (kind : Term.Kind) :
    toKind? room (bare kind.name) = some kind := by
  have hname : bareName? room (bare kind.name) = some kind.name := by
    cases room <;> rfl
  rw [toKind?, hname, Option.bind_some, Term.Kind.ofName_name]

/-- An operation is read field by field. -/
theorem returns_apply {kind : Term.Kind} {args : List Term}
    {optargs : List (String × Term)} (hsorted : Entries.Sorted optargs)
    (hargs : ∀ t ∈ args, TermReturns t)
    (hoptargs : ∀ e ∈ optargs, TermReturns e.2) :
    TermReturns (.apply kind args optargs) := by
  obtain ⟨hplain, hread⟩ := returns_all toTerms?
    (fun _ => rfl) (fun _ _ _ => rfl) hargs
  obtain ⟨hplainNamed, hreadNamed⟩ := returns_named toNamed?
    (fun _ _ => rfl) (fun _ _ _ _ _ => rfl) hoptargs [] hsorted
  rw [TermReturns, ofTerm, ofTerms_eq, ofNamed_eq]
  refine returns_tagged ⟨rfl, rfl, rfl, hplain, rfl, hplainNamed, trivial⟩
    fun room hroom => ?_
  -- The fields are in one container, each list of them in another.
  obtain ⟨room, rfl, hinner⟩ := exists_succ hroom
  obtain ⟨-, hfields⟩ := Nat.max_le.mp hinner
  obtain ⟨hfirst, hrest⟩ := Nat.max_le.mp hfields
  obtain ⟨room, rfl, hitems⟩ := exists_succ hfirst
  have hnamed := Nat.le_of_succ_le_succ (Nat.max_le.mp hrest).1
  show (toKind? (room + 1) _).bind _ = _
  rw [kind_read]
  show (toTerms? room _).bind _ = _
  rw [hread room hitems]
  show (toNamed? room _ []).bind _ = _
  rw [hreadNamed room hnamed]
  rfl

mutual

/-- A term whose numbers read back is read from what it is written as. -/
theorem returns_term :
    ∀ t : Term, t.Keyed → (∀ x ∈ t.floats, x.ReadsBack) → TermReturns t
  | .datum d => fun hkeyed h => returns_leaf (returns_datum d hkeyed h)
  | .apply _ args optargs => fun ⟨hargs, hsorted, hoptargs⟩ h => by
      obtain ⟨hfirst, hrest⟩ := List.forall_mem_append.mp h
      exact returns_apply hsorted (returns_args args hargs hfirst)
        (returns_optargs optargs hoptargs hrest)
termination_by structural t => t

/-- Positional arguments whose numbers read back. -/
theorem returns_args :
    ∀ ts : List Term, KeyedArgs ts →
      (∀ x ∈ floatsOfArgs ts, x.ReadsBack) → ∀ t ∈ ts, TermReturns t
  | [] => fun _ _ => List.forall_mem_nil _
  | t :: ts => fun hkeyed h => by
      obtain ⟨ht, hts⟩ := List.forall_mem_append.mp h
      exact List.forall_mem_cons.mpr
        ⟨returns_term t hkeyed.1 ht, returns_args ts hkeyed.2 hts⟩
termination_by structural ts => ts

/-- Named arguments whose numbers read back. -/
theorem returns_optargs :
    ∀ es : List (String × Term), KeyedNamed es →
      (∀ x ∈ floatsOfNamed es, x.ReadsBack) → ∀ e ∈ es, TermReturns e.2
  | [] => fun _ _ => List.forall_mem_nil _
  | (_, t) :: rest => fun hkeyed h => by
      obtain ⟨ht, hrest⟩ := List.forall_mem_append.mp h
      exact List.forall_mem_cons.mpr
        ⟨returns_term t hkeyed.1 ht, returns_optargs rest hkeyed.2 hrest⟩
termination_by structural es => es

end

end Tagged

/-! ## Texts -/

/-- **Texts round-trip.**  A value, a datum or a term is read again from
    the text it is written as: every kind of it at every depth, strings
    and keys whatever their characters, signed and unsigned integers over
    their full ranges, lists and map entries in order, objects and named
    arguments as the maps they are.  It is assumed that the text printed
    for each number in it reads back as that number, which no other than a
    finite one's does, that object entries and named arguments are maps,
    kept in key order, and that no more containers lie inside one another
    than the reader has room for. -/
theorem text_round_trip :
    (∀ v : Value, (∀ x ∈ v.floats, x.ReadsBack) →
      (Tagged.ofValue v).depth ≤ Tagged.nestingLimit →
        Tagged.valueOfText? (Tagged.valueText v) = some v) ∧
    (∀ d : Datum, d.Keyed → (∀ x ∈ d.floats, x.ReadsBack) →
      (Tagged.ofDatum d).depth ≤ Tagged.nestingLimit →
        Tagged.datumOfText? (Tagged.datumText d) = some d) ∧
    ∀ t : Term, t.Keyed → (∀ x ∈ t.floats, x.ReadsBack) →
      (Tagged.ofTerm t).depth ≤ Tagged.nestingLimit →
        Tagged.termOfText? (Tagged.termText t) = some t := by
  refine ⟨?_, ?_, ?_⟩
  · intro v hfloats hdepth
    exact Tagged.text_of_returns (Tagged.returns_value v hfloats) hdepth
  · intro d hkeyed hfloats hdepth
    exact Tagged.text_of_returns (Tagged.returns_datum d hkeyed hfloats)
      hdepth
  · intro t hkeyed hfloats hdepth
    exact Tagged.text_of_returns (Tagged.returns_term t hkeyed hfloats)
      hdepth

/-- Quotes, control characters and other scripts in keys, integers at the
    ends of their ranges, a negative zero as a key, and the smallest of all
    positive numbers. -/
theorem text_round_trip_extremes :
    let v : Value := .map
      [(.text "\"\\\n\x01\u00e9", .list [.int Int64.minValue,
          .uint 0xffffffffffffffff, .float ⟨0x3ff8000000000000⟩]),
        (.float ⟨0x8000000000000000⟩, .blob [0, 255])]
    let d : Datum := .object
      [("", .number ⟨1⟩), ("\t\u20ac", .array [.null, .string "\""])]
    let t : Term := .apply .insert [.datum d]
      [("\x7f", .datum (.bool true)), ("\u00e9", .apply .makeObj [] [])]
    Tagged.valueOfText? (Tagged.valueText v) = some v ∧
      Tagged.datumOfText? (Tagged.datumText d) = some d ∧
      Tagged.termOfText? (Tagged.termText t) = some t := by
  intro v d t
  obtain ⟨hvalue, hdatum, hterm⟩ := text_round_trip
  have hkeys : Entries.Sorted
      [("", Datum.number ⟨1⟩),
        ("\t\u20ac", .array [.null, .string "\""])] :=
    List.pairwise_pair.mpr (by decide +kernel)
  have hnames : Entries.Sorted
      [("\x7f", Term.datum (.bool true)),
        ("\u00e9", .apply .makeObj [] [])] :=
    List.pairwise_pair.mpr (by decide +kernel)
  have hd : d.Keyed := ⟨hkeys, trivial, ⟨trivial, trivial, trivial⟩, trivial⟩
  have ht : t.Keyed := ⟨⟨hd, trivial⟩, hnames, trivial,
    ⟨trivial, .nil, trivial⟩, trivial⟩
  exact ⟨hvalue v (by decide +kernel) (by decide),
    hdatum d hd (by decide +kernel) (by decide),
    hterm t ht (by decide +kernel) (by decide)⟩

end ChainQuery
