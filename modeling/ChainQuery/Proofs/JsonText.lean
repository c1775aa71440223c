import ChainQuery.Json.Reader
import ChainQuery.Json.Writer

/-! # JSON text — what is written reads back

    Every document has one written form, and the reader gets the document
    back from it.  The route:

    * every escape is undone, one character at a time (`scanUnits_escape`),
      and no character is half of a surrogate pair (`chars_of_units`);
    * a row of digits ends where the digits end, so a number that is
      written by the grammar (`Number.Grammatical`) is read whatever
      stands after it, as long as that ends a number (`scanNumber_render`);
    * a document is as long as the fuel it takes is deep, and each part is
      followed by a comma or a closing bracket (`scans_of_plain`). -/

namespace ChainQuery.Json

/-! ## Strings -/

/-- A control character has two hexadecimal digits that count. -/
theorem hex_of_control :
    ∀ n < 32, Hex.toNat? ('0' :: '0' :: Hex.ofBytes [UInt8.ofNat n])
      = some n := by
  decide

/-- An escape by letter. -/
theorem scanUnits_letter {letter c : Char} (cs : List Char)
    (h : escaped? letter = some c) :
    scanUnits ('\\' :: letter :: cs)
      = (scanUnits cs).map fun r => (c.toNat :: r.1, r.2) := by
  have hu : letter ≠ 'u' := by
    rintro rfl
    cases h
  rw [scanUnits, h]
  · cases scanUnits cs <;> rfl
  · intro a b c d rest hu'
    exact absurd hu' hu

/-- How a character is written: by a letter, by its number, or as it
    is. -/
theorem escape_cases (c : Char) :
    (∃ letter, escape c = ['\\', letter] ∧ escaped? letter = some c) ∨
      (c.toNat < 32 ∧ escape c
        = '\\' :: 'u' :: '0' :: '0' :: Hex.ofBytes [UInt8.ofNat c.toNat]) ∨
      (32 ≤ c.toNat ∧ c ≠ '"' ∧ c ≠ '\\' ∧ escape c = [c]) := by
  by_cases hletter : c ∈ ['"', '\\', '\x08', '\t', '\n', '\x0c', '\r']
  · refine .inl ?_
    simp only [List.mem_cons, List.not_mem_nil, or_false] at hletter
    rcases hletter with rfl | rfl | rfl | rfl | rfl | rfl | rfl <;>
      exact ⟨_, rfl, rfl⟩
  · simp only [List.mem_cons, List.not_mem_nil, or_false, not_or]
      at hletter
    obtain ⟨h1, h2, h3, h4, h5, h6, h7⟩ := hletter
    rw [escape, if_neg h1, if_neg h2, if_neg h3, if_neg h4, if_neg h5,
      if_neg h6, if_neg h7]
    by_cases hc : c.toNat < 32
    · exact .inr (.inl ⟨hc, if_pos hc⟩)
    · exact .inr (.inr ⟨Nat.le_of_not_lt hc, h1, h2, if_neg hc⟩)

/-- A written character is read as that character. -/
theorem scanUnits_escape (c : Char) (cs : List Char) :
    scanUnits (escape c ++ cs)
      = (scanUnits cs).map fun r => (c.toNat :: r.1, r.2) := by
  rcases escape_cases c with
    ⟨letter, heq, hletter⟩ | ⟨hc, heq⟩ | ⟨hc, hquote, hslash, heq⟩
  · rw [heq]
    exact scanUnits_letter cs hletter
  · have hhex := hex_of_control c.toNat hc
    rw [heq]
    simp only [Hex.ofBytes, List.flatMap_singleton] at hhex ⊢
    simp only [List.cons_append, List.nil_append]
    rw [scanUnits, hhex]
    cases scanUnits cs <;> rfl
  · rw [heq]
    simp only [List.cons_append, List.nil_append]
    rw [scanUnits, if_neg]
    · cases scanUnits cs <;> rfl
    · exact fun h => h.elim (Nat.not_lt.mpr hc) hslash
    · exact hquote
    · exact fun _ _ _ _ _ h _ => hslash h
    · exact fun _ _ h _ => hslash h

theorem scanUnits_escaped (cs rest : List Char) :
    scanUnits (cs.flatMap escape ++ '"' :: rest)
      = some (cs.map Char.toNat, rest) := by
  induction cs with
  | nil => rfl
  | cons c cs ih =>
      rw [List.flatMap_cons, List.append_assoc, scanUnits_escape, ih]
      rfl

/-- No character is half of a surrogate pair. -/
theorem not_half (c : Char) :
    isHighHalf c.toNat = false ∧ isLowHalf c.toNat = false := by
  have hvalid : c.toNat < 0xd800 ∨ 0xdfff < c.toNat ∧ c.toNat < 0x110000 :=
    c.valid
  simp only [isHighHalf, isLowHalf, Bool.and_eq_false_iff,
    decide_eq_false_iff_not]
  omega

/-- Characters are found again from their units. -/
theorem chars_of_units (cs : List Char) :
    charsOfUnits? (cs.map Char.toNat) = some cs := by
  induction cs with
  | nil => rfl
  | cons c cs ih =>
      obtain ⟨hhigh, hlow⟩ := not_half c
      cases cs with
      | nil =>
          simp [charsOfUnits?, hhigh, hlow, Char.ofNat_toNat]
      | cons next rest =>
          rw [List.map_cons] at ih
          rw [List.map_cons, List.map_cons, charsOfUnits?, hlow, hhigh, ih]
          simp [Char.ofNat_toNat]

/-- A quoted string is read back after its opening quote. -/
theorem scanString_quoted (s : String) (rest : List Char) :
    scanString (s.toList.flatMap escape ++ '"' :: rest)
      = some (some s, rest) := by
  rw [scanString, scanUnits_escaped, Option.map_some]
  show some ((charsOfUnits? _).map String.ofList, rest) = _
  rw [chars_of_units, Option.map_some, String.ofList_toList]

/-! ## Rows of digits -/

/-- Every character is a digit. -/
def Digits (ds : List Char) : Prop :=
  ∀ c ∈ ds, c.isDigit = true

/-- A row of digits does not go on. -/
def Stops (tail : List Char) : Prop :=
  ∀ c ∈ tail.head?, c.isDigit = false

theorem takeWhile_of_stops {tail : List Char} (h : Stops tail) :
    tail.takeWhile Char.isDigit = [] := by
  cases tail with
  | nil => rfl
  | cons c cs =>
      rw [List.takeWhile_cons, h c rfl]
      rfl

theorem dropWhile_of_stops {tail : List Char} (h : Stops tail) :
    tail.dropWhile Char.isDigit = tail := by
  cases tail with
  | nil => rfl
  | cons c cs =>
      rw [List.dropWhile_cons, h c rfl]
      rfl

theorem scanDigits_of_stops {tail : List Char} (h : Stops tail) :
    scanDigits tail = none := by
  rw [scanDigits, takeWhile_of_stops h]

/-- A row of digits is read up to its end. -/
theorem scanDigits_append {ds tail : List Char} (h : Digits ds)
    (hne : ds ≠ []) (htail : Stops tail) :
    scanDigits (ds ++ tail) = some (ds, tail) := by
  rw [scanDigits, List.takeWhile_append_of_pos h,
    List.dropWhile_append_of_pos h, takeWhile_of_stops htail,
    dropWhile_of_stops htail, List.append_nil]
  cases ds with
  | nil => exact absurd rfl hne
  | cons c cs => rfl

/-! ## Numbers -/

/-- What may come after a number: nothing, or what ends an item. -/
def Ends (tail : List Char) : Prop :=
  ∀ c ∈ tail.head?, c = ',' ∨ c = ']' ∨ c = '\x7d'

theorem stops_of_ends {tail : List Char} (h : Ends tail) : Stops tail := by
  intro c hc
  rcases h c hc with rfl | rfl | rfl <;> rfl

namespace Number

/-- A number whose parts are rows of digits, the exponent a row that is
    not empty. -/
structure Rows (n : Number) : Prop where
  whole : Digits n.whole
  fraction : Digits n.fraction
  exponent : ∀ e ∈ n.exponent, Digits e.2 ∧ e.2 ≠ []

/-- A number as the grammar has it: there are digits before the point, and
    no zero leads them. -/
structure Grammatical (n : Number) : Prop extends Rows n where
  nonempty : n.whole ≠ []
  leading : ∀ ds, n.whole = '0' :: ds → ds = []

/-- The fraction as written. -/
def renderFraction (n : Number) : List Char :=
  if n.fraction.isEmpty then [] else '.' :: n.fraction

/-- The exponent as written. -/
def renderExponent (n : Number) : List Char :=
  match n.exponent with
  | none => []
  | some (negative, ds) => 'e' :: (if negative then '-' else '+') :: ds

/-- The number as written, without its sign. -/
def renderUnsigned (n : Number) : List Char :=
  n.whole ++ (n.renderFraction ++ n.renderExponent)

theorem render_eq (n : Number) :
    n.render = (if n.negative then ['-'] else []) ++ n.renderUnsigned := by
  rw [render, renderUnsigned, renderFraction, renderExponent]
  cases n.exponent <;> simp only [List.append_assoc]

variable {n : Number} {tail : List Char}

theorem stops_exponent (htail : Stops tail) :
    Stops (n.renderExponent ++ tail) := by
  rw [renderExponent]
  cases n.exponent with
  | none => exact htail
  | some e =>
      intro c hc
      cases hc
      rfl

theorem stops_fraction (htail : Stops tail) :
    Stops (n.renderFraction ++ (n.renderExponent ++ tail)) := by
  rw [renderFraction]
  cases n.fraction with
  | nil => exact stops_exponent htail
  | cons d ds =>
      intro c hc
      cases hc
      rfl

theorem scanExponent_render (h : n.Rows) (htail : Ends tail) :
    scanExponent (n.renderExponent ++ tail) = some (n.exponent, tail) := by
  rw [renderExponent]
  cases he : n.exponent with
  | none =>
      cases tail with
      | nil => rfl
      | cons c cs => rcases htail c rfl with rfl | rfl | rfl <;> rfl
  | some e =>
      obtain ⟨negative, ds⟩ := e
      obtain ⟨hds, hne⟩ := h.exponent _ he
      have hscan := scanDigits_append hds hne (stops_of_ends htail)
      cases negative <;>
        simp [scanExponent, scanSigned, hscan]

theorem scanFraction_render (h : n.Rows) (htail : Ends tail) :
    scanFraction (n.renderFraction ++ (n.renderExponent ++ tail))
      = some (n.fraction, n.renderExponent ++ tail) := by
  rw [renderFraction]
  cases hf : n.fraction with
  | nil =>
      rw [renderExponent]
      cases n.exponent with
      | none =>
          cases tail with
          | nil => rfl
          | cons c cs => rcases htail c rfl with rfl | rfl | rfl <;> rfl
      | some e => rfl
  | cons d ds =>
      have hrow := h.fraction
      rw [hf] at hrow
      exact scanDigits_append hrow (List.cons_ne_nil d ds)
        (stops_exponent (stops_of_ends htail))

theorem scanWhole_render (h : n.Grammatical) (htail : Stops tail) :
    scanWhole (n.whole ++ tail) = some (n.whole, tail) := by
  rw [scanWhole, scanDigits_append h.whole h.nonempty htail]
  split
  · next d ds rest heq =>
      have hwhole := (Prod.mk.inj (Option.some.inj heq)).1
      cases h.leading _ hwhole
  · rfl

/-- A number is read whatever ends it. -/
theorem scanUnsigned_render (h : n.Grammatical) (htail : Ends tail) :
    scanUnsigned n.negative (n.renderUnsigned ++ tail)
      = some (n, tail) := by
  rw [renderUnsigned, List.append_assoc, List.append_assoc, scanUnsigned,
    scanWhole_render h (stops_fraction (stops_of_ends htail))]
  show (scanFraction _).bind _ = _
  rw [scanFraction_render h.toRows htail]
  show (scanExponent _).bind _ = _
  rw [scanExponent_render h.toRows htail]
  rfl

/-- A number without its sign starts with a digit, or with what comes
    after the digits. -/
def Starts (c : Char) : Prop :=
  c.isDigit = true ∨ c = '.' ∨ c = 'e'

theorem starts_of_rows (h : n.Rows) :
    n.renderUnsigned = [] ∨
      ∃ c cs, n.renderUnsigned = c :: cs ∧ Starts c := by
  rw [renderUnsigned]
  cases hwhole : n.whole with
  | cons d ds =>
      have hd := h.whole d (hwhole ▸ List.mem_cons_self)
      exact .inr ⟨d, _, rfl, .inl hd⟩
  | nil =>
      rw [renderFraction]
      cases n.fraction with
      | cons d ds => exact .inr ⟨'.', _, rfl, .inr (.inl rfl)⟩
      | nil =>
          rw [renderExponent]
          cases n.exponent with
          | none => exact .inl rfl
          | some e => exact .inr ⟨'e', _, rfl, .inr (.inr rfl)⟩

/-- The sign is read first, and only the sign is a minus. -/
theorem scanNumber_eq (h : n.Rows) (htail : Ends tail) :
    scanNumber (n.render ++ tail)
      = scanUnsigned n.negative (n.renderUnsigned ++ tail) := by
  rw [render_eq]
  cases n.negative with
  | true => rfl
  | false =>
      have hminus : ∀ cs, n.renderUnsigned ++ tail ≠ '-' :: cs := by
        intro cs heq
        rcases starts_of_rows h with hnil | ⟨c, rest, hcons, hc⟩
        · rw [hnil] at heq
          replace heq : tail = '-' :: cs := heq
          subst heq
          rcases htail '-' rfl with hc | hc | hc <;> cases hc
        · rw [hcons] at heq
          obtain ⟨rfl, -⟩ := List.cons.inj heq
          rcases hc with hc | hc | hc <;> cases hc
      show scanNumber (n.renderUnsigned ++ tail) = _
      rw [scanNumber]
      · exact hminus

/-- A written number is read back, whatever ends it. -/
theorem scanNumber_render (h : n.Grammatical) (htail : Ends tail) :
    scanNumber (n.render ++ tail) = some (n, tail) := by
  rw [scanNumber_eq h.toRows htail, scanUnsigned_render h htail]

/-- What is read as a number has a grammatical form. -/
theorem grammatical_of_scanned (h : n.Rows) {r : Number × List Char}
    (hscan : scanNumber n.render = some r) : n.Grammatical := by
  have hends : Ends [] := fun _ hc => by cases hc
  have hstops := stops_fraction (n := n) (stops_of_ends hends)
  rw [← List.append_nil n.render, scanNumber_eq h hends, renderUnsigned,
    List.append_assoc, List.append_assoc, scanUnsigned] at hscan
  obtain ⟨p, hwhole, -⟩ := Option.bind_eq_some_iff.mp hscan
  have hne : n.whole ≠ [] := by
    intro hnil
    rw [hnil, scanWhole, List.nil_append, scanDigits_of_stops hstops]
      at hwhole
    cases hwhole
  -- A zero with digits after it is refused.
  refine ⟨h, hne, fun ds hds => ?_⟩
  rw [scanWhole, scanDigits_append h.whole hne hstops, hds] at hwhole
  cases ds with
  | nil => rfl
  | cons d ds => cases hwhole

end Number

/-! ## Documents -/

mutual

/-- A document with a written form: its strings are text and its numbers
    are grammatical. -/
def Plain : Json → Prop
  | .null => True
  | .bool _ => True
  | .number n => n.Grammatical
  | .string s => s.isSome = true
  | .array items => PlainItems items
  | .object members => PlainMembers members
termination_by structural j => j

/-- Every item has a written form. -/
def PlainItems : List Json → Prop
  | [] => True
  | j :: js => Plain j ∧ PlainItems js
termination_by structural js => js

/-- Every key is text, and every member has a written form. -/
def PlainMembers : List (Text × Json) → Prop
  | [] => True
  | (key, j) :: rest => key.isSome = true ∧ Plain j ∧ PlainMembers rest
termination_by structural members => members

end

/-- A character that a document can start with. -/
def Opens (c : Char) : Prop :=
  isBlank c = false ∧ c ≠ ']'

/-- A character that a number can start with. -/
def Leads (c : Char) : Prop :=
  c = '-' ∨ Number.Starts c

theorem opens_of_leads {c : Char} (h : Leads c) : Opens c := by
  refine ⟨Bool.eq_false_iff.mpr fun hblank => ?_, ?_⟩
  · simp only [isBlank, Bool.or_eq_true, beq_iff_eq] at hblank
    rcases hblank with ((rfl | rfl) | rfl) | rfl <;>
      rcases h with h | h | h | h <;> cases h
  · rintro rfl
    rcases h with h | h | h | h <;> cases h

theorem leads_number {n : Number} (h : n.Rows) :
    n.render = [] ∨ ∃ c cs, n.render = c :: cs ∧ Leads c := by
  rw [Number.render_eq]
  cases n.negative with
  | true => exact .inr ⟨'-', _, rfl, .inl rfl⟩
  | false =>
      exact (Number.starts_of_rows h).imp_right fun ⟨c, cs, heq, hc⟩ =>
        ⟨c, cs, heq, .inr hc⟩

theorem leads_grammatical {n : Number} (h : n.Grammatical) :
    ∃ c cs, n.render = c :: cs ∧ Leads c := by
  refine (leads_number h.toRows).resolve_left fun hnil => ?_
  rw [Number.render_eq, Number.renderUnsigned] at hnil
  simp only [List.append_eq_nil_iff] at hnil
  exact h.nonempty hnil.2.1

/-- A written document starts with a character of its own. -/
theorem opens_of_plain {j : Json} (h : Plain j) :
    ∃ c cs, j.render = c :: cs ∧ Opens c := by
  cases j with
  | null => exact ⟨_, _, rfl, rfl, by decide⟩
  | bool b => cases b <;> exact ⟨_, _, rfl, rfl, by decide⟩
  | number n =>
      obtain ⟨c, cs, heq, hleads⟩ := leads_grammatical h
      exact ⟨c, cs, heq, opens_of_leads hleads⟩
  | string s => exact ⟨_, _, rfl, rfl, by decide⟩
  | array items => cases items <;> exact ⟨_, _, rfl, rfl, by decide⟩
  | object members =>
      cases members <;> exact ⟨_, _, rfl, rfl, by decide⟩

theorem skipBlanks_of_opens {c : Char} (h : Opens c) (cs : List Char) :
    skipBlanks (c :: cs) = c :: cs := by
  rw [skipBlanks, List.dropWhile_cons, h.1]
  rfl

theorem scan_items {c : Char} (h : Opens c) (fuel : Nat) (cs : List Char) :
    scan (fuel + 1) ('[' :: c :: cs)
      = (scanItems fuel (c :: cs)).map fun r => (.array r.1, r.2) := by
  have hblank : skipBlanks ('[' :: c :: cs) = '[' :: c :: cs := rfl
  rw [scan, hblank]
  simp only [skipBlanks_of_opens h]
  split
  · next heq => exact absurd (List.cons.inj heq).1 h.2
  · cases scanItems fuel (c :: cs) <;> rfl

theorem scan_number {c : Char} (h : Leads c) (fuel : Nat)
    (cs : List Char) :
    scan (fuel + 1) (c :: cs)
      = (scanNumber (c :: cs)).map fun r => (.number r.1, r.2) := by
  rw [scan, skipBlanks_of_opens (opens_of_leads h)]
  -- No other form starts the way a number does.
  split
  case h_7 => cases scanNumber (c :: cs) <;> rfl
  all_goals
    next heq =>
      obtain ⟨rfl, -⟩ := List.cons.inj heq
      rcases h with h | h | h | h <;> cases h

/-- There is room for one more. -/
theorem exists_succ {n m : Nat} (h : n + 1 ≤ m) :
    ∃ k, m = k + 1 ∧ n ≤ k :=
  ⟨m - 1, by omega, by omega⟩

/-- With as much fuel as it has characters, a document is read from its
    written form, and what comes after is left. -/
def Scans (j : Json) : Prop :=
  ∀ fuel tail, j.render.length ≤ fuel → Ends tail →
    scan fuel (j.render ++ tail) = some (j, tail)

theorem ends_items (js : List Json) (tail : List Char) :
    Ends (renderItems js ++ tail) := by
  intro c hc
  cases js with
  | nil =>
      cases hc
      exact .inr (.inl rfl)
  | cons j js =>
      cases hc
      exact .inl rfl

theorem ends_members (members : List (Text × Json)) (tail : List Char) :
    Ends (renderMembers members ++ tail) := by
  intro c hc
  cases members with
  | nil =>
      cases hc
      exact .inr (.inr rfl)
  | cons m members =>
      cases hc
      exact .inl rfl

/-- Items are read one after another. -/
theorem scanItems_render {j : Json} {js : List Json} (hj : Scans j)
    (hjs : ∀ i ∈ js, Scans i) {fuel : Nat} (tail : List Char)
    (hfuel : (j.render ++ renderItems js).length ≤ fuel) :
    scanItems fuel (j.render ++ (renderItems js ++ tail))
      = some (j :: js, tail) := by
  induction js generalizing j fuel with
  | nil =>
      rw [List.length_append, renderItems, List.length_singleton] at hfuel
      obtain ⟨fuel, rfl, hinner⟩ := exists_succ hfuel
      have hscan := hj fuel _ hinner (ends_items [] tail)
      rw [scanItems, hscan]
      rfl
  | cons i is ih =>
      obtain ⟨hi, his⟩ := List.forall_mem_cons.mp hjs
      -- The comma pays for the fuel that the item takes.
      rw [List.length_append, renderItems, List.length_cons] at hfuel
      obtain ⟨fuel, rfl, hinner⟩ := exists_succ hfuel
      have hscan := hj fuel _ (Nat.le_of_add_right_le hinner)
        (ends_items (i :: is) tail)
      have hrest := ih hi his (Nat.le_of_add_left_le hinner)
      rw [scanItems, hscan, renderItems]
      show (scanItems fuel ((i.render ++ renderItems is) ++ tail)).bind _
        = _
      rw [List.append_assoc, hrest]
      rfl

theorem quote_append (s : String) (rest : List Char) :
    quote s ++ rest = '"' :: (s.toList.flatMap escape ++ '"' :: rest) := by
  rw [quote, List.cons_append, List.append_assoc]
  rfl

/-- Members are read one after another. -/
theorem scanMembers_render (key : String) {j : Json}
    {members : List (Text × Json)} (hj : Scans j)
    (hkeys : ∀ m ∈ members, m.1.isSome = true)
    (hmembers : ∀ m ∈ members, Scans m.2) {fuel : Nat} (tail : List Char)
    (hfuel : (j.render ++ renderMembers members).length ≤ fuel) :
    scanMembers fuel (quote key ++ ':' :: (j.render
        ++ (renderMembers members ++ tail)))
      = some ((some key, j) :: members, tail) := by
  induction members generalizing key j fuel with
  | nil =>
      rw [List.length_append, renderMembers, List.length_singleton] at hfuel
      obtain ⟨fuel, rfl, hinner⟩ := exists_succ hfuel
      have hscan := hj fuel _ hinner (ends_members [] tail)
      rw [quote_append, scanMembers]
      show (scanString _).bind _ = _
      rw [scanString_quoted]
      show (scan fuel _).bind _ = _
      rw [hscan]
      rfl
  | cons m rest ih =>
      obtain ⟨other, i⟩ := m
      obtain ⟨hi, hrest⟩ := List.forall_mem_cons.mp hmembers
      obtain ⟨hother, hothers⟩ := List.forall_mem_cons.mp hkeys
      obtain ⟨name, rfl⟩ := Option.isSome_iff_exists.mp hother
      rw [List.length_append, renderMembers, List.length_cons,
        List.length_append, List.length_cons] at hfuel
      obtain ⟨fuel, rfl, hinner⟩ := exists_succ hfuel
      have hscan := hj fuel _ (Nat.le_of_add_right_le hinner)
        (ends_members ((some name, i) :: rest) tail)
      have hroom : (i.render ++ renderMembers rest).length ≤ fuel := by
        omega
      have hlast := ih name hi hothers hrest hroom
      rw [quote_append, scanMembers]
      show (scanString _).bind _ = _
      rw [scanString_quoted]
      show (scan fuel _).bind _ = _
      rw [hscan, renderMembers]
      show (scanMembers fuel ((quote name ++ ':' :: (i.render
        ++ renderMembers rest)) ++ tail)).bind _ = _
      rw [List.append_assoc, List.cons_append, List.append_assoc, hlast]
      rfl

/-- A document without parts is read with whatever fuel there is. -/
theorem scans_leaf {j : Json} {c : Char} {cs : List Char}
    (h : j.render = c :: cs)
    (hscan : ∀ fuel tail, Ends tail →
      scan (fuel + 1) (c :: (cs ++ tail)) = some (j, tail)) : Scans j := by
  intro fuel tail hfuel htail
  rw [h, List.length_cons] at hfuel
  obtain ⟨fuel, rfl, -⟩ := exists_succ hfuel
  rw [h, List.cons_append, hscan fuel tail htail]

theorem scans_number {n : Number} (h : n.Grammatical) :
    Scans (.number n) := by
  obtain ⟨c, cs, heq, hleads⟩ := leads_grammatical h
  refine scans_leaf heq fun fuel tail htail => ?_
  have hscan := Number.scanNumber_render h htail
  rw [heq, List.cons_append] at hscan
  rw [scan_number hleads, hscan]
  rfl

theorem scans_string (s : String) : Scans (.string (some s)) := by
  refine scans_leaf rfl fun fuel tail _ => ?_
  rw [List.append_assoc]
  show (scanString _).bind _ = _
  rw [List.singleton_append, scanString_quoted]
  rfl

theorem scans_array {items : List Json}
    (h : ∀ j ∈ items, Plain j ∧ Scans j) : Scans (.array items) := by
  cases items with
  | nil => exact scans_leaf rfl fun _ _ _ => rfl
  | cons j js =>
      obtain ⟨⟨hplain, hj⟩, hjs⟩ := List.forall_mem_cons.mp h
      intro fuel tail hfuel htail
      obtain ⟨c, cs, heq, hopens⟩ := opens_of_plain hplain
      rw [render, List.length_cons] at hfuel
      obtain ⟨fuel, rfl, hinner⟩ := exists_succ hfuel
      have hscan :=
        scanItems_render hj (fun i hi => (hjs i hi).2) tail hinner
      rw [heq, List.cons_append] at hscan
      rw [render, heq, List.cons_append, List.cons_append,
        List.cons_append, List.append_assoc, scan_items hopens, hscan]
      rfl

theorem scans_object {members : List (Text × Json)}
    (h : ∀ m ∈ members, m.1.isSome = true ∧ Scans m.2) :
    Scans (.object members) := by
  cases members with
  | nil => exact scans_leaf rfl fun _ _ _ => rfl
  | cons m rest =>
      obtain ⟨key, j⟩ := m
      obtain ⟨⟨hkey, hj⟩, hrest⟩ := List.forall_mem_cons.mp h
      obtain ⟨name, rfl⟩ := Option.isSome_iff_exists.mp hkey
      intro fuel tail hfuel htail
      rw [render, List.length_cons, List.length_append, List.length_cons]
        at hfuel
      obtain ⟨fuel, rfl, hinner⟩ := exists_succ hfuel
      have hroom : (j.render ++ renderMembers rest).length ≤ fuel := by
        omega
      have hscan := scanMembers_render name hj
        (fun m hm => (hrest m hm).1) (fun m hm => (hrest m hm).2) tail hroom
      rw [render, List.cons_append, List.append_assoc, List.cons_append,
        List.append_assoc]
      show scan (fuel + 1) ('\x7b' :: (quote name ++ ':' :: (j.render
        ++ (renderMembers rest ++ tail)))) = _
      rw [quote_append] at hscan ⊢
      show (scanMembers fuel _).bind _ = _
      rw [hscan]
      rfl

mutual

/-- Every document with a written form is read from it. -/
theorem scans_of_plain : ∀ j : Json, Plain j → Scans j
  | .null => fun _ => scans_leaf rfl fun _ _ _ => rfl
  | .bool true => fun _ => scans_leaf rfl fun _ _ _ => rfl
  | .bool false => fun _ => scans_leaf rfl fun _ _ _ => rfl
  | .number _ => scans_number
  | .string (some s) => fun _ => scans_string s
  | .string none => fun h => by cases h
  | .array items => fun h => scans_array (scans_of_items items h)
  | .object members => fun h => scans_object (scans_of_members members h)
termination_by structural j => j

/-- Items with written forms are read from them. -/
theorem scans_of_items :
    ∀ js, PlainItems js → ∀ j ∈ js, Plain j ∧ Scans j
  | [] => fun _ => List.forall_mem_nil _
  | j :: js => fun h =>
      List.forall_mem_cons.mpr
        ⟨⟨h.1, scans_of_plain j h.1⟩, scans_of_items js h.2⟩
termination_by structural js => js

/-- Members with written forms are read from them. -/
theorem scans_of_members :
    ∀ members : List (Text × Json), PlainMembers members →
      ∀ m ∈ members, m.1.isSome = true ∧ Scans m.2
  | [] => fun _ => List.forall_mem_nil _
  | (_, j) :: rest => fun h =>
      List.forall_mem_cons.mpr
        ⟨⟨h.1, scans_of_plain j h.2.1⟩, scans_of_members rest h.2.2⟩
termination_by structural members => members

end

/-- A document is found again from its text. -/
theorem ofText_toText {j : Json} (h : Plain j) :
    ofText? j.toText = some j := by
  have hends : Ends [] := fun _ hc => by cases hc
  have hscan := scans_of_plain j h (2 * j.render.length + 2) [] (by omega)
    hends
  rw [List.append_nil] at hscan
  rw [ofText?, toText, String.toList_ofList]
  show (scan _ _).bind _ = _
  rw [hscan]
  rfl

/-! ## Texts of numbers -/

/-- Whatever its parts, the text of a number is read as one. -/
theorem scan_rows {n : Number} (h : n.Rows) (fuel : Nat) :
    scan (fuel + 1) n.render
      = (scanNumber n.render).map fun r => (.number r.1, r.2) := by
  rcases leads_number h with hnil | ⟨c, cs, heq, hleads⟩
  · rw [hnil]
    rfl
  · rw [heq, scan_number hleads]

/-- A number that has a text that can be read is grammatical. -/
theorem grammatical_of_ofText {n : Number} (h : n.Rows) {j : Json}
    (hread : ofText? (toText (.number n)) = some j) : n.Grammatical := by
  rw [ofText?, toText, String.toList_ofList] at hread
  obtain ⟨r, hscan, -⟩ := Option.bind_eq_some_iff.mp hread
  rw [render, scan_rows h] at hscan
  obtain ⟨r', hnumber, -⟩ := Option.map_eq_some_iff.mp hscan
  exact Number.grammatical_of_scanned h hnumber

end ChainQuery.Json
