import ChainQuery.Convert
import ChainQuery.Proofs.Binary64
import ChainQuery.Proofs.KeyOrder
import Mathlib.Data.List.Forall2

/-! # Conversion — what the standard converter takes

    The standard converter takes a value when nothing in it is too deep,
    nothing in it is a blob, a number that is not finite or an integer
    that is not exact, and the keys of every map are different texts.
    `Converter.Config.Admits` says so of everything that a value contains,
    in no order and without reasons.  `Value.offences` lists all that
    stands in the way, in document order.  The route:

    * nothing is in the way exactly of values that are admitted
      (`offences_eq_nil_iff`);
    * a conversion ends with the first offence, and where there is none
      with a datum of the same structure (`Image`, `decided_convertAt`). -/

namespace ChainQuery

open Converter

/-! ## Values that are admitted -/

/-- Some levels down in the first value, through items of lists and of
    maps, the second is reached.  Keys are not. -/
inductive Value.Reaches : Value → Nat → Value → Prop where
  | here {v} : Value.Reaches v 0 v
  | item {items v depth w} : v ∈ items → Value.Reaches v depth w →
      Value.Reaches (.list items) (depth + 1) w
  | entry {entries key v depth w} : (key, v) ∈ entries →
      Value.Reaches v depth w →
      Value.Reaches (.map entries) (depth + 1) w

/-- The keys of entries are different texts. -/
def DistinctTexts (entries : List (Value × Value)) : Prop :=
  ∃ names : List String,
    entries.map Prod.fst = names.map .text ∧ names.Nodup

namespace Converter.Config

/-- What is asked of a value itself, whatever it contains. -/
def Takes (config : Config) : Value → Prop
  | .null => True
  | .bool _ => True
  | .int i =>
      config.lossyIntegers = true ∨ i.toInt.natAbs ≤ 2 ^ 53
  | .uint n => config.lossyIntegers = true ∨ n.toNat ≤ 2 ^ 53
  | .float x => x.isFinite = true
  | .text _ => True
  | .blob _ => False
  | .list _ => True
  | .map entries => DistinctTexts entries

/-- A value at some depth with all that it contains: nothing lies too
    deep, and each value is taken. -/
def AdmitsAt (config : Config) (depth : Nat) (v : Value) : Prop :=
  ∀ down w, v.Reaches down w →
    depth + down ≤ config.maxDepth ∧ config.Takes w

/-- A value that can be converted. -/
def Admits (config : Config) (v : Value) : Prop :=
  ∀ depth w, v.Reaches depth w →
    depth ≤ config.maxDepth ∧ config.Takes w

end Converter.Config

/-! ## Offences -/

/-- What is wrong with the form of a key. -/
def keyOffences (key : Value) : List ConvertError :=
  match key.asText with
  | some _ => []
  | none => [.keyNotText key.kind]

/-- What is wrong with a key after these earlier ones. -/
def repeatOffences (earlier : List String) (key : Value) :
    List ConvertError :=
  match key.asText with
  | some name => if name ∈ earlier then [.duplicateKey name] else []
  | none => []

mutual

/-- All that stands in the way of a value at some depth, in document
    order: its own depth, then what is wrong with it or in it. -/
def Value.offences (config : Config) (depth : Nat) (v : Value) :
    List ConvertError :=
  (if config.maxDepth < depth then [.tooDeep v.kind config.maxDepth]
    else []) ++
    match v with
    | .null => []
    | .bool _ => []
    | .int i =>
        if config.lossyIntegers = true ∨ i.toInt.natAbs ≤ 2 ^ 53 then []
        else [.inexactInt i]
    | .uint n =>
        if config.lossyIntegers = true ∨ n.toNat ≤ 2 ^ 53 then []
        else [.inexactUint n]
    | .float x => if x.isFinite = true then [] else [.notFinite x]
    | .text _ => []
    | .blob _ => [.unsupported .blob]
    | .list items => itemOffences config (depth + 1) items
    | .map entries => entryOffences config (depth + 1) [] entries
termination_by structural v

/-- What stands in the way in items, in order. -/
def itemOffences (config : Config) (depth : Nat) (items : List Value) :
    List ConvertError :=
  match items with
  | [] => []
  | v :: vs =>
      Value.offences config depth v ++ itemOffences config depth vs
termination_by structural items

/-- What stands in the way in entries, in order.  Of one entry the form of
    its key comes first, then the item, and then that the key occurred
    `earlier`. -/
def entryOffences (config : Config) (depth : Nat)
    (earlier : List String) (entries : List (Value × Value)) :
    List ConvertError :=
  match entries with
  | [] => []
  | (key, item) :: rest =>
      keyOffences key ++ (Value.offences config depth item ++
        (repeatOffences earlier key ++
          entryOffences config depth (key.asText.toList ++ earlier) rest))
termination_by structural entries

end

/-! ## Nothing is in the way of what is admitted -/

variable {config : Config} {depth : Nat}

theorem admitsAt_zero {v : Value} :
    config.AdmitsAt 0 v ↔ config.Admits v := by
  rw [Config.AdmitsAt, Config.Admits]
  exact forall₃_congr fun down w _ => by rw [Nat.zero_add]

/-- A value that contains nothing is admitted by itself. -/
theorem admitsAt_leaf {v : Value}
    (h : ∀ down w, v.Reaches down w → down = 0 ∧ w = v) :
    config.AdmitsAt depth v ↔
      depth ≤ config.maxDepth ∧ config.Takes v := by
  constructor
  · intro hall
    exact hall 0 v .here
  · intro hv down w hreach
    obtain ⟨rfl, rfl⟩ := h down w hreach
    exact hv

theorem admitsAt_list {items : List Value} :
    config.AdmitsAt depth (.list items) ↔
      depth ≤ config.maxDepth ∧
        ∀ v ∈ items, config.AdmitsAt (depth + 1) v := by
  constructor
  · intro h
    refine ⟨(h 0 _ .here).1, fun v hv down w hreach => ?_⟩
    rw [Nat.add_assoc, Nat.add_comm 1 down]
    exact h (down + 1) w (.item hv hreach)
  · rintro ⟨hdepth, hitems⟩ down w hreach
    cases hreach with
    | here => exact ⟨hdepth, trivial⟩
    | item hv hreach =>
        rw [Nat.add_comm _ 1, ← Nat.add_assoc]
        exact hitems _ hv _ w hreach

theorem admitsAt_map {entries : List (Value × Value)} :
    config.AdmitsAt depth (.map entries) ↔
      depth ≤ config.maxDepth ∧ DistinctTexts entries ∧
        ∀ e ∈ entries, config.AdmitsAt (depth + 1) e.2 := by
  constructor
  · intro h
    obtain ⟨hdepth, hkeys⟩ := h 0 _ .here
    refine ⟨hdepth, hkeys, fun e he down w hreach => ?_⟩
    rw [Nat.add_assoc, Nat.add_comm 1 down]
    exact h (down + 1) w (.entry he hreach)
  · rintro ⟨hdepth, hkeys, hitems⟩ down w hreach
    cases hreach with
    | here => exact ⟨hdepth, hkeys⟩
    | entry he hreach =>
        rw [Nat.add_comm _ 1, ← Nat.add_assoc]
        exact hitems _ he _ w hreach

/-- The keys of entries are different texts, and none of these. -/
def DistinctTextsAfter (earlier : List String)
    (entries : List (Value × Value)) : Prop :=
  ∃ names : List String, entries.map Prod.fst = names.map .text ∧
    names.Nodup ∧ ∀ name ∈ names, name ∉ earlier

theorem distinctTexts_iff {entries : List (Value × Value)} :
    DistinctTexts entries ↔ DistinctTextsAfter [] entries := by
  rw [DistinctTexts, DistinctTextsAfter]
  refine exists_congr fun names => and_congr_right' ?_
  exact ⟨fun h => ⟨h, fun _ _ => List.not_mem_nil⟩, And.left⟩

/-- The first key is a new text, and the others come after it too. -/
theorem distinctTextsAfter_cons {earlier : List String} {key item : Value}
    {rest : List (Value × Value)} :
    DistinctTextsAfter earlier ((key, item) :: rest) ↔
      ∃ name, key = .text name ∧ name ∉ earlier ∧
        DistinctTextsAfter (name :: earlier) rest := by
  constructor
  · rintro ⟨names, hkeys, hnodup, hnew⟩
    cases names with
    | nil => cases hkeys
    | cons name names =>
        obtain ⟨hkey, hrest⟩ := List.cons.inj hkeys
        obtain ⟨hname, hnodup⟩ := List.nodup_cons.mp hnodup
        obtain ⟨hearlier, hnew⟩ := List.forall_mem_cons.mp hnew
        refine ⟨name, hkey, hearlier, names, hrest, hnodup, ?_⟩
        intro other hother hmem
        rcases List.mem_cons.mp hmem with rfl | hmem
        · exact hname hother
        · exact hnew other hother hmem
  · rintro ⟨name, rfl, hearlier, names, hrest, hnodup, hnew⟩
    refine ⟨name :: names, congrArg (Value.text name :: ·) hrest, ?_, ?_⟩
    · exact List.nodup_cons.mpr
        ⟨fun hmem => hnew name hmem (.head _), hnodup⟩
    · exact List.forall_mem_cons.mpr ⟨hearlier, fun other hother hmem =>
        hnew other hother (.tail _ hmem)⟩

/-- Nothing is wrong with a key exactly when it is a new text. -/
theorem key_unoffending {earlier : List String} {key : Value} :
    (keyOffences key = [] ∧ repeatOffences earlier key = []) ↔
      ∃ name, key = .text name ∧ name ∉ earlier := by
  rw [keyOffences, repeatOffences]
  cases key with
  | text name =>
      constructor
      · rintro ⟨-, hnew⟩
        refine ⟨name, rfl, fun hmem => ?_⟩
        replace hnew : (if name ∈ earlier then [_] else []) = [] := hnew
        rw [if_pos hmem] at hnew
        cases hnew
      · rintro ⟨_, ⟨⟩, hnew⟩
        exact ⟨rfl, if_neg hnew⟩
  | _ =>
      constructor
      · rintro ⟨⟨⟩, -⟩
      · rintro ⟨_, ⟨⟩, -⟩

/-- Besides all else, the depth of a value is checked. -/
theorem deep_append {kind : Value.Kind} {inner : List ConvertError}
    {q : Prop} (h : inner = [] ↔ q) :
    (if config.maxDepth < depth then [.tooDeep kind config.maxDepth]
      else []) ++ inner = [] ↔ depth ≤ config.maxDepth ∧ q := by
  rw [List.append_eq_nil_iff, h]
  refine and_congr_left' ?_
  by_cases hdeep : config.maxDepth < depth
  · rw [if_pos hdeep]
    exact ⟨fun h => (by cases h),
      fun h => absurd hdeep (Nat.not_lt.mpr h)⟩
  · rw [if_neg hdeep]
    exact ⟨fun _ => Nat.not_lt.mp hdeep, fun _ => rfl⟩

/-- An integer is exact, or is an offence. -/
theorem exact_unoffending {p : Prop} [Decidable p] {e : ConvertError} :
    (if p then [] else [e]) = [] ↔ p := by
  by_cases hp : p
  · simp [hp]
  · simp [hp]

mutual

/-- Nothing stands in the way of a value exactly when it is admitted. -/
theorem offences_eq_nil_iff (config : Config) :
    ∀ (v : Value) (depth : Nat),
      v.offences config depth = [] ↔ config.AdmitsAt depth v
  | v, depth => by
      rw [Value.offences.eq_def]
      cases v with
      | list items =>
          rw [admitsAt_list]
          exact deep_append (itemOffences_eq_nil_iff config items _)
      | map entries =>
          rw [admitsAt_map, distinctTexts_iff]
          exact deep_append (entryOffences_eq_nil_iff config entries _ [])
      | null | bool | text =>
          rw [admitsAt_leaf]
          · exact deep_append ⟨fun _ => trivial, fun _ => rfl⟩
          · rintro _ _ ⟨⟩
            exact ⟨rfl, rfl⟩
      | blob =>
          rw [admitsAt_leaf]
          · exact deep_append ⟨fun h => (by cases h), False.elim⟩
          · rintro _ _ ⟨⟩
            exact ⟨rfl, rfl⟩
      | int | uint | float =>
          rw [admitsAt_leaf]
          · exact deep_append exact_unoffending
          · rintro _ _ ⟨⟩
            exact ⟨rfl, rfl⟩

theorem itemOffences_eq_nil_iff (config : Config) :
    ∀ (items : List Value) (depth : Nat),
      itemOffences config depth items = [] ↔
        ∀ v ∈ items, config.AdmitsAt depth v
  | [], depth => ⟨fun _ => List.forall_mem_nil _, fun _ => rfl⟩
  | v :: vs, depth => by
      rw [itemOffences, List.append_eq_nil_iff, List.forall_mem_cons,
        offences_eq_nil_iff config v, itemOffences_eq_nil_iff config vs]

theorem entryOffences_eq_nil_iff (config : Config) :
    ∀ (entries : List (Value × Value)) (depth : Nat)
      (earlier : List String),
      entryOffences config depth earlier entries = [] ↔
        DistinctTextsAfter earlier entries ∧
          ∀ e ∈ entries, config.AdmitsAt depth e.2
  | [], depth, earlier => by
      refine ⟨fun _ => ⟨⟨[], rfl, .nil, ?_⟩, ?_⟩, fun _ => rfl⟩
      · exact List.forall_mem_nil _
      · exact List.forall_mem_nil _
  | (key, item) :: rest, depth, earlier => by
      rw [entryOffences, List.append_eq_nil_iff, List.append_eq_nil_iff,
        List.append_eq_nil_iff, offences_eq_nil_iff config item,
        entryOffences_eq_nil_iff config rest, distinctTextsAfter_cons,
        List.forall_mem_cons]
      constructor
      · rintro ⟨hkey, hitem, hrepeat, hdistinct, hrest⟩
        obtain ⟨name, rfl, hnew⟩ := key_unoffending.mp ⟨hkey, hrepeat⟩
        exact ⟨⟨name, rfl, hnew, hdistinct⟩, hitem, hrest⟩
      · rintro ⟨⟨name, rfl, hnew, hdistinct⟩, hitem, hrest⟩
        obtain ⟨hkey, hrepeat⟩ := key_unoffending.mpr ⟨name, rfl, hnew⟩
        exact ⟨hkey, hitem, hrepeat, hdistinct, hrest⟩

end

/-! ## Images -/

mutual

/-- A datum of the same structure: scalars as they are, an integer as the
    number nearest to it, which is the integer itself up to `2 ^ 53`, items
    in order, and for each entry of a map one entry of the object, sorted
    by key. -/
inductive Value.Image : Value → Datum → Prop where
  | null : Value.Image .null .null
  | bool {b} : Value.Image (.bool b) (.bool b)
  | int {i : Int64} :
      (i.toInt.natAbs ≤ 2 ^ 53 → (Binary64.ofInt i.toInt).Is i.toInt) →
      Value.Image (.int i) (.number (Binary64.ofInt i.toInt))
  | uint {n : UInt64} :
      (n.toNat ≤ 2 ^ 53 → (Binary64.ofNat n.toNat).Is n.toNat) →
      Value.Image (.uint n) (.number (Binary64.ofNat n.toNat))
  | float {x} : Value.Image (.float x) (.number x)
  | text {s} : Value.Image (.text s) (.string s)
  | list {items ds} : List.Forall₂ Value.Image items ds →
      Value.Image (.list items) (.array ds)
  | map {entries members sorted} :
      List.Forall₂ Value.EntryImage entries members →
      sorted.Perm members → Entries.Sorted sorted →
      Value.Image (.map entries) (.object sorted)

/-- An entry of an object for an entry of a map. -/
inductive Value.EntryImage : Value × Value → String × Datum → Prop where
  | mk {name item d} : Value.Image item d →
      Value.EntryImage (.text name, item) (name, d)

end

/-! ## The first offence decides -/

variable {α β : Type} {es fs : List ConvertError} {Q : α → Prop}
  {R : β → Prop}

/-- How a conversion ends: with the first offence, and when there is none
    with something that satisfies `Q`. -/
def Decided (es : List ConvertError) (Q : α → Prop)
    (r : Except ConvertError α) : Prop :=
  match es with
  | [] => ∃ a, r = .ok a ∧ Q a
  | e :: _ => r = .error e

theorem decided_ok {a : α} (h : Q a) : Decided [] Q (.ok a) :=
  ⟨a, rfl, h⟩

theorem decided_error (e : ConvertError) :
    Decided (e :: es) Q (.error e) :=
  rfl

/-- The offences of the first part come before those of the second. -/
theorem decided_bind {r : Except ConvertError α}
    {f : α → Except ConvertError β} (hr : Decided es Q r)
    (hf : ∀ a, Q a → Decided fs R (f a)) :
    Decided (es ++ fs) R (r >>= f) := by
  cases es with
  | nil =>
      obtain ⟨a, rfl, ha⟩ := hr
      exact hf a ha
  | cons e es =>
      replace hr : r = .error e := hr
      subst hr
      exact rfl

/-- A last part that always gives something adds no offence. -/
theorem decided_map {r : Except ConvertError α}
    {f : α → Except ConvertError β} (hr : Decided es Q r)
    (hf : ∀ a, Q a → Decided [] R (f a)) : Decided es R (r >>= f) := by
  have h := decided_bind hr hf
  rwa [List.append_nil] at h

theorem decided_mono {Q' : α → Prop} {r : Except ConvertError α}
    (hr : Decided es Q r) (h : ∀ a, Q a → Q' a) : Decided es Q' r := by
  cases es with
  | nil =>
      obtain ⟨a, rfl, ha⟩ := hr
      exact ⟨a, rfl, h a ha⟩
  | cons e es => exact hr

theorem decided_error_iff {r : Except ConvertError α} {e : ConvertError}
    (h : Decided es Q r) : r = .error e ↔ es.head? = some e := by
  cases es with
  | nil =>
      obtain ⟨a, rfl, -⟩ := h
      exact ⟨fun h => (by cases h), fun h => (by cases h)⟩
  | cons f fs =>
      replace h : r = .error f := h
      rw [h, List.head?_cons, Except.error.injEq, Option.some.injEq]

theorem decided_ok_iff {r : Except ConvertError α} (h : Decided es Q r) :
    (∃ a, r = .ok a) ↔ es = [] := by
  cases es with
  | nil =>
      obtain ⟨a, rfl, -⟩ := h
      exact ⟨fun _ => rfl, fun _ => ⟨a, rfl⟩⟩
  | cons f fs =>
      replace h : r = .error f := h
      subst h
      exact ⟨fun ⟨a, ha⟩ => (by cases ha), fun h => (by cases h)⟩

/-- An integer that is not exact is an offence where that counts. -/
theorem decided_exact {lossy : Bool} {n : Nat} {e : ConvertError}
    {a : α} (ha : Q a) :
    Decided (if lossy = true ∨ n ≤ 2 ^ 53 then [] else [e]) Q
      (if (!lossy && decide (exactLimit < n)) = true then .error e
        else .ok a) := by
  cases lossy with
  | true => exact decided_ok ha
  | false =>
      by_cases hn : n ≤ 2 ^ 53
      · have hlimit : decide (exactLimit < n) = false :=
          decide_eq_false (Nat.not_lt.mpr hn)
        rw [if_pos (Or.inr hn), hlimit]
        exact decided_ok ha
      · have hlimit : decide (exactLimit < n) = true :=
          decide_eq_true (Nat.not_le.mp hn)
        rw [if_neg (not_or_intro Bool.false_ne_true hn), hlimit]
        exact decided_error e

mutual

/-- A value at some depth converts to an image, or its first offence is
    the error. -/
theorem decided_convertAt (config : Config) :
    ∀ (v : Value) (depth : Nat),
      Decided (v.offences config depth) v.Image
        (convertAt config v depth)
  | v, depth => by
      rw [Value.offences.eq_def, convertAt.eq_def]
      by_cases hdeep : config.maxDepth < depth
      · rw [if_pos hdeep, if_pos hdeep]
        exact decided_error _
      rw [if_neg hdeep, if_neg hdeep, List.nil_append]
      cases v with
      | null => exact decided_ok .null
      | bool b => exact decided_ok .bool
      | text s => exact decided_ok .text
      | blob bytes => exact decided_error _
      | int i => exact decided_exact (.int Binary64.ofInt_is)
      | uint n => exact decided_exact (.uint Binary64.ofNat_is)
      | float x =>
          by_cases hx : x.isFinite = true
          · simp only [if_pos hx]
            exact decided_ok .float
          · simp only [if_neg hx]
            exact decided_error _
      | list items =>
          exact decided_map (decided_convertItems config items (depth + 1))
            fun ds hds => decided_ok (.list hds)
      | map entries =>
          refine decided_map (decided_convertEntries config entries
            (depth + 1) [] [] (fun _ => Iff.rfl) .nil) ?_
          rintro sorted ⟨members, himages, hperm, hsorted⟩
          rw [List.append_nil] at hperm
          exact decided_ok (.map himages hperm hsorted)

theorem decided_convertItems (config : Config) :
    ∀ (items : List Value) (depth : Nat),
      Decided (itemOffences config depth items)
        (List.Forall₂ Value.Image items)
        (convertItems config items depth)
  | [], _ => decided_ok .nil
  | v :: vs, depth =>
      decided_bind (decided_convertAt config v depth) fun _ hd =>
        decided_map (decided_convertItems config vs depth) fun _ hds =>
          decided_ok (.cons hd hds)

theorem decided_convertEntries (config : Config) :
    ∀ (entries : List (Value × Value)) (depth : Nat)
      (earlier : List String) (done : List (String × Datum)),
      (∀ name, name ∈ done.map Prod.fst ↔ name ∈ earlier) →
      Entries.Sorted done →
      Decided (entryOffences config depth earlier entries)
        (fun out => ∃ members,
          List.Forall₂ Value.EntryImage entries members ∧
            out.Perm (members ++ done) ∧ Entries.Sorted out)
        (convertEntries config entries depth done)
  | [], _, _, _, _, hsorted =>
      decided_ok ⟨[], .nil, .refl _, hsorted⟩
  | (key, item) :: rest, depth, earlier, done, hdone, hsorted => by
      rw [entryOffences, convertEntries, keyOffences, repeatOffences]
      cases key with
      | text name =>
          simp only [Value.asText, Option.toList_some, List.nil_append]
          refine decided_bind (decided_convertAt config item depth) ?_
          intro d hd
          by_cases hname : name ∈ earlier
          · rw [if_pos hname,
              if_pos (Entries.has_iff.mpr ((hdone name).mpr hname))]
            exact decided_error _
          have hnew : name ∉ done.map Prod.fst := mt (hdone name).mp hname
          rw [if_neg hname, if_neg (mt Entries.has_iff.mp hnew)]
          have hput := Entries.put_perm d hnew
          have hdone' : ∀ other,
              other ∈ (Entries.put name d done).map Prod.fst ↔
                other ∈ name :: earlier := by
            intro other
            rw [(hput.map Prod.fst).mem_iff, List.map_cons, List.mem_cons,
              List.mem_cons, hdone other]
          -- As written the entry comes first, wherever it was put.
          refine decided_mono (decided_convertEntries config rest depth _ _
            hdone' (Entries.sorted_put d hsorted)) ?_
          rintro out ⟨members, himages, hperm, hout⟩
          refine ⟨(name, d) :: members, .cons (.mk hd) himages, ?_, hout⟩
          exact (hperm.trans (hput.append_left members)).trans
            List.perm_middle
      | _ => exact decided_error _

end

/-- A value at some depth converts exactly when it is admitted there. -/
theorem ok_iff_admitsAt {v : Value} :
    (∃ d, convertAt config v depth = .ok d) ↔ config.AdmitsAt depth v := by
  rw [← offences_eq_nil_iff]
  exact decided_ok_iff (decided_convertAt config v depth)

/-- The datum of a value is an image of it. -/
theorem image_of_ok {v : Value} {d : Datum}
    (h : convertAt config v depth = .ok d) : v.Image d := by
  have hdecided := decided_convertAt config v depth
  rw [(decided_ok_iff hdecided).mp ⟨d, h⟩] at hdecided
  obtain ⟨d', hd', himage⟩ := hdecided
  exact Except.ok.inj (hd'.symm.trans h) ▸ himage

/-- **The standard converter takes exactly what is admitted, and gives its
    image.**  A value converts exactly when nothing that is reached through
    items of lists and maps is deeper than the limit, the root being at
    depth zero, is a blob, a number that is not finite, an integer beyond
    `2 ^ 53` where these are not allowed, or a map whose keys are not
    different texts.  Its datum then has the structure of the value; and
    where there is none, the error is the first offence in document
    order. -/
theorem convert_standard (config : Config) (v : Value) :
    ((∃ d, (standard config).convert v = .ok d) ↔ config.Admits v) ∧
      (∀ d, (standard config).convert v = .ok d → v.Image d) ∧
      ∀ e, (standard config).convert v = .error e ↔
        (v.offences config 0).head? = some e := by
  have h := decided_convertAt config v 0
  refine ⟨?_, fun d hd => ?_, fun e => decided_error_iff h⟩
  · rw [← admitsAt_zero, ← offences_eq_nil_iff]
    exact decided_ok_iff h
  · have hnone := (decided_ok_iff h).mp ⟨d, hd⟩
    rw [hnone] at h
    obtain ⟨d', hd', himage⟩ := h
    exact Except.ok.inj (hd'.symm.trans hd) ▸ himage

example :
    (Value.map [(.text "a", .blob []), (.text "a", .list [.int 1]),
      (.null, .null)]).offences ⟨1, false⟩ 0
      = [.unsupported .blob, .tooDeep .int 1, .duplicateKey "a",
          .keyNotText .null] :=
  rfl

end ChainQuery
