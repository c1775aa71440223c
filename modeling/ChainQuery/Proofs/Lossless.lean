import ChainQuery.Proofs.Equality
import ChainQuery.Proofs.Induction

/-! # Lossless conversion — what equal datums say of their values

    Where integers must be exact, the datum of a value keeps all of it but
    the form in which a number was written and the order of the entries of
    a map.  `Value.Equivalent` says that two values differ in nothing else.
    The route:

    * the number of a value that is admitted is what the value denotes
      (`denotes_of_image`), and finite numbers are equal exactly when they
      measure the same (`same_number_iff`);
    * entries that are sorted by key are equal one by one exactly when
      they have the same keys, and equal items under each
      (`Entries.related_iff`, `same_object_iff`);
    * so datums are equal exactly when their values are equivalent, by
      induction on a value (`same_iff_equivalent`). -/

namespace ChainQuery

open Converter

/-! ## Values up to number forms and order of entries -/

namespace Value

/-- A value denotes a number, measured in units of `2 ^ (-1074)`. -/
inductive Denotes : Value → Int → Prop where
  | int (i : Int64) : Denotes (.int i) (i.toInt * Binary64.unitsOfOne)
  | uint (n : UInt64) : Denotes (.uint n) (n.toNat * Binary64.unitsOfOne)
  | float {x : Binary64} : x.isFinite = true → Denotes (.float x) x.units

/-- Values that say the same.  Numbers of any form do when they denote one
    number, lists item by item, and maps when they have the same keys and
    under each key items that say the same, whatever their order. -/
inductive Equivalent : Value → Value → Prop where
  | number {v w units} : v.Denotes units → w.Denotes units →
      Equivalent v w
  | null : Equivalent .null .null
  | bool {b} : Equivalent (.bool b) (.bool b)
  | text {s} : Equivalent (.text s) (.text s)
  | list {vs ws} : List.Forall₂ Equivalent vs ws →
      Equivalent (.list vs) (.list ws)
  | map {es fs : List (Value × Value)} :
      (∀ key, key ∈ es.map Prod.fst ↔ key ∈ fs.map Prod.fst) →
      (∀ key v w, (key, v) ∈ es → (key, w) ∈ fs → Equivalent v w) →
      Equivalent (.map es) (.map fs)

end Value

namespace Value

theorem equivalent_bool {a b : Bool} :
    (Value.bool a).Equivalent (.bool b) ↔ a = b := by
  constructor
  · intro h
    cases h with
    | bool => rfl
    | number hden _ => cases hden
  · rintro rfl
    exact .bool

theorem equivalent_text {s t : String} :
    (Value.text s).Equivalent (.text t) ↔ s = t := by
  constructor
  · intro h
    cases h with
    | text => rfl
    | number hden _ => cases hden
  · rintro rfl
    exact .text

theorem equivalent_list {vs ws : List Value} :
    (Value.list vs).Equivalent (.list ws) ↔
      List.Forall₂ Equivalent vs ws := by
  constructor
  · intro h
    cases h with
    | list h => exact h
    | number hden _ => cases hden
  · exact .list

theorem equivalent_map {es fs : List (Value × Value)} :
    (Value.map es).Equivalent (.map fs) ↔
      (∀ key, key ∈ es.map Prod.fst ↔ key ∈ fs.map Prod.fst) ∧
        ∀ key v w, (key, v) ∈ es → (key, w) ∈ fs → Equivalent v w := by
  constructor
  · intro h
    cases h with
    | map hkeys hitems => exact ⟨hkeys, hitems⟩
    | number hden _ => cases hden
  · rintro ⟨hkeys, hitems⟩
    exact .map hkeys hitems

end Value

/-! ## Numbers -/

variable {config : Config} {depth : Nat} {v w : Value} {d e : Datum}
  {units : Int}

theorem denotes_unique {m n : Int} (hm : v.Denotes m) (hn : v.Denotes n) :
    m = n := by
  cases hm <;> cases hn <;> rfl

theorem image_of_denotes (hden : v.Denotes units) (himage : v.Image d) :
    ∃ x, d = .number x := by
  cases hden <;> cases himage <;> exact ⟨_, rfl⟩

/-- Where integers must be exact, the number of an admitted value is what
    the value denotes. -/
theorem denotes_of_image (hstrict : config.lossyIntegers = false)
    (hv : config.AdmitsAt depth v) {x : Binary64}
    (himage : v.Image (.number x)) :
    x.isFinite = true ∧ v.Denotes x.units := by
  have htakes := (hv 0 v .here).2
  cases himage with
  | @int i hexact =>
      rcases htakes with hlossy | hsmall
      · rw [hstrict] at hlossy
        cases hlossy
      obtain ⟨hfinite, hunits⟩ := hexact hsmall
      rw [hunits]
      exact ⟨hfinite, .int i⟩
  | @uint n hexact =>
      rcases htakes with hlossy | hsmall
      · rw [hstrict] at hlossy
        cases hlossy
      obtain ⟨hfinite, hunits⟩ := hexact hsmall
      rw [hunits]
      exact ⟨hfinite, .uint n⟩
  | float => exact ⟨htakes, .float htakes⟩

/-- A value that denotes a number becomes that number. -/
theorem number_of_denotes (hstrict : config.lossyIntegers = false)
    (hv : config.AdmitsAt depth v) (himage : v.Image d)
    (hden : v.Denotes units) :
    ∃ x, d = .number x ∧ x.isFinite = true ∧ x.units = units := by
  obtain ⟨x, rfl⟩ := image_of_denotes hden himage
  obtain ⟨hfinite, hx⟩ := denotes_of_image hstrict hv himage
  exact ⟨x, rfl, hfinite, denotes_unique hx hden⟩

/-- A number is equal to the datums of values that denote it. -/
theorem same_number_iff (hstrict : config.lossyIntegers = false)
    (hv : config.AdmitsAt depth v) (hw : config.AdmitsAt depth w)
    {x : Binary64} (hx : v.Image (.number x)) (he : w.Image e) :
    (Datum.number x).same e = true ↔ v.Equivalent w := by
  obtain ⟨hxfinite, hxden⟩ := denotes_of_image hstrict hv hx
  constructor
  · intro h
    cases e with
    | number y =>
        obtain ⟨hyfinite, hyden⟩ := denotes_of_image hstrict hw he
        have hunits : x.units = y.units :=
          (Binary64.same_iff hxfinite hyfinite).mp h
        exact .number hxden (hunits ▸ hyden)
    | _ => cases h
  · intro h
    cases h with
    | number hvden hwden =>
        obtain ⟨y, rfl, hyfinite, hyunits⟩ :=
          number_of_denotes hstrict hw he hwden
        refine (Binary64.same_iff hxfinite hyfinite).mpr ?_
        rw [hyunits]
        exact denotes_unique hxden hvden
    | _ => cases hx

/-! ## Entries -/

/-- Sorted entries are related one by one when their keys are the same and
    the items under each are related. -/
theorem Entries.related_iff {α : Type} {R : α → α → Prop}
    {es fs : List (String × α)} (hes : Sorted es) (hfs : Sorted fs) :
    Related R es fs ↔
      (∀ key, key ∈ es.map Prod.fst ↔ key ∈ fs.map Prod.fst) ∧
        ∀ key a b, (key, a) ∈ es → (key, b) ∈ fs → R a b := by
  constructor
  · intro h
    refine ⟨fun key => by rw [keys_of_related h], fun key a b ha hb => ?_⟩
    obtain ⟨⟨l, b'⟩, hb', hl, hab⟩ := forall₂_mem_left h ha
    -- What stands beside an entry is the only entry under its key.
    cases hl
    exact item_unique hfs hb' hb ▸ hab
  · rintro ⟨hkeys, hitems⟩
    have heq := keys_ext hes hfs hkeys
    refine List.forall₂_iff_get.mpr ⟨?_, fun i hi hj => ?_⟩
    · simpa using congrArg List.length heq
    have hkey : (es.get ⟨i, hi⟩).1 = (fs.get ⟨i, hj⟩).1 := by
      have hat := congrArg (fun keys => keys[i]?) heq
      simpa [hi, hj] using hat
    refine ⟨hkey, hitems (es.get ⟨i, hi⟩).1 _ _ (List.get_mem ..) ?_⟩
    rw [hkey]
    exact List.get_mem ..

variable {entries : List (Value × Value)}
  {members sorted : List (String × Datum)}

/-- Every entry of a map has its entry in the object. -/
theorem entry_of_image
    (himages : List.Forall₂ Value.EntryImage entries members)
    (hperm : sorted.Perm members) {key item : Value}
    (h : (key, item) ∈ entries) :
    ∃ name d, key = .text name ∧ item.Image d ∧ (name, d) ∈ sorted := by
  obtain ⟨m, hm, himage⟩ := forall₂_mem_left himages h
  cases himage with
  | mk hd => exact ⟨_, _, rfl, hd, hperm.mem_iff.mpr hm⟩

/-- Every entry of the object is that of an entry of the map. -/
theorem image_of_entry
    (himages : List.Forall₂ Value.EntryImage entries members)
    (hperm : sorted.Perm members) {name : String} {d : Datum}
    (h : (name, d) ∈ sorted) :
    ∃ item, (.text name, item) ∈ entries ∧ item.Image d := by
  obtain ⟨entry, hentry, himage⟩ :=
    forall₂_mem_right himages (hperm.mem_iff.mp h)
  cases himage with
  | mk hd => exact ⟨_, hentry, hd⟩

/-- The keys of an object are the texts that are keys of the map. -/
theorem key_iff (himages : List.Forall₂ Value.EntryImage entries members)
    (hperm : sorted.Perm members) {key : Value} :
    key ∈ entries.map Prod.fst ↔
      ∃ name ∈ sorted.map Prod.fst, key = .text name := by
  constructor
  · intro h
    obtain ⟨⟨key, item⟩, hentry, rfl⟩ := List.mem_map.mp h
    obtain ⟨name, d, rfl, -, hd⟩ := entry_of_image himages hperm hentry
    exact ⟨name, List.mem_map_of_mem hd, rfl⟩
  · rintro ⟨_, hname, rfl⟩
    obtain ⟨⟨name, d⟩, hd, rfl⟩ := List.mem_map.mp hname
    obtain ⟨item, hitem, -⟩ := image_of_entry himages hperm hd
    exact List.mem_map_of_mem hitem

/-- Objects are equal exactly when the maps they come from are equivalent,
    if that is so of the items. -/
theorem same_object_iff {others : List (Value × Value)}
    {members' sorted' : List (String × Datum)}
    (himages : List.Forall₂ Value.EntryImage entries members)
    (hperm : sorted.Perm members) (hsorted : Entries.Sorted sorted)
    (himages' : List.Forall₂ Value.EntryImage others members')
    (hperm' : sorted'.Perm members') (hsorted' : Entries.Sorted sorted')
    (hitems : ∀ key v w d e, (key, v) ∈ entries → (key, w) ∈ others →
      v.Image d → w.Image e → (d.same e = true ↔ v.Equivalent w)) :
    (Datum.object sorted).same (.object sorted') = true ↔
      (Value.map entries).Equivalent (.map others) := by
  rw [Datum.same, sameEntries_iff, Entries.related_iff hsorted hsorted',
    Value.equivalent_map]
  constructor
  · rintro ⟨hkeys, hsame⟩
    refine ⟨fun key => ?_, fun key v w hv hw => ?_⟩
    · rw [key_iff himages hperm, key_iff himages' hperm']
      exact exists_congr fun name => and_congr_left' (hkeys name)
    · obtain ⟨name, d, rfl, himage, hd⟩ := entry_of_image himages hperm hv
      obtain ⟨_, e, ⟨⟩, himage', he⟩ := entry_of_image himages' hperm' hw
      exact (hitems _ v w d e hv hw himage himage').mp
        (hsame name d e hd he)
  · rintro ⟨hkeys, hequiv⟩
    refine ⟨fun name => ?_, fun name d e hd he => ?_⟩
    · have hname := hkeys (.text name)
      rw [key_iff himages hperm, key_iff himages' hperm'] at hname
      simpa using hname
    · obtain ⟨v, hv, himage⟩ := image_of_entry himages hperm hd
      obtain ⟨w, hw, himage'⟩ := image_of_entry himages' hperm' he
      exact (hitems _ v w d e hv hw himage himage').mpr
        (hequiv _ v w hv hw)

/-! ## Items -/

/-- Items are equal one by one exactly when the values they come from are
    equivalent, if that is so of each. -/
theorem same_items_iff {vs ws : List Value} {ds es : List Datum}
    (hds : List.Forall₂ Value.Image vs ds)
    (hes : List.Forall₂ Value.Image ws es)
    (hitems : ∀ v ∈ vs, ∀ w ∈ ws, ∀ d e, v.Image d → w.Image e →
      (d.same e = true ↔ v.Equivalent w)) :
    List.Forall₂ Datum.Same ds es ↔ List.Forall₂ Value.Equivalent vs ws := by
  induction hds generalizing ws es with
  | nil =>
      cases hes with
      | nil => exact ⟨fun _ => .nil, fun _ => .nil⟩
      | cons => constructor <;> intro h <;> cases h
  | cons hd _ ih =>
      cases hes with
      | nil => constructor <;> intro h <;> cases h
      | cons he hes =>
          rw [List.forall₂_cons, List.forall₂_cons]
          refine and_congr (hitems _ (.head _) _ (.head _) _ _ hd he) ?_
          exact ih hes fun v hv w hw => hitems v (.tail _ hv) w (.tail _ hw)

/-! ## Datums and values -/

/-- Datums are equal exactly when their values are equivalent. -/
theorem same_iff_equivalent (hstrict : config.lossyIntegers = false)
    (hv : config.AdmitsAt depth v) (hw : config.AdmitsAt depth w)
    (hd : v.Image d) (he : w.Image e) :
    d.same e = true ↔ v.Equivalent w := by
  -- Of two values of different shapes neither side holds; numbers of all
  -- forms are one shape.
  induction v using Value.induction generalizing w d e depth with
  | int i =>
      cases hd with
      | int hexact =>
          exact same_number_iff hstrict hv hw (.int hexact) he
  | uint n =>
      cases hd with
      | uint hexact =>
          exact same_number_iff hstrict hv hw (.uint hexact) he
  | float x =>
      cases hd with
      | float => exact same_number_iff hstrict hv hw .float he
  | null =>
      cases hd
      cases he with
      | null => exact ⟨fun _ => .null, fun _ => rfl⟩
      | _ => exact ⟨nofun, by rintro ⟨⟨⟩, -⟩⟩
  | bool b =>
      cases hd
      cases he with
      | bool =>
          rw [Value.equivalent_bool]
          exact beq_iff_eq
      | _ => exact ⟨nofun, by rintro ⟨⟨⟩, -⟩⟩
  | text s =>
      cases hd
      cases he with
      | text =>
          rw [Value.equivalent_text]
          exact beq_iff_eq
      | _ => exact ⟨nofun, by rintro ⟨⟨⟩, -⟩⟩
  | blob bytes => cases hd
  | list items ih =>
      cases hd with
      | list hds =>
          cases he with
          | list hes =>
              rw [Datum.same, sameItems_iff, Value.equivalent_list]
              exact same_items_iff hds hes fun v hv' w hw' d e hd he =>
                ih v hv' ((admitsAt_list.mp hv).2 v hv')
                  ((admitsAt_list.mp hw).2 w hw') hd he
          | _ => exact ⟨nofun, by rintro ⟨⟨⟩, -⟩⟩
  | map entries ih =>
      cases hd with
      | map himages hperm hsorted =>
          cases he with
          | map himages' hperm' hsorted' =>
              exact same_object_iff himages hperm hsorted himages' hperm'
                hsorted' fun key v w d e hv' hw' hd he =>
                  (ih (key, v) hv').2 ((admitsAt_map.mp hv).2.2 _ hv')
                    ((admitsAt_map.mp hw).2.2 _ hw') hd he
          | _ => exact ⟨nofun, by rintro ⟨⟨⟩, -⟩⟩

/-- A value that contains nothing converts at the root if it is taken. -/
theorem converts_leaf_iff
    (h : ∀ down w, v.Reaches down w → down = 0 ∧ w = v) :
    (∃ d, (standard config).convert v = .ok d) ↔ config.Takes v := by
  show (∃ d, convertAt config v 0 = .ok d) ↔ _
  rw [ok_iff_admitsAt, admitsAt_leaf h]
  exact and_iff_right (Nat.zero_le _)

/-- **Strict conversion loses number forms and the order of entries, and
    nothing else.**  Where integers must be exact, two datums are equal
    exactly when the values they come from are equivalent, whatever the
    depth limit.  A value that denotes a number becomes a finite double of
    exactly that number; integers convert up to and including magnitude
    `2 ^ 53`. -/
theorem strict_conversion_lossless (depth : Nat) (v w : Value)
    (d e : Datum) (hv : (standard ⟨depth, false⟩).convert v = .ok d)
    (hw : (standard ⟨depth, false⟩).convert w = .ok e) :
    (d.same e = true ↔ v.Equivalent w) ∧
      (∀ units, v.Denotes units →
        ∃ x, d = .number x ∧ x.isFinite = true ∧ x.units = units) ∧
      (∀ i : Int64,
        (∃ d', (standard ⟨depth, false⟩).convert (.int i) = .ok d') ↔
          i.toInt.natAbs ≤ 2 ^ 53) ∧
      ∀ n : UInt64,
        (∃ d', (standard ⟨depth, false⟩).convert (.uint n) = .ok d') ↔
          n.toNat ≤ 2 ^ 53 := by
  have hvimage : v.Image d := image_of_ok hv
  have hwimage : w.Image e := image_of_ok hw
  have hvadmits : Config.AdmitsAt ⟨depth, false⟩ 0 v :=
    ok_iff_admitsAt.mp ⟨d, hv⟩
  have hwadmits : Config.AdmitsAt ⟨depth, false⟩ 0 w :=
    ok_iff_admitsAt.mp ⟨e, hw⟩
  refine ⟨same_iff_equivalent rfl hvadmits hwadmits hvimage hwimage,
    fun units => number_of_denotes rfl hvadmits hvimage, fun i => ?_,
    fun n => ?_⟩
  · rw [converts_leaf_iff (by rintro _ _ ⟨⟩; exact ⟨rfl, rfl⟩)]
    exact or_iff_right Bool.false_ne_true
  · rw [converts_leaf_iff (by rintro _ _ ⟨⟩; exact ⟨rfl, rfl⟩)]
    exact or_iff_right Bool.false_ne_true

theorem lossless_of_permuted_entries :
    ∃ d e : Datum,
      (standard .strict).convert
        (.map [(.text "a", .uint 9007199254740992),
          (.text "b", .list [.float ⟨0x4008000000000000⟩])]) = .ok d ∧
      (standard .strict).convert
        (.map [(.text "b", .list [.int 3]),
          (.text "a", .int 9007199254740992)]) = .ok e ∧
      (Value.map [(.text "a", .uint 9007199254740992),
          (.text "b", .list [.float ⟨0x4008000000000000⟩])]).Equivalent
        (.map [(.text "b", .list [.int 3]),
          (.text "a", .int 9007199254740992)]) :=
  ⟨_, _, rfl, rfl,
    (strict_conversion_lossless 20 _ _ _ _ rfl rfl).1.mp (by decide)⟩

end ChainQuery
