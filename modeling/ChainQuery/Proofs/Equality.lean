import ChainQuery.Proofs.Charts
import ChainQuery.Proofs.Conversion
import ChainQuery.Proofs.Fingerprints
import ChainQuery.Proofs.Loosening

/-! # Equality — from equal values to equal datums

    Values that are equal convert to datums that are equal, or fail with
    the same error (`concurs_convertAt`).  A number that is not a number
    differs from itself, and so do a value and a term that hold one; but
    numbers that are not finite have no wire form.  So a value that the
    standard converter takes is equal to itself
    (`same_self_of_admitted`), and so is every term of an expression or a
    chain, whatever else is written in it (`selfEqual_hereditary`). -/

namespace ChainQuery

open Converter Translation

/-! ## Results that concur -/

section Results

variable {ε α β : Type} {R : α → α → Prop} {S : β → β → Prop}

/-- Two results are related, or the same error. -/
inductive Concurs (R : α → α → Prop) :
    Except ε α → Except ε α → Prop where
  | ok {a b} : R a b → Concurs R (.ok a) (.ok b)
  | error (e) : Concurs R (.error e) (.error e)

/-- What goes on from related results alike ends alike. -/
theorem concurs_bind {r s : Except ε α} {f g : α → Except ε β}
    (h : Concurs R r s) (hf : ∀ a b, R a b → Concurs S (f a) (g b)) :
    Concurs S (r >>= f) (s >>= g) := by
  cases h with
  | ok hab => exact hf _ _ hab
  | error e => exact .error e

end Results

/-! ## Entries one by one -/

namespace Entries

variable {α : Type} {R : α → α → Prop} {es fs : List (String × α)}

/-- Entries under the same keys, with related items. -/
abbrev Related (R : α → α → Prop) (es fs : List (String × α)) : Prop :=
  List.Forall₂ (fun e f => e.1 = f.1 ∧ R e.2 f.2) es fs

theorem keys_of_related (h : Related R es fs) :
    es.map Prod.fst = fs.map Prod.fst := by
  induction h with
  | nil => rfl
  | cons he _ ih => rw [List.map_cons, List.map_cons, he.1, ih]

/-- Related entries have the same keys. -/
theorem has_of_related (h : Related R es fs) (key : String) :
    has key es = has key fs := by
  rw [Bool.eq_iff_iff, has_iff, has_iff, keys_of_related h]

/-- Puts of related items leave related entries related. -/
theorem related_put (h : Related R es fs) (key : String) {a b : α}
    (hab : R a b) : Related R (put key a es) (put key b fs) := by
  induction h with
  | nil => exact .cons ⟨rfl, hab⟩ .nil
  | @cons e f es fs he hrest ih =>
      obtain ⟨k, x⟩ := e
      obtain ⟨l, y⟩ := f
      obtain ⟨hkl, hxy⟩ := he
      subst hkl
      rw [put, put]
      by_cases hk : key = k
      · rw [if_pos hk, if_pos hk]
        exact .cons ⟨rfl, hab⟩ hrest
      rw [if_neg hk, if_neg hk]
      by_cases hb : KeyBefore key k
      · rw [if_pos hb, if_pos hb]
        exact .cons ⟨rfl, hab⟩ (.cons ⟨rfl, hxy⟩ hrest)
      · rw [if_neg hb, if_neg hb]
        exact .cons ⟨rfl, hxy⟩ ih

end Entries

/-! ## Equal values -/

/-- Datums that are equal. -/
abbrev Datum.Same (d e : Datum) : Prop :=
  d.same e = true

theorem sameItems_iff {ds es : List Datum} :
    Datum.sameItems ds es = true ↔ List.Forall₂ Datum.Same ds es := by
  induction ds generalizing es with
  | nil =>
      cases es with
      | nil => exact ⟨fun _ => .nil, fun _ => rfl⟩
      | cons e es => constructor <;> intro h <;> cases h
  | cons d ds ih =>
      cases es with
      | nil => constructor <;> intro h <;> cases h
      | cons e es =>
          rw [Datum.sameItems, Bool.and_eq_true, ih, List.forall₂_cons]

theorem sameEntries_iff {ms ns : List (String × Datum)} :
    Datum.sameEntries ms ns = true ↔ Entries.Related Datum.Same ms ns := by
  induction ms generalizing ns with
  | nil =>
      cases ns with
      | nil => exact ⟨fun _ => .nil, fun _ => rfl⟩
      | cons n ns => constructor <;> intro h <;> cases h
  | cons m ms ih =>
      cases ns with
      | nil => constructor <;> intro h <;> cases h
      | cons n ns =>
          obtain ⟨k, d⟩ := m
          obtain ⟨l, e⟩ := n
          rw [Datum.sameEntries, Bool.and_eq_true, Bool.and_eq_true,
            beq_iff_eq, ih]
          constructor
          · rintro ⟨hentry, hrest⟩
            exact .cons hentry hrest
          · intro h
            cases h with
            | cons hentry hrest => exact ⟨hentry, hrest⟩

namespace Value

variable {v w : Value}

/-- Equal values are of one kind. -/
theorem kind_of_same (h : v.same w = true) : v.kind = w.kind := by
  cases v <;> cases w <;> first | rfl | cases h

/-- Equal values have the same text, if any. -/
theorem asText_of_same (h : v.same w = true) : v.asText = w.asText := by
  cases v with
  | text s =>
      cases w with
      | text s' =>
          have hs : s = s' := beq_iff_eq.mp h
          rw [hs]
      | _ => cases h
  | _ =>
      cases w with
      | text s' => cases h
      | _ => rfl

end Value

namespace Binary64

variable {x : Binary64}

/-- A number that is not a NaN is equal to itself. -/
theorem same_self (h : x.isNaN = false) : x.same x = true := by
  rw [same, h, beq_self_eq_true]
  rfl

/-- Zeros are finite. -/
theorem isFinite_of_isZero (h : x.isZero = true) : x.isFinite = true := by
  rw [isZero, Bool.and_eq_true, beq_iff_eq] at h
  rw [isFinite, h.1]
  rfl

theorem isNaN_ofInt (i : Int) : (ofInt i).isNaN = false := by
  rw [ofInt]
  by_cases hi : i < 0
  · obtain ⟨hexp, hfrac⟩ := fields_negate (bits_ofNat_lt_top i.natAbs)
    rw [if_pos hi, isNaN, hexp, hfrac]
    exact isNaN_ofNat i.natAbs
  · rw [if_neg hi, isNaN_ofNat]

end Binary64

/-- Equal numbers are both finite, or one infinity. -/
theorem concurs_float {x y : Binary64} (h : x.same y = true) :
    Concurs Datum.Same
      (if x.isFinite then .ok (.number x)
        else .error (ConvertError.notFinite x))
      (if y.isFinite then .ok (.number y)
        else .error (ConvertError.notFinite y)) := by
  rcases Binary64.same_cases h with rfl | ⟨hx, hy⟩
  · by_cases hfinite : x.isFinite = true
    · rw [if_pos hfinite]
      exact .ok h
    · rw [if_neg hfinite]
      exact .error _
  · rw [if_pos (Binary64.isFinite_of_isZero hx),
      if_pos (Binary64.isFinite_of_isZero hy)]
    exact .ok h

/-- An integer is exact enough, or is the error. -/
theorem concurs_exact {p : Prop} [Decidable p] {e : ConvertError}
    {x : Binary64} (h : x.isNaN = false) :
    Concurs Datum.Same (if p then .error e else .ok (.number x))
      (if p then .error e else .ok (.number x)) := by
  by_cases hp : p
  · rw [if_pos hp]
    exact .error e
  · rw [if_neg hp]
    exact .ok (Binary64.same_self h)

mutual

/-- Equal values at one depth convert to equal datums, or to the same
    error. -/
theorem concurs_convertAt (config : Config) :
    ∀ (v w : Value) (depth : Nat), v.same w = true →
      Concurs Datum.Same (convertAt config v depth)
        (convertAt config w depth)
  | v, w, depth, h => by
      -- The depth is checked before the value is looked into.
      rw [convertAt.eq_def, convertAt.eq_def config w,
        Value.kind_of_same h]
      by_cases hdeep : config.maxDepth < depth
      · rw [if_pos hdeep, if_pos hdeep]
        exact .error _
      rw [if_neg hdeep, if_neg hdeep]
      cases v with
      | null =>
          cases w with
          | null => exact .ok rfl
          | _ => cases h
      | bool b =>
          cases w with
          | bool b' => exact .ok h
          | _ => cases h
      | text s =>
          cases w with
          | text s' => exact .ok h
          | _ => cases h
      | float x =>
          cases w with
          | float y => exact concurs_float h
          | _ => cases h
      | int i =>
          cases w with
          | int j =>
              have hij : i = j := beq_iff_eq.mp h
              subst hij
              exact concurs_exact (Binary64.isNaN_ofInt _)
          | _ => cases h
      | uint n =>
          cases w with
          | uint m =>
              have hnm : n = m := beq_iff_eq.mp h
              subst hnm
              exact concurs_exact (Binary64.isNaN_ofNat _)
          | _ => cases h
      | blob bytes =>
          cases w with
          | blob bytes' => exact .error _
          | _ => cases h
      | list items =>
          cases w with
          | list items' =>
              exact concurs_bind
                (concurs_convertItems config items items' _ h)
                fun _ _ hds => .ok (sameItems_iff.mpr hds)
          | _ => cases h
      | map entries =>
          cases w with
          | map entries' =>
              exact concurs_bind
                (concurs_convertEntries config entries entries' _ h .nil)
                fun _ _ hes => .ok (sameEntries_iff.mpr hes)
          | _ => cases h

theorem concurs_convertItems (config : Config) :
    ∀ (vs ws : List Value) (depth : Nat), Value.sameItems vs ws = true →
      Concurs (List.Forall₂ Datum.Same) (convertItems config vs depth)
        (convertItems config ws depth)
  | [], [], _, _ => .ok .nil
  | [], _ :: _, _, h => by cases h
  | _ :: _, [], _, h => by cases h
  | v :: vs, w :: ws, depth, h => by
      rw [Value.sameItems, Bool.and_eq_true] at h
      exact concurs_bind (concurs_convertAt config v w depth h.1)
        fun _ _ hd => concurs_bind
          (concurs_convertItems config vs ws depth h.2)
          fun _ _ hds => .ok (.cons hd hds)

theorem concurs_convertEntries (config : Config) :
    ∀ (es fs : List (Value × Value)) (depth : Nat)
      {done done' : List (String × Datum)},
      Value.sameEntries es fs = true →
      Entries.Related Datum.Same done done' →
      Concurs (Entries.Related Datum.Same)
        (convertEntries config es depth done)
        (convertEntries config fs depth done')
  | [], [], _, _, _, _, hdone => .ok hdone
  | [], _ :: _, _, _, _, h, _ => by cases h
  | _ :: _, [], _, _, _, h, _ => by cases h
  | (key, item) :: es, (key', item') :: fs, depth, done, done', h,
      hdone => by
      rw [Value.sameEntries, Bool.and_eq_true, Bool.and_eq_true] at h
      obtain ⟨⟨hkey, hitem⟩, hrest⟩ := h
      rw [convertEntries, convertEntries, ← Value.asText_of_same hkey,
        ← Value.kind_of_same hkey]
      cases key.asText with
      | none => exact .error _
      | some name =>
          refine concurs_bind
            (concurs_convertAt config item item' depth hitem) ?_
          intro d d' hd
          -- A key that is put already is put on both sides.
          rw [← Entries.has_of_related hdone name]
          by_cases hname : Entries.has name done = true
          · rw [if_pos hname, if_pos hname]
            exact .error _
          · rw [if_neg hname, if_neg hname]
            exact concurs_convertEntries config es fs depth hrest
              (Entries.related_put hdone name hd)

end

/-! ## Values that are taken -/

variable {config : Config}

mutual

/-- A value that is taken, with all that it contains, is equal to
    itself. -/
theorem same_self_of_admitted :
    ∀ (v : Value) (depth : Nat), config.AdmitsAt depth v → v.same v = true
  | .null, _, _ => rfl
  | .bool _, _, _ | .int _, _, _ | .uint _, _, _ | .text _, _, _
  | .blob _, _, _ => beq_self_eq_true _
  | .float _, _, h =>
      Binary64.same_self (Binary64.isNaN_of_isFinite (h 0 _ .here).2)
  | .list items, depth, h =>
      sameItems_self_of_admitted items (depth + 1) (admitsAt_list.mp h).2
  | .map entries, depth, h => by
      obtain ⟨-, hkeys, hitems⟩ := admitsAt_map.mp h
      exact sameEntries_self_of_admitted entries (depth + 1) []
        (distinctTexts_iff.mp hkeys) hitems
termination_by structural v => v

theorem sameItems_self_of_admitted :
    ∀ (items : List Value) (depth : Nat),
      (∀ v ∈ items, config.AdmitsAt depth v) →
        Value.sameItems items items = true
  | [], _, _ => rfl
  | v :: vs, depth, h => by
      obtain ⟨hv, hvs⟩ := List.forall_mem_cons.mp h
      rw [Value.sameItems, same_self_of_admitted v depth hv,
        sameItems_self_of_admitted vs depth hvs]
      rfl
termination_by structural items => items

theorem sameEntries_self_of_admitted :
    ∀ (entries : List (Value × Value)) (depth : Nat)
      (earlier : List String), DistinctTextsAfter earlier entries →
      (∀ e ∈ entries, config.AdmitsAt depth e.2) →
        Value.sameEntries entries entries = true
  | [], _, _, _, _ => rfl
  | (key, item) :: rest, depth, earlier, hkeys, h => by
      obtain ⟨hitem, hrest⟩ := List.forall_mem_cons.mp h
      obtain ⟨name, rfl, -, hkeys⟩ := distinctTextsAfter_cons.mp hkeys
      have hkey : (Value.text name).same (.text name) = true :=
        beq_self_eq_true name
      rw [Value.sameEntries, hkey, same_self_of_admitted item depth hitem,
        sameEntries_self_of_admitted rest depth _ hkeys hrest]
      rfl
termination_by structural entries => entries

end

/-- The datum of a value is equal to itself. -/
theorem same_self_of_converted {v : Value} {d : Datum}
    (h : convertAt config v 0 = .ok d) : d.same d = true := by
  have hadmits : config.AdmitsAt 0 v := ok_iff_admitsAt.mp ⟨d, h⟩
  have hconcurs := concurs_convertAt config v v 0
    (same_self_of_admitted v 0 hadmits)
  rw [h] at hconcurs
  cases hconcurs with
  | ok hd => exact hd

/-! ## Terms -/

variable {supports : Value.Kind → Bool}

/-- Terms that are equal. -/
abbrev Term.Same (t u : Term) : Prop :=
  t.same u = true

/-- Every term that a part gives is equal to itself. -/
def Part.SelfEqual (x : Part) : Prop :=
  ∀ env t, Gives (x env) t → t.same t = true

theorem selfEqual_const {t : Term} (h : t.same t = true) :
    Part.SelfEqual (.const t) := by
  intro env u hu
  cases gives_pure hu
  exact h

theorem same_self_text (s : String) : (Term.text s).same (.text s) = true :=
  Term.same_text.mpr rfl

theorem selfEqual_text (s : String) : Part.SelfEqual (.const (.text s)) :=
  selfEqual_const (same_self_text s)

theorem same_self_of_judged {v : Value} {t : Term}
    (h : (around supports config).judge v = .ok t) : t.same t = true := by
  obtain ⟨d, hd, rfl⟩ := judge_leaf h
  exact same_self_of_converted hd

theorem selfEqual_literal (v : Value) :
    Part.SelfEqual (.literal (around supports config) v) :=
  fun _ _ h => same_self_of_judged (gives_ofExcept h)

theorem same_self_number (n : Nat) :
    (Term.number n).same (.number n) = true :=
  Binary64.same_ofNat n

/-- A function whose body is equal to itself is. -/
theorem selfEqual_function {c : Converter} {f : Func}
    (h : f.body.part c |>.SelfEqual) : (f.part c).SelfEqual := by
  intro env t ht
  obtain ⟨first, body, hbody, rfl⟩ := gives_function ht
  refine Term.same_node _ (.cons (Term.same_node _ ?_)
    (.cons (h _ _ hbody) .nil))
  rw [List.forall₂_map_left_iff, List.forall₂_map_right_iff,
    List.forall₂_same]
  exact fun n _ => same_self_number n

/-- A node whose parts are equal to themselves is. -/
theorem selfEqual_assembled {kind : Term.Kind} {parts : List Part}
    {named : List (String × Part)} {x : Part}
    (h : Assembled kind parts named x) (hparts : ∀ p ∈ parts, p.SelfEqual)
    (hnamed : ∀ m ∈ named, m.2.SelfEqual) : x.SelfEqual := by
  intro env t ht
  obtain ⟨args, optargs, rfl, hargs, hoptargs⟩ := h env t ht
  refine Term.same_apply.mpr ⟨⟨rfl, ?_⟩, ?_⟩
  · rw [List.forall₂_same]
    intro t ht
    obtain ⟨x, hx, hgives⟩ := forall₂_mem_right hargs ht
    exact hparts x hx env t hgives
  · rw [List.forall₂_same]
    intro e he
    obtain ⟨m, hm, -, hgives⟩ := forall₂_mem_right hoptargs he
    exact ⟨rfl, hnamed m hm env e.2 hgives⟩

theorem selfEqual_names {names : List (String × Term)}
    (h : Entries.Related Term.Same names names) :
    ∀ m ∈ constParts names, m.2.SelfEqual := by
  intro m hm
  obtain ⟨e, he, rfl⟩ := List.mem_map.mp hm
  exact selfEqual_const (List.forall₂_same.mp h e he).2

theorem selfEqual_base (base : Option Value) :
    ∀ m ∈ basePart (around supports config) base, m.2.SelfEqual := by
  intro m hm
  obtain ⟨v, -, rfl⟩ := List.mem_map.mp hm
  exact selfEqual_literal v

/-- What is attached by name to a term leaves it equal to itself. -/
theorem same_self_withOptarg {t value : Term} (h : t.same t = true)
    (name : String) (hvalue : value.same value = true) :
    (t.withOptarg name value).same (t.withOptarg name value) = true := by
  cases t with
  | datum d => exact h
  | apply kind args optargs =>
      obtain ⟨hargs, hoptargs⟩ := Term.same_apply.mp h
      exact Term.same_apply.mpr
        ⟨hargs, Entries.related_put (R := Term.Same) hoptargs name hvalue⟩

theorem same_self_withFlag {t : Term} (h : t.same t = true)
    (name : String) (on : Bool) :
    (t.withFlag name on).same (t.withFlag name on) = true := by
  cases on with
  | false => exact h
  | true => exact same_self_withOptarg h name rfl

theorem same_self_withText {t : Term} (h : t.same t = true)
    (name : String) (s : Option String) :
    (t.withText name s).same (t.withText name s) = true := by
  cases s with
  | none => exact h
  | some s => exact same_self_withOptarg h name (same_self_text s)

theorem same_self_attach {t : Term} (h : t.same t = true) (s : Step) :
    (s.attach t).same (s.attach t) = true := by
  cases s with
  | get key keyMember => exact same_self_withText h _ _
  | getAll key index => exact same_self_withText h _ _
  | between left right index lb rb =>
      exact same_self_withOptarg (same_self_withOptarg
        (same_self_withText h _ _) _ (same_self_text _)) _
          (same_self_text _)
  | replace v nonAtomic => exact same_self_withFlag h _ _
  | replaceAndReturn v nonAtomic =>
      exact same_self_withOptarg (same_self_withFlag h _ _) _ rfl
  | deleteAndReturn => exact same_self_withOptarg h _ rfl
  | _ => exact h

theorem same_self_attachRow {t : Term} (h : t.same t = true)
    (s : RowStep) : (s.attach t).same (s.attach t) = true := by
  cases s with
  | update nonAtomic => exact same_self_withFlag h _ _
  | updateAndReturn nonAtomic =>
      exact same_self_withOptarg (same_self_withFlag h _ _) _ rfl
  | _ => exact h

/-- The names and flags of a step are equal to themselves. -/
theorem selfEqual_step (s : Step) :
    ∀ m ∈ constParts s.names, m.2.SelfEqual := by
  -- Attached to a node without arguments, the names stand alone.
  have h := same_self_attach (Term.same_node s.kind .nil) s
  rw [attach_step] at h
  exact selfEqual_names (Term.same_apply.mp h).2

theorem selfEqual_rowStep (s : RowStep) :
    ∀ m ∈ constParts s.names, m.2.SelfEqual := by
  have h := same_self_attachRow (Term.same_node s.kind .nil) s
  rw [attach_rowStep] at h
  exact selfEqual_names (Term.same_apply.mp h).2

/-! ## Roots -/

theorem same_self_database (name : String) :
    (databaseTerm name).same (databaseTerm name) = true :=
  Term.same_node _ (.cons (same_self_text name) .nil)

theorem same_self_table (table : Table) :
    table.term.same table.term = true := by
  refine same_self_withFlag (Term.same_node _ ?_) _ _
  cases table.db with
  | none => exact .cons (same_self_text _) .nil
  | some db =>
      exact .cons (same_self_database db) (.cons (same_self_text _) .nil)

theorem selfEqual_root (r : Root) :
    (Query.part (around supports config) (.root r)).SelfEqual := by
  intro env t ht
  have hjudge : r.judge _ = .ok t := gives_ofExcept ht
  cases r with
  | literal v => exact same_self_of_judged hjudge
  | literalSeq vs =>
      obtain ⟨items, hitems, hok⟩ := bind_eq_ok.mp hjudge
      cases hok
      refine Term.same_node _ (List.forall₂_same.mpr fun t ht => ?_)
      obtain ⟨v, -, hv⟩ := forall₂_mem_right (judgeAll_ok hitems) ht
      exact same_self_of_judged hv
  | insert table v upsert =>
      obtain ⟨value, hvalue, hok⟩ := bind_eq_ok.mp hjudge
      cases hok
      exact same_self_withFlag (Term.same_node _ (.cons
        (same_self_table table) (.cons (same_self_of_judged hvalue) .nil)))
        _ _
  | table table =>
      cases hjudge
      exact same_self_table table
  | dbList | now =>
      cases hjudge
      exact Term.same_node _ .nil
  | db name | dbCreate name | dbDrop name =>
      cases hjudge
      exact Term.same_node _ (.cons (same_self_text name) .nil)
  | tableList db =>
      cases hjudge
      exact Term.same_node _ (.cons (same_self_database db) .nil)
  | tableCreate db name | tableDrop db name =>
      cases hjudge
      exact Term.same_node _ (.cons (same_self_database db)
        (.cons (same_self_text name) .nil))
  | indexList table =>
      cases hjudge
      exact Term.same_node _ (.cons (same_self_table table) .nil)
  | indexCreate table name | indexDrop table name =>
      cases hjudge
      exact Term.same_node _ (.cons (same_self_table table)
        (.cons (same_self_text name) .nil))

/-! ## Expressions and chains -/

theorem selfEqual_judgeMember (use : SelectorUse) (f : RowFunc) :
    Part.SelfEqual (.result (f.judgeMember use)) := by
  intro env t ht
  obtain ⟨name, -, rfl⟩ := judgeMember_leaf (gives_ofExcept ht)
  exact same_self_text name

theorem selfEqual_reduction (r : Reduction) :
    Part.SelfEqual (.result r.judge) := by
  intro env t ht
  have hobject := Term.same_node .makeObj .nil
  have hjudge : r.judge = .ok t := gives_ofExcept ht
  cases r with
  | count =>
      cases hjudge
      exact same_self_withOptarg hobject "COUNT" rfl
  | sum f | average f =>
      obtain ⟨leaf, hleaf, hok⟩ := bind_eq_ok.mp hjudge
      cases hok
      obtain ⟨name, -, rfl⟩ := judgeMember_leaf hleaf
      exact same_self_withOptarg hobject _ (same_self_text name)

theorem selfEqual_key {c : Converter} {k : SortKey}
    (h : (k.body.part c).SelfEqual) : (k.part c).SelfEqual := by
  obtain ⟨f, direction⟩ := k
  refine selfEqual_assembled (assembled_key c f direction)
    (List.forall_mem_singleton.mpr fun env t ht => ?_)
    (List.forall_mem_nil _)
  replace ht : Gives (nameOrTranslate f.toFunc.memberName? _) t := ht
  cases hname : f.toFunc.memberName? with
  | some name =>
      rw [hname] at ht
      cases gives_pure ht
      exact same_self_text name
  | none =>
      rw [hname] at ht
      exact selfEqual_function h env t (rowFunc_gives ht)

theorem selfEqual_object {c : Converter} {ms : List (String × Expr)}
    (h : ∀ m ∈ ms, (m.2.part c).SelfEqual) :
    (Expr.part c (.object ms)).SelfEqual := by
  intro env t ht
  obtain ⟨out, ts, rfl, hperm, hts⟩ := gives_object c ht
  refine Term.same_apply.mpr ⟨⟨rfl, .nil⟩, ?_⟩
  rw [List.forall₂_same]
  intro e he
  -- The term has its members in key order, each with a part it is from.
  obtain ⟨part, hpart, -, hgives⟩ :=
    forall₂_mem_right hts (hperm.mem_iff.mp he)
  obtain ⟨m, hm, rfl⟩ := List.mem_map.mp hpart
  exact ⟨rfl, h m hm env e.2 hgives⟩

/-- Terms of expressions and chains are equal to themselves: numbers in
    them come from finite ones, from integers or from variables. -/
theorem selfEqual_hereditary (supports : Value.Kind → Bool)
    (config : Config) :
    Hereditary (fun e => (e.part (around supports config)).SelfEqual)
      (fun q => (q.part (around supports config)).SelfEqual) where
  param p env t ht := by
    obtain ⟨id, -, rfl⟩ := gives_param ht
    exact Term.same_node _ (.cons (same_self_number id) .nil)
  literal v := selfEqual_literal v
  field e name he :=
    selfEqual_assembled (assembled_field _ e name)
      (by simp [he, selfEqual_text]) (List.forall_mem_nil _)
  compare op a b ha hb :=
    selfEqual_assembled (assembled_compare _ op a b) (by simp [ha, hb])
      (List.forall_mem_nil _)
  arith op a b ha hb :=
    selfEqual_assembled (assembled_arith _ op a b) (by simp [ha, hb])
      (List.forall_mem_nil _)
  all es hes :=
    selfEqual_assembled (assembled_all _ es) (List.forall_mem_map.mpr hes)
      (List.forall_mem_nil _)
  any es hes :=
    selfEqual_assembled (assembled_any _ es) (List.forall_mem_map.mpr hes)
      (List.forall_mem_nil _)
  not e he :=
    selfEqual_assembled (assembled_not _ e)
      (List.forall_mem_singleton.mpr he) (List.forall_mem_nil _)
  array es hes :=
    selfEqual_assembled (assembled_array _ es)
      (List.forall_mem_map.mpr hes) (List.forall_mem_nil _)
  object _ hms := selfEqual_object hms
  call _ _ hes env t ht :=
    selfEqual_assembled (assembled_call _ (call_judged _ ht))
      (List.forall_mem_map.mpr hes) (List.forall_mem_nil _) env t ht
  subquery _ _ hq := hq
  root := selfEqual_root
  indexCreateWith table name key hkey :=
    selfEqual_assembled (assembled_indexCreateWith _ table name key)
      (by simp [selfEqual_const (same_self_table table), selfEqual_text,
        selfEqual_function hkey]) (List.forall_mem_nil _)
  step q s hq :=
    selfEqual_assembled (assembled_step _ q s)
      (List.forall_mem_cons.mpr ⟨hq, List.forall_mem_map.mpr
        fun v _ => selfEqual_literal v⟩) (selfEqual_step s)
  rowStep q s f hq hf :=
    selfEqual_assembled (assembled_rowStep _ q s f)
      (by simp [hq, selfEqual_function hf]) (selfEqual_rowStep s)
  orderBy q first others hq hfirst hothers :=
    selfEqual_assembled (assembled_orderBy _ q first others)
      (List.forall_mem_cons.mpr ⟨hq, List.forall_mem_map.mpr
        (List.forall_mem_cons.mpr ⟨selfEqual_key hfirst,
          fun k hk => selfEqual_key (hothers k hk)⟩)⟩)
      (List.forall_mem_nil _)
  union a b ha hb :=
    selfEqual_assembled (assembled_union _ a b) (by simp [ha, hb])
      (List.forall_mem_nil _)
  reduce q f base hq hf :=
    selfEqual_assembled (assembled_reduce _ q f base)
      (by simp [hq, selfEqual_function hf]) (selfEqual_base base)
  groupBy q reduction key hq hkey :=
    selfEqual_assembled (assembled_groupBy _ q reduction key)
      (by simp [hq, selfEqual_function hkey, selfEqual_reduction])
      (List.forall_mem_nil _)
  groupedMapReduce q g m r base hq hg hm hr :=
    selfEqual_assembled (assembled_groupedMapReduce _ q g m r base)
      (by simp [hq, selfEqual_function hg, selfEqual_function hm,
        selfEqual_function hr]) (selfEqual_base base)
  join kind a b f ha hb hf :=
    selfEqual_assembled (assembled_join _ kind a b f)
      (by simp [ha, hb, selfEqual_function hf]) (List.forall_mem_nil _)
  eqJoin a member b index ha hb := by
    refine selfEqual_assembled (assembled_eqJoin _ a member b index)
      (by simp [ha, hb, selfEqual_judgeMember]) (selfEqual_names ?_)
    refine List.forall₂_same.mpr fun e he => ?_
    obtain ⟨s, -, rfl⟩ := List.mem_map.mp he
    exact ⟨rfl, same_self_text s⟩

end ChainQuery
