import ChainQuery.Proofs.Meeting

/-! # Operands — what equal nodes carry besides their parts

    The names, flags and literals of a step, a root or a reduction can be
    read back from its term: an absent name and a flag that is off leave
    no argument behind, and no two of them share a name.  So steps of one
    kind with equal names and like literals are alike (`alike_step`), and
    roots and reductions with equal terms are (`alike_root`,
    `alike_reduction`). -/

namespace ChainQuery

open Term Translation

/-! ## Names and flags -/

/-- A name that may be absent, as a named argument. -/
def textNames (key : String) (s : Option String) : List (String × Term) :=
  s.toList.map fun s => (key, .text s)

/-- A flag that may be off, as a named argument. -/
def flagNames (key : String) (on : Bool) : List (String × Term) :=
  if on then [(key, .flag)] else []

/-- Named arguments that are equal one by one. -/
def SameNames (es fs : List (String × Term)) : Prop :=
  List.Forall₂ (fun e f => e.1 = f.1 ∧ e.2.same f.2 = true) es fs

theorem textNames_same {key : String} {s s' : Option String}
    (h : SameNames (textNames key s) (textNames key s')) : s = s' := by
  cases s with
  | none =>
      cases s' with
      | none => rfl
      | some s' => cases h
  | some s =>
      cases s' with
      | none => cases h
      | some s' =>
          rcases h with - | ⟨⟨-, htext⟩, -⟩
          rw [same_text.mp htext]

/-- Flags that are followed by as many names are equal. -/
theorem flagNames_same {key key' : String} {on on' : Bool}
    {es fs : List (String × Term)} (hlen : es.length = fs.length)
    (h : SameNames (flagNames key on ++ es) (flagNames key' on' ++ fs)) :
    on = on' := by
  have hall := h.length_eq
  rw [List.length_append, List.length_append, hlen,
    Nat.add_right_cancel_iff] at hall
  cases on with
  | false =>
      cases on' with
      | false => rfl
      | true => cases hall
  | true =>
      cases on' with
      | false => cases hall
      | true => rfl

theorem names_get (key : PrimaryKey) (keyMember : Option String) :
    (Step.get key keyMember).names = textNames "attribute" keyMember := by
  cases keyMember <;> rfl

theorem names_getAll (key : Value) (index : Option String) :
    (Step.getAll key index).names = textNames "index" index := by
  cases index <;> rfl

theorem names_between (left right : Value) (index : Option String)
    (lb rb : Bound) :
    (Step.between left right index lb rb).names
      = textNames "index" index ++ [("left_bound", .text lb.word),
          ("right_bound", .text rb.word)] := by
  cases index <;> rfl

theorem names_replace (v : Value) (nonAtomic : Bool) :
    (Step.replace v nonAtomic).names
      = flagNames "non_atomic" nonAtomic ++ [] := by
  cases nonAtomic <;> rfl

theorem names_replaceAndReturn (v : Value) (nonAtomic : Bool) :
    (Step.replaceAndReturn v nonAtomic).names
      = flagNames "non_atomic" nonAtomic ++ [("return_vals", .flag)] := by
  cases nonAtomic <;> rfl

theorem names_update (nonAtomic : Bool) :
    (RowStep.update nonAtomic).names
      = flagNames "non_atomic" nonAtomic ++ [] := by
  cases nonAtomic <;> rfl

theorem names_updateAndReturn (nonAtomic : Bool) :
    (RowStep.updateAndReturn nonAtomic).names
      = flagNames "non_atomic" nonAtomic ++ [("return_vals", .flag)] := by
  cases nonAtomic <;> rfl

/-- Equal named arguments have the same names. -/
theorem sameNames_keys {es fs : List (String × Term)}
    (h : SameNames es fs) : es.map Prod.fst = fs.map Prod.fst := by
  induction h with
  | nil => rfl
  | cons hhead _ ih => rw [List.map_cons, List.map_cons, hhead.1, ih]

/-- A write never has the names of a write that returns. -/
theorem flagNames_return (on on' : Bool) :
    (flagNames "non_atomic" on ++ []).map Prod.fst
      ≠ (flagNames "non_atomic" on' ++ [("return_vals", Term.flag)]).map
          Prod.fst := by
  cases on <;> cases on' <;> decide

theorem word_inj {b b' : Bound} (h : b.word = b'.word) : b = b' := by
  cases b <;> cases b' <;> first | rfl | exact absurd h (by decide)

/-- Ranges with equal names have the same index and bounds. -/
theorem between_names_same {index index' : Option String}
    {lb rb lb' rb' : Bound}
    (h : SameNames
      (textNames "index" index ++ [("left_bound", .text lb.word),
        ("right_bound", .text rb.word)])
      (textNames "index" index' ++ [("left_bound", .text lb'.word),
        ("right_bound", .text rb'.word)])) :
    index = index' ∧ lb = lb' ∧ rb = rb' := by
  have hbounds : ∀ {es fs : List (String × Term)}, SameNames
      (("left_bound", .text lb.word) :: ("right_bound", .text rb.word) :: es)
      (("left_bound", .text lb'.word) :: ("right_bound", .text rb'.word)
        :: fs) → lb = lb' ∧ rb = rb' := by
    rintro es fs (- | ⟨⟨-, hl⟩, - | ⟨⟨-, hr⟩, -⟩⟩)
    exact ⟨word_inj (same_text.mp hl), word_inj (same_text.mp hr)⟩
  cases index with
  | none =>
      cases index' with
      | none => exact ⟨rfl, hbounds h⟩
      | some i' => exact absurd h.length_eq (by simp [textNames])
  | some i =>
      cases index' with
      | none => exact absurd h.length_eq (by simp [textNames])
      | some i' =>
          rcases h with - | ⟨⟨-, htext⟩, hrest⟩
          exact ⟨congrArg some (same_text.mp htext), hbounds hrest⟩

/-! ## Steps -/

/-- Steps of one kind with equal names and like literals are alike. -/
theorem alike_step {c : Converter} {s s' : Step} (hkind : s.kind = s'.kind)
    (hlit : List.Forall₂ c.Alike s.literals s'.literals)
    (hnames : SameNames s.names s'.names) : Step.Alike c s s' := by
  cases s with
  | get key m =>
      cases s' with
      | get key' m' =>
          rw [names_get, names_get] at hnames
          cases textNames_same hnames
          exact .get (List.forall₂_cons.mp hlit).1
      | _ => cases hkind
  | getAll v index =>
      cases s' with
      | getAll w index' =>
          rw [names_getAll, names_getAll] at hnames
          cases textNames_same hnames
          exact .getAll (List.forall₂_cons.mp hlit).1
      | _ => cases hkind
  | between left right index lb rb =>
      cases s' with
      | between left' right' index' lb' rb' =>
          rw [names_between, names_between] at hnames
          obtain ⟨rfl, rfl, rfl⟩ := between_names_same hnames
          obtain ⟨hleft, hrest⟩ := List.forall₂_cons.mp hlit
          exact .between hleft (List.forall₂_cons.mp hrest).1
      | _ => cases hkind
  | skip n =>
      cases s' with
      | skip n' => exact .skip (List.forall₂_cons.mp hlit).1
      | _ => cases hkind
  | limit n =>
      cases s' with
      | limit n' => exact .limit (List.forall₂_cons.mp hlit).1
      | _ => cases hkind
  | slice start stop =>
      cases s' with
      | slice start' stop' =>
          cases stop with
          | none =>
              cases stop' with
              | none => exact .sliceFrom (List.forall₂_cons.mp hlit).1
              | some n' => exact absurd hlit.length_eq (by simp [Step.literals])
          | some n =>
              cases stop' with
              | none => exact absurd hlit.length_eq (by simp [Step.literals])
              | some n' =>
                  obtain ⟨hstart, hrest⟩ := List.forall₂_cons.mp hlit
                  exact .slice hstart (List.forall₂_cons.mp hrest).1
      | _ => cases hkind
  | nth n =>
      cases s' with
      | nth n' => exact .nth (List.forall₂_cons.mp hlit).1
      | _ => cases hkind
  | distinct =>
      cases s' with
      | distinct => exact .refl _
      | _ => cases hkind
  | count =>
      cases s' with
      | count => exact .refl _
      | _ => cases hkind
  | zip =>
      cases s' with
      | zip => exact .refl _
      | _ => cases hkind
  | replace v b =>
      cases s' with
      | replace w b' =>
          rw [names_replace, names_replace] at hnames
          cases flagNames_same rfl hnames
          exact .replace (List.forall₂_cons.mp hlit).1
      | replaceAndReturn w b' =>
          rw [names_replace, names_replaceAndReturn] at hnames
          exact absurd (sameNames_keys hnames) (flagNames_return _ _)
      | _ => cases hkind
  | replaceAndReturn v b =>
      cases s' with
      | replaceAndReturn w b' =>
          rw [names_replaceAndReturn, names_replaceAndReturn] at hnames
          cases flagNames_same rfl hnames
          exact .replaceAndReturn (List.forall₂_cons.mp hlit).1
      | replace w b' =>
          rw [names_replace, names_replaceAndReturn] at hnames
          exact absurd (sameNames_keys hnames).symm (flagNames_return _ _)
      | _ => cases hkind
  | delete =>
      cases s' with
      | delete => exact .refl _
      | deleteAndReturn => cases hnames
      | _ => cases hkind
  | deleteAndReturn =>
      cases s' with
      | deleteAndReturn => exact .refl _
      | delete => cases hnames
      | _ => cases hkind

/-- Row steps of one kind with equal names are equal. -/
theorem rowStep_eq {s s' : RowStep} (hkind : s.kind = s'.kind)
    (hnames : SameNames s.names s'.names) : s = s' := by
  cases s with
  | filter =>
      cases s' with
      | filter => rfl
      | _ => cases hkind
  | map =>
      cases s' with
      | map => rfl
      | _ => cases hkind
  | concatMap =>
      cases s' with
      | concatMap => rfl
      | _ => cases hkind
  | update b =>
      cases s' with
      | update b' =>
          rw [names_update, names_update] at hnames
          rw [flagNames_same rfl hnames]
      | updateAndReturn b' =>
          rw [names_update, names_updateAndReturn] at hnames
          exact absurd (sameNames_keys hnames) (flagNames_return _ _)
      | _ => cases hkind
  | updateAndReturn b =>
      cases s' with
      | updateAndReturn b' =>
          rw [names_updateAndReturn, names_updateAndReturn] at hnames
          rw [flagNames_same rfl hnames]
      | update b' =>
          rw [names_update, names_updateAndReturn] at hnames
          exact absurd (sameNames_keys hnames).symm (flagNames_return _ _)
      | _ => cases hkind

/-! ## Roots -/

/-- The kind of term a root makes. -/
def Root.kind : Root → Kind
  | .db _ => .db
  | .table _ => .table
  | .dbCreate _ => .dbCreate
  | .dbDrop _ => .dbDrop
  | .dbList => .dbList
  | .tableCreate _ _ => .tableCreate
  | .tableDrop _ _ => .tableDrop
  | .tableList _ => .tableList
  | .indexCreate _ _ => .indexCreate
  | .indexDrop _ _ => .indexDrop
  | .indexList _ => .indexList
  | .literal _ => .datum
  | .literalSeq _ => .makeArray
  | .now => .now
  | .insert _ _ _ => .insert

theorem table_term (t : Table) :
    t.term = .apply .table ((t.db.map databaseTerm).toList ++ [.text t.name])
      (flagNames "use_outdated" t.useOutdated ++ []) := by
  obtain ⟨db, name, useOutdated⟩ := t
  cases useOutdated <;> rfl

theorem insert_term (t : Table) (value : Term) (upsert : Bool) :
    (Term.node .insert [t.term, value]).withFlag "upsert" upsert
      = .apply .insert [t.term, value] (flagNames "upsert" upsert ++ []) := by
  cases upsert <;> rfl

/-- The kind of the term of a root. -/
theorem kind_of_root {c : Converter} {r : Root} {t : Term}
    (h : r.judge c = .ok t) : t.kind = r.kind := by
  cases r with
  | literal v =>
      obtain ⟨d, -, rfl⟩ := judge_leaf h
      rfl
  | literalSeq vs =>
      obtain ⟨items, -, hok⟩ := bind_eq_ok.mp h
      cases hok
      rfl
  | insert table v upsert =>
      obtain ⟨value, -, hok⟩ := bind_eq_ok.mp h
      cases hok
      rw [insert_term]
      rfl
  | table t =>
      cases h
      rw [table_term]
      rfl
  | _ =>
      cases h
      rfl

/-- Equal names of databases. -/
theorem same_database {name name' : String}
    (h : (databaseTerm name).same (databaseTerm name') = true) :
    name = name' := by
  obtain ⟨⟨-, hargs⟩, -⟩ := same_apply.mp h
  exact same_text.mp (List.forall₂_cons.mp hargs).1

/-- Equal references are to the same table and in the same manner. -/
theorem same_table {t t' : Table} (h : t.term.same t'.term = true) :
    t = t' := by
  rw [table_term, table_term] at h
  obtain ⟨⟨-, hargs⟩, hnames⟩ := same_apply.mp h
  have hflag := flagNames_same rfl hnames
  obtain ⟨db, name, useOutdated⟩ := t
  obtain ⟨db', name', useOutdated'⟩ := t'
  replace hflag : useOutdated = useOutdated' := hflag
  subst hflag
  cases db with
  | none =>
      cases db' with
      | none =>
          have hname : name = name' :=
            same_text.mp (List.forall₂_cons.mp hargs).1
          rw [hname]
      | some db' => exact absurd hargs.length_eq (by simp)
  | some db =>
      cases db' with
      | none => exact absurd hargs.length_eq (by simp)
      | some db' =>
          obtain ⟨hdb, hrest⟩ := List.forall₂_cons.mp hargs
          have hname : name = name' :=
            same_text.mp (List.forall₂_cons.mp hrest).1
          rw [same_database hdb, hname]

/-- Equal lists of one text. -/
theorem same_one_text {s s' : String}
    (h : List.Forall₂ (fun a b : Term => a.same b = true) [.text s]
      [.text s']) : s = s' :=
  same_text.mp (List.forall₂_cons.mp h).1

/-- Roots with equal terms are alike. -/
theorem alike_root {c : Converter} {r r' : Root} {t u : Term}
    (hr : r.judge c = .ok t) (hr' : r'.judge c = .ok u)
    (h : t.same u = true) : Root.Alike c r r' := by
  have hkind : r.kind = r'.kind := by
    rw [← kind_of_root hr, ← kind_of_root hr']
    exact kind_of_same h
  cases r with
  | db name =>
      cases r' with
      | db name' =>
          cases hr
          cases hr'
          rw [same_database h]
          exact .refl _
      | _ => cases hkind
  | table t =>
      cases r' with
      | table t' =>
          cases hr
          cases hr'
          rw [same_table h]
          exact .refl _
      | _ => cases hkind
  | dbCreate name =>
      cases r' with
      | dbCreate name' =>
          cases hr
          cases hr'
          rw [same_one_text (same_apply.mp h).1.2]
          exact .refl _
      | _ => cases hkind
  | dbDrop name =>
      cases r' with
      | dbDrop name' =>
          cases hr
          cases hr'
          rw [same_one_text (same_apply.mp h).1.2]
          exact .refl _
      | _ => cases hkind
  | dbList =>
      cases r' with
      | dbList => exact .refl _
      | _ => cases hkind
  | tableCreate db name =>
      cases r' with
      | tableCreate db' name' =>
          cases hr
          cases hr'
          obtain ⟨hdb, hname⟩ :=
            List.forall₂_cons.mp (same_apply.mp h).1.2
          rw [same_database hdb, same_one_text hname]
          exact .refl _
      | _ => cases hkind
  | tableDrop db name =>
      cases r' with
      | tableDrop db' name' =>
          cases hr
          cases hr'
          obtain ⟨hdb, hname⟩ :=
            List.forall₂_cons.mp (same_apply.mp h).1.2
          rw [same_database hdb, same_one_text hname]
          exact .refl _
      | _ => cases hkind
  | tableList db =>
      cases r' with
      | tableList db' =>
          cases hr
          cases hr'
          obtain ⟨hdb, -⟩ := List.forall₂_cons.mp (same_apply.mp h).1.2
          rw [same_database hdb]
          exact .refl _
      | _ => cases hkind
  | indexCreate t name =>
      cases r' with
      | indexCreate t' name' =>
          cases hr
          cases hr'
          obtain ⟨ht, hname⟩ := List.forall₂_cons.mp (same_apply.mp h).1.2
          rw [same_table ht, same_one_text hname]
          exact .refl _
      | _ => cases hkind
  | indexDrop t name =>
      cases r' with
      | indexDrop t' name' =>
          cases hr
          cases hr'
          obtain ⟨ht, hname⟩ := List.forall₂_cons.mp (same_apply.mp h).1.2
          rw [same_table ht, same_one_text hname]
          exact .refl _
      | _ => cases hkind
  | indexList t =>
      cases r' with
      | indexList t' =>
          cases hr
          cases hr'
          obtain ⟨ht, -⟩ := List.forall₂_cons.mp (same_apply.mp h).1.2
          rw [same_table ht]
          exact .refl _
      | _ => cases hkind
  | literal v =>
      cases r' with
      | literal w => exact .literal (alike_of_judge hr hr' h)
      | _ => cases hkind
  | literalSeq vs =>
      cases r' with
      | literalSeq ws =>
          obtain ⟨ts, hts, hok⟩ := bind_eq_ok.mp hr
          obtain ⟨us, hus, hok'⟩ := bind_eq_ok.mp hr'
          cases hok
          cases hok'
          exact .literalSeq
            (alike_of_judgeAll hts hus (same_apply.mp h).1.2)
      | _ => cases hkind
  | now =>
      cases r' with
      | now => exact .refl _
      | _ => cases hkind
  | insert t v upsert =>
      cases r' with
      | insert t' w upsert' =>
          obtain ⟨value, hvalue, hok⟩ := bind_eq_ok.mp hr
          obtain ⟨value', hvalue', hok'⟩ := bind_eq_ok.mp hr'
          cases hok
          cases hok'
          rw [insert_term, insert_term] at h
          obtain ⟨⟨-, hargs⟩, hnames⟩ := same_apply.mp h
          obtain ⟨ht, hrest⟩ := List.forall₂_cons.mp hargs
          cases same_table ht
          cases flagNames_same rfl hnames
          exact .insert (alike_of_judge hvalue hvalue'
            (List.forall₂_cons.mp hrest).1)
      | _ => cases hkind

/-- Selectors that go by one name select the same member. -/
theorem sameMember_of_judge {use use' : SelectorUse} {f g : RowFunc}
    {t u : Term} (hf : f.judgeMember use = .ok t)
    (hg : g.judgeMember use' = .ok u) (h : t.same u = true) :
    f.SameMember g := by
  obtain ⟨name, hname, rfl⟩ := judgeMember_leaf hf
  obtain ⟨name', hname', rfl⟩ := judgeMember_leaf hg
  cases same_text.mp h
  obtain ⟨row, rfl⟩ := memberName_iff.mp hname
  obtain ⟨row', rfl⟩ := memberName_iff.mp hname'
  exact ⟨row, row', name, rfl, rfl⟩

/-- Reductions with equal objects are alike: the name of the one entry
    tells which, its leaf tells of what. -/
theorem alike_reduction {r r' : Reduction} {t u : Term}
    (hr : r.judge = .ok t) (hr' : r'.judge = .ok u)
    (h : t.same u = true) : Reduction.Alike r r' := by
  obtain ⟨d, rfl, hmember⟩ := judge_reduction hr
  obtain ⟨d', rfl, hmember'⟩ := judge_reduction hr'
  obtain ⟨hlabel, hleaf⟩ := (List.forall₂_cons.mp (same_apply.mp h).2).1
  replace hlabel : r.label = r'.label := hlabel
  cases r with
  | count =>
      cases r' with
      | count => exact .count
      | _ => simp [Reduction.label] at hlabel
  | sum f =>
      cases r' with
      | sum g =>
          obtain ⟨use, hf⟩ := hmember f (Or.inl rfl)
          obtain ⟨use', hg⟩ := hmember' g (Or.inl rfl)
          exact .sum (sameMember_of_judge hf hg hleaf)
      | _ => simp [Reduction.label] at hlabel
  | average f =>
      cases r' with
      | average g =>
          obtain ⟨use, hf⟩ := hmember f (Or.inr rfl)
          obtain ⟨use', hg⟩ := hmember' g (Or.inr rfl)
          exact .average (sameMember_of_judge hf hg hleaf)
      | _ => simp [Reduction.label] at hlabel

end ChainQuery
