import ChainQuery.Proofs.Grammar
import ChainQuery.Proofs.Operands

/-! # Slots — terms that may stand in them

    A slot of the grammar admits a term that fits it and keeps to the
    grammar itself (`Slot.Admits`).  A node is admitted when its arguments
    are, by the slots of a form of its kind (`admits_apply`); so are
    references and roots, selectors and reduction objects, and the leaves
    of the standard converter.  What is given by name is checked once for
    each step (`takes_step`, `takes_rowStep`). -/

namespace ChainQuery

open Term

variable {c : Converter} {config : Converter.Config} {slot : Slot}
  {p : Production} {kind : Kind} {t : Term} {args : List Term}

/-! ## Named arguments -/

/-- Flags that are set, each once. -/
theorem takes_flags (names : List String)
    (hslot : names.map p.slot? = names.map fun _ => some .flag)
    (h : p.always = []) (honce : names.Nodup) :
    p.TakesNamed (names.map fun name => (name, Term.flag)) where
  allowed := by
    rintro e he
    obtain ⟨name, hname, rfl⟩ := List.mem_map.mp he
    exact ⟨.flag, List.map_inj_left.mp hslot name hname, rfl⟩
  always := by
    rw [h]
    exact List.forall_mem_nil _
  once := by
    rw [List.map_map]
    exact (List.map_id names).symm ▸ honce

/-- Nothing, where nothing has to be given. -/
theorem takes_none (h : p.always = []) : p.TakesNamed [] :=
  takes_flags [] rfl h List.nodup_nil

/-- One thing that may be given. -/
theorem takes_one (slot : Slot) {name : String}
    (hslot : p.slot? name = some slot) (h : p.always = [])
    (hfit : slot.Fits t) : p.TakesNamed [(name, t)] where
  allowed := List.forall_mem_singleton.mpr ⟨slot, hslot, hfit⟩
  always := by
    rw [h]
    exact List.forall_mem_nil _
  once := List.pairwise_singleton _ _

theorem takes_textNames {key : String} (s : Option String)
    (hslot : p.slot? key = some .text) (h : p.always = []) :
    p.TakesNamed (textNames key s) := by
  cases s with
  | none => exact takes_none h
  | some s => exact takes_one .text hslot h ⟨s, rfl⟩

theorem takes_flagNames {key : String} (on : Bool)
    (hslot : p.slot? key = some .flag) (h : p.always = []) :
    p.TakesNamed (flagNames key on ++ []) := by
  cases on with
  | false => exact takes_none h
  | true => exact takes_one .flag hslot h rfl

/-- A change may be asked for what it did. -/
theorem takes_returning (nonAtomic : Bool)
    (hslot : ["non_atomic", "return_vals"].map p.slot?
      = [some .flag, some .flag]) (h : p.always = []) :
    p.TakesNamed
      (flagNames "non_atomic" nonAtomic ++ [("return_vals", .flag)]) := by
  cases nonAtomic with
  | false =>
      exact takes_flags ["return_vals"] (List.cons.inj hslot).2 h
        (by decide)
  | true =>
      exact takes_flags ["non_atomic", "return_vals"] hslot h (by decide)

/-- A range has both its ends. -/
theorem takes_between (index : Option String) (left right : Bound) :
    (grammar .between).TakesNamed
      (textNames "index" index ++ [("left_bound", .text left.word),
        ("right_bound", .text right.word)]) := by
  have honce : ["index", "left_bound", "right_bound"].Nodup := by
    decide
  have hword : ∀ b : Bound, Slot.bound.Fits (.text b.word) := by
    intro b
    refine ⟨b.word, ?_, rfl⟩
    cases b <;> decide
  have hbounds : ∀ e ∈ [("left_bound", Term.text left.word),
      ("right_bound", Term.text right.word)],
      ∃ slot ∈ (grammar .between).slot? e.1, slot.Fits e.2 :=
    List.forall_mem_cons.mpr ⟨⟨.bound, rfl, hword left⟩,
      List.forall_mem_singleton.mpr ⟨.bound, rfl, hword right⟩⟩
  cases index with
  | none => exact ⟨hbounds, fun _ h => h, honce.of_cons⟩
  | some s =>
      exact ⟨List.forall_mem_cons.mpr ⟨⟨.text, rfl, s, rfl⟩, hbounds⟩,
        fun _ h => List.mem_cons_of_mem _ h, honce⟩

/-- The names and flags of a step are such as its kind has. -/
theorem takes_step (s : Step) : (grammar s.kind).TakesNamed s.names := by
  cases s with
  | get key keyMember =>
      rw [names_get]
      exact takes_textNames keyMember rfl rfl
  | getAll key index =>
      rw [names_getAll]
      exact takes_textNames index rfl rfl
  | between left right index lb rb =>
      rw [names_between]
      exact takes_between index lb rb
  | replace v nonAtomic =>
      rw [names_replace]
      exact takes_flagNames nonAtomic rfl rfl
  | replaceAndReturn v nonAtomic =>
      rw [names_replaceAndReturn]
      exact takes_returning nonAtomic rfl rfl
  | deleteAndReturn => exact takes_one .flag rfl rfl rfl
  | skip n => exact takes_none rfl
  | limit n => exact takes_none rfl
  | slice start stop => exact takes_none rfl
  | nth n => exact takes_none rfl
  | distinct => exact takes_none rfl
  | count => exact takes_none rfl
  | zip => exact takes_none rfl
  | delete => exact takes_none rfl

/-- The flags of a row step are such as its kind has. -/
theorem takes_rowStep (s : RowStep) :
    (grammar s.kind).TakesNamed s.names := by
  cases s with
  | update nonAtomic =>
      rw [names_update]
      exact takes_flagNames nonAtomic rfl rfl
  | updateAndReturn nonAtomic =>
      rw [names_updateAndReturn]
      exact takes_returning nonAtomic rfl rfl
  | filter => exact takes_none rfl
  | map => exact takes_none rfl
  | concatMap => exact takes_none rfl

/-! ## Terms in slots -/

/-- A term that keeps to the grammar may stand in a slot. -/
def Slot.Admits (slot : Slot) (t : Term) : Prop :=
  t.Obeys grammar ∧ slot.Fits t

theorem admits_leaf {d : Datum} (h : slot.Fits (.datum d)) :
    slot.Admits (.datum d) :=
  ⟨obeys_leaf d, h⟩

theorem admits_text (s : String) : Slot.text.Admits (.text s) :=
  admits_leaf ⟨s, rfl⟩

theorem obeys_of_admits {slots : List Slot}
    (h : List.Forall₂ Slot.Admits slots args) :
    ∀ t ∈ args, t.Obeys grammar := by
  induction h with
  | nil => exact List.forall_mem_nil _
  | cons ht _ ih => exact List.forall_mem_cons.mpr ⟨ht.1, ih⟩

/-- A node of given kinds keeps to the grammar when its arguments are
    admitted by a form of its kind and by what may follow. -/
theorem admits_apply {form rest : List Slot} {kinds : List Kind}
    {named : List (String × Term)} (hkind : kind ∈ kinds)
    (hform : form ∈ (grammar kind).forms)
    (hrest : ∀ slot ∈ rest, slot ∈ (grammar kind).more)
    (hargs : List.Forall₂ Slot.Admits (form ++ rest) args)
    (htakes : (grammar kind).TakesNamed named)
    (hnamed : ∀ e ∈ named, e.2.Obeys grammar) :
    (Slot.of kinds).Admits (.apply kind args named) := by
  have hfits : List.Forall₂ Slot.Fits (form ++ rest) args :=
    hargs.imp fun _ _ h => h.2
  exact ⟨obeys_apply ⟨⟨form, hform, rest, hrest, hfits⟩, htakes⟩
    (obeys_of_admits hargs) hnamed, hkind⟩

/-- A node whose arguments are all fixed, and whose named ones are
    leaves. -/
theorem admits_fixed {form : List Slot} {kinds : List Kind}
    {named : List (String × Term)} (hkind : kind ∈ kinds)
    (hform : form ∈ (grammar kind).forms)
    (hargs : List.Forall₂ Slot.Admits form args)
    (htakes : (grammar kind).TakesNamed named)
    (hleaf : ∀ e ∈ named, ∃ d, e.2 = .datum d) :
    (Slot.of kinds).Admits (.apply kind args named) := by
  rw [← List.append_nil form] at hargs
  exact admits_apply hkind hform (List.forall_mem_nil _) hargs htakes
    (obeys_leaves hleaf)

/-- A node without named arguments. -/
theorem admits_node {form : List Slot} {kinds : List Kind}
    (hkind : kind ∈ kinds) (hform : form ∈ (grammar kind).forms)
    (h : (grammar kind).always = [])
    (hargs : List.Forall₂ Slot.Admits form args) :
    (Slot.of kinds).Admits (.node kind args) :=
  admits_fixed hkind hform hargs (takes_none h) (List.forall_mem_nil _)

/-- One thing related to each in a list. -/
theorem forall₂_replicate {α β : Type} {R : α → β → Prop} {a : α}
    {bs : List β} (h : ∀ b ∈ bs, R a b) :
    List.Forall₂ R (List.replicate bs.length a) bs := by
  induction bs with
  | nil => exact .nil
  | cons b bs ih =>
      obtain ⟨hb, hbs⟩ := List.forall_mem_cons.mp h
      exact .cons hb (ih hbs)

/-- A list of values. -/
theorem admits_array {kinds : List Kind} (hkind : Kind.makeArray ∈ kinds)
    (h : ∀ t ∈ args, Slot.value.Admits t) :
    (Slot.of kinds).Admits (.node .makeArray args) := by
  refine admits_apply hkind (.head _) ?_ (forall₂_replicate h)
    (takes_none rfl) (List.forall_mem_nil _)
  intro slot hslot
  rw [List.eq_of_mem_replicate hslot]
  rfl

/-! ## References, roots and selectors -/

theorem admits_database {kinds : List Kind} (hkind : Kind.db ∈ kinds)
    (name : String) : (Slot.of kinds).Admits (databaseTerm name) :=
  admits_node hkind (.head _) rfl (.cons (admits_text name) .nil)

theorem leaf_flagNames (key : String) (on : Bool) :
    ∀ e ∈ flagNames key on ++ [], ∃ d, e.2 = Term.datum d := by
  cases on with
  | false => exact List.forall_mem_nil _
  | true => exact List.forall_mem_singleton.mpr ⟨_, rfl⟩

theorem admits_table {kinds : List Kind} (hkind : Kind.table ∈ kinds)
    (table : Table) : (Slot.of kinds).Admits table.term := by
  have hname := admits_text table.name
  rw [table_term]
  cases hdb : table.db with
  | none =>
      exact admits_fixed hkind (.head _) (.cons hname .nil)
        (takes_flagNames _ rfl rfl) (leaf_flagNames _ _)
  | some name =>
      exact admits_fixed hkind (.tail _ (.head _))
        (.cons (admits_database (List.mem_singleton_self _) name)
          (.cons hname .nil))
        (takes_flagNames _ rfl rfl) (leaf_flagNames _ _)

theorem admits_judge {v : Value} (h : c.judge v = .ok t) :
    Slot.leaf.Admits t := by
  obtain ⟨d, -, rfl⟩ := judge_leaf h
  exact admits_leaf ⟨d, rfl⟩

/-- What fits a slot fits a wider one. -/
theorem admits_mono {slot' : Slot} (h : slot.Admits t)
    (hle : slot.Fits t → slot'.Fits t) : slot'.Admits t :=
  ⟨h.1, hle h.2⟩

/-- A leaf is a value. -/
theorem value_of_leaf (h : Slot.leaf.Fits t) : Slot.value.Fits t := by
  obtain ⟨d, rfl⟩ := h
  show Kind.datum ∈ valueKinds
  decide

/-- The term of a chain is a value. -/
theorem value_of_chain (h : Slot.chain.Fits t) : Slot.value.Fits t := by
  have hsub : ∀ kind ∈ chainKinds, kind ∈ valueKinds := by
    decide
  exact hsub t.kind h

theorem admits_literals {vs : List Value} {ts : List Term}
    (h : c.judgeAll vs = .ok ts) : ∀ t ∈ ts, Slot.leaf.Admits t := by
  have hall := judgeAll_ok h
  clear h
  induction hall with
  | nil => exact List.forall_mem_nil _
  | cons hv _ ih => exact List.forall_mem_cons.mpr ⟨admits_judge hv, ih⟩

/-- The term of a root is one of a chain. -/
theorem admits_root {r : Root} (h : r.judge c = .ok t) :
    Slot.chain.Admits t := by
  cases r with
  | db name =>
      cases h
      exact admits_database (by decide) name
  | table t =>
      cases h
      exact admits_table (by decide) t
  | dbCreate name =>
      cases h
      exact admits_node (by decide) (.head _) rfl
        (.cons (admits_text name) .nil)
  | dbDrop name =>
      cases h
      exact admits_node (by decide) (.head _) rfl
        (.cons (admits_text name) .nil)
  | dbList =>
      cases h
      exact admits_node (by decide) (.head _) rfl .nil
  | tableCreate db name =>
      cases h
      exact admits_node (by decide) (.head _) rfl
        (.cons (admits_database (by decide) db)
          (.cons (admits_text name) .nil))
  | tableDrop db name =>
      cases h
      exact admits_node (by decide) (.head _) rfl
        (.cons (admits_database (by decide) db)
          (.cons (admits_text name) .nil))
  | tableList db =>
      cases h
      exact admits_node (by decide) (.head _) rfl
        (.cons (admits_database (by decide) db) .nil)
  | indexCreate t name =>
      cases h
      exact admits_node (by decide) (.head _) rfl
        (.cons (admits_table (by decide) t)
          (.cons (admits_text name) .nil))
  | indexDrop t name =>
      cases h
      exact admits_node (by decide) (.head _) rfl
        (.cons (admits_table (by decide) t)
          (.cons (admits_text name) .nil))
  | indexList t =>
      cases h
      exact admits_node (by decide) (.head _) rfl
        (.cons (admits_table (by decide) t) .nil)
  | literal v =>
      obtain ⟨d, -, rfl⟩ := judge_leaf h
      have hleaf : Kind.datum ∈ chainKinds := by
        decide
      exact admits_leaf hleaf
  | literalSeq vs =>
      obtain ⟨items, hitems, hok⟩ := bind_eq_ok.mp h
      cases hok
      refine admits_array (by decide) fun t ht => ?_
      exact admits_mono (admits_literals hitems t ht) value_of_leaf
  | now =>
      cases h
      exact admits_node (by decide) (.head _) rfl .nil
  | insert table v upsert =>
      obtain ⟨value, hvalue, hok⟩ := bind_eq_ok.mp h
      cases hok
      rw [insert_term]
      exact admits_fixed (by decide) (.head _)
        (.cons (admits_table (by decide) table)
          (.cons (admits_judge hvalue) .nil))
        (takes_flagNames _ rfl rfl) (leaf_flagNames _ _)

/-- The name a selector stands for. -/
theorem admits_member {use : SelectorUse} {f : RowFunc}
    (h : f.judgeMember use = .ok t) : Slot.text.Admits t := by
  obtain ⟨name, -, rfl⟩ := judgeMember_leaf h
  exact admits_text name

/-- An object of one leaf. -/
theorem obeys_entryObject (name : String) (d : Datum) :
    (entryObject name (.datum d)).Obeys grammar := by
  have hvalue : Slot.value.Fits (.datum d) := value_of_leaf ⟨d, rfl⟩
  have hadmits : (Slot.of [.makeObj]).Admits
      (entryObject name (.datum d)) :=
    admits_fixed (List.mem_singleton_self _) (.head _) .nil
      (takes_one .value rfl rfl hvalue)
      (List.forall_mem_singleton.mpr ⟨d, rfl⟩)
  exact hadmits.1

/-- A reduction object is of one of three forms. -/
theorem admits_reduction {r : Reduction} (h : r.judge = .ok t) :
    Slot.reduction.Admits t := by
  cases r with
  | count =>
      cases h
      exact ⟨obeys_entryObject "COUNT" (.bool true), .inl rfl⟩
  | sum f =>
      obtain ⟨leaf, hleaf, hok⟩ := bind_eq_ok.mp h
      obtain ⟨name, -, rfl⟩ := judgeMember_leaf hleaf
      cases hok
      exact ⟨obeys_entryObject "SUM" (.string name),
        .inr ⟨name, .inl rfl⟩⟩
  | average f =>
      obtain ⟨leaf, hleaf, hok⟩ := bind_eq_ok.mp h
      obtain ⟨name, -, rfl⟩ := judgeMember_leaf hleaf
      cases hok
      exact ⟨obeys_entryObject "AVG" (.string name),
        .inr ⟨name, .inr rfl⟩⟩

/-- The standard converter makes numbers of all forms numbers. -/
theorem admits_number {v : Value} (hv : v.kind ∈ [.int, .uint, .float])
    (h : (Converter.standard config).judge v = .ok t) :
    Slot.number.Admits t := by
  obtain ⟨d, hd, rfl⟩ := judge_leaf h
  replace hd : Converter.convertAt config v 0 = .ok d := hd
  have hnumber : ∃ x, d = .number x := by
    cases v with
    | int i =>
        rw [Converter.convertAt, if_neg (Nat.not_lt_zero _)] at hd
        split at hd
        · cases hd
        · exact ⟨_, (Except.ok.inj hd).symm⟩
    | uint n =>
        rw [Converter.convertAt, if_neg (Nat.not_lt_zero _)] at hd
        split at hd
        · cases hd
        · exact ⟨_, (Except.ok.inj hd).symm⟩
    | float x =>
        rw [Converter.convertAt, if_neg (Nat.not_lt_zero _)] at hd
        split at hd
        · exact ⟨_, (Except.ok.inj hd).symm⟩
        · cases hd
    | _ => simp [Value.kind] at hv
  obtain ⟨x, rfl⟩ := hnumber
  exact admits_leaf ⟨x, rfl⟩

theorem admits_int {n : Int64}
    (h : (Converter.standard config).judge (.int n) = .ok t) :
    Slot.number.Admits t :=
  admits_number (.head _) h

/-- The standard converter makes a key a text or a number. -/
theorem admits_primaryKey {key : PrimaryKey}
    (h : (Converter.standard config).judge key.toValue = .ok t) :
    (Slot.either .text .number).Admits t := by
  cases key with
  | int n => exact admits_mono (admits_int h) .inr
  | uint n => exact admits_mono (admits_number (.tail _ (.head _)) h) .inr
  | float x =>
      exact admits_mono (admits_number (.tail _ (.tail _ (.head _))) h) .inr
  | text s =>
      obtain ⟨d, hd, rfl⟩ := judge_leaf h
      replace hd : Converter.convertAt config (.text s) 0 = .ok d := hd
      rw [Converter.convertAt, if_neg (Nat.not_lt_zero _)] at hd
      cases hd
      exact admits_mono (admits_text s) .inl

/-! ## Functions -/

/-- The numbers of a function, as a list. -/
theorem numberList_eq (ids : List Nat) :
    Term.node .makeArray (ids.map .number)
      = numberList (ids.map Binary64.ofNat) := by
  rw [numberList, List.map_map]
  rfl

theorem admits_numberList (xs : List Binary64) :
    Slot.numbers.Admits (numberList xs) := by
  have harray : Slot.value.Admits (numberList xs) := by
    refine admits_array (by decide) ?_
    intro t ht
    obtain ⟨x, -, rfl⟩ := List.mem_map.mp ht
    exact admits_leaf (value_of_leaf ⟨_, rfl⟩)
  exact ⟨harray.1, xs, rfl⟩

/-- A function whose body is a value. -/
theorem admits_function (ids : List Nat) {body : Term}
    (h : Slot.value.Admits body) :
    (Slot.func ids.length).Admits (.function ids body) := by
  rw [Term.function, numberList_eq]
  have hnode : (Slot.of [.func]).Admits
      (.node .func [numberList (ids.map Binary64.ofNat), body]) :=
    admits_node (List.mem_singleton_self _) (.head _) rfl
      (.cons (admits_numberList _) (.cons h .nil))
  exact ⟨hnode.1, _, body, List.length_map _, rfl⟩

end ChainQuery
