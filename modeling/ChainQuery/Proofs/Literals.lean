import ChainQuery.Proofs.Conversion
import ChainQuery.Proofs.Occasions

/-! # Literals — asked about in document order, converted once

    Before a literal is converted, the converter is asked about it and
    about everything in it, wherever it lies and also inside the keys of
    maps.  `Value.nodes` lists all that in document order.  The route:

    * the support check of a stack asks about the nodes on it in document
      order (`checks_nodes`), and it ends because every turn leaves fewer
      of them;
    * a literal is converted when none of its nodes is refused, and else
      the first one that is refused is the error
      (`support_check_in_document_order`);
    * the standard converter refuses blobs and nothing else, and no value
      that it converts has one in it (`blob_not_within`), so that asking
      first changes at most the error (`literal_iff_converts`). -/

namespace ChainQuery

open Walk Converter

/-! ## Document order -/

mutual

/-- A value and everything in it, in document order: a list before its
    items, a map before its entries, a key with all that is in it before
    its item. -/
def Value.nodes (v : Value) : List Value :=
  v ::
    match v with
    | .list items => nodesOfItems items
    | .map entries => nodesOfEntries entries
    | _ => []
termination_by structural v

/-- Values and everything in them, one after another. -/
def nodesOfItems (items : List Value) : List Value :=
  match items with
  | [] => []
  | v :: vs => Value.nodes v ++ nodesOfItems vs
termination_by structural items

/-- Entries and everything in them, one after another. -/
def nodesOfEntries (entries : List (Value × Value)) : List Value :=
  match entries with
  | [] => []
  | (key, item) :: rest =>
      Value.nodes key ++ (Value.nodes item ++ nodesOfEntries rest)
termination_by structural entries

end

/-- The first value is the second or lies somewhere in it: in an item of a
    list, or in a key or an item of a map. -/
inductive Value.Within : Value → Value → Prop where
  | here {v} : Value.Within v v
  | item {w items v} : v ∈ items → Value.Within w v →
      Value.Within w (.list items)
  | key {w entries key v} : (key, v) ∈ entries → Value.Within w key →
      Value.Within w (.map entries)
  | entry {w entries key v} : (key, v) ∈ entries → Value.Within w v →
      Value.Within w (.map entries)

theorem nodesOfItems_eq (items : List Value) :
    nodesOfItems items = items.flatMap Value.nodes := by
  induction items with
  | nil => rfl
  | cons v vs ih => rw [nodesOfItems, ih, List.flatMap_cons]

theorem nodesOfEntries_eq (entries : List (Value × Value)) :
    nodesOfEntries entries
      = entries.flatMap fun e => e.1.nodes ++ e.2.nodes := by
  induction entries with
  | nil => rfl
  | cons e rest ih =>
      rw [nodesOfEntries, ih, List.flatMap_cons, List.append_assoc]

/-- The nodes of a value are the values within it. -/
theorem mem_nodes_iff {w v : Value} : w ∈ v.nodes ↔ w.Within v := by
  constructor
  · induction v using Value.induction with
    | list items ih =>
        rw [Value.nodes, List.mem_cons, nodesOfItems_eq, List.mem_flatMap]
        rintro (rfl | ⟨v, hv, hw⟩)
        · exact .here
        · exact .item hv (ih v hv hw)
    | map entries ih =>
        rw [Value.nodes, List.mem_cons, nodesOfEntries_eq,
          List.mem_flatMap]
        rintro (rfl | ⟨e, he, hw⟩)
        · exact .here
        rcases List.mem_append.mp hw with hkey | hitem
        · exact .key he ((ih e he).1 hkey)
        · exact .entry he ((ih e he).2 hitem)
    | _ =>
        intro hw
        cases List.mem_singleton.mp hw
        exact .here
  · intro h
    induction h with
    | here =>
        rw [Value.nodes.eq_def]
        exact List.mem_cons_self
    | item hv _ ih =>
        rw [Value.nodes, nodesOfItems_eq]
        exact .tail _ (List.mem_flatMap.mpr ⟨_, hv, ih⟩)
    | key he _ ih =>
        rw [Value.nodes, nodesOfEntries_eq]
        exact .tail _ (List.mem_flatMap.mpr
          ⟨_, he, List.mem_append_left _ ih⟩)
    | entry he _ ih =>
        rw [Value.nodes, nodesOfEntries_eq]
        exact .tail _ (List.mem_flatMap.mpr
          ⟨_, he, List.mem_append_right _ ih⟩)

theorem kindsOfItems_eq {items : List Value}
    (h : ∀ v ∈ items, v.kinds = v.nodes.map Value.kind) :
    Value.kindsOfItems items = (nodesOfItems items).map Value.kind := by
  induction items with
  | nil => rfl
  | cons v vs ih =>
      obtain ⟨hv, hvs⟩ := List.forall_mem_cons.mp h
      rw [Value.kindsOfItems, nodesOfItems, List.map_append, hv, ih hvs]

theorem kindsOfEntries_eq {entries : List (Value × Value)}
    (h : ∀ e ∈ entries, e.1.kinds = e.1.nodes.map Value.kind ∧
      e.2.kinds = e.2.nodes.map Value.kind) :
    Value.kindsOfEntries entries
      = (nodesOfEntries entries).map Value.kind := by
  induction entries with
  | nil => rfl
  | cons e rest ih =>
      obtain ⟨⟨hkey, hitem⟩, hrest⟩ := List.forall_mem_cons.mp h
      rw [Value.kindsOfEntries, nodesOfEntries, List.map_append,
        List.map_append, hkey, hitem, ih hrest, List.append_assoc]

/-- The kinds of a value are those of its nodes. -/
theorem kinds_eq (v : Value) : v.kinds = v.nodes.map Value.kind := by
  induction v using Value.induction with
  | list items ih =>
      rw [Value.kinds, Value.nodes, List.map_cons, kindsOfItems_eq ih]
  | map entries ih =>
      rw [Value.kinds, Value.nodes, List.map_cons, kindsOfEntries_eq ih]
  | _ => rfl

/-! ## The support check -/

variable {c : Converter} {v : Value}

/-- The support check of a stack asks about the nodes on it in document
    order. -/
theorem checks_nodes (c : Converter) (pending : List Value) :
    Checks c ((pending.flatMap Value.nodes).map Value.kind)
      (c.requirePending pending) := by
  have hkinds : Value.kindsOfItems pending
      = (pending.flatMap Value.nodes).map Value.kind := by
    rw [← nodesOfItems_eq]
    exact kindsOfItems_eq fun v _ => kinds_eq v
  rw [← hkinds]
  exact checks_requirePending c pending

/-- Kinds are asked about up to the first that is refused, which is the
    error. -/
theorem checked_of_refused {before after : List Value.Kind}
    {kind : Value.Kind} (hbefore : ∀ k ∈ before, c.supports k = true)
    (hkind : c.supports kind = false) :
    c.checked (before ++ kind :: after) = before ++ [kind] ∧
      c.allow (before ++ kind :: after)
        = .error (.convert (.unsupported kind)) := by
  have hrefused : ¬ c.supports kind = true := by
    rw [hkind]
    exact Bool.false_ne_true
  constructor
  · rw [checked_append_of_supported hbefore, checked_of_supported hbefore,
      checked, if_neg hrefused]
  · rw [allow_append, allow_ok.mpr hbefore]
    show c.allow (kind :: after) = _
    rw [allow, if_neg hrefused]

/-- **The support check goes through a value in document order, and
    conversion waits for it.**  The loop asks about what is on its stack
    and everything in it in document order, one question a turn, until one
    is refused, and every turn leaves fewer nodes.  A literal is checked
    alone: if a kind in it is refused, the first such kind is the last one
    asked about and the error, and nothing is converted; otherwise there
    is one question for each node, then one conversion, of the literal
    itself, and it ends as that does. -/
theorem support_check_in_document_order (c : Converter) (v : Value)
    (ctx : Context) :
    (∀ pending, c.requirePending pending ctx
      = ⟨c.allow ((pending.flatMap Value.nodes).map Value.kind), ctx,
          (c.checked ((pending.flatMap Value.nodes).map Value.kind)).map
            fun kind => .asked (.supports kind)⟩) ∧
    (∀ w pending, Value.nodeCounts (w.push pending)
      < Value.nodeCounts (w :: pending)) ∧
    (∀ before w after, v.nodes = before ++ w :: after →
      (∀ u ∈ before, c.supports u.kind = true) →
      c.supports w.kind = false →
      c.literal v ctx
        = ⟨.error (.convert (.unsupported w.kind)), ctx,
            (before ++ [w]).map fun u => .asked (.supports u.kind)⟩) ∧
    ((∀ u ∈ v.nodes, c.supports u.kind = true) →
      c.literal v ctx
        = ⟨((c.convert v).mapError .convert).map .datum, ctx,
            v.nodes.map (fun u => .asked (.supports u.kind))
              ++ [.asked (.convert v.kind)]⟩) := by
  refine ⟨?_, ?_, ?_, ?_⟩
  · intro pending
    exact checks_nodes c pending ctx
  · intro w pending
    rw [Value.nodeCounts_push]
    exact Nat.lt_succ_self _
  · intro before w after hnodes hbefore hw
    have hkinds : v.kinds
        = before.map Value.kind ++ w.kind :: after.map Value.kind := by
      rw [kinds_eq, hnodes, List.map_append, List.map_cons]
    obtain ⟨hchecked, hallow⟩ := checked_of_refused
      (List.forall_mem_map.mpr hbefore) hw
    have hnone : ¬ ∀ kind ∈ v.kinds, c.supports kind = true := by
      intro hall
      rw [← allow_ok, hkinds, hallow] at hall
      cases hall
    rw [literal_eq, judge, questions, if_neg hnone, hkinds, hchecked,
      hallow]
    simp [bind, Except.bind]
  · intro hall
    have hkinds : ∀ kind ∈ v.kinds, c.supports kind = true := by
      rw [kinds_eq]
      exact List.forall_mem_map.mpr hall
    rw [literal_eq, judge, questions_of_supported hkinds, allQuestions,
      allow_ok.mpr hkinds, kinds_eq]
    cases c.convert v <;>
      simp [bind, Except.bind, Except.map, Except.mapError]

/-! ## The standard converter -/

variable {config : Config}

/-- A blob lies somewhere in a value: at any depth, and also in keys. -/
def Value.HoldsBlob (v : Value) : Prop :=
  ∃ bytes, (Value.blob bytes).Within v

theorem holdsBlob_iff : v.HoldsBlob ↔ .blob ∈ v.kinds := by
  rw [kinds_eq, List.mem_map]
  constructor
  · rintro ⟨bytes, hwithin⟩
    exact ⟨.blob bytes, mem_nodes_iff.mpr hwithin, rfl⟩
  · rintro ⟨w, hw, hkind⟩
    cases w with
    | blob bytes => exact ⟨bytes, mem_nodes_iff.mp hw⟩
    | _ => cases hkind

/-- Of all kinds only blobs are refused. -/
theorem allow_standard (config : Config) (ks : List Value.Kind) :
    (standard config).allow ks
      = if .blob ∈ ks then .error (.convert (.unsupported .blob))
        else .ok () := by
  induction ks with
  | nil => rfl
  | cons kind rest ih =>
      rw [allow, ih]
      cases kind <;> simp [standard]

/-- No blob lies in a value that is admitted.  Keys are not looked into,
    but they are texts. -/
theorem blob_not_within {w v : Value} (hw : w.Within v) {depth : Nat}
    (h : config.AdmitsAt depth v) : w.kind ≠ .blob := by
  induction hw generalizing depth with
  | here =>
      have htakes := (h 0 w .here).2
      cases w with
      | blob bytes => exact htakes.elim
      | _ => intro hkind; cases hkind
  | item hv _ ih => exact ih ((admitsAt_list.mp h).2 _ hv)
  | @key entries key v he hkey _ =>
      obtain ⟨-, ⟨names, hnames, -⟩, -⟩ := admitsAt_map.mp h
      have hmem : key ∈ names.map Value.text := by
        rw [← hnames]
        exact List.mem_map_of_mem he
      obtain ⟨name, -, rfl⟩ := List.mem_map.mp hmem
      cases hkey
      intro hkind
      cases hkind
  | entry he _ ih => exact ih ((admitsAt_map.mp h).2.2 _ he)

/-- A value with a blob in it is not converted. -/
theorem not_converted_of_blob (h : v.HoldsBlob) (d : Datum) :
    (standard config).convert v ≠ .ok d := by
  intro hd
  obtain ⟨bytes, hwithin⟩ := h
  exact blob_not_within hwithin (ok_iff_admitsAt.mp ⟨d, hd⟩) rfl

/-- How a literal ends under the standard converter. -/
theorem result_literal (config : Config) (v : Value) (ctx : Context) :
    (v.HoldsBlob → ((standard config).literal v ctx).result
      = .error (.convert (.unsupported .blob))) ∧
    (¬ v.HoldsBlob → ((standard config).literal v ctx).result
      = (((standard config).convert v).mapError .convert).map .datum) := by
  rw [literal_eq, judge, allow_standard, holdsBlob_iff]
  constructor
  · intro hblob
    rw [if_pos hblob]
    rfl
  · intro hnone
    rw [if_neg hnone]
    cases (standard config).convert v <;> rfl

/-- **Asking first changes at most the error.**  Under the standard
    converter a literal has a term exactly when it converts, and the term
    is the leaf of its datum.  Where there is none, the error is that of
    the conversion, unless a blob lies somewhere in the literal, in a key
    or below the depth limit included: then blobs are what is not
    supported. -/
theorem literal_iff_converts (config : Config) (v : Value)
    (ctx : Context) :
    (∀ t, ((standard config).literal v ctx).result = .ok t ↔
      ∃ d, t = .datum d ∧ (standard config).convert v = .ok d) ∧
    ∀ e, (standard config).convert v = .error e →
      (v.HoldsBlob → ((standard config).literal v ctx).result
        = .error (.convert (.unsupported .blob))) ∧
      (¬ v.HoldsBlob → ((standard config).literal v ctx).result
        = .error (.convert e)) := by
  obtain ⟨hblob, hnone⟩ := result_literal config v ctx
  constructor
  · intro t
    by_cases hv : v.HoldsBlob
    · rw [hblob hv]
      constructor
      · intro h
        cases h
      · rintro ⟨d, -, hd⟩
        exact absurd hd (not_converted_of_blob hv d)
    · rw [hnone hv]
      cases hconvert : (standard config).convert v with
      | error e =>
          constructor
          · intro h
            cases h
          · rintro ⟨d, -, hd⟩
            cases hd
      | ok d =>
          constructor
          · intro h
            cases h
            exact ⟨d, rfl, rfl⟩
          · rintro ⟨d', rfl, hd⟩
            cases hd
            rfl
  · intro e he
    refine ⟨hblob, fun hv => ?_⟩
    rw [hnone hv, he]
    rfl

example :
    ((standard .strict).literal
        (.map [(.list [.blob []], .null), (.text "a", .float ⟨0⟩)])
        .fresh).result = .error (.convert (.unsupported .blob)) ∧
      (standard .strict).convert
        (.map [(.list [.blob []], .null), (.text "a", .float ⟨0⟩)])
        = .error (.keyNotText .list) :=
  ⟨rfl, rfl⟩

end ChainQuery
