import ChainQuery.Proofs.Entries
import ChainQuery.Proofs.Translation
import Mathlib.Data.List.Forall2

/-! # Nodes — what stands at the top of a term

    The node of a step is built first and its names and flags are attached
    afterwards.  Attaching changes neither the kind nor the positional
    arguments, and adds only leaves (`Term.Decorated`); so what a term
    says below its top node is what its positional arguments say. -/

namespace ChainQuery

/-! ## Decorated nodes -/

/-- An operation of the given kind and positional arguments, all of whose
    named arguments are leaves. -/
def Term.Decorated (kind : Term.Kind) (args : List Term) (t : Term) :
    Prop :=
  ∃ optargs, t = .apply kind args optargs ∧
    ∀ o ∈ optargs, ∃ d, o.2 = .datum d

variable {kind : Term.Kind} {args : List Term} {t : Term}

theorem decorated_node (kind : Term.Kind) (args : List Term) :
    (Term.node kind args).Decorated kind args :=
  ⟨[], rfl, List.forall_mem_nil _⟩

theorem decorated_withOptarg (h : t.Decorated kind args) (name : String)
    (d : Datum) : (t.withOptarg name (.datum d)).Decorated kind args := by
  obtain ⟨optargs, rfl, hleaf⟩ := h
  refine ⟨Entries.put name (.datum d) optargs, rfl, ?_⟩
  intro o ho
  rcases Entries.mem_put ho with heq | hmem
  · exact ⟨d, by rw [heq]⟩
  · exact hleaf o hmem

theorem decorated_withFlag (h : t.Decorated kind args) (name : String)
    (on : Bool) : (t.withFlag name on).Decorated kind args := by
  cases on with
  | true => exact decorated_withOptarg h name (.bool true)
  | false => exact h

theorem decorated_withText (h : t.Decorated kind args) (name : String)
    (s : Option String) : (t.withText name s).Decorated kind args := by
  cases s with
  | none => exact h
  | some s => exact decorated_withOptarg h name (.string s)

/-- The names and flags of a step decorate its node. -/
theorem decorated_step (s : Step) (args : List Term) :
    (s.attach (.node s.kind args)).Decorated s.kind args := by
  have hnode := decorated_node s.kind args
  cases s with
  | get key keyMember => exact decorated_withText hnode _ _
  | getAll key index => exact decorated_withText hnode _ _
  | between left right index lb rb =>
      exact decorated_withOptarg
        (decorated_withOptarg (decorated_withText hnode _ _) _ _) _ _
  | replace v nonAtomic => exact decorated_withFlag hnode _ _
  | replaceAndReturn v nonAtomic =>
      exact decorated_withOptarg (decorated_withFlag hnode _ _) _ _
  | deleteAndReturn => exact decorated_withOptarg hnode _ _
  | skip n => exact hnode
  | limit n => exact hnode
  | slice start stop => exact hnode
  | nth n => exact hnode
  | distinct => exact hnode
  | count => exact hnode
  | zip => exact hnode
  | delete => exact hnode

/-- The flags of a row step decorate its node. -/
theorem decorated_rowStep (s : RowStep) (args : List Term) :
    (s.attach (.node s.kind args)).Decorated s.kind args := by
  have hnode := decorated_node s.kind args
  cases s with
  | update nonAtomic => exact decorated_withFlag hnode _ _
  | updateAndReturn nonAtomic =>
      exact decorated_withOptarg (decorated_withFlag hnode _ _) _ _
  | filter => exact hnode
  | map => exact hnode
  | concatMap => exact hnode

/-! ## Literals and selectors -/

/-- A sequence of results succeeds when both parts do. -/
theorem bind_eq_ok {ε α β : Type} {r : Except ε α} {f : α → Except ε β}
    {b : β} : r >>= f = .ok b ↔ ∃ a, r = .ok a ∧ f a = .ok b := by
  constructor
  · intro h
    cases r with
    | error e => cases h
    | ok a => exact ⟨a, rfl, h⟩
  · rintro ⟨a, rfl, h⟩
    exact h

/-- The term of a literal is a leaf. -/
theorem judge_leaf {c : Converter} {v : Value} (h : c.judge v = .ok t) :
    ∃ d, c.convert v = .ok d ∧ t = .datum d := by
  obtain ⟨u, -, hconvert⟩ := bind_eq_ok.mp h
  cases hd : c.convert v with
  | error e => rw [hd] at hconvert; cases hconvert
  | ok d =>
      rw [hd] at hconvert
      exact ⟨d, rfl, (Except.ok.inj hconvert).symm⟩

/-- Literals are judged one by one. -/
theorem judgeAll_ok {c : Converter} {vs : List Value} {ts : List Term}
    (h : c.judgeAll vs = .ok ts) :
    List.Forall₂ (fun v t => c.judge v = .ok t) vs ts := by
  induction vs generalizing ts with
  | nil =>
      cases h
      exact .nil
  | cons v vs ih =>
      obtain ⟨t, hv, hrest⟩ := bind_eq_ok.mp h
      obtain ⟨ts', hvs, hok⟩ := bind_eq_ok.mp hrest
      cases hok
      exact .cons hv (ih hvs)

/-- A function goes by a name exactly when it reads a member of its first
    parameter. -/
theorem memberName_func_iff {f : Func} {name : String} :
    f.memberName? = some name ↔
      ∃ p rest, f = ⟨p :: rest, .field (.param p) name⟩ := by
  constructor
  · obtain ⟨params, body⟩ := f
    intro h
    cases params with
    | nil => cases h
    | cons first rest =>
        cases body with
        | field target member =>
            cases target with
            | param p =>
                by_cases hp : p = first
                · subst hp
                  have hname : some member = some name :=
                    (if_pos rfl).symm.trans h
                  cases hname
                  exact ⟨p, rest, rfl⟩
                · cases (if_neg hp).symm.trans h
            | _ => cases h
        | _ => cases h
  · rintro ⟨p, rest, rfl⟩
    exact if_pos rfl

/-- A selector goes by a name exactly when it is a member. -/
theorem memberName_iff {f : RowFunc} {name : String} :
    f.toFunc.memberName? = some name ↔
      ∃ row, f = .mk row (.field (.param row) name) := by
  rw [memberName_func_iff]
  constructor
  · obtain ⟨row, body⟩ := f
    rintro ⟨p, rest, ⟨⟩⟩
    exact ⟨row, rfl⟩
  · rintro ⟨row, rfl⟩
    exact ⟨row, [], rfl⟩

/-- A function of the remote engine is found by its name, which no other
    one has. -/
theorem find_iff {name : String} {call : RemoteCall} :
    RemoteCall.find? name = some call ↔
      call ∈ RemoteCall.all ∧ call.name = name := by
  constructor
  · intro h
    have hname := List.find?_some h
    exact ⟨List.mem_of_find?_eq_some h, beq_iff_eq.mp hname⟩
  · rintro ⟨hmem, rfl⟩
    have hall : ∀ r ∈ RemoteCall.all, RemoteCall.find? r.name = some r := by
      simp [RemoteCall.all, RemoteCall.find?]
    exact hall call hmem

/-- A call that is accepted is to a function of its name, for as many
    arguments, and becomes its kind. -/
theorem call_of_judge {name : String} {given : Nat} {kind : Term.Kind}
    (h : RemoteCall.judge name given = .ok kind) :
    ∃ call ∈ RemoteCall.all, call.name = name ∧ call.arity = given ∧
      call.kind = kind := by
  rw [RemoteCall.judge] at h
  cases hf : RemoteCall.find? name with
  | none => rw [hf] at h; cases h
  | some call =>
      rw [hf] at h
      by_cases ha : call.arity = given
      · simp only [if_pos ha] at h
        obtain ⟨hmem, hname⟩ := find_iff.mp hf
        exact ⟨call, hmem, hname, ha, Except.ok.inj h⟩
      · simp only [if_neg ha] at h
        cases h

/-- What a selector names is a leaf. -/
theorem judgeMember_leaf {use : SelectorUse} {f : RowFunc}
    (h : f.judgeMember use = .ok t) :
    ∃ name, f.toFunc.memberName? = some name ∧ t = .text name := by
  rw [RowFunc.judgeMember] at h
  cases hname : f.toFunc.memberName? with
  | none => rw [hname] at h; cases h
  | some name =>
      rw [hname] at h
      exact ⟨name, rfl, (Except.ok.inj h).symm⟩

/-- The name of the entry of a reduction object. -/
def Reduction.label : Reduction → String
  | .count => "COUNT"
  | .sum _ => "SUM"
  | .average _ => "AVG"

/-- A reduction object has one entry, a leaf: named for what is computed,
    and holding the member it is computed of. -/
theorem judge_reduction {r : Reduction} (h : r.judge = .ok t) :
    ∃ d, t = (Term.node .makeObj []).withOptarg r.label (.datum d) ∧
      ∀ f, r = .sum f ∨ r = .average f →
        ∃ use, f.judgeMember use = .ok (.datum d) := by
  cases r with
  | count =>
      cases h
      refine ⟨.bool true, rfl, ?_⟩
      rintro f (hf | hf) <;> cases hf
  | sum f =>
      obtain ⟨leaf, hleaf, hok⟩ := bind_eq_ok.mp h
      cases hok
      obtain ⟨name, -, rfl⟩ := judgeMember_leaf hleaf
      refine ⟨.string name, rfl, ?_⟩
      rintro f' (hf | hf) <;> cases hf
      exact ⟨.sum, hleaf⟩
  | average f =>
      obtain ⟨leaf, hleaf, hok⟩ := bind_eq_ok.mp h
      cases hok
      obtain ⟨name, -, rfl⟩ := judgeMember_leaf hleaf
      refine ⟨.string name, rfl, ?_⟩
      rintro f' (hf | hf) <;> cases hf
      exact ⟨.average, hleaf⟩

theorem decorated_reduction {reduction : Reduction}
    (h : reduction.judge = .ok t) : t.Decorated .makeObj [] := by
  obtain ⟨d, rfl, -⟩ := judge_reduction h
  exact decorated_withOptarg (decorated_node .makeObj []) _ d

/-- A base is a leaf. -/
theorem judgeOptional_leaf {c : Converter} {base : Option Value}
    {b : Option Term} (h : c.judgeOptional base = .ok b) :
    (base = none ∧ b = none) ∨
      ∃ v d, base = some v ∧ c.convert v = .ok d ∧ b = some (.datum d) := by
  cases base with
  | none =>
      cases h
      exact Or.inl ⟨rfl, rfl⟩
  | some v =>
      obtain ⟨leaf, hv, hok⟩ := bind_eq_ok.mp h
      cases hok
      obtain ⟨d, hd, rfl⟩ := judge_leaf hv
      exact Or.inr ⟨v, d, rfl, hd, rfl⟩

/-- A base decorates the node of its fold. -/
theorem decorated_base {c : Converter} {base : Option Value}
    {b : Option Term} (hb : c.judgeOptional base = .ok b)
    (h : t.Decorated kind args) :
    (t.withOptional "base" b).Decorated kind args := by
  rcases judgeOptional_leaf hb with ⟨-, rfl⟩ | ⟨v, d, -, -, rfl⟩
  · exact h
  · exact decorated_withOptarg h "base" d

end ChainQuery
