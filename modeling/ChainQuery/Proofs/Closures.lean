import ChainQuery.Proofs.Written

/-! # Closures — capturing a draft reads its layout

    Every function of a draft makes its parameters when it is captured,
    and parameters are numbered once and for all.  So a name that is bound
    by a function around means the parameter of that function, and
    whatever else is used, a leaked parameter, a new one or one in
    something stored, is a parameter of no function around.  The route:

    * `Tidy` is what capturing can rely on: parameters made so far have
      smaller numbers than the next, each was made under one name, and
      what is stored uses none that is bound here;
    * `Captures` says of one step of capturing that it leaves the supply
      tidy, on failure too, and what is known of its result; it passes
      through sequences (`captures_bind`) and functions
      (`captures_rowFunc`, `captures_pairFunc`);
    * a function selects a member of its own row when it is written so,
      which decides what becomes of sort keys (`member_closure`). -/

namespace ChainQuery.Draft

open ChainQuery.Layout Capture

variable {shelf : Shelf} {bound : List (String × Param)}
  {supply : Supply} {name : String}

/-! ## A tidy supply -/

/-- Every parameter that something stored uses, and that no function in it
    declares, satisfies `Q`. -/
structure Shelf.AllFree (shelf : Shelf) (Q : Param → Prop) : Prop where
  exprs : ∀ e ∈ shelf.exprs, ∀ p ∈ free e.2.layout, Q p
  funcs : ∀ f ∈ shelf.funcs, ∀ p ∈ free f.2.body.layout, Q p
  queries : ∀ q ∈ shelf.queries, ∀ m ∈ q.2.parts, ∀ p ∈ free m, Q p

theorem allFree_mono {Q Q' : Param → Prop} (h : shelf.AllFree Q)
    (hmono : ∀ p, Q p → Q' p) : shelf.AllFree Q' :=
  ⟨fun e he p hp => hmono p (h.exprs e he p hp),
    fun f hf p hp => hmono p (h.funcs f hf p hp),
    fun q hq m hm p hp => hmono p (h.queries q hq m hm p hp)⟩

/-- What capturing can rely on where names are bound. -/
structure Tidy (shelf : Shelf) (bound : List (String × Param))
    (supply : Supply) : Prop where
  made : ∀ e ∈ supply.made, e.2.number < supply.nextParam
  single : ∀ e ∈ supply.made, ∀ e' ∈ supply.made, e.2 = e'.2 → e.1 = e'.1
  within : ∀ b ∈ bound, b ∈ supply.made
  distinct : (bound.map Prod.snd).Nodup
  stored : shelf.AllFree fun p =>
    p.number < supply.nextParam ∧ ∀ b ∈ bound, b.2 ≠ p

/-- The supply after a parameter was made under a name. -/
def Supply.making (supply : Supply) (name : String) : Supply :=
  { supply with
    nextParam := supply.nextParam + 1
    made := (name, ⟨supply.nextParam⟩) :: supply.made }

theorem bound_lt (h : Tidy shelf bound supply) :
    ∀ b ∈ bound, b.2.number < supply.nextParam :=
  fun b hb => h.made b (h.within b hb)

/-- A parameter that is made and bound at once is a new one. -/
theorem tidy_make (name : String) (h : Tidy shelf bound supply) :
    Tidy shelf ((name, ⟨supply.nextParam⟩) :: bound)
      (supply.making name) where
  made := by
    refine List.forall_mem_cons.mpr ⟨Nat.lt_succ_self _, fun e he => ?_⟩
    exact Nat.lt_succ_of_lt (h.made e he)
  single := by
    have hnew : ∀ e ∈ supply.made, e.2 ≠ ⟨supply.nextParam⟩ := by
      intro e he heq
      have hlt := h.made e he
      rw [heq] at hlt
      exact Nat.lt_irrefl _ hlt
    intro e he e' he' heq
    rcases List.mem_cons.mp he with rfl | he
    · rcases List.mem_cons.mp he' with rfl | he'
      · rfl
      · exact (hnew e' he' heq.symm).elim
    · rcases List.mem_cons.mp he' with rfl | he'
      · exact (hnew e he heq).elim
      · exact h.single e he e' he' heq
  within := List.forall_mem_cons.mpr
    ⟨.head _, fun b hb => .tail _ (h.within b hb)⟩
  distinct := by
    refine List.nodup_cons.mpr ⟨fun hmem => ?_, h.distinct⟩
    obtain ⟨b, hb, heq⟩ := List.mem_map.mp hmem
    have hlt := bound_lt h b hb
    rw [heq] at hlt
    exact Nat.lt_irrefl _ hlt
  stored := by
    refine allFree_mono h.stored fun p hp => ⟨Nat.lt_succ_of_lt hp.1, ?_⟩
    refine List.forall_mem_cons.mpr ⟨?_, hp.2⟩
    rintro rfl
    exact Nat.lt_irrefl _ hp.1

/-- Names go out of sight again. -/
theorem tidy_drop (names : List (String × Param))
    (h : Tidy shelf (names ++ bound) supply) :
    Tidy shelf bound supply where
  made := h.made
  single := h.single
  within := fun b hb => h.within b (List.mem_append_right _ hb)
  distinct := by
    have hdistinct := h.distinct
    rw [List.map_append] at hdistinct
    exact (List.nodup_append.mp hdistinct).2.1
  stored := allFree_mono h.stored fun _ hp =>
    ⟨hp.1, fun b hb => hp.2 b (List.mem_append_right _ hb)⟩

/-- A parameter without a name. -/
theorem tidy_skip (h : Tidy shelf bound supply) :
    Tidy shelf bound { supply with nextParam := supply.nextParam + 1 } :=
  ⟨fun e he => Nat.lt_succ_of_lt (h.made e he), h.single, h.within,
    h.distinct, allFree_mono h.stored fun _ hp =>
      ⟨Nat.lt_succ_of_lt hp.1, hp.2⟩⟩

theorem makeAll_cons (names : List String) (around : Surroundings) :
    makeAll (name :: names) around supply
      = match makeAll names around (supply.making name) with
        | (.ok params, rest) => (.ok (⟨supply.nextParam⟩ :: params), rest)
        | (.error e, rest) => (.error e, rest) := by
  show andThen (makeAll names) (fun ps => done (⟨supply.nextParam⟩ :: ps))
    around (supply.making name) = _
  rw [andThen]
  rcases makeAll names around (supply.making name) with ⟨r, rest⟩
  cases r with
  | ok params => rfl
  | error e => rfl

/-- Making does not look at what is around. -/
theorem makeAll_anywhere (names : List String)
    (around around' : Surroundings) :
    makeAll names around supply = makeAll names around' supply := by
  induction names generalizing supply with
  | nil => rfl
  | cons name names ih => rw [makeAll_cons, makeAll_cons, ih]

/-- Parameters made one after another, all of them bound. -/
theorem tidy_makeAll (names : List String) (h : Tidy shelf bound supply) :
    ∃ params rest, makeAll names ⟨bound, shelf⟩ supply = (.ok params, rest) ∧
      params.length = names.length ∧ supply.nextParam ≤ rest.nextParam ∧
      Tidy shelf ((names.zip params).reverse ++ bound) rest := by
  induction names generalizing bound supply with
  | nil => exact ⟨[], supply, rfl, rfl, Nat.le_refl _, h⟩
  | cons name names ih =>
      obtain ⟨params, rest, hmake, hlength, hle, htidy⟩ :=
        ih (tidy_make name h)
      refine ⟨⟨supply.nextParam⟩ :: params, rest, ?_,
        congrArg (· + 1) hlength, Nat.le_of_succ_le hle, ?_⟩
      · rw [makeAll_cons, makeAll_anywhere names ⟨bound, shelf⟩
          ⟨(name, ⟨supply.nextParam⟩) :: bound, shelf⟩, hmake]
      · rw [List.zip_cons_cons, List.reverse_cons, List.append_assoc]
        exact htidy

/-! ## Steps of capturing -/

variable {α β : Type}
  {P : List (String × Param) → Nat → α → Prop}
  {Q : List (String × Param) → Nat → β → Prop}

/-- From a tidy supply a step of capturing goes to a tidy one, whether it
    fails or not; and of what it gives, `P` holds from then on. -/
def Captures (shelf : Shelf)
    (P : List (String × Param) → Nat → α → Prop) (x : Capture α) : Prop :=
  ∀ bound supply, Tidy shelf bound supply →
    supply.nextParam ≤ (x ⟨bound, shelf⟩ supply).2.nextParam ∧
    Tidy shelf bound (x ⟨bound, shelf⟩ supply).2 ∧
    ∀ a, (x ⟨bound, shelf⟩ supply).1 = .ok a →
      ∀ next, (x ⟨bound, shelf⟩ supply).2.nextParam ≤ next →
        P bound next a

theorem captures_pure {a : α} (h : ∀ bound next, P bound next a) :
    Captures shelf P (pure a) := by
  intro bound supply htidy
  refine ⟨Nat.le_refl _, htidy, ?_⟩
  rintro _ ⟨⟩ next -
  exact h bound next

theorem captures_mono {P' : List (String × Param) → Nat → α → Prop}
    {x : Capture α} (hx : Captures shelf P x)
    (h : ∀ bound next a, P bound next a → P' bound next a) :
    Captures shelf P' x := by
  intro bound supply htidy
  obtain ⟨hle, hrest, hok⟩ := hx bound supply htidy
  exact ⟨hle, hrest, fun a ha next hnext =>
    h bound next a (hok a ha next hnext)⟩

/-- What is known of the first part is known all through the second. -/
theorem captures_bind {x : Capture α} {f : α → Capture β}
    (hx : Captures shelf P x)
    (hf : ∀ a, Captures shelf
      (fun bound next b => P bound next a → Q bound next b) (f a)) :
    Captures shelf Q (x >>= f) := by
  intro bound supply htidy
  obtain ⟨hle, hmiddle, hok⟩ := hx bound supply htidy
  show _ ≤ (andThen x f _ supply).2.nextParam ∧
    Tidy shelf bound (andThen x f _ supply).2 ∧
    ∀ b, (andThen x f _ supply).1 = .ok b →
      ∀ next, (andThen x f _ supply).2.nextParam ≤ next → Q bound next b
  rw [andThen]
  rcases hresult : x ⟨bound, shelf⟩ supply with ⟨r, middle⟩
  rw [hresult] at hle hmiddle hok
  cases r with
  | error e =>
      refine ⟨hle, hmiddle, ?_⟩
      rintro b ⟨⟩
  | ok a =>
      obtain ⟨hle', hrest, hok'⟩ := hf a bound middle hmiddle
      refine ⟨Nat.le_trans hle hle', hrest, fun b hb next hnext => ?_⟩
      exact hok' b hb next hnext
        (hok a rfl next (Nat.le_trans hle' hnext))

/-- A step that leaves the supply alone. -/
theorem captures_still {x : Capture α}
    (hstill : ∀ around supply, (x around supply).2 = supply)
    (h : ∀ bound supply, Tidy shelf bound supply → ∀ a,
      (x ⟨bound, shelf⟩ supply).1 = .ok a →
        ∀ next, supply.nextParam ≤ next → P bound next a) :
    Captures shelf P x := by
  intro bound supply htidy
  rw [hstill]
  exact ⟨Nat.le_refl _, htidy, h bound supply htidy⟩

theorem captures_offered {word : String} {o : Option α}
    (h : ∀ a, o = some a → ∀ bound next, P bound next a) :
    Captures shelf P (offered word o) := by
  refine captures_still ?_ ?_
  · intro around supply
    cases o <;> rfl
  · intro bound supply _ a ha next _
    cases o with
    | none => cases ha
    | some b =>
        cases ha
        exact h _ rfl bound next

theorem captures_require {word : String} {ok : Bool} :
    Captures shelf (fun _ _ _ => True) (require word ok) := by
  refine captures_still ?_ (fun _ _ _ _ _ _ _ => trivial)
  intro around supply
  cases ok <;> rfl

theorem captures_storedIn {things : Shelf → List (String × α)}
    (h : ∀ a, (things shelf).lookup name = some a →
      ∀ bound supply, Tidy shelf bound supply →
        ∀ next, supply.nextParam ≤ next → P bound next a) :
    Captures shelf P (storedIn things name) := by
  refine captures_still ?_ ?_
  · intro around supply
    rw [storedIn]
    cases (things around.shelf).lookup name <;> rfl
  · intro bound supply htidy a ha
    rw [storedIn] at ha
    cases hlookup : (things shelf).lookup name with
    | none =>
        rw [hlookup] at ha
        cases ha
    | some b =>
        rw [hlookup] at ha
        cases ha
        exact h a hlookup bound supply htidy

/-- What is found under a name stands there. -/
theorem mem_of_lookup {things : List (String × α)} {a : α}
    (h : things.lookup name = some a) : (name, a) ∈ things := by
  obtain ⟨before, after, hthings, -⟩ := List.lookup_eq_some_iff.mp h
  rw [hthings]
  exact List.mem_append_right _ (.head _)

theorem resolve_bound {around : Surroundings} {p : Param}
    (h : around.bound.lookup name = some p) :
    resolve name around supply = (.ok p, supply) := by
  rw [resolve, h]

/-- A name means what is bound to it; and a parameter found elsewhere
    under the name is not bound. -/
theorem captures_resolve (name : String) :
    Captures shelf
      (fun bound next p =>
        (Argument.named name).Means bound p ∧ p.number < next)
      (resolve name) := by
  refine captures_still ?_ ?_
  · intro around supply
    rw [resolve]
    cases around.bound.lookup name with
    | some p => rfl
    | none => cases supply.made.lookup name <;> rfl
  · intro bound supply htidy p hp next hnext
    rw [resolve] at hp
    cases hbound : bound.lookup name with
    | some q =>
        rw [hbound] at hp
        cases hp
        have hlt := bound_lt htidy _ (mem_of_lookup hbound)
        exact ⟨.inl hbound, Nat.lt_of_lt_of_le hlt hnext⟩
    | none =>
        rw [hbound] at hp
        cases hmade : supply.made.lookup name with
        | none =>
            rw [hmade] at hp
            cases hp
        | some q =>
            rw [hmade] at hp
            cases hp
            have hmem := mem_of_lookup hmade
            have hlt := htidy.made _ hmem
            refine ⟨.inr ⟨hbound, fun b hb heq => ?_⟩,
              Nat.lt_of_lt_of_le hlt hnext⟩
            -- Bound under another name, it would have been made twice.
            have hname := htidy.single b (htidy.within b hb) _ hmem heq
            have hnone := List.lookup_eq_none_iff.mp hbound b hb
            rw [hname] at hnone
            simp at hnone

/-- A parameter that is made without a name is bound nowhere. -/
theorem captures_makeUnnamed :
    Captures shelf
      (fun bound next p => (∀ b ∈ bound, b.2 ≠ p) ∧ p.number < next)
      makeUnnamed := by
  intro bound supply htidy
  refine ⟨Nat.le_succ _, tidy_skip htidy, ?_⟩
  rintro _ ⟨⟩ next hnext
  refine ⟨?_, hnext⟩
  rintro b hb heq
  have hlt := bound_lt htidy b hb
  rw [heq] at hlt
  exact Nat.lt_irrefl _ hlt

theorem captures_makeIdentity :
    Captures shelf (fun _ _ _ => True) makeIdentity :=
  fun _ _ htidy => ⟨Nat.le_refl _,
    ⟨htidy.made, htidy.single, htidy.within, htidy.distinct, htidy.stored⟩,
    fun _ _ _ _ => trivial⟩

/-- Parameters that are made on failure leave the supply tidy. -/
theorem captures_makingOnFailure (names : List String) {x : Capture α}
    (hx : Captures shelf P x) :
    Captures shelf P (makingOnFailure names x) := by
  intro bound supply htidy
  obtain ⟨hle, hrest, hok⟩ := hx bound supply htidy
  rw [makingOnFailure]
  rcases hresult : x ⟨bound, shelf⟩ supply with ⟨r, rest⟩
  rw [hresult] at hle hrest hok
  cases r with
  | ok a => exact ⟨hle, hrest, hok⟩
  | error e =>
      obtain ⟨params, later, hmake, -, hle', hlater⟩ :=
        tidy_makeAll names hrest
      simp only [hmake]
      refine ⟨Nat.le_trans hle hle', tidy_drop _ hlater, ?_⟩
      rintro a ⟨⟩

/-! ## Functions -/

/-- An expression that is captured reads its layout. -/
def Expr.Captured (shelf : Shelf) (e : Expr) : Prop :=
  Captures shelf
    (fun bound next made =>
      Reads bound next (e.layout shelf) (ChainQuery.Expr.layout made))
    e.capture

/-- What is known of a function captured from a closure: its parameters
    are new and different, and its body reads the layout of the closure's
    with the names bound to them. -/
structure ReadsClosure (shelf : Shelf) (names : List String) (body : Expr)
    (bound : List (String × Param)) (next : Nat) (f : ChainQuery.Func) :
    Prop where
  length : names.length = f.params.length
  distinct :
    (((names.zip f.params).reverse ++ bound).map Prod.snd).Nodup
  reads : Reads ((names.zip f.params).reverse ++ bound) next
    (body.layout shelf) f.body.layout
  comes : ∃ supply rest,
    body.capture ⟨(names.zip f.params).reverse ++ bound, shelf⟩ supply
      = (.ok f.body, rest)

/-- A closure, read where it stands. -/
theorem reads_closure {names : List String} {body : Expr} {next : Nat}
    {f : ChainQuery.Func} (h : ReadsClosure shelf names body bound next f) :
    Reads bound next
      (function (names.map .named) (body.layout shelf)) f.layout :=
  reads_function h.length h.distinct h.reads

theorem captures_closure {names : List String} {body : Expr}
    (h : body.Captured shelf) :
    Captures shelf (ReadsClosure shelf names body)
      (Func.capture (.closure names body)) := by
  intro bound supply htidy
  obtain ⟨params, middle, hmake, hlength, hle, hmiddle⟩ :=
    tidy_makeAll names htidy
  obtain ⟨hle', hrest, hok⟩ := h _ middle hmiddle
  have heq : Func.capture (.closure names body) ⟨bound, shelf⟩ supply
      = andThen body.capture (fun made => done ⟨params, made⟩)
          ⟨(names.zip params).reverse ++ bound, shelf⟩ middle := by
    show andThen (makeAll names) _ ⟨bound, shelf⟩ supply = _
    rw [andThen, hmake]
    rfl
  rw [heq, andThen]
  rcases hbody : body.capture ⟨(names.zip params).reverse ++ bound, shelf⟩
    middle with ⟨r, rest⟩
  rw [hbody] at hle' hrest hok
  cases r with
  | error e =>
      refine ⟨Nat.le_trans hle hle', tidy_drop _ hrest, ?_⟩
      rintro f ⟨⟩
  | ok made =>
      refine ⟨Nat.le_trans hle hle', tidy_drop _ hrest, ?_⟩
      rintro f ⟨⟩ next hnext
      exact ⟨hlength.symm, hmiddle.distinct, hok made rfl next hnext,
        middle, rest, hbody⟩

/-- What is known of the image of a step is known of the step. -/
theorem captures_of_map {x : Capture α} {y : Capture β} (f : α → β)
    (hy : Captures shelf Q y)
    (heq : ∀ around supply, y around supply
      = ((x around supply).1.map f, (x around supply).2)) :
    Captures shelf (fun bound next a => Q bound next (f a)) x := by
  intro bound supply htidy
  obtain ⟨hle, hrest, hok⟩ := hy bound supply htidy
  rw [heq] at hle hrest hok
  refine ⟨hle, hrest, fun a ha next hnext => ?_⟩
  exact hok (f a) (by rw [ha]; rfl) next hnext

/-- A function of one row is captured as a closure of one name. -/
theorem captures_rowFunc {row : String} {body : Expr}
    (h : body.Captured shelf) :
    Captures shelf
      (fun bound next made => ReadsClosure shelf [row] body bound next
        (ChainQuery.RowFunc.toFunc made))
      (RowFunc.capture (.mk row body)) := by
  refine captures_of_map _ (captures_closure h) fun around supply => ?_
  let p : Param := ⟨supply.nextParam⟩
  let inner : Surroundings := ⟨(row, p) :: around.bound, around.shelf⟩
  have hrow : RowFunc.capture (.mk row body) around supply
      = andThen body.capture (fun made => done (.mk p made)) inner
          (supply.making row) := by
    rw [RowFunc.capture]
    rfl
  have hclosure : Func.capture (.closure [row] body) around supply
      = andThen body.capture (fun made => done ⟨[p], made⟩) inner
          (supply.making row) :=
    rfl
  rw [hrow, hclosure, andThen, andThen]
  rcases body.capture inner (supply.making row) with ⟨r, rest⟩
  cases r with
  | ok made => rfl
  | error e => rfl

/-- A function of two rows is captured as a closure of two names. -/
theorem captures_pairFunc {left right : String} {body : Expr}
    (h : body.Captured shelf) :
    Captures shelf
      (fun bound next made =>
        ReadsClosure shelf [left, right] body bound next
          (ChainQuery.PairFunc.toFunc made))
      (PairFunc.capture (.mk left right body)) := by
  refine captures_of_map _ (captures_closure h) fun around supply => ?_
  let p : Param := ⟨supply.nextParam⟩
  let q : Param := ⟨supply.nextParam + 1⟩
  let inner : Surroundings :=
    ⟨(right, q) :: (left, p) :: around.bound, around.shelf⟩
  let middle : Supply := (supply.making left).making right
  have hpair : PairFunc.capture (.mk left right body) around supply
      = andThen body.capture (fun made => done (.mk p q made)) inner
          middle := by
    rw [PairFunc.capture]
    rfl
  have hclosure : Func.capture (.closure [left, right] body) around supply
      = andThen body.capture (fun made => done ⟨[p, q], made⟩) inner
          middle :=
    rfl
  rw [hpair, hclosure, andThen, andThen]
  rcases body.capture inner middle with ⟨r, rest⟩
  cases r with
  | ok made => rfl
  | error e => rfl

theorem reads_rowFunc {f : RowFunc} (h : f.body.Captured shelf) :
    Captures shelf
      (fun bound next made =>
        Reads bound next (f.layout shelf) (ChainQuery.RowFunc.layout made))
      f.capture := by
  obtain ⟨row, body⟩ := f
  refine captures_mono (captures_rowFunc h) fun bound next made hmade => ?_
  rw [rowFunc_layout]
  exact reads_closure hmade

theorem reads_pairFunc {f : PairFunc} (h : f.body.Captured shelf) :
    Captures shelf
      (fun bound next made =>
        Reads bound next (f.layout shelf) (ChainQuery.PairFunc.layout made))
      f.capture := by
  obtain ⟨left, right, body⟩ := f
  refine captures_mono (captures_pairFunc h) fun bound next made hmade => ?_
  rw [pairFunc_layout]
  exact reads_closure hmade

/-! ## Sort keys -/

section

variable {around : Surroundings} {rest : Supply} {e : Expr}

/-- Only a written member, or a stored expression, is captured as a
    member. -/
theorem capture_field {target : ChainQuery.Expr} {member : String}
    (h : e.capture around supply = (.ok (.field target member), rest)) :
    (∃ written middle later, e = .field written member ∧
      written.capture around middle = (.ok target, later)) ∨
    ∃ name, e = .stored name := by
  cases e with
  | field written name =>
      obtain ⟨made, middle, hmade, h⟩ := andThen_ok h
      cases h
      exact .inl ⟨written, supply, rest, rfl, hmade⟩
  | stored name => exact .inr ⟨name, rfl⟩
  | literal v => cases h
  | named _ | fresh | all _ | any _ | not _ | array _ | object _
  | call _ _ =>
      obtain ⟨_, _, -, h⟩ := andThen_ok h
      cases h
  | compare _ _ _ | arith _ _ _ | subquery _ =>
      obtain ⟨_, _, -, h⟩ := andThen_ok h
      obtain ⟨_, _, -, h⟩ := andThen_ok h
      cases h

/-- Only a name, something new or something stored is captured as a
    parameter. -/
theorem capture_param {p : Param}
    (h : e.capture around supply = (.ok (.param p), rest)) :
    (∃ name, e = .named name) ∨ e = .fresh ∨ ∃ name, e = .stored name := by
  cases e with
  | named name => exact .inl ⟨name, rfl⟩
  | fresh => exact .inr (.inl rfl)
  | stored name => exact .inr (.inr ⟨name, rfl⟩)
  | literal v => cases h
  | field _ _ | all _ | any _ | not _ | array _ | object _ | call _ _ =>
      obtain ⟨_, _, -, h⟩ := andThen_ok h
      cases h
  | compare _ _ _ | arith _ _ _ | subquery _ =>
      obtain ⟨_, _, -, h⟩ := andThen_ok h
      obtain ⟨_, _, -, h⟩ := andThen_ok h
      cases h

end

/-- What stands for a function's own row is its name. -/
theorem named_of_reads {row : String} {p : Param} {next : Nat}
    {l : Layout Argument} {m : Layout Param}
    (hfresh : ∀ b ∈ bound, b.2 ≠ p)
    (h : Reads ((row, p) :: bound) next l m) {v : Use Param}
    (hv : v ∈ m.uses) (hnone : v.binder = none) (hname : v.name = p) :
    ∃ u ∈ l.uses, u.name = .named row := by
  obtain ⟨u, hu, hreads⟩ := forall₂_mem_right h.uses hv
  have hmeans := (hreads.means (hreads.binder.trans hnone)).1
  obtain ⟨hiff, -⟩ := means_cons hmeans hfresh
  exact ⟨u, hu, hiff.mpr hname.symm⟩

/-- Nothing in the layout of something stored has a name. -/
theorem not_named_shelved {row : String} {l : Layout Param}
    (h : ∃ u ∈ (shelved l).uses, u.name = Argument.named row) : False := by
  obtain ⟨u, hu, hname⟩ := h
  obtain ⟨v, -, rfl⟩ := List.mem_map.mp hu
  cases hname

theorem layout_stored_cases (shelf : Shelf) (name : String) :
    (∃ l, Expr.layout shelf (.stored name) = shelved l) ∨
      Expr.layout shelf (.stored name) = empty := by
  rw [Expr.layout]
  cases shelf.exprs.lookup name with
  | some e => exact .inl ⟨_, rfl⟩
  | none => exact .inr rfl

theorem not_named_stored {row name : String}
    (h : ∃ u ∈ (Expr.layout shelf (.stored name)).uses,
      u.name = Argument.named row) : False := by
  rcases layout_stored_cases shelf name with ⟨l, hl⟩ | hl
  · rw [hl] at h
    exact not_named_shelved h
  · rw [hl] at h
    obtain ⟨u, hu, -⟩ := h
    cases hu

theorem named_under {e : Term.Edge} {a : Argument} {l : Layout Argument}
    (h : ∃ u ∈ (l.under e).uses, u.name = a) : ∃ u ∈ l.uses, u.name = a := by
  obtain ⟨u, hu, hname⟩ := h
  obtain ⟨v, hv, rfl⟩ := List.mem_map.mp hu
  exact ⟨v, hv, hname⟩

/-- A function captured from a closure selects a member of its own row
    exactly if it is written so. -/
theorem member_closure {row : String} {body : Expr} {next : Nat}
    {f : ChainQuery.Func}
    (h : ReadsClosure shelf [row] body bound next f) :
    f.memberName?.isSome = (RowFunc.mk row body).isMember := by
  obtain ⟨params, made⟩ := f
  obtain ⟨hlength, hdistinct, hreads, supply, rest, hcapture⟩ := h
  obtain ⟨p, rfl⟩ := List.length_eq_one_iff.mp hlength.symm
  have hfresh : ∀ b ∈ bound, b.2 ≠ p := by
    intro b hb heq
    refine (List.nodup_cons.mp hdistinct).1 ?_
    exact List.mem_map.mpr ⟨b, hb, heq⟩
  rw [Bool.eq_iff_iff]
  constructor
  · intro hsome
    obtain ⟨member, hmember⟩ := Option.isSome_iff_exists.mp hsome
    obtain ⟨row', heq⟩ :=
      (memberName_iff (f := ChainQuery.RowFunc.mk p made)).mp hmember
    cases heq
    -- Whatever was captured as the row was written by its name.
    have hnamed : ∃ u ∈ (body.layout shelf).uses, u.name = .named row :=
      named_of_reads hfresh hreads (v := ⟨[.arg 0], p, none⟩) (.head _) rfl
        rfl
    rcases capture_field hcapture with
      ⟨written, middle, later, rfl, hwritten⟩ | ⟨name, rfl⟩
    · obtain ⟨u, hu, hname⟩ := hnamed
      rcases List.mem_append.mp hu with hu | hu
      · obtain ⟨v, hv, hname⟩ := named_under ⟨u, hu, hname⟩
        rcases capture_param hwritten with ⟨name, rfl⟩ | rfl | ⟨name, rfl⟩
        · rw [List.mem_singleton.mp hv] at hname
          cases hname
          exact beq_self_eq_true row
        · rw [List.mem_singleton.mp hv] at hname
          cases hname
        · exact (not_named_stored ⟨v, hv, hname⟩).elim
      · cases hu
    · exact (not_named_stored hnamed).elim
  · intro hmember
    cases body with
    | field target member =>
        cases target with
        | named name =>
            obtain rfl : name = row := beq_iff_eq.mp hmember
            obtain ⟨target, middle, htarget, h⟩ := andThen_ok hcapture
            cases h
            obtain ⟨q, later, hq, h⟩ := andThen_ok htarget
            cases h
            have hlookup :
                List.lookup name ((name, p) :: bound) = some p := by
              simp
            have hfound := hq.symm.trans (resolve_bound hlookup)
            cases hfound
            exact congrArg Option.isSome (if_pos rfl)
        | _ => cases hmember
    | _ => cases hmember

/-- A sort key reads its layout. -/
theorem reads_key {f : RowFunc} (h : f.body.Captured shelf)
    (direction : Direction) :
    Captures shelf
      (fun bound next made =>
        Reads bound next (f.keyLayout (f.layout shelf))
          (ChainQuery.SortKey.layout (.mk made direction)))
      f.capture := by
  obtain ⟨row, body⟩ := f
  refine captures_mono (captures_rowFunc h) fun bound next made hmade => ?_
  have hmember := member_closure hmade
  have hreads := reads_closure hmade
  rw [← rowFunc_layout] at hreads
  rw [RowFunc.keyLayout, ← hmember, ChainQuery.SortKey.layout]
  cases made.toFunc.memberName? with
  | some name => exact reads_empty
  | none => exact reads_args (.cons hreads .nil) 0

end ChainQuery.Draft
