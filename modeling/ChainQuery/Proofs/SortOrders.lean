import ChainQuery.Proofs.Assembly
import ChainQuery.Proofs.Capabilities
import ChainQuery.Proofs.Numbering
import ChainQuery.Proofs.Sessions

/-! # Sort orders — keys are added at the end and go out in order

    A sort starts with one key, and every further key goes behind those
    there are; on the wire the keys stand behind the source, in that order.
    A key goes out in one of two ways: a member by its name, which takes no
    number, anything else as a function, which takes those of all its
    parameters.  The route:

    * writing further keys appends them, however many there are
      (`thenByAll_orderBy`, `capture_steps`), and what a session has stored
      is not touched by it (`stored_suffix`);
    * what one key puts out is said once, numbers included
      (`goesAs_key`), so a list of keys puts out one argument for each,
      the numbers of one starting where those before it ended
      (`goesAs_keys`). -/

namespace ChainQuery

open Term

variable {source : Query} {first : SortKey} {others : List SortKey}

/-! ## Further keys -/

/-- A chain sorted by further keys, one after another. -/
def Query.thenByAll? (q : Query) (keys : List SortKey) : Option Query :=
  keys.foldlM Query.thenBy? q

theorem thenByAll_orderBy (keys : List SortKey) :
    (Query.orderBy source first others).thenByAll? keys
      = some (.orderBy source first (others ++ keys)) := by
  induction keys generalizing others with
  | nil =>
      rw [List.append_nil]
      rfl
  | cons key keys ih =>
      show (Query.orderBy source first (others ++ [key])).thenByAll? keys = _
      rw [ih, List.append_assoc, List.singleton_append]

/-- The order of a longer sort is that of the shorter one with the keys
    appended. -/
theorem ofSortKeys_append (keys : List SortKey) :
    OrderSpec.ofSortKeys first (others ++ keys)
      = (keys.map SortKey.toOrderKey).foldl OrderSpec.appended
          (.ofSortKeys first others) := by
  induction keys generalizing others with
  | nil => simp
  | cons key keys ih =>
      have happended : (OrderSpec.ofSortKeys first others).appended
          key.toOrderKey = .ofSortKeys first (others ++ [key]) := by
        simp [OrderSpec.ofSortKeys, OrderSpec.appended]
      rw [List.map_cons, List.foldl_cons, happended, ← ih,
        List.append_assoc, List.singleton_append]

/-- A written step that adds a sort key. -/
structure Draft.ThenBy where
  word : String
  key : Draft.RowFunc
  direction : Direction

/-- The step as it is written. -/
def Draft.ThenBy.written (w : ThenBy) : Written :=
  .mk w.word (.thenBy w.key w.direction)

/-- Capture the functions of written sort keys, first to last. -/
def Draft.captureKeys : List ThenBy → Capture (List SortKey)
  | [] => return []
  | w :: rest => do
      let f ← w.key.capture
      let keys ← captureKeys rest
      return .mk f w.direction :: keys

open Draft (Capture ThenBy captureKeys captureSteps)

instance : LawfulMonad Capture := by
  refine .mk' Capture ?_ ?_ ?_
  · intro α x
    funext around supply
    show Capture.andThen x (fun a => Capture.done a) around supply = _
    rw [Capture.andThen]
    rcases x around supply with ⟨_ | a, rest⟩ <;> rfl
  · intro α β a f
    rfl
  · intro α β γ x f g
    funext around supply
    show Capture.andThen (Capture.andThen x f) g around supply
      = Capture.andThen x (fun a => Capture.andThen (f a) g) around supply
    simp only [Capture.andThen]
    rcases x around supply with ⟨_ | a, rest⟩ <;> rfl

/-- One step captures its function and puts its key at the end. -/
theorem capture_thenBy (w : ThenBy) :
    w.written.capture (.orderBy source first others)
      = w.key.capture >>= fun f =>
          return .orderBy source first (others ++ [.mk f w.direction]) :=
  rfl

/-- Further keys written after a sort have their functions captured in
    order, and stand behind the keys there are. -/
theorem capture_thenBys (steps : List ThenBy) :
    captureSteps (steps.map ThenBy.written) (.orderBy source first others)
      = captureKeys steps >>= fun keys =>
          return .orderBy source first (others ++ keys) := by
  induction steps generalizing others with
  | nil =>
      show (pure (Query.orderBy source first others) : Capture Query)
        = pure (Query.orderBy source first (others ++ []))
      rw [List.append_nil]
  | cons w steps ih =>
      show w.written.capture _ >>= captureSteps (steps.map ThenBy.written)
        = (w.key.capture >>= fun f => captureKeys steps >>= fun keys =>
            return .mk f w.direction :: keys) >>= _
      simp only [capture_thenBy, bind_assoc, pure_bind, ih,
        List.append_assoc, List.singleton_append]

/-- Whatever a session is asked, what it has stored is still there, below
    what was stored since. -/
theorem Session.stored_suffix (s : Session) (requests : List Request) :
    s.shelf.queries <:+ (s.after requests).shelf.queries := by
  have hstored : Invariant
      (fun later => s.shelf.queries <:+ later.shelf.queries)
      (fun _ _ => True) (fun _ _ => True) :=
    { unnamed := fun _ h => ⟨h, fun _ _ => trivial⟩
      named := fun _ _ h => ⟨h, fun _ _ => trivial⟩
      expr := fun _ _ h => ⟨h, fun _ _ => trivial⟩
      func := fun _ _ h => ⟨h, fun _ _ => trivial⟩
      query := fun _ _ h => ⟨h, fun _ _ => trivial⟩
      keepExpr := fun _ _ h _ => h
      keepFunc := fun _ _ h _ => h
      keepQuery := fun store _ h _ => by
        cases store with
        | none => exact h
        | some name => exact h.trans (List.suffix_cons _ _)
      aside := fun h hshelf _ => hshelf ▸ h }
  exact preserves_after hstored List.suffix_rfl requests

/-! ## One key -/

/-- How a key goes out in a scope when `n` is the next number, and what
    number is next after it: a member by its name, anything else as the
    term of its function, which declares the numbers in between. -/
inductive SortKey.GoesAs (c : Converter) (scope : List (Param × Nat))
    (key : SortKey) (n : Nat) : Nat → Term → Prop where
  | member (name : String)
      (h : key.toOrderKey.selector.memberName? = some name) :
      GoesAs c scope key n n (key.toOrderKey.direction.term (.text name))
  | computed (m : Nat) (f : Term)
      (h : key.toOrderKey.selector.memberName? = none)
      (result : (key.toOrderKey.selector.walk c ⟨n, scope⟩).result = .ok f)
      (context : (key.toOrderKey.selector.walk c ⟨n, scope⟩).context
        = ⟨m, scope⟩)
      (declared : Numbered f.declared n m) (grows : n < m) :
      GoesAs c scope key n m (key.toOrderKey.direction.term f)

variable {c : Converter} {scope : List (Param × Nat)} {n : Nat}

/-- When a sequence gives a result, it is that of its second part, in the
    context that the first part leaves. -/
theorem walked_bind {α β : Type} {x : Walk α} {f : α → Walk β}
    {ctx : Context} {b : β} (h : ((x >>= f) ctx).result = .ok b) :
    ∃ a, (x ctx).result = .ok a ∧
      (f a (x ctx).context).result = .ok b ∧
      ((x >>= f) ctx).context = (f a (x ctx).context).context := by
  replace h : (Walk.andThen x f ctx).result = .ok b := h
  show ∃ a, _ ∧ _ ∧ (Walk.andThen x f ctx).context = _
  rw [Walk.andThen] at h ⊢
  rcases hx : x ctx with ⟨r, middle, notes⟩
  rw [hx] at h
  cases r with
  | error e => cases h
  | ok a => exact ⟨a, rfl, h, rfl⟩

/-- The numbers in scope are a list around every term. -/
theorem within_scope (scope : List (Param × Nat)) :
    (Environment.ofScope scope).Within
      (scope.map fun e => Binary64.ofNat e.2) := by
  intro p id hid
  obtain ⟨before, after, hscope, -⟩ := List.lookup_eq_some_iff.mp hid
  rw [hscope]
  simp

/-- In any scope, the term of a function declares the numbers that its walk
    uses up, the first of them for its parameters. -/
theorem numbered_func (f : Func) {t : Term}
    (h : (f.walk c ⟨n, scope⟩).result = .ok t) :
    ∃ m, (f.walk c ⟨n, scope⟩).context = ⟨m, scope⟩ ∧
      Numbered t.declared n m ∧ n + f.arity ≤ m := by
  have hfollows : Walk.Follows scope (f.walk c)
      (f.translate c (.ofScope scope)) :=
    follows_func ((lexical_hereditary c).expr f.body)
  obtain ⟨hresult, hcontext⟩ := hfollows n
  rw [hresult] at h
  refine ⟨_, hcontext, ?_⟩
  have hcount := counts_func ((counted_hereditary c).expr f.body)
    (within_scope scope) [] n n (numbered_nil n)
  obtain ⟨hdeclared, -⟩ := hcount.2 t h
  refine ⟨hdeclared, ?_⟩
  -- The parameters of the function are among what is declared.
  obtain ⟨body, -, rfl⟩ := function_of_ok h
  have hlength := hdeclared.2.length_eq
  simp only [List.nil_append, declared_function, List.length_append,
    List.length_map, List.length_range'] at hlength
  have hle := hdeclared.1
  show n + f.params.length ≤ _
  omega

/-- A key that goes out does so in one of the two ways. -/
theorem goesAs_key {key : SortKey} {t : Term}
    (h : (key.walk c ⟨n, scope⟩).result = .ok t) :
    ∃ m, (key.walk c ⟨n, scope⟩).context = ⟨m, scope⟩ ∧
      key.GoesAs c scope n m t := by
  obtain ⟨selector, direction⟩ := key
  rw [SortKey.walk] at h ⊢
  obtain ⟨arg, harg, ht, hcontext⟩ := walked_bind h
  cases ht
  rw [hcontext, node_direction]
  cases hname : selector.toFunc.memberName? with
  | some name =>
      rw [hname] at harg
      cases harg
      exact ⟨n, rfl, .member name hname⟩
  | none =>
      rw [hname] at harg
      replace harg : (selector.walk c ⟨n, scope⟩).result = .ok arg := harg
      rw [rowFunc_walk] at harg
      obtain ⟨m, hm, hdeclared, hle⟩ := numbered_func _ harg
      refine ⟨m, ?_, .computed m arg hname harg hm hdeclared ?_⟩
      · show (selector.walk c ⟨n, scope⟩).context = ⟨m, scope⟩
        rw [rowFunc_walk]
        exact hm
      · have harity : selector.toFunc.arity = 1 := by
          cases selector
          rfl
        omega

/-! ## All keys -/

/-- Keys that go out give one term each, and the numbers of one start where
    those before it ended. -/
theorem goesAs_keys {keys : List SortKey} {ts : List Term}
    (h : (walkKeys c keys ⟨n, scope⟩).result = .ok ts) :
    ∃ start : Nat → Nat, start 0 = n ∧
      (walkKeys c keys ⟨n, scope⟩).context = ⟨start keys.length, scope⟩ ∧
      ts.length = keys.length ∧
      ∀ (i : Nat) (key : SortKey), keys[i]? = some key →
        ∃ t, ts[i]? = some t ∧
          key.GoesAs c scope (start i) (start (i + 1)) t := by
  induction keys generalizing n ts with
  | nil =>
      cases h
      exact ⟨fun _ => n, rfl, rfl, rfl, fun i key hkey => by cases hkey⟩
  | cons key keys ih =>
      obtain ⟨t, ht, hrest, hcontext⟩ := walked_bind h
      obtain ⟨m, hm, hgoes⟩ := goesAs_key ht
      rw [hm] at hrest hcontext
      obtain ⟨ts', hts, hdone, hcontext'⟩ := walked_bind hrest
      cases hdone
      obtain ⟨start, hstart, hend, hlength, hkeys⟩ := ih hts
      -- One place further on, and the numbers of the first key in front.
      refine ⟨fun i => if i = 0 then n else start (i - 1), rfl, ?_, ?_, ?_⟩
      · show ((SortKey.walk c key >>= _) ⟨n, scope⟩).context = _
        rw [hcontext, hcontext', hend]
        rfl
      · simp [hlength]
      · intro i key' hkey'
        cases i with
        | zero =>
            cases hkey'
            rw [← hstart] at hgoes
            exact ⟨t, rfl, hgoes⟩
        | succ i => exact hkeys i key' hkey'

/-- A sort as it goes out of a context: the source, and behind it one
    argument for each key, key `i` with the numbers from `start i` to
    `start (i + 1)`. -/
structure Query.SortsAs (c : Converter) (ctx : Context) (source : Query)
    (keys : List SortKey) (start : Nat → Nat) (t : Term) : Prop where
  kind : t.kind = .orderBy
  optargs : t.optargs = []
  length : t.args.length = keys.length + 1
  front : ∃ s, (source.walk c ctx).result = .ok s ∧ t.args[0]? = some s
  begins : start 0 = (source.walk c ctx).context.next
  keys : ∀ (i : Nat) (key : SortKey), keys[i]? = some key →
    ∃ arg, t.args[i + 1]? = some arg ∧
      key.GoesAs c ctx.scope (start i) (start (i + 1)) arg

/-- A sort that goes out does so key by key. -/
theorem sortsAs_of_ok {ctx : Context} {t : Term}
    (h : ((Query.orderBy source first others).walk c ctx).result = .ok t) :
    ∃ start : Nat → Nat, source.SortsAs c ctx (first :: others) start t ∧
      ((Query.orderBy source first others).walk c ctx).context
        = ⟨start (others.length + 1), ctx.scope⟩ := by
  rw [Query.walk] at h ⊢
  obtain ⟨s, hs, h, hcontext⟩ := walked_bind h
  have hscope : (source.walk c ctx).context
      = ⟨(source.walk c ctx).context.next, ctx.scope⟩ := by
    rw [((lexical_hereditary c).query source ctx.scope ctx.next).2]
  rw [hscope] at h hcontext
  obtain ⟨k, hk, h, hcontext'⟩ := walked_bind h
  obtain ⟨ks, hks, h, hcontext''⟩ := walked_bind h
  cases h
  -- The first key and the others are one list of keys.
  have hall : (walkKeys c (first :: others)
      ⟨(source.walk c ctx).context.next, ctx.scope⟩).result
        = .ok (k :: ks) :=
    bind_result_iff.mpr ⟨k, hk, bind_result_iff.mpr ⟨ks, hks, rfl⟩⟩
  obtain ⟨start, hstart, hend, hlength, hkeys⟩ := goesAs_keys hall
  refine ⟨start, ⟨rfl, rfl, ?_, ⟨s, hs, rfl⟩, hstart, hkeys⟩, ?_⟩
  · show (k :: ks).length + 1 = _
    rw [hlength]
  · rw [hcontext, hcontext', hcontext'']
    show (walkKeys c others _).context = _
    obtain ⟨k', hk', hrest, hcontext⟩ := walked_bind hall
    cases hk.symm.trans hk'
    obtain ⟨ks', -, -, hcontext'⟩ := walked_bind hrest
    rw [hcontext'] at hcontext
    exact hcontext.symm.trans hend

/-- **Sort keys are only ever appended, and go out in order.**  However many
    further keys are written, the order of a sort is its first key and then
    those in the order they were written; each earlier order is a prefix of
    each later one, and a sort that a session has stored stays as it was.
    Where a term is generated, in any context, it has one argument more
    than there are keys: the source, and behind it each key in its own
    direction, a direct member by its name and anything else as its
    function.  The functions take adjacent ranges of numbers in the order
    of the keys, from the one after the source's on, and the members in
    between take none. -/
theorem sort_keys_in_order (c : Converter) (source : Query)
    (first : SortKey) (further : List SortKey) :
    (∀ steps : List ThenBy,
      captureSteps (steps.map ThenBy.written) (.orderBy source first [])
        = captureKeys steps >>= fun keys =>
            return .orderBy source first keys) ∧
    (∀ earlier later, earlier ++ later = further →
      (Query.orderBy source first []).thenByAll? earlier
        = some (.orderBy source first earlier) ∧
      (Query.orderBy source first earlier).thenByAll? later
        = some (.orderBy source first further) ∧
      (Query.orderBy source first earlier).detail?
        = some (.order (.ofSortKeys first earlier)) ∧
      (OrderSpec.ofSortKeys first earlier).keys
        = (first :: earlier).map SortKey.toOrderKey ∧
      OrderSpec.ofSortKeys first further
        = (later.map SortKey.toOrderKey).foldl OrderSpec.appended
            (.ofSortKeys first earlier) ∧
      (OrderSpec.ofSortKeys first earlier).keys
        <+: (OrderSpec.ofSortKeys first further).keys) ∧
    (∀ (s : Session) (requests : List Session.Request),
      s.shelf.queries <:+ (s.after requests).shelf.queries) ∧
    ∀ ctx t, ((Query.orderBy source first further).walk c ctx).result
        = .ok t →
      ∃ start : Nat → Nat, source.SortsAs c ctx (first :: further) start t ∧
        ((Query.orderBy source first further).walk c ctx).context
          = ⟨start (further.length + 1), ctx.scope⟩ := by
  refine ⟨capture_thenBys, ?_, Session.stored_suffix, ?_⟩
  · rintro earlier later rfl
    refine ⟨thenByAll_orderBy earlier, thenByAll_orderBy later, rfl, rfl,
      ofSortKeys_append later, ?_⟩
    show (first :: earlier).map SortKey.toOrderKey
      <+: (first :: (earlier ++ later)).map SortKey.toOrderKey
    rw [← List.cons_append, List.map_append]
    exact List.prefix_append _ _
  · intro ctx t h
    exact sortsAs_of_ok h

/-- Users that are not banned. -/
def unbannedUsers : Query :=
  .rowStep (.root (.table ⟨none, "users", false⟩)) .filter
    (.mk ⟨1⟩ (.not (.field (.param ⟨1⟩) "banned")))

/-- By last name, then by town downwards, by first name, and by tags: two
    names and two functions, the second with a function in it. -/
def userKeys : SortKey × List SortKey :=
  let row : Param := ⟨1⟩
  let tags : Query := .rowStep (.root (.table ⟨none, "tags", false⟩)) .map
    (.mk ⟨2⟩ (.param ⟨2⟩))
  (.mk (.mk row (.field (.param row) "last")) .asc,
   [.mk (.mk row (.field (.field (.param row) "home") "town")) .desc,
    .mk (.mk row (.field (.param row) "first")) .asc,
    .mk (.mk row (.subquery 0 tags)) .asc])

/-- Those users in that order, as they go on the wire. -/
def sortedUsers : Term :=
  let text (s : String) : Term := .datum (.string s)
  let number (id : Nat) : Term := .datum (.number (Binary64.ofNat id))
  let table (name : String) : Term := .apply .table [text name] []
  let row (id : Nat) : Term := .apply .var [number id] []
  let member (t : Term) (name : String) : Term :=
    .apply .getField [t, text name] []
  let function (id : Nat) (body : Term) : Term :=
    .apply .func [.apply .makeArray [number id] [], body] []
  .apply .orderBy
    [.apply .filter [table "users",
        function 1 (.apply .not [member (row 1) "banned"] [])] [],
      .apply .asc [text "last"] [],
      .apply .desc
        [function 2 (member (member (row 2) "home") "town")] [],
      .apply .asc [text "first"] [],
      .apply .asc [function 3
        (.apply .map [table "tags", function 4 (row 4)] [])] []]
    []

theorem sort_keys_in_order_userKeys :
    let sorted := Query.orderBy unbannedUsers userKeys.1 userKeys.2
    (sorted.generate (.standard .strict)).result = .ok sortedUsers ∧
      sortedUsers.args.length = 5 ∧ ∃ start : Nat → Nat,
        unbannedUsers.SortsAs (.standard .strict) .fresh
          (userKeys.1 :: userKeys.2) start sortedUsers ∧
        start 0 = 2 ∧ start 4 = 5 := by
  intro sorted
  obtain ⟨-, -, -, hsends⟩ := sort_keys_in_order (.standard .strict)
    unbannedUsers userKeys.1 userKeys.2
  obtain ⟨start, hsorts, hend⟩ := hsends .fresh sortedUsers rfl
  exact ⟨rfl, hsorts.length, start, hsorts, hsorts.begins,
    (congrArg Context.next hend).symm⟩

end ChainQuery
