import Mathlib.Data.List.Nodup
import ChainQuery.Proofs.Embedding
import ChainQuery.Proofs.Outside

/-! # Governing — a layout decides about scopes

    Whether a chain has a term at all depends on its literals, calls and
    selectors too, but what becomes of its parameters is decided by its
    layout alone.  If every use is in a function that declares it, no
    parameter is ever free; if one is not, there is no term; and in a term
    every use is a reference to a number that its function, and no other,
    lists where it lists the parameter.  The route:

    * the numbers of the functions of a layout are all different, and as
      doubles too where doubles tell them apart (`numbers_nodup`);
    * a term is scoped as the layout of its chain says
      (`scopes_of_generate`), and the free parameters of the layout are
      what can go wrong (`exposed_hereditary`);
    * names do not matter, so a chain is governed by every layout that
      differs from its own in names only (`governs_of_matches`). -/

namespace ChainQuery

open Term Layout

variable {ν μ : Type} {l : Layout ν} {m : Layout μ} {c : Converter}
  {q : Query} {t : Term}

/-! ## Numbers -/

/-- The numbers of the parameters of a function, when numbering starts at
    one. -/
def Spot.numbers (s : Spot (List ν)) : List Nat :=
  List.range' (1 + s.before) s.item.length

/-- All numbers that the functions of a layout list. -/
def Layout.numbers (l : Layout ν) : List Nat :=
  l.functions.flatMap Spot.numbers

theorem le_of_mem_numbers {id : Nat} (h : id ∈ l.numbers) :
    id ≤ l.count := by
  obtain ⟨s, hs, hid⟩ := List.mem_flatMap.mp h
  have hle := l.within s hs
  obtain ⟨-, hlt⟩ := List.mem_range'_1.mp hid
  omega

/-- No number is listed twice. -/
theorem numbers_nodup (l : Layout ν) : l.numbers.Nodup := by
  refine List.nodup_flatMap.mpr
    ⟨fun s _ => List.nodup_range', l.apart.imp fun {s s'} hle => ?_⟩
  intro id hid hid'
  obtain ⟨-, hlt⟩ := List.mem_range'_1.mp hid
  obtain ⟨hge, -⟩ := List.mem_range'_1.mp hid'
  omega

/-- Numbers below `2 ^ 53` stay different as doubles. -/
theorem doubles_nodup (l : Layout ν) (h : l.count < 2 ^ 53) :
    (l.numbers.map Binary64.ofNat).Nodup := by
  refine (List.nodup_map_iff_inj_on (numbers_nodup l)).mpr ?_
  intro id _ id' hid' heq
  exact Binary64.ofNat_inj (Nat.lt_of_le_of_lt (le_of_mem_numbers hid') h)
    heq

/-! ## Scopes -/

/-- Every use is in a function that declares it. -/
def Layout.Closed (l : Layout ν) : Prop :=
  ∀ u ∈ l.uses, u.binder ≠ none

/-- A term is scoped as a layout says. -/
structure Layout.Scopes (l : Layout ν) (t : Term) : Prop where
  /-- Each function lists its numbers. -/
  functions : ∀ s ∈ l.functions, ∃ body, t.At s.path
    (.node .func [.node .makeArray (s.numbers.map .number), body])
  /-- Each use is a reference in the function that declares it, to the
      number listed where the function has the parameter. -/
  uses : ∀ u ∈ l.uses, ∃ k i s id, u.binder = some (k, i) ∧
    l.functions[k]? = some s ∧ s.path <+: u.path ∧
      s.item[i]? = some u.name ∧ s.numbers[i]? = some id ∧
        t.At u.path (.node .var [.number id])
  /-- No other function lists that number. -/
  once : l.numbers.Nodup
  /-- Nor does another list the same double, unless there are too many
      for doubles. -/
  apart : l.count < 2 ^ 53 → (l.numbers.map Binary64.ofNat).Nodup
  /-- There are no functions and no references but these. -/
  onlyFunctions : ∀ path f, t.At path f → f.kind = .func →
    ∃ s ∈ l.functions, s.path = path
  onlyUses : ∀ path r, t.At path r → r.kind = .var →
    ∃ u ∈ l.uses, u.path = path

/-- A layout decides about the scopes of a chain. -/
structure Layout.Governs (l : Layout ν) (c : Converter) (q : Query) :
    Prop where
  closed : l.Closed →
    ∀ p, (q.generate c).result ≠ .error (.unsupported (.freeParam p))
  opened : ¬ l.Closed → ∃ e, (q.generate c).result = .error e
  scopes : ∀ t, (q.generate c).result = .ok t → l.Scopes t

/-- A closed layout leaves nothing free. -/
theorem closed_iff_free {l : Layout Param} : l.Closed ↔ l.free = [] := by
  rw [List.eq_nil_iff_forall_not_mem]
  constructor
  · intro hclosed p hp
    obtain ⟨u, hu, hnone, -⟩ := mem_free.mp hp
    exact hclosed u hu hnone
  · intro hfree u hu hnone
    exact hfree u.name (mem_free.mpr ⟨u, hu, hnone, rfl⟩)

/-- A term is scoped as its chain is laid out. -/
theorem scopes_of_generate (h : (q.generate c).result = .ok t) :
    q.layout.Scopes t := by
  obtain ⟨-, hfits⟩ :=
    (laid_hereditary c).query q _ 1 t _ (translate_of_generate h)
  refine ⟨hfits.functions, fun u hu => ?_, numbers_nodup _,
    doubles_nodup _, hfits.onlyFunctions, hfits.onlyUses⟩
  cases hbinder : u.binder with
  | none =>
      -- Nothing is declared outside.
      obtain ⟨id, hid, -⟩ := hfits.outside u hu hbinder
      cases hid
  | some b =>
      obtain ⟨k, i⟩ := b
      obtain ⟨s, hs, hat⟩ := hfits.bound u hu k i hbinder
      obtain ⟨s', hs', hprefix, hname⟩ := q.layout.declared u hu k i hbinder
      obtain rfl : s = s' := Option.some.inj (hs.symm.trans hs')
      have hlt : i < s.item.length := (List.getElem?_eq_some_iff.mp hname).1
      refine ⟨k, i, s, 1 + s.before + i, rfl, hs, hprefix, hname, ?_, hat⟩
      rw [Spot.numbers, List.getElem?_range' hlt, Nat.one_mul]

/-- Every chain is governed by its own layout. -/
theorem governs_layout (c : Converter) (q : Query) :
    q.layout.Governs c q := by
  have hverdict := verdict_walk c q .fresh
  have hexposed := (exposed_hereditary c).query q []
  refine ⟨fun hclosed p herror => ?_, fun hopen => ?_,
    fun t => scopes_of_generate⟩
  · have hhead := (verdict_error hverdict).mp herror
    have hfree := ((hexposed p).mp (List.mem_of_head? hhead)).1
    rw [closed_iff_free.mp hclosed] at hfree
    cases hfree
  · obtain ⟨p, hp⟩ :=
      List.exists_mem_of_ne_nil _ (mt closed_iff_free.mpr hopen)
    have hmem := (hexposed p).mpr ⟨hp, List.not_mem_nil⟩
    obtain ⟨e, he⟩ : ∃ e, (q.violations c []).head? = some e := by
      cases hviolations : q.violations c [] with
      | nil =>
          rw [hviolations] at hmem
          cases hmem
      | cons e es => exact ⟨e, rfl⟩
    exact ⟨e, (verdict_error hverdict).mpr he⟩

/-! ## Other names -/

theorem closed_congr (h : l.Matches m) : l.Closed ↔ m.Closed := by
  constructor
  · intro hclosed v hv
    obtain ⟨u, hu, huv⟩ := forall₂_mem_right h.uses hv
    rw [← huv.binder]
    exact hclosed u hu
  · intro hclosed u hu
    obtain ⟨v, hv, huv⟩ := forall₂_mem_left h.uses hu
    rw [huv.binder]
    exact hclosed v hv

theorem numbers_congr {s : Spot (List ν)} {s' : Spot (List μ)}
    (h : s.Matches s') : s.numbers = s'.numbers := by
  rw [Spot.numbers, Spot.numbers, h.before, h.length]

/-- What a term is scoped like does not depend on names. -/
theorem scopes_of_matches (h : l.Matches m) (hscopes : m.Scopes t) :
    l.Scopes t where
  functions s hs := by
    obtain ⟨s', hs', hmatch⟩ := forall₂_mem_left h.functions hs
    rw [numbers_congr hmatch, hmatch.path]
    exact hscopes.functions s' hs'
  uses u hu := by
    obtain ⟨v, hv, huv⟩ := forall₂_mem_left h.uses hu
    obtain ⟨k, i, s', id, hbinder, hs', -, -, hid, hat⟩ :=
      hscopes.uses v hv
    rw [← huv.binder] at hbinder
    obtain ⟨s, hs, hmatch⟩ := forall₂_right h.functions hs'
    obtain ⟨s'', hs'', hprefix, hname⟩ := l.declared u hu k i hbinder
    obtain rfl : s = s'' := Option.some.inj (hs.symm.trans hs'')
    rw [← numbers_congr hmatch] at hid
    rw [← huv.path] at hat
    exact ⟨k, i, s, id, hbinder, hs, hprefix, hname, hid, hat⟩
  once := numbers_nodup l
  apart := doubles_nodup l
  onlyFunctions path f hat hkind := by
    obtain ⟨s', hs', rfl⟩ := hscopes.onlyFunctions path f hat hkind
    obtain ⟨s, hs, hmatch⟩ := forall₂_mem_right h.functions hs'
    exact ⟨s, hs, hmatch.path⟩
  onlyUses path r hat hkind := by
    obtain ⟨v, hv, rfl⟩ := hscopes.onlyUses path r hat hkind
    obtain ⟨u, hu, huv⟩ := forall₂_mem_right h.uses hv
    exact ⟨u, hu, huv.path⟩

/-- A chain is governed by every layout that differs from its own in names
    only. -/
theorem governs_of_matches (c : Converter) (h : l.Matches q.layout) :
    l.Governs c q := by
  obtain ⟨hclosed, hopened, hscopes⟩ := governs_layout c q
  exact ⟨fun hl => hclosed ((closed_congr h).mp hl),
    fun hl => hopened fun hq => hl ((closed_congr h).mpr hq),
    fun t ht => scopes_of_matches h (hscopes t ht)⟩

end ChainQuery
