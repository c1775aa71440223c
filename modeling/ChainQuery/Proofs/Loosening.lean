import ChainQuery.Proofs.Questions

/-! # Loosening — a converter that takes more

    The standard conversion can be put behind any choice of kinds and run
    with any settings.  Where it takes more kinds, nests deeper or lets
    integers lose precision, what it took before it takes as before.  The
    route:

    * a value that converts at some depth converts to the same datum at
      that depth under looser settings (`convertAt_loosened`): the settings
      only ever decide whether to refuse;
    * so a looser converter does the same with every literal that was
      accepted, whatever it does with others (`literal_loosened`);
    * a chain that has a term had all its literals accepted, and a walk
      meets its converter nowhere else. -/

namespace ChainQuery

namespace Converter

/-- The standard conversion behind a choice of kinds. -/
def around (supports : Value.Kind → Bool) (config : Config) : Converter where
  supports := supports
  convert v := convertAt config v 0

/-- An adjusted standard converter is one of these. -/
theorem adjusted_standard (config : Config)
    (accept refuse : List Value.Kind) :
    (standard config).adjusted accept refuse
      = around ((standard config).adjusted accept refuse).supports config :=
  rfl

/-- The second settings let pass whatever the first let pass. -/
structure Config.Loosens (config config' : Config) : Prop where
  depth : config.maxDepth ≤ config'.maxDepth
  integers : config.lossyIntegers = true → config'.lossyIntegers = true

variable {config config' : Config}

/-- An integer that is let through is let through by looser settings. -/
theorem exact_loosened (h : config.Loosens config') {beyond : Prop}
    [Decidable beyond] {e : ConvertError} {d d' : Datum}
    (hd : (if (!config.lossyIntegers && decide beyond) = true then
      .error e else .ok d') = (.ok d : Except ConvertError Datum)) :
    (if (!config'.lossyIntegers && decide beyond) = true then
      .error e else .ok d') = (.ok d : Except ConvertError Datum) := by
  have hintegers := h.integers
  cases hl : config.lossyIntegers with
  | true =>
      rw [hl] at hd
      rw [hintegers hl]
      exact hd
  | false =>
      by_cases hb : beyond
      · simp [hl, hb] at hd
      · simpa [hl, hb] using hd

mutual

/-- What converts at some depth converts there under looser settings, to
    the same datum. -/
theorem convertAt_loosened (h : config.Loosens config') :
    ∀ (v : Value) (depth : Nat) (d : Datum),
      convertAt config v depth = .ok d → convertAt config' v depth = .ok d
  | v, depth, d, hd => by
      rw [convertAt.eq_def] at hd ⊢
      by_cases hdeep : config.maxDepth < depth
      · rw [if_pos hdeep] at hd
        cases hd
      have hdeep' : ¬ config'.maxDepth < depth :=
        fun hlt => hdeep (Nat.lt_of_le_of_lt h.depth hlt)
      rw [if_neg hdeep] at hd
      rw [if_neg hdeep']
      cases v with
      | null | bool | text | float | blob => exact hd
      | int i => exact exact_loosened h hd
      | uint n => exact exact_loosened h hd
      | list items =>
          obtain ⟨ds, hds, hok⟩ := bind_eq_ok.mp hd
          exact bind_eq_ok.mpr
            ⟨ds, convertItems_loosened h items (depth + 1) ds hds, hok⟩
      | map entries =>
          obtain ⟨out, hout, hok⟩ := bind_eq_ok.mp hd
          exact bind_eq_ok.mpr
            ⟨out, convertEntries_loosened h entries (depth + 1) [] out hout,
              hok⟩

theorem convertItems_loosened (h : config.Loosens config') :
    ∀ (items : List Value) (depth : Nat) (ds : List Datum),
      convertItems config items depth = .ok ds →
        convertItems config' items depth = .ok ds
  | [], _, _, hds => hds
  | v :: vs, depth, ds, hds => by
      obtain ⟨d, hd, hrest⟩ := bind_eq_ok.mp hds
      obtain ⟨es, hes, hok⟩ := bind_eq_ok.mp hrest
      exact bind_eq_ok.mpr ⟨d, convertAt_loosened h v depth d hd,
        bind_eq_ok.mpr ⟨es, convertItems_loosened h vs depth es hes, hok⟩⟩

theorem convertEntries_loosened (h : config.Loosens config') :
    ∀ (entries : List (Value × Value)) (depth : Nat)
      (done out : List (String × Datum)),
      convertEntries config entries depth done = .ok out →
        convertEntries config' entries depth done = .ok out
  | [], _, _, _, hout => hout
  | (key, item) :: rest, depth, done, out, hout => by
      rw [convertEntries] at hout ⊢
      cases hkey : key.asText with
      | none =>
          rw [hkey] at hout
          cases hout
      | some name =>
          rw [hkey] at hout
          obtain ⟨d, hd, hrest⟩ := bind_eq_ok.mp hout
          refine bind_eq_ok.mpr
            ⟨d, convertAt_loosened h item depth d hd, ?_⟩
          by_cases hname : Entries.has name done = true
          · rw [if_pos hname] at hrest
            cases hrest
          · rw [if_neg hname] at hrest ⊢
            exact convertEntries_loosened h rest depth _ out hrest

end

end Converter

open Converter

variable {config config' : Converter.Config}
  {supports supports' : Value.Kind → Bool}

/-- A looser converter does the same with a literal that was accepted. -/
theorem literal_loosened
    (hkinds : ∀ kind, supports kind = true → supports' kind = true)
    (hconfig : config.Loosens config') {v : Value}
    (hv : (around supports config).Accepts v) :
    (around supports' config').literal v
      = (around supports config).literal v := by
  obtain ⟨hall, d, hd⟩ := hv
  refine literal_congr (fun kind hkind => ?_) ?_
  · have hsupported : supports kind = true := hall kind hkind
    exact (hkinds kind hsupported).trans hsupported.symm
  · exact (convertAt_loosened hconfig v 0 d hd).trans hd.symm

/-- **Loosening a converter never changes a term.**  Take the standard
    conversion behind two choices of kinds and with two settings, where the
    second converter supports every kind the first supports, nests as deep
    and lets integers lose precision whenever the first does.  A chain that
    has a term under the first has the same term under the second; and the
    whole run is the same: the questions, the events and the numbers used
    up. -/
theorem generate_loosened
    (hkinds : ∀ kind, supports kind = true → supports' kind = true)
    (hconfig : config.Loosens config') {q : Query} {t : Term}
    (h : (q.generate (around supports config)).result = .ok t) :
    (q.generate (around supports' config')).result = .ok t ∧
      Note.questions (q.generate (around supports' config')).notes
        = Note.questions (q.generate (around supports config)).notes ∧
      q.generate (around supports' config')
        = q.generate (around supports config) := by
  have hsame : q.generate (around supports' config')
      = q.generate (around supports config) :=
    generate_congr fun v hv =>
      literal_loosened hkinds hconfig (accepts_of_ok h v hv)
  refine ⟨?_, ?_, hsame⟩
  · rw [hsame, h]
  · rw [hsame]

/-- A list within a list, an exact integer in it, under a limit of two
    levels and with text refused; and the same under one more level, with
    lossy integers and nothing refused but blobs. -/
theorem generate_loosened_nested :
    let strict := (Converter.standard ⟨2, false⟩).adjusted [] [.text]
    let loose := (Converter.standard ⟨3, true⟩).adjusted [] []
    let q : Query := .root (.literal (.list [.list [.int 7]]))
    (q.generate loose).result = (q.generate strict).result ∧
      Note.questions (q.generate loose).notes
        = [.supports .list, .supports .list, .supports .int,
            .convert .list] := by
  intro strict loose q
  have hkinds : ∀ kind, strict.supports kind = true →
      loose.supports kind = true := by
    intro kind
    cases kind <;> decide
  have hconfig : Config.Loosens ⟨2, false⟩ ⟨3, true⟩ :=
    ⟨by decide, by decide⟩
  -- Both are the standard conversion behind a choice of kinds.
  have hstrict : strict = around strict.supports ⟨2, false⟩ :=
    adjusted_standard _ _ _
  have hloose : loose = around loose.supports ⟨3, true⟩ :=
    adjusted_standard _ _ _
  obtain ⟨-, hquestions, hsame⟩ :=
    generate_loosened hkinds hconfig (q := q) rfl
  rw [← hstrict, ← hloose] at hquestions hsame
  exact ⟨congrArg Outcome.result hsame, hquestions.trans rfl⟩

end ChainQuery
