import ChainQuery.Entries

/-! # Entries — what a put changes

    Putting an item under a new key adds one entry and moves none of the
    others; where the entry lands is decided by the order of keys and
    does not matter for most purposes (`put_perm`). -/

namespace ChainQuery.Entries

variable {α : Type}

/-- A key is present when some entry has it. -/
theorem has_iff {key : String} {entries : List (String × α)} :
    has key entries = true ↔ key ∈ entries.map Prod.fst := by
  induction entries with
  | nil => simp [has, find?]
  | cons e rest ih =>
      obtain ⟨k, x⟩ := e
      by_cases hk : key = k
      · simp [has, find?, hk]
      · rw [List.map_cons, List.mem_cons]
        simpa [has, find?, hk] using ih

/-- A put under a new key adds its entry. -/
theorem put_perm {key : String} {entries : List (String × α)} (item : α)
    (h : key ∉ entries.map Prod.fst) :
    (put key item entries).Perm ((key, item) :: entries) := by
  induction entries with
  | nil => exact List.Perm.refl _
  | cons e rest ih =>
      obtain ⟨k, x⟩ := e
      rw [List.map_cons, List.mem_cons, not_or] at h
      rw [put, if_neg h.1]
      by_cases hb : KeyBefore key k
      · rw [if_pos hb]
      · rw [if_neg hb]
        exact ((ih h.2).cons (k, x)).trans
          (List.Perm.swap (key, item) (k, x) rest)

/-- After a put an entry is the one put or one from before. -/
theorem mem_put {key : String} {item : α} {entries : List (String × α)}
    {e : String × α} (h : e ∈ put key item entries) :
    e = (key, item) ∨ e ∈ entries := by
  induction entries with
  | nil => exact Or.inl (List.mem_singleton.mp h)
  | cons e' rest ih =>
      obtain ⟨k, x⟩ := e'
      rw [put] at h
      by_cases hk : key = k
      · rw [if_pos hk] at h
        exact (List.mem_cons.mp h).imp id (List.mem_cons_of_mem _)
      by_cases hb : KeyBefore key k
      · rw [if_neg hk, if_pos hb] at h
        exact List.mem_cons.mp h
      · rw [if_neg hk, if_neg hb] at h
        rcases List.mem_cons.mp h with heq | hmem
        · exact Or.inr (heq ▸ List.mem_cons_self)
        · exact (ih hmem).imp id (List.mem_cons_of_mem _)

/-- What is found after a put is the item put, or what was found before. -/
theorem find?_put (key other : String) (item : α)
    (entries : List (String × α)) :
    find? other (put key item entries)
      = if other = key then some item else find? other entries := by
  induction entries with
  | nil => rfl
  | cons e rest ih =>
      obtain ⟨k, x⟩ := e
      rw [put]
      by_cases hk : key = k
      · subst hk
        by_cases ho : other = key <;> simp [find?, ho]
      · by_cases hb : KeyBefore key k
        · simp [hk, hb, find?]
        · rw [if_neg hk, if_neg hb, find?, find?, ih]
          by_cases ho : other = k
          · simp [ho, Ne.symm hk]
          · simp [ho]

end ChainQuery.Entries
