import ChainQuery.Proofs.Encoding
import ChainQuery.Proofs.Entries
import Mathlib.Data.List.Nodup

/-! # Key order — entries stay sorted

    Byte order of keys is a strict total order, so a collection of entries
    that is built by puts has its keys in strictly increasing order
    (`sorted_put`), and putting keys in that order appends
    (`put_last`).  Sorted entries have one item under each key, and are in
    the one order that their keys allow (`keys_ext`); so they are known by
    what is found in them (`ext_find?`). -/

namespace ChainQuery

/-! ## A strict total order -/

theorem keyBefore_irrefl (a : String) : ¬ KeyBefore a a :=
  List.lt_irrefl (utf8 a)

theorem keyBefore_trans {a b c : String} (h : KeyBefore a b)
    (h' : KeyBefore b c) : KeyBefore a c :=
  List.lt_trans h h'

/-- Of two different keys one comes first. -/
theorem keyBefore_of_not {a b : String} (hne : a ≠ b)
    (h : ¬ KeyBefore a b) : KeyBefore b a :=
  Std.lt_of_le_of_ne h fun heq => hne (Canonical.utf8_inj heq.symm)

namespace Entries

variable {α : Type} {key : String} {entries : List (String × α)}

/-! ## Puts -/

/-- A put leaves sorted entries sorted. -/
theorem sorted_put (item : α) (h : Sorted entries) :
    Sorted (put key item entries) := by
  induction entries with
  | nil => exact List.pairwise_singleton _ _
  | cons e rest ih =>
      obtain ⟨k, x⟩ := e
      obtain ⟨hfirst, hrest⟩ := List.pairwise_cons.mp h
      rw [put]
      by_cases hk : key = k
      · subst hk
        rw [if_pos rfl]
        exact List.pairwise_cons.mpr ⟨hfirst, hrest⟩
      rw [if_neg hk]
      by_cases hb : KeyBefore key k
      · rw [if_pos hb]
        refine List.pairwise_cons.mpr ⟨?_, h⟩
        exact List.forall_mem_cons.mpr
          ⟨hb, fun e he => keyBefore_trans hb (hfirst e he)⟩
      · rw [if_neg hb]
        refine List.pairwise_cons.mpr ⟨fun e he => ?_, ih hrest⟩
        rcases mem_put he with rfl | hmem
        · exact keyBefore_of_not hk hb
        · exact hfirst e hmem

/-- An entry whose key comes after all others is put at the end. -/
theorem put_last (item : α) (h : ∀ e ∈ entries, KeyBefore e.1 key) :
    put key item entries = entries ++ [(key, item)] := by
  induction entries with
  | nil => rfl
  | cons e rest ih =>
      obtain ⟨k, x⟩ := e
      obtain ⟨hfirst, hrest⟩ := List.forall_mem_cons.mp h
      have hne : key ≠ k := by
        rintro rfl
        exact keyBefore_irrefl key hfirst
      have hnot : ¬ KeyBefore key k := fun hb =>
        keyBefore_irrefl key (keyBefore_trans hb hfirst)
      rw [put, if_neg hne, if_neg hnot, ih hrest]
      rfl

/-! ## Keys of sorted entries -/

theorem keys_pairwise (h : Sorted entries) :
    (entries.map Prod.fst).Pairwise KeyBefore :=
  List.pairwise_map.mpr h

theorem keys_nodup (h : Sorted entries) : (entries.map Prod.fst).Nodup :=
  (keys_pairwise h).imp fun hb => by
    rintro rfl
    exact keyBefore_irrefl _ hb

/-- Under one key there is one item. -/
theorem item_unique (h : Sorted entries) {a b : α}
    (ha : (key, a) ∈ entries) (hb : (key, b) ∈ entries) : a = b :=
  congrArg Prod.snd (List.inj_on_of_nodup_map (keys_nodup h) ha hb rfl)

/-- What is found under a key is the item of its one entry. -/
theorem find?_iff (h : Sorted entries) {item : α} :
    find? key entries = some item ↔ (key, item) ∈ entries := by
  induction entries with
  | nil => simp [find?]
  | cons e rest ih =>
      obtain ⟨k, x⟩ := e
      obtain ⟨hfirst, hrest⟩ := List.pairwise_cons.mp h
      rw [find?, List.mem_cons]
      by_cases hk : key = k
      · subst hk
        have hnot : (key, item) ∉ rest := by
          intro hmem
          exact keyBefore_irrefl key (hfirst _ hmem)
        simp [hnot, eq_comm]
      · simp [hk, ih hrest]

/-- Sorted entries under whose keys the same is found are the same. -/
theorem ext_find? {others : List (String × α)} (h : Sorted entries)
    (hothers : Sorted others)
    (hfind : ∀ key, find? key entries = find? key others) :
    entries = others := by
  have hmem : ∀ e, e ∈ entries ↔ e ∈ others := by
    rintro ⟨key, item⟩
    rw [← find?_iff h, ← find?_iff hothers, hfind key]
  have hperm : entries.Perm others :=
    (List.perm_ext_iff_of_nodup (List.Nodup.of_map _ (keys_nodup h))
      (List.Nodup.of_map _ (keys_nodup hothers))).mpr hmem
  refine hperm.eq_of_pairwise ?_ h hothers
  intro a b _ _ hab hba
  exact absurd (keyBefore_trans hab hba) (keyBefore_irrefl a.1)

/-- Sorted entries with the same keys have them in the same order. -/
theorem keys_ext {β : Type} {others : List (String × β)}
    (h : Sorted entries) (hothers : Sorted others)
    (hkeys : ∀ key, key ∈ entries.map Prod.fst ↔
      key ∈ others.map Prod.fst) :
    entries.map Prod.fst = others.map Prod.fst := by
  have hperm := (List.perm_ext_iff_of_nodup (keys_nodup h)
    (keys_nodup hothers)).mpr hkeys
  refine hperm.eq_of_pairwise ?_ (keys_pairwise h) (keys_pairwise hothers)
  intro a b _ _ hab hba
  exact absurd (keyBefore_trans hab hba) (keyBefore_irrefl a)

end Entries

end ChainQuery
