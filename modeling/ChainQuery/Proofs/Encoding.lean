import ChainQuery.Term.Fingerprint
import Mathlib.Algebra.Group.Nat.Defs

/-! # Encoding — canonical bytes tell terms apart

    The canonical bytes of a term have no terminators: every node opens
    with a tag, and every list, map and string with a count.  They are
    read back from the front, so the claim that carries the induction is
    about bytes with anything behind them: whatever follows, the bytes of
    a term show both the term and where it ends (`Canonical.Delimits`).
    The route:

    * fields of fixed size hold their number, kind or count without loss,
      a count as long as it fits in four bytes;
    * a string is delimited by its count, and a list by its count and its
      items (`datums_delimit`, `terms_delimit`);
    * nothing more is needed for nodes (`datum_delimits`,
      `term_delimits`), and taking nothing for what follows gives
      injectivity and freedom from prefixes
      (`canonical_injective_prefixFree`). -/

namespace ChainQuery

/-! ## Sizes that a count can hold -/

/-- A string of fewer than `2 ^ 32` bytes. -/
def SmallText (s : String) : Prop :=
  (utf8 s).length < 2 ^ 32

instance (s : String) : Decidable (SmallText s) :=
  inferInstanceAs (Decidable ((utf8 s).length < 2 ^ 32))

mutual

/-- Every string, array and object in a datum has a size below
    `2 ^ 32`. -/
def Datum.Small : Datum → Prop
  | .null => True
  | .bool _ => True
  | .number _ => True
  | .string s => SmallText s
  | .array items => items.length < 2 ^ 32 ∧ SmallItems items
  | .object entries => entries.length < 2 ^ 32 ∧ SmallEntries entries
termination_by structural d => d

/-- Every item is small. -/
def SmallItems : List Datum → Prop
  | [] => True
  | d :: ds => Datum.Small d ∧ SmallItems ds
termination_by structural ds => ds

/-- Every key and every item is small. -/
def SmallEntries : List (String × Datum) → Prop
  | [] => True
  | (key, d) :: rest => SmallText key ∧ Datum.Small d ∧ SmallEntries rest
termination_by structural es => es

end

mutual

/-- Every argument list, string, array and object in a term has a size
    below `2 ^ 32`. -/
def Term.Small : Term → Prop
  | .datum d => d.Small
  | .apply _ args optargs =>
      (args.length < 2 ^ 32 ∧ SmallArgs args) ∧
        optargs.length < 2 ^ 32 ∧ SmallNamed optargs
termination_by structural t => t

/-- Every argument is small. -/
def SmallArgs : List Term → Prop
  | [] => True
  | t :: ts => Term.Small t ∧ SmallArgs ts
termination_by structural ts => ts

/-- Every name and every named argument is small. -/
def SmallNamed : List (String × Term) → Prop
  | [] => True
  | (name, t) :: rest => SmallText name ∧ Term.Small t ∧ SmallNamed rest
termination_by structural es => es

end

namespace Canonical

/-! ## Fields of fixed size -/

/-- A byte of a number is one of its digits to the base 256. -/
theorem digit_of_byte {m n place : Nat}
    (h : UInt8.ofNat (m >>> place) = UInt8.ofNat (n >>> place)) :
    m / 2 ^ place % 256 = n / 2 ^ place % 256 := by
  have hbyte := congrArg UInt8.toNat h
  rw [UInt8.toNat_ofNat', UInt8.toNat_ofNat', Nat.shiftRight_eq_div_pow,
    Nat.shiftRight_eq_div_pow] at hbyte
  exact hbyte

/-- Four bytes hold a count below `2 ^ 32`. -/
theorem count_inj {m n : Nat} (hm : m < 2 ^ 32) (hn : n < 2 ^ 32)
    (h : count m = count n) : m = n := by
  simp only [count, List.map_cons, List.cons.injEq] at h
  obtain ⟨h₂₄, h₁₆, h₈, h₀, -⟩ := h
  have := digit_of_byte h₂₄
  have := digit_of_byte h₁₆
  have := digit_of_byte h₈
  have := digit_of_byte h₀
  omega

/-- Eight bytes hold the bits of a number. -/
theorem bits_inj {x y : Binary64} (h : bits x = bits y) : x = y := by
  simp only [bits, List.map_cons, List.cons.injEq] at h
  obtain ⟨h₅₆, h₄₈, h₄₀, h₃₂, h₂₄, h₁₆, h₈, h₀, -⟩ := h
  have hx := x.bits.toNat_lt
  have hy := y.bits.toNat_lt
  have := digit_of_byte h₅₆
  have := digit_of_byte h₄₈
  have := digit_of_byte h₄₀
  have := digit_of_byte h₃₂
  have := digit_of_byte h₂₄
  have := digit_of_byte h₁₆
  have := digit_of_byte h₈
  have := digit_of_byte h₀
  have hbits : x.bits.toNat = y.bits.toNat := by omega
  cases x
  cases y
  exact congrArg Binary64.mk (UInt64.toNat_inj.mp hbits)

/-- A kind is found among all kinds by its tag. -/
theorem find_tag (k : Term.Kind) :
    Term.Kind.all.find? (fun l => l.tag == k.tag) = some k := by
  cases k <;> rfl

/-- No two kinds have one tag. -/
theorem tag_inj {k l : Term.Kind} (h : k.tag = l.tag) : k = l := by
  have hk := find_tag k
  rw [h, find_tag l] at hk
  exact (Option.some.inj hk).symm

/-- Two bytes hold the tag of a kind. -/
theorem kind_inj {k l : Term.Kind} (h : kind k = kind l) : k = l := by
  simp only [kind, List.cons.injEq] at h
  obtain ⟨hhigh, hlow, -⟩ := h
  have hsmall : ∀ k : Term.Kind, k.tag < 2 ^ 16 := by
    intro k
    cases k <;> decide
  have hk := hsmall k
  have hl := hsmall l
  have := digit_of_byte hhigh
  have : k.tag / 2 ^ 0 % 256 = l.tag / 2 ^ 0 % 256 := digit_of_byte hlow
  exact tag_inj (by omega)

/-! ## Delimited encodings -/

variable {α : Type}

/-- Among things with `P`, the encoding of `a` shows `a` and where it
    ends, whatever follows. -/
def Delimits (P : α → Prop) (encode : α → List UInt8) (a : α) : Prop :=
  ∀ b, P b → ∀ rest rest', encode a ++ rest = encode b ++ rest' →
    a = b ∧ rest = rest'

/-- A count that fits shows itself and where it ends. -/
theorem count_delimits {m : Nat} (hm : m < 2 ^ 32) :
    Delimits (· < 2 ^ 32) count m := by
  intro n hn rest rest' h
  obtain ⟨hcount, hrest⟩ := List.append_inj h rfl
  exact ⟨count_inj hm hn hcount, hrest⟩

/-- A string is its UTF-8 bytes. -/
theorem utf8_inj {s s' : String} (h : utf8 s = utf8 s') : s = s' :=
  String.toByteArray_inj.mp
    (ByteArray.ext (Array.toList_inj.mp h))

/-- A string is delimited by its size. -/
theorem string_delimits {s : String} (hs : SmallText s) :
    Delimits SmallText string s := by
  intro s' hs' rest rest' h
  rw [string, string, List.append_assoc, List.append_assoc] at h
  obtain ⟨hsize, h⟩ := count_delimits hs _ hs' _ _ h
  obtain ⟨hbytes, hrest⟩ := List.append_inj h hsize
  exact ⟨utf8_inj hbytes, hrest⟩

/-! ## Datums -/

mutual

/-- A datum is delimited: its tag tells its form, and every form has a
    fixed size or opens with a count. -/
theorem datum_delimits : ∀ d : Datum, d.Small → Delimits Datum.Small datum d
  | .null, _, e, _, rest, rest', h => by
      cases e with
      | null => exact ⟨rfl, (List.cons.inj h).2⟩
      | _ => exact absurd (List.cons.inj h).1 (by decide)
  | .bool b, _, e, _, rest, rest', h => by
      cases e with
      | bool b' =>
          obtain ⟨hbyte, hrest⟩ := List.cons.inj (List.cons.inj h).2
          have hbool : b = b' := by
            revert hbyte
            cases b <;> cases b' <;> decide
          exact ⟨congrArg Datum.bool hbool, hrest⟩
      | _ => exact absurd (List.cons.inj h).1 (by decide)
  | .number x, _, e, _, rest, rest', h => by
      cases e with
      | number y =>
          obtain ⟨hbits, hrest⟩ := List.append_inj (List.cons.inj h).2 rfl
          exact ⟨congrArg Datum.number (bits_inj hbits), hrest⟩
      | _ => exact absurd (List.cons.inj h).1 (by decide)
  | .string s, hs, e, he, rest, rest', h => by
      cases e with
      | string s' =>
          obtain ⟨hstring, hrest⟩ :=
            string_delimits hs s' he _ _ (List.cons.inj h).2
          exact ⟨congrArg Datum.string hstring, hrest⟩
      | _ => exact absurd (List.cons.inj h).1 (by decide)
  | .array items, hd, e, he, rest, rest', h => by
      cases e with
      | array items' =>
          simp only [datum, List.cons_append, List.append_assoc] at h
          have hbytes := (List.cons.inj h).2
          obtain ⟨hsize, hbytes⟩ :=
            count_delimits hd.1 _ he.1 _ _ hbytes
          obtain ⟨hitems, hrest⟩ :=
            datums_delimit items hd.2 items' ⟨hsize, he.2⟩ _ _ hbytes
          exact ⟨congrArg Datum.array hitems, hrest⟩
      | _ => exact absurd (List.cons.inj h).1 (by decide)
  | .object entries, hd, e, he, rest, rest', h => by
      cases e with
      | object entries' =>
          simp only [datum, List.cons_append, List.append_assoc] at h
          have hbytes := (List.cons.inj h).2
          obtain ⟨hsize, hbytes⟩ :=
            count_delimits hd.1 _ he.1 _ _ hbytes
          obtain ⟨hentries, hrest⟩ :=
            members_delimit entries hd.2 entries' ⟨hsize, he.2⟩ _ _ hbytes
          exact ⟨congrArg Datum.object hentries, hrest⟩
      | _ => exact absurd (List.cons.inj h).1 (by decide)
termination_by structural d => d

/-- Items are delimited once their number is known. -/
theorem datums_delimit : ∀ ds : List Datum, SmallItems ds →
    Delimits (fun es => ds.length = es.length ∧ SmallItems es) datums ds
  | [], _, es, hes, rest, rest', h => by
      obtain rfl := List.length_eq_zero_iff.mp hes.1.symm
      exact ⟨rfl, h⟩
  | d :: ds, hds, [], hes, rest, rest', h => by cases hes.1
  | d :: ds, hds, e :: es, hes, rest, rest', h => by
      rw [datums, datums, List.append_assoc, List.append_assoc] at h
      obtain ⟨hitem, h⟩ := datum_delimits d hds.1 e hes.2.1 _ _ h
      obtain ⟨hitems, h⟩ :=
        datums_delimit ds hds.2 es ⟨Nat.succ.inj hes.1, hes.2.2⟩ _ _ h
      exact ⟨by rw [hitem, hitems], h⟩
termination_by structural ds => ds

/-- Entries are delimited once their number is known. -/
theorem members_delimit : ∀ ms : List (String × Datum), SmallEntries ms →
    Delimits (fun ns => ms.length = ns.length ∧ SmallEntries ns) members ms
  | [], _, ns, hns, rest, rest', h => by
      obtain rfl := List.length_eq_zero_iff.mp hns.1.symm
      exact ⟨rfl, h⟩
  | (key, d) :: ms, hms, [], hns, rest, rest', h => by cases hns.1
  | (key, d) :: ms, hms, (key', e) :: ns, hns, rest, rest', h => by
      obtain ⟨hkey, hd, hrest⟩ := hms
      obtain ⟨hsize, hkey', he, hrest'⟩ := hns
      rw [members, members] at h
      simp only [List.append_assoc] at h
      obtain ⟨hname, h⟩ := string_delimits hkey key' hkey' _ _ h
      obtain ⟨hitem, h⟩ := datum_delimits d hd e he _ _ h
      obtain ⟨hitems, h⟩ :=
        members_delimit ms hrest ns ⟨Nat.succ.inj hsize, hrest'⟩ _ _ h
      exact ⟨by rw [hname, hitem, hitems], h⟩
termination_by structural ms => ms

end

/-! ## Terms -/

mutual

/-- A term is delimited: its tag tells leaves from operations, and an
    operation counts its arguments. -/
theorem term_delimits : ∀ t : Term, t.Small → Delimits Term.Small term t
  | .datum d, ht, u, hu, rest, rest', h => by
      cases u with
      | datum e =>
          obtain ⟨hdatum, hrest⟩ :=
            datum_delimits d ht e hu _ _ (List.cons.inj h).2
          exact ⟨congrArg Term.datum hdatum, hrest⟩
      | apply _ _ _ => exact absurd (List.cons.inj h).1 (by decide)
  | .apply k args optargs, ht, u, hu, rest, rest', h => by
      cases u with
      | datum _ => exact absurd (List.cons.inj h).1 (by decide)
      | apply k' args' optargs' =>
          obtain ⟨⟨hargs, hsmall⟩, hopt, hnamed⟩ := ht
          obtain ⟨⟨hargs', hsmall'⟩, hopt', hnamed'⟩ := hu
          simp only [term, List.cons_append, List.append_assoc] at h
          have hbytes := (List.cons.inj h).2
          obtain ⟨hkind, hbytes⟩ := List.append_inj hbytes rfl
          obtain ⟨hsize, hbytes⟩ :=
            count_delimits hargs _ hargs' _ _ hbytes
          obtain ⟨hlist, hbytes⟩ :=
            terms_delimit args hsmall args' ⟨hsize, hsmall'⟩ _ _ hbytes
          obtain ⟨hsize', hbytes⟩ :=
            count_delimits hopt _ hopt' _ _ hbytes
          obtain ⟨hnames, hrest⟩ :=
            named_delimit optargs hnamed optargs' ⟨hsize', hnamed'⟩ _ _
              hbytes
          exact ⟨by rw [kind_inj hkind, hlist, hnames], hrest⟩
termination_by structural t => t

/-- Arguments are delimited once their number is known. -/
theorem terms_delimit : ∀ ts : List Term, SmallArgs ts →
    Delimits (fun us => ts.length = us.length ∧ SmallArgs us) terms ts
  | [], _, us, hus, rest, rest', h => by
      obtain rfl := List.length_eq_zero_iff.mp hus.1.symm
      exact ⟨rfl, h⟩
  | t :: ts, hts, [], hus, rest, rest', h => by cases hus.1
  | t :: ts, hts, u :: us, hus, rest, rest', h => by
      rw [terms, terms, List.append_assoc, List.append_assoc] at h
      obtain ⟨harg, h⟩ := term_delimits t hts.1 u hus.2.1 _ _ h
      obtain ⟨hargs, h⟩ :=
        terms_delimit ts hts.2 us ⟨Nat.succ.inj hus.1, hus.2.2⟩ _ _ h
      exact ⟨by rw [harg, hargs], h⟩
termination_by structural ts => ts

/-- Named arguments are delimited once their number is known. -/
theorem named_delimit : ∀ es : List (String × Term), SmallNamed es →
    Delimits (fun fs => es.length = fs.length ∧ SmallNamed fs) named es
  | [], _, fs, hfs, rest, rest', h => by
      obtain rfl := List.length_eq_zero_iff.mp hfs.1.symm
      exact ⟨rfl, h⟩
  | (name, t) :: es, hes, [], hfs, rest, rest', h => by cases hfs.1
  | (name, t) :: es, hes, (name', u) :: fs, hfs, rest, rest', h => by
      obtain ⟨hname, ht, hrest⟩ := hes
      obtain ⟨hsize, hname', hu, hrest'⟩ := hfs
      rw [named, named] at h
      simp only [List.append_assoc] at h
      obtain ⟨hkey, h⟩ := string_delimits hname name' hname' _ _ h
      obtain ⟨harg, h⟩ := term_delimits t ht u hu _ _ h
      obtain ⟨hargs, h⟩ :=
        named_delimit es hrest fs ⟨Nat.succ.inj hsize, hrest'⟩ _ _ h
      exact ⟨by rw [hkey, harg, hargs], h⟩
termination_by structural es => es

end

/-! ## Injective and prefix-free -/

variable {P : α → Prop} {encode : α → List UInt8} {a b : α}

/-- A prefix that is an encoding itself is the whole encoding. -/
theorem eq_of_begins (h : Delimits P encode a) (hb : P b)
    (hbegins : encode a <+: encode b) : a = b := by
  obtain ⟨rest, hrest⟩ := hbegins
  rw [← List.append_nil (encode b)] at hrest
  exact (h b hb rest [] hrest).1

/-- Encodings that are delimited are equal for equal things only. -/
theorem encode_eq_iff (h : Delimits P encode a) (hb : P b) :
    encode a = encode b ↔ a = b := by
  constructor
  · intro heq
    exact eq_of_begins h hb (heq ▸ List.prefix_rfl)
  · exact congrArg encode

end Canonical

open Canonical

/-- **Canonical bytes are injective and prefix-free.**  Where every size
    fits in four bytes, what is digested of two terms, behind the common
    prefix, is the same exactly for the same tree with the same bits of
    numbers, and neither is a proper prefix of the other.  The same holds
    of datums. -/
theorem canonical_injective_prefixFree :
    (∀ t u : Term, t.Small → u.Small →
      (Canonical.term t = Canonical.term u ↔ t = u) ∧
      (Canonical.term t <+: Canonical.term u →
        Canonical.term t = Canonical.term u)) ∧
    (∀ d e : Datum, d.Small → e.Small →
      (Canonical.datum d = Canonical.datum e ↔ d = e) ∧
      (Canonical.datum d <+: Canonical.datum e →
        Canonical.datum d = Canonical.datum e)) := by
  constructor
  · intro t u ht hu
    have hterm := term_delimits t ht
    refine ⟨encode_eq_iff hterm hu, fun hbegins => ?_⟩
    exact congrArg Canonical.term (eq_of_begins hterm hu hbegins)
  · intro d e hd he
    have hdatum := datum_delimits d hd
    refine ⟨encode_eq_iff hdatum he, fun hbegins => ?_⟩
    exact congrArg Canonical.datum (eq_of_begins hdatum he hbegins)

/-- A lookup of many rows by a key, with or without an index. -/
def lookup (optargs : List (String × Term)) : Term :=
  .apply .getAll
    [.node .table [.text "readings"], .datum (.object [("at", .null)])]
    optargs

theorem canonical_injective_prefixFree_lookup :
    (lookup []).Small ∧ (lookup [("index", .text "at")]).Small ∧
      ¬ Canonical.term (lookup []) <+:
        Canonical.term (lookup [("index", .text "at")]) := by
  have hnone : (lookup []).Small := by
    simp only [lookup, Term.Small, SmallArgs, SmallNamed, Datum.Small,
      SmallEntries, Term.node, Term.text]
    decide
  have hindex : (lookup [("index", .text "at")]).Small := by
    simp only [lookup, Term.Small, SmallArgs, SmallNamed, Datum.Small,
      SmallEntries, Term.node, Term.text]
    decide
  refine ⟨hnone, hindex, fun hbegins => ?_⟩
  obtain ⟨hiff, hwhole⟩ :=
    canonical_injective_prefixFree.1 _ _ hnone hindex
  cases hiff.mp (hwhole hbegins)

/-- The bound is exact: where the count of an array starts again at zero,
    the empty array is a proper prefix. -/
theorem prefix_beyond {n : Nat} (hn : n ≠ 0) (h : count n = count 0) :
    Canonical.datum (.array []) <+:
      Canonical.datum (.array (List.replicate n .null)) ∧
    Canonical.datum (.array []) ≠
      Canonical.datum (.array (List.replicate n .null)) := by
  obtain ⟨m, rfl⟩ := Nat.exists_eq_succ_of_ne_zero hn
  rw [Canonical.datum, Canonical.datum, List.length_replicate, h,
    List.replicate_succ]
  constructor
  · exact ⟨datums (.null :: List.replicate m .null), by simp [datums]⟩
  · intro heq
    have hsize := congrArg List.length heq
    simp [datums, datum] at hsize

example : count (2 ^ 32) = count 0 := by decide

end ChainQuery
