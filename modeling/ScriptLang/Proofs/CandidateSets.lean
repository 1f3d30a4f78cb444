import Mathlib.Order.Defs.Unbundled
import ScriptLang.Proofs.Positions
import ScriptLang.Proofs.TypeOrder

/-!
# One representation for each set of candidates

Types are ordered by their kind, and types of one kind part by part. Names are ordered by their
bytes; this is the order of their characters, since a smaller character has a smaller encoding. The
order is strict and total. So what a list of candidates comes to is determined by the members of the
list, with its sets opened.
-/

namespace ScriptLang

/-! ## Names as bytes -/

/-- A smaller character has the smaller encoding, whatever follows. -/
theorem utf8EncodeChar_lt {c d : Char} (h : c < d) (more more' : List UInt8) :
    String.utf8EncodeChar c ++ more < String.utf8EncodeChar d ++ more' := by
  have hlt : c.val.toNat < d.val.toNat := h
  have hvalid : d.val.toNat < 1114112 := by
    rcases d.valid with hd | hd
    · exact Nat.lt_trans hd (by decide)
    · exact hd.2
  have hdigits : ∀ n, n / 4096 = n / 64 / 64 ∧ n / 262144 = n / 64 / 64 / 64 := by
    intro n
    simp only [Nat.div_div_eq_div_mul, and_self]
  -- Encodings of different lengths differ in the first byte, others in the first digit to base 64
  -- in which the characters do.
  simp only [String.utf8EncodeChar, hdigits]
  split_ifs
  all_goals
    simp only [List.cons_append, List.nil_append, List.cons_lt_cons_iff, UInt8.lt_iff_toNat_lt,
      ← UInt8.toNat_inj, UInt8.toNat_ofNat']
    omega

theorem flatMap_utf8EncodeChar_lt {cs ds : List Char} (h : cs < ds) :
    cs.flatMap String.utf8EncodeChar < ds.flatMap String.utf8EncodeChar := by
  induction h with
  | @nil d ds =>
    rw [List.flatMap_nil, List.flatMap_cons]
    cases he : String.utf8EncodeChar d with
    | nil => exact absurd he String.utf8EncodeChar_ne_nil
    | cons byte bytes => exact List.nil_lt_cons byte _
  | rel h => exact utf8EncodeChar_lt h _ _
  | cons _ ih => exact List.append_left_lt ih

theorem bytesOf_lt {s t : String} (h : s < t) : bytesOf s < bytesOf t := by
  have hbytes : ∀ s : String, bytesOf s = s.toList.flatMap String.utf8EncodeChar := by
    intro s
    change s.toByteArray.data.toList = _
    rw [← String.utf8Encode_toList, List.utf8Encode, List.toList_data_toByteArray]
  rw [hbytes, hbytes]
  exact flatMap_utf8EncodeChar_lt h

theorem bytesOf_lt_iff {s t : String} : bytesOf s < bytesOf t ↔ s < t := by
  refine ⟨fun h => ?_, bytesOf_lt⟩
  by_contra hst
  by_cases hts : t < s
  · exact List.lt_asymm h (bytesOf_lt hts)
  · have he : s = t := String.le_antisymm (String.not_lt.mp hts) (String.not_lt.mp hst)
    rw [he] at h
    exact List.lt_irrefl _ h

namespace Ty

/-! ## The order -/

/-- The place of a type's kind among the kinds. -/
def rank : Ty → Nat
  | .basic _ => 0
  | .fn .. => 1
  | .variant _ => 2
  | .unknown => 3

/-- An order by kinds, and within a kind part by part. -/
structure Structural (before : Ty → Ty → Prop) : Prop where
  kinds : ∀ a b, a.rank < b.rank → before a b
  names : ∀ m n, before (.basic m) (.basic n) ↔ bytesOf m < bytesOf n
  fns : ∀ ps r qs s, before (.fn ps r) (.fn qs s) ↔
    List.Lex before ps qs ∨ ps = qs ∧ before r s
  sets : ∀ as bs, before (.variant as) (.variant bs) ↔ List.Lex before as bs

theorem cmpAll_eq_lt {as bs : List Ty} : cmpAll as bs = .lt ↔ List.Lex Before as bs := by
  induction as generalizing bs with
  | nil => cases bs <;> simp [cmpAll]
  | cons a as ih =>
    cases bs with
    | nil => simp [cmpAll]
    | cons b bs => rw [cmpAll_cons_lt, List.cons_lex_cons_iff, ih, Before]

theorem structural_before : Structural Before := by
  constructor
  case kinds =>
    intro a b h
    cases a <;> cases b <;> simp_all [rank, Before, cmp]
  case names =>
    intro m n
    rw [bytesOf_lt_iff]
    exact compareOfLessAndEq_eq_lt
  case fns =>
    intro ps r qs s
    rw [Before, cmp, Ordering.then_eq_lt, cmpAll_eq_lt, cmpAll_eq_iff, Before]
  case sets =>
    intro as bs
    rw [Before, cmp, cmpAll_eq_lt]

theorem before_or_eq (a b : Ty) : Before a b ∨ a = b ∨ Before b a := by
  cases h : cmp a b with
  | lt => exact Or.inl h
  | eq => exact Or.inr (Or.inl ((cmp_eq_iff a b).mp h))
  | gt => exact Or.inr (Or.inr (by rw [Before, cmp_swap, h]; rfl))

theorem strictTotal_before : IsStrictTotalOrder Ty Before where
  trichotomous a b hab hba := ((before_or_eq a b).resolve_left hab).resolve_right hba
  irrefl := Std.Irrefl.irrefl
  trans _ _ _ := cmp_trans

/-! ## Candidates -/

/-- The members of a list, where a set stands for its own members. -/
def members (ts : List Ty) : List Ty :=
  ts.flatMap alternatives

variable {ts : List Ty}

theorem oneOf?_eq_none : oneOf? ts = none ↔ ∀ t, t ∉ members ts := by
  rw [← List.eq_nil_iff_forall_not_mem, ← Option.not_isSome_iff_eq_none, isSome_oneOf?, members,
    not_not]

theorem oneOf?_of_one {t : Ty} (h : ∀ u, u ∈ members ts ↔ u = t) : oneOf? ts = some t := by
  have hsorted : sortDistinct (members ts) = [t] := by
    apply (increasing_sortDistinct _).ext (List.pairwise_singleton Before t)
    simp [mem_sortDistinct, h]
  rw [oneOf?, ← members, hsorted]

theorem oneOf?_of_two {t u : Ty} (ht : t ∈ members ts) (hu : u ∈ members ts) (hne : t ≠ u) :
    oneOf? ts = some (.variant (sortDistinct (members ts))) := by
  rw [oneOf?, ← members]
  rw [← mem_sortDistinct] at ht hu
  split
  · rename_i hnil
    rw [hnil] at ht
    cases ht
  · rename_i v hone
    rw [hone, List.mem_singleton] at ht hu
    exact absurd (ht.trans hu.symm) hne
  · rfl

/-- Types are in a strict total order, by kinds and then part by part. What a list of candidates
comes to depends on its members only: nothing without a member, a single member as it is, and
otherwise the set of the members in increasing order. -/
theorem oneOf?_canonical :
    (Structural Before ∧ IsStrictTotalOrder Ty Before ∧
      ∀ a b, (cmp a b = .eq ↔ a = b) ∧ (cmp a b = .lt ↔ Before a b) ∧
        (cmp a b = .gt ↔ Before b a)) ∧
    (∀ ts us, (∀ t, t ∈ members ts ↔ t ∈ members us) → oneOf? ts = oneOf? us) ∧
    ∀ ts, (oneOf? ts = none ↔ ∀ t, t ∉ members ts) ∧
      (∀ t, (∀ u, u ∈ members ts ↔ u = t) → oneOf? ts = some t) ∧
      ∀ t u, t ∈ members ts → u ∈ members ts → t ≠ u →
        ∃ alts, oneOf? ts = some (.variant alts) ∧ Increasing alts ∧
          ∀ v, v ∈ alts ↔ v ∈ members ts := by
  refine ⟨⟨structural_before, strictTotal_before, fun a b => ⟨cmp_eq_iff a b, Iff.rfl, ?_⟩⟩, ?_, ?_⟩
  · rw [Before, cmp_swap a b]
    cases cmp a b <;> simp [Ordering.swap]
  · intro ts us h
    rw [oneOf?, oneOf?, ← members, ← members, sortDistinct_congr h]
  · intro ts
    refine ⟨oneOf?_eq_none, fun t => oneOf?_of_one, fun t u ht hu hne => ?_⟩
    exact ⟨_, oneOf?_of_two ht hu hne, increasing_sortDistinct _, fun _ => mem_sortDistinct⟩

/-- Two lists of the same three members, one of them with a set and with repetitions. -/
theorem oneOf?_canonical_numbers :
    (∀ t, t ∈ members [.int, .variant [.float, .int], .bool] ↔
      t ∈ members [.bool, .float, .int, .float]) ∧
    oneOf? [.int, .variant [.float, .int], .bool] = oneOf? [.bool, .float, .int, .float] ∧
    oneOf? [.bool, .float, .int, .float] = some (.variant [.bool, .float, .int]) := by
  have hsame : ∀ t, t ∈ members [.int, .variant [.float, .int], .bool] ↔
      t ∈ members [.bool, .float, .int, .float] := by
    intro t
    simp only [members, List.flatMap_cons, List.flatMap_nil, alternatives, int, float, bool,
      List.mem_append, List.mem_cons, List.not_mem_nil]
    tauto
  exact ⟨hsame, oneOf?_canonical.2.1 _ _ hsame, by decide +kernel⟩

end Ty

end ScriptLang
