import ScriptLang.Proofs.Intersection
import Mathlib.Algebra.BigOperators.Group.List.Basic

/-!
# Narrowing by several constraints

As long as every set of candidates has at least two members, none of which is a set, and lists them
in order, merging stays within such types and is associative, so the order and the grouping of
constraints do not matter. Otherwise they do: a set with a single member is opened when it is merged
with another set, and left alone when it is merged with the unknown type.
-/

namespace ScriptLang

variable {ts : List Ty} {a b c t u : Ty}

namespace Ty

/-! ## Canonical types -/

mutual
/-- Holds when every set of candidates in the type is listed in increasing order. -/
def isOrdered : Ty → Bool
  | .unknown => true
  | .basic _ => true
  | .fn params ret => allOrdered params && isOrdered ret
  | .variant alts => decide (Increasing alts) && allOrdered alts
def allOrdered : List Ty → Bool
  | [] => true
  | t :: ts => isOrdered t && allOrdered ts
end

theorem allOrdered_iff : allOrdered ts = true ↔ ∀ t ∈ ts, t.isOrdered = true := by
  induction ts with
  | nil => simp [allOrdered]
  | cons t ts ih => simp [allOrdered, ih]

theorem isOrdered_variant :
    isOrdered (.variant ts) = true ↔ Increasing ts ∧ ∀ t ∈ ts, t.isOrdered = true := by
  rw [isOrdered, Bool.and_eq_true, decide_eq_true_eq, allOrdered_iff]

/-- The sets of candidates in the type are sets, listed in order, and normal. -/
structure Canonical (t : Ty) : Prop where
  ordered : t.isOrdered = true
  normal : t.isNormal = true

instance (t : Ty) : Decidable t.Canonical :=
  decidable_of_iff (t.isOrdered = true ∧ t.isNormal = true)
    ⟨fun h => ⟨h.1, h.2⟩, fun h => ⟨h.ordered, h.normal⟩⟩

theorem canonical_unknown : Canonical .unknown :=
  ⟨rfl, rfl⟩

theorem canonical_fn {params : List Ty} {ret : Ty} :
    Canonical (.fn params ret) ↔ (∀ t ∈ params, t.Canonical) ∧ ret.Canonical := by
  constructor
  · rintro ⟨ho, hn⟩
    rw [isOrdered, Bool.and_eq_true, allOrdered_iff] at ho
    rw [isNormal, Bool.and_eq_true, allNormal_iff] at hn
    exact ⟨fun t ht => ⟨ho.1 t ht, hn.1 t ht⟩, ho.2, hn.2⟩
  · rintro ⟨hparams, hret⟩
    constructor
    · rw [isOrdered, Bool.and_eq_true, allOrdered_iff]
      exact ⟨fun t ht => (hparams t ht).ordered, hret.ordered⟩
    · rw [isNormal, Bool.and_eq_true, allNormal_iff]
      exact ⟨fun t ht => (hparams t ht).normal, hret.normal⟩

theorem Canonical.increasing {alts : List Ty} (h : Canonical (.variant alts)) :
    Increasing alts :=
  (isOrdered_variant.1 h.ordered).1

theorem Canonical.alternatives (h : t.Canonical) (hu : u ∈ t.alternatives) :
    u.Canonical ∧ u.isVariant = false := by
  obtain ⟨hnormal, hplain⟩ := normal_alternatives h.normal hu
  refine ⟨⟨?_, hnormal⟩, hplain⟩
  cases t with
  | variant alts => exact (isOrdered_variant.1 h.ordered).2 u hu
  | _ => exact List.mem_singleton.mp hu ▸ h.ordered

theorem canonical_oneOf? (h : ∀ t ∈ ts, t.Canonical) (hu : oneOf? ts = some u) : u.Canonical := by
  refine ⟨?_, normal_oneOf? (fun t ht => (h t ht).normal) hu⟩
  have hparts : ∀ t ∈ sortDistinct (ts.flatMap Ty.alternatives), t.isOrdered = true := by
    intro t ht
    obtain ⟨s, hs, ht⟩ := List.mem_flatMap.mp (mem_sortDistinct.mp ht)
    exact ((h s hs).alternatives ht).1.ordered
  unfold oneOf? at hu
  split at hu
  · cases hu
  · rename_i t hone
    cases hu
    exact hparts u (by simp [hone])
  · cases hu
    exact isOrdered_variant.2 ⟨increasing_sortDistinct _, hparts⟩

theorem canonical_unify (ha : a.Canonical) (hb : b.Canonical) (h : a.unify b = some t) :
    t.Canonical := by
  refine unify_closed (P := Canonical) (fun _ _ => canonical_fn) ?_ ?_ ha hb h
  · exact fun alts halts u hu => (halts.alternatives hu).1
  · exact fun ts u hts => canonical_oneOf? hts

/-! ## Canonical types as sets of candidates -/

theorem Canonical.oneOf?_alternatives (h : t.Canonical) : oneOf? t.alternatives = some t := by
  cases t with
  | variant alts =>
    have hplain : alts.flatMap Ty.alternatives = alts :=
      flatMap_plain fun u hu => (h.alternatives hu).2
    have hlen : 2 ≤ alts.length := by
      have hn := h.normal
      simp only [isNormal, Bool.and_eq_true, decide_eq_true_eq] at hn
      exact hn.1.1
    rw [Ty.alternatives, oneOf?, hplain, h.increasing.sortDistinct]
    split
    · simp at hlen
    · simp at hlen
    · rfl
  | _ => exact oneOf?_replicate rfl 0

theorem isVariant_unify (ha : a.isVariant = false) (hb : b.isVariant = false)
    (h : a.unify b = some t) : t.isVariant = false := by
  cases a with
  | unknown =>
    rw [unify_unknown_left, Option.some.injEq] at h
    exact h ▸ hb
  | basic name => exact unify_basic_eq_some h ▸ ha
  | variant alts => cases ha
  | fn ps r =>
    cases b with
    | unknown =>
      rw [unify_unknown_right, Option.some.injEq] at h
      exact h ▸ ha
    | basic name => simp [unify_fn_basic] at h
    | variant alts => cases hb
    | fn qs s =>
      rw [unify_fn_fn] at h
      obtain ⟨_, _, _, _, rfl⟩ := Option.map₂_eq_some_iff.mp h
      rfl

theorem unify_eq_oneOf? (ha : a.Canonical) (hb : b.Canonical) :
    a.unify b = oneOf? (crossAll a.alternatives b.alternatives) := by
  by_cases hua : a = .unknown
  · rw [hua, unify_unknown_left, ← hb.oneOf?_alternatives]
    apply oneOf?_congr
    simp [mem_crossAll, Ty.alternatives]
  by_cases hub : b = .unknown
  · rw [hub, unify_unknown_right, ← ha.oneOf?_alternatives]
    apply oneOf?_congr
    simp [mem_crossAll, Ty.alternatives]
  by_cases hset : a.isVariant = true ∨ b.isVariant = true
  · exact unify_sets hua hub hset
  · simp only [not_or, Bool.not_eq_true] at hset
    rw [alternatives_eq hset.1, alternatives_eq hset.2]
    cases h : a.unify b with
    | none => simp [crossAll, h, oneOf?, sortDistinct]
    | some t =>
      have ht : oneOf? [t] = some t := oneOf?_replicate (isVariant_unify hset.1 hset.2 h) 0
      simp [crossAll, h, ht]

theorem oneOf?_bind_unify (ht : ∀ t ∈ ts, t.Canonical ∧ t.isVariant = false) (hc : c.Canonical) :
    (oneOf? ts).bind (·.unify c) = oneOf? (crossAll ts c.alternatives) := by
  cases h : oneOf? ts with
  | none =>
    have hnil : ts = [] := by
      have hnone : ¬ (oneOf? ts).isSome = true := by simp [h]
      rwa [isSome_oneOf?, not_not, flatMap_plain fun t hmem => (ht t hmem).2] at hnone
    simp [hnil, crossAll, oneOf?, sortDistinct]
  | some u =>
    have hu : u.Canonical := canonical_oneOf? (fun t hmem => (ht t hmem).1) h
    have hmem := mem_alternatives_oneOf? (fun t hmem => (ht t hmem).2) h
    rw [Option.bind_some, unify_eq_oneOf? hu hc]
    apply oneOf?_congr
    simp only [mem_crossAll, hmem, implies_true]

/-! ## Associativity -/

/-- It does not matter which two of three types are merged first. -/
def Regroups (a b c : Ty) : Prop :=
  (a.unify b).bind (·.unify c) = (b.unify c).bind a.unify

theorem regroups_of_unknown (h : a = .unknown ∨ b = .unknown ∨ c = .unknown) : Regroups a b c := by
  rcases h with rfl | rfl | rfl <;> simp [Regroups]

theorem regroups_of_alternatives (ha : a.Canonical) (hb : b.Canonical) (hc : c.Canonical)
    (h : ∀ x ∈ a.alternatives, ∀ y ∈ b.alternatives, ∀ z ∈ c.alternatives, Regroups x y z) :
    Regroups a b c := by
  have hcross : ∀ {s t : Ty}, s.Canonical → t.Canonical →
      ∀ u ∈ crossAll s.alternatives t.alternatives, u.Canonical ∧ u.isVariant = false := by
    intro s t hs ht u hu
    obtain ⟨x, hx, y, hy, hxy⟩ := mem_crossAll.mp hu
    obtain ⟨hcx, hpx⟩ := hs.alternatives hx
    obtain ⟨hcy, hpy⟩ := ht.alternatives hy
    exact ⟨canonical_unify hcx hcy hxy, isVariant_unify hpx hpy hxy⟩
  have hswap : a.unify = (·.unify a) := funext (unify_comm a)
  rw [Regroups, unify_eq_oneOf? ha hb, oneOf?_bind_unify (hcross ha hb) hc, hswap,
    unify_eq_oneOf? hb hc, oneOf?_bind_unify (hcross hb hc) ha]
  apply oneOf?_congr
  intro t
  simp only [mem_crossAll]
  constructor
  · rintro ⟨u, ⟨x, hx, y, hy, hxy⟩, z, hz, hu⟩
    have hxyz := h x hx y hy z hz
    rw [Regroups, hxy, Option.bind_some, hu] at hxyz
    obtain ⟨v, hv, hxv⟩ := Option.bind_eq_some_iff.mp hxyz.symm
    exact ⟨v, ⟨y, hy, z, hz, hv⟩, x, hx, unify_comm v x ▸ hxv⟩
  · rintro ⟨v, ⟨y, hy, z, hz, hv⟩, x, hx, hxv⟩
    have hxyz := h x hx y hy z hz
    rw [Regroups, hv, Option.bind_some, unify_comm x v, hxv] at hxyz
    obtain ⟨u, hu, huz⟩ := Option.bind_eq_some_iff.mp hxyz
    exact ⟨u, ⟨x, hx, y, hy, hu⟩, z, hz, huz⟩

theorem bind_map₂ {f : α → β → γ} {g : γ → Option γ} {fst : α → Option α} {snd : β → Option β}
    (h : ∀ a b, g (f a b) = Option.map₂ f (fst a) (snd b)) (x : Option α) (y : Option β) :
    (Option.map₂ f x y).bind g = Option.map₂ f (x.bind fst) (y.bind snd) := by
  cases x with
  | none => rfl
  | some a =>
    cases y with
    | none => simp
    | some b => simp [h]

theorem unifyAll_assoc {as bs cs : List Ty}
    (h : ∀ a ∈ as, ∀ b ∈ bs, ∀ c ∈ cs, Regroups a b c) :
    (unifyAll as bs).bind (unifyAll · cs) = (unifyAll bs cs).bind (unifyAll as) := by
  induction as generalizing bs cs with
  | nil =>
    cases bs with
    | nil => cases cs <;> simp
    | cons b bs =>
      cases cs with
      | nil => simp
      | cons c cs =>
        rw [unifyAll_cons_cons]
        cases b.unify c <;> cases unifyAll bs cs <;> simp
  | cons a as ih =>
    cases bs with
    | nil => cases cs <;> simp
    | cons b bs =>
      cases cs with
      | nil =>
        rw [unifyAll_cons_cons]
        cases a.unify b <;> cases unifyAll as bs <;> simp
      | cons c cs =>
        have hhead : Regroups a b c :=
          h a List.mem_cons_self b List.mem_cons_self c List.mem_cons_self
        have htail := @ih bs cs fun x hx y hy z hz => h x (List.mem_cons_of_mem _ hx) y
          (List.mem_cons_of_mem _ hy) z (List.mem_cons_of_mem _ hz)
        rw [unifyAll_cons_cons, bind_map₂ fun t ts => unifyAll_cons_cons t c ts cs,
          unifyAll_cons_cons, bind_map₂ fun t ts => unifyAll_cons_cons a t as ts, hhead, htail]

theorem regroups_basic {name : String} (hb : b.isVariant = false) (hc : c.isVariant = false) :
    Regroups (.basic name) b c := by
  cases b with
  | unknown => exact regroups_of_unknown (by simp)
  | variant alts => cases hb
  | basic m =>
    cases c with
    | unknown => exact regroups_of_unknown (by simp)
    | variant alts => cases hc
    | basic n =>
      by_cases hm : name = m <;> by_cases hn : m = n <;> simp_all [Regroups, unify_basic_basic]
    | fn ps r => by_cases hm : name = m <;> simp [Regroups, unify_basic_basic, unify_basic_fn, hm]
  | fn ps r =>
    cases c with
    | unknown => exact regroups_of_unknown (by simp)
    | variant alts => cases hc
    | basic n => simp [Regroups, unify_basic_fn, unify_fn_basic]
    | fn qs s =>
      rw [Regroups, unify_basic_fn, unify_fn_fn]
      cases unifyAll ps qs <;> cases r.unify s <;> simp [unify_basic_fn]

theorem regroups_fn {params : List Ty} {ret : Ty} (hb : b.isVariant = false)
    (hc : c.isVariant = false) (hparams : ∀ ps qs r s, b = .fn ps r → c = .fn qs s →
      (unifyAll params ps).bind (unifyAll · qs) = (unifyAll ps qs).bind (unifyAll params))
    (hret : ∀ ps qs r s, b = .fn ps r → c = .fn qs s → Regroups ret r s) :
    Regroups (.fn params ret) b c := by
  cases b with
  | unknown => exact regroups_of_unknown (by simp)
  | variant alts => cases hb
  | basic m =>
    cases c with
    | unknown => exact regroups_of_unknown (by simp)
    | variant alts => cases hc
    | basic n => by_cases hn : m = n <;> simp [Regroups, unify_basic_basic, unify_fn_basic, hn]
    | fn qs s => simp [Regroups, unify_basic_fn, unify_fn_basic]
  | fn ps r =>
    cases c with
    | unknown => exact regroups_of_unknown (by simp)
    | variant alts => cases hc
    | basic n =>
      rw [Regroups, unify_fn_basic, unify_fn_fn]
      cases unifyAll params ps <;> cases ret.unify r <;> simp [unify_fn_basic]
    | fn qs s =>
      have hps := hparams ps qs r s rfl rfl
      have hrs := hret ps qs r s rfl rfl
      rw [Regroups, unify_fn_fn, bind_map₂ fun us t => unify_fn_fn us qs t s, unify_fn_fn,
        bind_map₂ fun us t => unify_fn_fn params us ret t, hps, hrs]

theorem Canonical.regroups (ha : a.Canonical) (hb : b.Canonical) (hc : c.Canonical) :
    Regroups a b c := by
  induction a using Ty.induction generalizing b c with
  | unknown => exact regroups_of_unknown (Or.inl rfl)
  | variant alts ihs =>
    refine regroups_of_alternatives ha hb hc ?_
    intro x hx y hy z hz
    exact ihs x hx (ha.alternatives hx).1 (hb.alternatives hy).1 (hc.alternatives hz).1
  | basic name =>
    refine regroups_of_alternatives ha hb hc ?_
    intro x hx y hy z hz
    rw [List.mem_singleton.mp hx]
    exact regroups_basic (hb.alternatives hy).2 (hc.alternatives hz).2
  | fn params ret ihs ih =>
    refine regroups_of_alternatives ha hb hc ?_
    intro x hx y hy z hz
    rw [List.mem_singleton.mp hx]
    obtain ⟨hcy, hpy⟩ := hb.alternatives hy
    obtain ⟨hcz, hpz⟩ := hc.alternatives hz
    rw [canonical_fn] at ha
    apply regroups_fn hpy hpz
    · rintro ps qs r s rfl rfl
      apply unifyAll_assoc
      intro p hp q hq u hu
      exact ihs p hp (ha.1 p hp) ((canonical_fn.mp hcy).1 q hq) ((canonical_fn.mp hcz).1 u hu)
    · rintro ps qs r s rfl rfl
      exact ih ha.2 (canonical_fn.mp hcy).2 (canonical_fn.mp hcz).2

/-- The unknown type is not a set with itself as its only member, and that tells. -/
example : ¬ Regroups (.variant [.int]) (.variant [.unknown]) (.variant [.unknown]) := by
  unfold Regroups
  decide +kernel

/-! ## Constraints in any order and grouping -/

/-- What is known about a type: a canonical type, or nothing fits any more. -/
def Narrowed : Type :=
  Option {t : Ty // t.Canonical}

namespace Narrowed

def type? (x : Narrowed) : Option Ty :=
  Option.map Subtype.val x

theorem type?_injective {x y : Narrowed} (h : x.type? = y.type?) : x = y :=
  Option.map_injective Subtype.val_injective h

theorem canonical_of_type? {x : Narrowed} (h : x.type? = some t) : t.Canonical := by
  obtain ⟨u, _, rfl⟩ := Option.map_eq_some_iff.mp h
  exact u.property

/-- The constraint to be of a given type. -/
def ofTy (t : Ty) : Narrowed :=
  if h : t.Canonical then some ⟨t, h⟩ else none

theorem type?_ofTy (h : t.Canonical) : (ofTy t).type? = some t := by
  simp [ofTy, type?, h]

/-- Both constraints together. -/
instance : Mul Narrowed where
  mul x y := Option.bind x fun a => Option.bind y fun b =>
    Option.pmap Subtype.mk (a.val.unify b.val) fun _ h => canonical_unify a.property b.property h

instance : One Narrowed where
  one := some ⟨.unknown, canonical_unknown⟩

theorem type?_one : (1 : Narrowed).type? = some .unknown :=
  rfl

theorem type?_mul (x y : Narrowed) :
    (x * y).type? = x.type?.bind fun a => y.type?.bind a.unify := by
  cases x with
  | none => rfl
  | some a =>
    cases y with
    | none => rfl
    | some b =>
      change (Option.pmap Subtype.mk (a.val.unify b.val) _).map Subtype.val = a.val.unify b.val
      rw [Option.map_pmap]
      simp

instance : CommMonoid Narrowed where
  mul_assoc x y z := by
    apply type?_injective
    simp only [type?_mul]
    cases hx : x.type? with
    | none => rfl
    | some a =>
      cases hy : y.type? with
      | none => rfl
      | some b =>
        cases hz : z.type? with
        | none => cases h : a.unify b <;> simp [h]
        | some c =>
          have h := (canonical_of_type? hx).regroups (canonical_of_type? hy) (canonical_of_type? hz)
          simpa [Regroups] using h
  one_mul x := by
    apply type?_injective
    rw [type?_mul, type?_one]
    cases x.type? <;> simp
  mul_one x := by
    apply type?_injective
    rw [type?_mul, type?_one]
    cases x.type? <;> simp
  mul_comm x y := by
    apply type?_injective
    rw [type?_mul, type?_mul]
    cases x.type? <;> cases y.type? <;> simp [unify_comm]

end Narrowed

/-- A way to merge several types, two at a time. -/
inductive Grouping where
  | one (t : Ty)
  | both (left right : Grouping)

namespace Grouping

/-- The types that are merged, from left to right. -/
def types : Grouping → List Ty
  | .one t => [t]
  | .both left right => left.types ++ right.types

/-- What comes of it. If one merge fails, so does the whole. -/
def merged : Grouping → Option Ty
  | .one t => some t
  | .both left right => left.merged.bind fun a => right.merged.bind a.unify

theorem merged_eq_prod (g : Grouping) (h : ∀ t ∈ g.types, t.Canonical) :
    g.merged = (g.types.map Narrowed.ofTy).prod.type? := by
  induction g with
  | one t =>
    rw [types, List.map_singleton, List.prod_singleton,
      Narrowed.type?_ofTy (h t List.mem_cons_self)]
    rfl
  | both left right ihl ihr =>
    rw [types, List.map_append, List.prod_append, Narrowed.type?_mul, merged,
      ihl fun t ht => h t (List.mem_append_left _ ht),
      ihr fun t ht => h t (List.mem_append_right _ ht)]

theorem merged_perm {g g' : Grouping} (hp : g.types.Perm g'.types)
    (h : ∀ t ∈ g.types, t.Canonical) : g.merged = g'.merged := by
  rw [merged_eq_prod g h, merged_eq_prod g' fun t ht => h t (hp.mem_iff.mpr ht),
    (hp.map Narrowed.ofTy).prod_eq]

end Grouping

/-- Canonical types merge to canonical types, it does not matter which two of three are merged
first, and the same types come to the same in any order and grouping. -/
theorem unify_narrows :
    (∀ a b t : Ty, a.Canonical → b.Canonical → a.unify b = some t → t.Canonical) ∧
      (∀ a b c : Ty, a.Canonical → b.Canonical → c.Canonical →
        (a.unify b).bind (·.unify c) = (b.unify c).bind a.unify) ∧
      ∀ g g' : Grouping, (∀ t ∈ g.types, t.Canonical) → g.types.Perm g'.types →
        g.merged = g'.merged :=
  ⟨fun _ _ _ => canonical_unify, fun _ _ _ => Canonical.regroups,
    fun _ _ h hp => Grouping.merged_perm hp h⟩

/-- A function of anything that returns a number. -/
def toNumber : Ty :=
  .variant [.fn [.unknown] .float, .fn [.unknown] .int]

/-- A function of a flag or a whole number, whatever it returns. -/
def ofFlagOrInt : Ty :=
  .fn [.variant [.bool, .int]] .unknown

/-- A whole number or a step from one to the next. -/
def intOrStep : Ty :=
  .variant [.int, .fn [.int] .int]

/-- A function of a flag or a whole number that returns a number. -/
def numberOfFlagOrInt : Ty :=
  .variant [.fn [.variant [.bool, .int]] .float, .fn [.variant [.bool, .int]] .int]

theorem unify_narrows_step :
    (∀ t ∈ [toNumber, ofFlagOrInt, intOrStep], t.Canonical) ∧
      toNumber.unify ofFlagOrInt = some numberOfFlagOrInt ∧ numberOfFlagOrInt.Canonical ∧
      numberOfFlagOrInt.unify intOrStep = some (.fn [.int] .int) ∧
      (ofFlagOrInt.unify intOrStep).bind toNumber.unify = some (.fn [.int] .int) ∧
      (Grouping.both (.one intOrStep) (.both (.one ofFlagOrInt) (.one toNumber))).merged =
        some (.fn [.int] .int) := by
  have hc : ∀ t ∈ [toNumber, ofFlagOrInt, intOrStep], t.Canonical := by decide +kernel
  have hn : toNumber.Canonical := hc _ (by simp)
  have hf : ofFlagOrInt.Canonical := hc _ (by simp)
  have hs : intOrStep.Canonical := hc _ (by simp)
  have hfirst : toNumber.unify ofFlagOrInt = some numberOfFlagOrInt := by decide +kernel
  have hthen : numberOfFlagOrInt.unify intOrStep = some (.fn [.int] .int) := by decide +kernel
  obtain ⟨hclosed, hassoc, hany⟩ := unify_narrows
  have hother := hassoc _ _ _ hn hf hs
  rw [hfirst, Option.bind_some, hthen] at hother
  refine ⟨hc, hfirst, hclosed _ _ _ hn hf hfirst, hthen, hother.symm, ?_⟩
  have hp : [toNumber, ofFlagOrInt, intOrStep].Perm [intOrStep, ofFlagOrInt, toNumber] := by
    decide +kernel
  have hmerged := hany (.both (.both (.one toNumber) (.one ofFlagOrInt)) (.one intOrStep))
    (.both (.one intOrStep) (.both (.one ofFlagOrInt) (.one toNumber))) hc hp
  rw [← hmerged]
  simp [Grouping.merged, hfirst, hthen]

end Ty

end ScriptLang
