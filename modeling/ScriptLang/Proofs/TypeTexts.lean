import ScriptLang.Error
import ScriptLang.Proofs.CandidateSets

/-!
# Texts of types

The text of a type can be read in one way only, as long as basic names are words. Nothing marks the
end of a function type, but what follows a type, between the members of a list or behind them,
belongs to no word and opens no type.
-/

namespace ScriptLang

/-- Letters, digits and underscores. Beyond ASCII every character is taken for a letter. -/
def isWordChar (c : Char) : Bool :=
  c.isAlphanum || c == '_' || 128 ≤ c.toNat

/-- No run of characters with `p` goes on here. -/
def EndsRun (p : Char → Bool) (cs : List Char) : Prop :=
  ∀ c ∈ cs.head?, p c = false

theorem run_append_inj {p : Char → Bool} {m n r s : List Char} (hm : m.all p = true)
    (hn : n.all p = true) (hr : EndsRun p r) (hs : EndsRun p s) (h : m ++ r = n ++ s) :
    m = n ∧ r = s := by
  induction m generalizing n with
  | nil =>
    cases n with
    | nil => exact ⟨rfl, h⟩
    | cons d n =>
      rw [List.nil_append] at h
      simp [hr d (by simp [h])] at hn
  | cons c m ih =>
    cases n with
    | nil =>
      rw [List.nil_append] at h
      simp [hs c (by simp [← h])] at hm
    | cons d n =>
      obtain ⟨rfl, hrest⟩ := List.cons.inj h
      rw [List.all_cons, Bool.and_eq_true] at hm hn
      obtain ⟨rfl, rfl⟩ := ih hm.2 hn.2 hrest
      exact ⟨rfl, rfl⟩

namespace Ty

variable {t u : Ty} {ts us : List Ty} {r s : List Char}

mutual
/-- Every basic name in the type is a word of at least one character. -/
def isWellNamed : Ty → Bool
  | .basic name => name ≠ "" && name.toList.all isWordChar
  | .fn params ret => allWellNamed params && isWellNamed ret
  | .variant alts => allWellNamed alts
  | .unknown => true
def allWellNamed : List Ty → Bool
  | [] => true
  | t :: ts => isWellNamed t && allWellNamed ts
end

theorem isWellNamed_basic {name : String} :
    isWellNamed (.basic name) = true ↔
      decide (name ≠ "") = true ∧ name.toList.all isWordChar = true :=
  Bool.and_eq_true_iff

theorem isWellNamed_fn {params : List Ty} {ret : Ty} :
    isWellNamed (.fn params ret) = true ↔ allWellNamed params = true ∧ ret.isWellNamed = true :=
  Bool.and_eq_true_iff

theorem isWellNamed_variant :
    isWellNamed (.variant ts) = true ↔ allWellNamed ts = true :=
  Iff.rfl

theorem allWellNamed_cons :
    allWellNamed (t :: ts) = true ↔ t.isWellNamed = true ∧ allWellNamed ts = true :=
  Bool.and_eq_true_iff

theorem allWellNamed_eq_true : allWellNamed ts = true ↔ ∀ t ∈ ts, t.isWellNamed = true := by
  induction ts with
  | nil => simp [allWellNamed]
  | cons t ts ih => rw [allWellNamed_cons, ih, List.forall_mem_cons]

/-- The rank of the types whose texts start with `c`. -/
def openedBy (c : Char) : Nat :=
  if c = '(' then 1 else if c = '\x7b' then 2 else if c = '?' then 3 else 0

theorem text_opens (h : t.isWellNamed = true) :
    ∃ c cs, t.text.toList = c :: cs ∧ openedBy c = t.rank ∧ c ≠ ')' ∧ c ≠ '\x7d' := by
  cases t with
  | basic name =>
    rw [isWellNamed_basic] at h
    cases hn : name.toList with
    | nil => simp [String.toList_eq_nil_iff.mp hn] at h
    | cons c cs =>
      rw [hn, List.all_cons, Bool.and_eq_true] at h
      have hword : ∀ d, isWordChar d = false → c ≠ d := by
        rintro d hd rfl
        simp [hd] at h
      have hrank : openedBy c = 0 := by
        simp [openedBy, hword '(' (by decide), hword '\x7b' (by decide), hword '?' (by decide)]
      exact ⟨c, cs, hn, hrank, hword _ (by decide), hword _ (by decide)⟩
  | fn params ret => exact ⟨'(', _, toList_text_fn params ret, rfl, by decide⟩
  | variant alts => exact ⟨'\x7b', _, toList_text_variant alts, rfl, by decide⟩
  | unknown => exact ⟨'?', [], rfl, by decide⟩

theorem rank_eq_of_text (ht : t.isWellNamed = true) (hu : u.isWellNamed = true)
    (h : t.text.toList ++ r = u.text.toList ++ s) : t.rank = u.rank := by
  obtain ⟨c, cs, hc, hrank, -⟩ := text_opens ht
  obtain ⟨d, ds, hd, hrank', -⟩ := text_opens hu
  rw [hc, hd] at h
  rw [← hrank, ← hrank', (List.cons.inj h).1]

/-- Whatever comes after them, two texts of types can be told apart from the left. -/
def Cancels (t : Ty) : Prop :=
  ∀ ⦃u r s⦄, t.isWellNamed = true → u.isWellNamed = true → EndsRun isWordChar r →
    EndsRun isWordChar s → t.text.toList ++ r = u.text.toList ++ s → t = u ∧ r = s

section

-- A list is closed by a character that starts neither a separator nor a type.
variable {d e : Char} {ds : List Char} {sep : String}

theorem endsRun_textTail (hsep : sep.toList = d :: ds) (hd : isWordChar d = false)
    (he : isWordChar e = false) (ts : List Ty) (r : List Char) :
    EndsRun isWordChar ((textTail sep ts).toList ++ e :: r) := by
  cases ts with
  | nil => simpa [EndsRun, textTail] using he
  | cons t ts => simpa [EndsRun, toList_textTail_cons, hsep] using hd

theorem textTail_append_inj (hsep : sep.toList = d :: ds) (hd : isWordChar d = false)
    (he : isWordChar e = false) (hde : d ≠ e) (ih : ∀ t ∈ ts, Cancels t)
    (ht : allWellNamed ts = true) (hu : allWellNamed us = true)
    (h : (textTail sep ts).toList ++ e :: r = (textTail sep us).toList ++ e :: s) :
    ts = us ∧ r = s := by
  induction ts generalizing us with
  | nil =>
    cases us with
    | nil => simpa [textTail] using h
    | cons u us => simp [textTail, hsep, Ne.symm hde] at h
  | cons t ts ihs =>
    cases us with
    | nil => simp [textTail, hsep, hde] at h
    | cons u us =>
      rw [allWellNamed_cons] at ht hu
      simp only [toList_textTail_cons, List.append_assoc, List.append_cancel_left_eq] at h
      have htail := endsRun_textTail hsep hd he
      obtain ⟨rfl, hrest⟩ := ih t List.mem_cons_self ht.1 hu.1 (htail ts r) (htail us s) h
      obtain ⟨rfl, hrs⟩ := ihs (fun t h => ih t (List.mem_cons_of_mem _ h)) ht.2 hu.2 hrest
      exact ⟨rfl, hrs⟩

theorem textAll_append_inj (hsep : sep.toList = d :: ds) (hd : isWordChar d = false)
    (he : e = ')' ∨ e = '\x7d') (hde : d ≠ e) (ih : ∀ t ∈ ts, Cancels t)
    (ht : allWellNamed ts = true) (hu : allWellNamed us = true)
    (h : (textAll sep ts).toList ++ e :: r = (textAll sep us).toList ++ e :: s) :
    ts = us ∧ r = s := by
  -- What closes a list is not taken for its first member.
  have hopen : ∀ t ts x y, allWellNamed (t :: ts) = true →
      (textAll sep (t :: ts)).toList ++ x ≠ e :: y := by
    intro t ts x y ht hx
    rw [allWellNamed_cons] at ht
    obtain ⟨c, cs, hc, -, hparen, hbrace⟩ := text_opens ht.1
    simp only [toList_textAll_cons, hc] at hx
    obtain rfl : c = e := (List.cons.inj hx).1
    exact he.elim hparen hbrace
  cases ts with
  | nil =>
    cases us with
    | nil => simpa [textAll] using h
    | cons u us => exact absurd h.symm (hopen u us _ _ hu)
  | cons t ts =>
    cases us with
    | nil => exact absurd h (hopen t ts _ _ ht)
    | cons u us =>
      have hword : isWordChar e = false := by rcases he with rfl | rfl <;> decide
      refine textTail_append_inj hsep hd hword hde ih ht hu ?_
      simpa [toList_textAll_cons, toList_textTail_cons] using h

end

theorem cancels (t : Ty) : Cancels t := by
  induction t using Ty.induction with
  | basic m =>
    intro u r s ht hu hr hs h
    have hrank := rank_eq_of_text ht hu h
    cases u with
    | basic n =>
      rw [isWellNamed_basic] at ht hu
      obtain ⟨hmn, hrs⟩ := run_append_inj ht.2 hu.2 hr hs h
      exact ⟨congrArg basic (String.toList_inj.mp hmn), hrs⟩
    | _ => cases hrank
  | fn params ret ihs ih =>
    intro u r s ht hu hr hs h
    have hrank := rank_eq_of_text ht hu h
    cases u with
    | fn params' ret' =>
      rw [isWellNamed_fn] at ht hu
      simp only [toList_text_fn, List.cons_append, List.append_assoc] at h
      obtain ⟨rfl, hrest⟩ := textAll_append_inj rfl (by decide) (Or.inl rfl) (by decide) ihs ht.1
        hu.1 (List.cons.inj h).2
      have hret : ret.text.toList ++ r = ret'.text.toList ++ s := by simpa using hrest
      obtain ⟨rfl, hrs⟩ := ih ht.2 hu.2 hr hs hret
      exact ⟨rfl, hrs⟩
    | _ => cases hrank
  | variant alts ihs =>
    intro u r s ht hu hr hs h
    have hrank := rank_eq_of_text ht hu h
    cases u with
    | variant alts' =>
      rw [isWellNamed_variant] at ht hu
      simp only [toList_text_variant, List.cons_append, List.append_assoc] at h
      obtain ⟨rfl, hrs⟩ := textAll_append_inj rfl (by decide) (Or.inr rfl) (by decide) ihs ht hu
        (List.cons.inj h).2
      exact ⟨rfl, hrs⟩
    | _ => cases hrank
  | unknown =>
    intro u r s ht hu hr hs h
    have hrank := rank_eq_of_text ht hu h
    cases u with
    | unknown => exact ⟨rfl, (List.cons.inj h).2⟩
    | _ => cases hrank

/-! ## Quoted texts -/

theorem tick_not_mem_textTail (sep : String) (hsep : '\x60' ∉ sep.toList)
    (h : ∀ t ∈ ts, '\x60' ∉ t.text.toList) : '\x60' ∉ (textTail sep ts).toList := by
  induction ts with
  | nil => simp [textTail]
  | cons t ts ih =>
    rw [List.forall_mem_cons] at h
    simp [toList_textTail_cons, hsep, h.1, ih h.2]

theorem tick_not_mem_textAll (sep : String) (hsep : '\x60' ∉ sep.toList)
    (h : ∀ t ∈ ts, '\x60' ∉ t.text.toList) : '\x60' ∉ (textAll sep ts).toList := by
  cases ts with
  | nil => simp [textAll]
  | cons t ts =>
    rw [List.forall_mem_cons] at h
    simp [toList_textAll_cons, h.1, tick_not_mem_textTail sep hsep h.2]

theorem tick_not_mem_text (h : t.isWellNamed = true) : '\x60' ∉ t.text.toList := by
  induction t using Ty.induction with
  | basic name =>
    intro hm
    rw [isWellNamed_basic, List.all_eq_true] at h
    exact absurd (h.2 _ hm) (by decide)
  | fn params ret ihs ih =>
    rw [isWellNamed_fn, allWellNamed_eq_true] at h
    have hparams := tick_not_mem_textAll ", " (by decide) fun t ht => ihs t ht (h.1 t ht)
    simp [toList_text_fn, hparams, ih h.2]
  | variant alts ihs =>
    rw [isWellNamed_variant, allWellNamed_eq_true] at h
    have halts := tick_not_mem_textAll " | " (by decide) fun t ht => ihs t ht (h t ht)
    simp [toList_text_variant, halts]
  | unknown => decide

/-- Two texts without quotes, quoted, that read like one text given twice are that text. -/
theorem quoted_inj {mid rest e f x : List Char} (he : '\x60' ∉ e) (hf : '\x60' ∉ f)
    (h : e ++ '\x60' :: (mid ++ (f ++ rest)) = x ++ '\x60' :: (mid ++ (x ++ rest))) : e = f := by
  have hx : '\x60' ∉ x := by
    have hcount := congrArg (List.count '\x60') h
    simp only [List.count_append, List.count_cons_self, List.count_eq_zero.mpr he,
      List.count_eq_zero.mpr hf] at hcount
    exact List.count_eq_zero.mp (by omega)
  have hall : ∀ {cs : List Char}, '\x60' ∉ cs → cs.all (· != '\x60') = true := by
    intro cs hcs
    rw [List.all_eq_true]
    intro c hc
    rw [bne_iff_ne]
    rintro rfl
    exact hcs hc
  obtain ⟨rfl, hrest⟩ :=
    run_append_inj (hall he) (hall hx) (by simp [EndsRun]) (by simp [EndsRun]) h
  simpa using hrest.symm

theorem message_mismatch (expected found : Ty) (origin : Origin) :
    (∃ name, (TypeError.mismatch expected found origin).message =
      "`" ++ name ++ "` cannot hold the result of a procedure") ∨
    (TypeError.mismatch expected found origin).message =
      "type mismatch: expected `" ++ expected.text ++ "`, found `" ++ found.text ++ "`" := by
  cases origin with
  | storedValue name span => exact Or.inl ⟨name, rfl⟩
  | _ => exact Or.inr rfl

/-- A text belongs to one type, so a mismatch of two types never gives one text for both. -/
theorem text_unambiguous :
    (∀ t u : Ty, t.isWellNamed = true → u.isWellNamed = true → t.text = u.text → t = u) ∧
    ∀ (expected found : Ty) (origin : Origin), expected.isWellNamed = true →
      found.isWellNamed = true → expected ≠ found → ∀ shown : String,
      (TypeError.mismatch expected found origin).message ≠
        "type mismatch: expected `" ++ shown ++ "`, found `" ++ shown ++ "`" := by
  have hinj : ∀ t u : Ty, t.isWellNamed = true → u.isWellNamed = true → t.text = u.text →
      t = u := by
    intro t u ht hu h
    have hend : EndsRun isWordChar [] := by simp [EndsRun]
    exact (cancels t ht hu hend hend (by rw [h])).1
  refine ⟨hinj, fun expected found origin he hf hne shown h => hne (hinj _ _ he hf ?_)⟩
  rcases message_mismatch expected found origin with ⟨name, hm⟩ | hm
  · rw [hm] at h
    have hhead := congrArg (fun s : String => s.toList.head?) h
    simp only [String.toList_append, List.append_assoc] at hhead
    cases hhead
  · rw [hm] at h
    have hlist := String.toList_inj.mpr h
    simp only [String.toList_append, List.append_assoc, List.append_cancel_left_eq] at hlist
    exact String.toList_inj.mp (quoted_inj (tick_not_mem_text he) (tick_not_mem_text hf) hlist)

theorem text_unambiguous_arrows :
    let curried : Ty := .fn [.int] (.fn [.int] .int)
    let higher : Ty := .fn [.fn [.int] .int] .int
    curried.isWellNamed = true ∧ higher.isWellNamed = true ∧ curried ≠ higher ∧
      curried.text ≠ higher.text ∧
      (TypeError.mismatch curried higher .builtin).message ≠
        "type mismatch: expected `" ++ curried.text ++ "`, found `" ++ curried.text ++ "`" := by
  intro curried higher
  have hc : curried.isWellNamed = true := by decide
  have hh : higher.isWellNamed = true := by decide
  have hne : curried ≠ higher := by decide
  exact ⟨hc, hh, hne, fun h => hne (text_unambiguous.1 _ _ hc hh h),
    text_unambiguous.2 _ _ .builtin hc hh hne curried.text⟩

end Ty

end ScriptLang
