import Mathlib.Data.List.TakeWhile
import ScriptLang.Json.Reader
import ScriptLang.Json.Text

/-!
# JSON text reads back

The text of a value is one line without control characters, and reading it gives the value again, as
long as its numbers are integers and no object has two fields of one name. The reader takes
characters off the front of a text, so each part is read with anything behind it that does not
belong to it: only a number could be taken to go on.
-/

namespace ScriptLang.Json

/-! ## Strings -/

theorem escapeChar_cases (c : Char) :
    (∃ e, escapeChar c = ['\\', e] ∧ e ≠ 'u' ∧ 0x20 ≤ e.toNat ∧ escaped? e = some c) ∨
      (c.toNat < 0x20 ∧ escapeChar c =
        ['\\', 'u', '0', '0', lowerHexDigit (c.toNat / 16), lowerHexDigit (c.toNat % 16)]) ∨
      (c ≠ '"' ∧ c ≠ '\\' ∧ ¬ c.toNat < 0x20 ∧ escapeChar c = [c]) := by
  unfold escapeChar
  by_cases hquote : c = '"'
  · exact .inl ⟨'"', by simp [hquote], by decide, by decide, by simp [escaped?, hquote]⟩
  by_cases hslash : c = '\\'
  · exact .inl ⟨'\\', by simp [hslash], by decide, by decide, by simp [escaped?, hslash]⟩
  by_cases hb : c = '\x08'
  · exact .inl ⟨'b', by simp [hb], by decide, by decide, by simp [escaped?, hb]⟩
  by_cases ht : c = '\t'
  · exact .inl ⟨'t', by simp [ht], by decide, by decide, by simp [escaped?, ht]⟩
  by_cases hn : c = '\n'
  · exact .inl ⟨'n', by simp [hn], by decide, by decide, by simp [escaped?, hn]⟩
  by_cases hf : c = '\x0c'
  · exact .inl ⟨'f', by simp [hf], by decide, by decide, by simp [escaped?, hf]⟩
  by_cases hr : c = '\r'
  · exact .inl ⟨'r', by simp [hr], by decide, by decide, by simp [escaped?, hr]⟩
  by_cases hlow : c.toNat < 0x20
  · exact .inr (.inl ⟨hlow, by simp [*]⟩)
  · exact .inr (.inr ⟨hquote, hslash, hlow, by simp [*]⟩)

theorem readChars_letter {e c : Char} (rest : List Char) (hu : e ≠ 'u') (h : escaped? e = some c) :
    readChars ('\\' :: e :: rest) = (readChars rest).map fun r => (c :: r.1, r.2) := by
  rw [readChars.eq_def]
  cases hrest : readChars rest <;> simp [hu, h, hrest]

theorem readChars_number {n : Nat} (rest : List Char) (h : n < 0x20) :
    readChars ('\\' :: 'u' :: '0' :: '0' :: lowerHexDigit (n / 16) :: lowerHexDigit (n % 16) :: rest) =
      (readChars rest).map fun r => (Char.ofNat n :: r.1, r.2) := by
  have hunit : codeUnit? '0' '0' (lowerHexDigit (n / 16)) (lowerHexDigit (n % 16)) = some n := by
    have hall : ∀ n < 0x20,
        codeUnit? '0' '0' (lowerHexDigit (n / 16)) (lowerHexDigit (n % 16)) = some n := by decide
    exact hall n h
  have hhigh : ¬ (0xD800 ≤ n ∧ n < 0xDC00) := by omega
  have hlow : ¬ (0xDC00 ≤ n ∧ n < 0xE000) := by omega
  rw [readChars.eq_def]
  cases hrest : readChars rest <;> simp [hunit, hhigh, hlow, hrest]

theorem readChars_escapeChar (c : Char) (rest : List Char) :
    readChars (escapeChar c ++ rest) = (readChars rest).map fun r => (c :: r.1, r.2) := by
  rcases escapeChar_cases c with ⟨e, hesc, hu, -, he⟩ | ⟨hlow, hesc⟩ | ⟨hquote, hslash, hlow, hesc⟩
  · rw [hesc]
    exact readChars_letter rest hu he
  · rw [hesc]
    refine (readChars_number rest hlow).trans ?_
    rw [Char.ofNat_toNat]
  · rw [hesc]
    exact readChars_self rest hquote hslash hlow

theorem readChars_escape (cs rest : List Char) :
    readChars (cs.flatMap escapeChar ++ '"' :: rest) = some (cs, rest) := by
  induction cs with
  | nil => rw [readChars.eq_def]; simp
  | cons c cs ih =>
    rw [List.flatMap_cons, List.append_assoc, readChars_escapeChar, ih]
    rfl

/-! ## Numbers -/

/-- No number goes on with the characters. -/
def EndsNumber (rest : List Char) : Prop :=
  ∀ c ∈ rest.head?, c.isDigit = false ∧ c ≠ '.' ∧ c ≠ 'e' ∧ c ≠ 'E'

theorem endsNumber_nil : EndsNumber [] := by
  intro c h
  cases h

theorem endsNumber_cons {c : Char} (rest : List Char)
    (h : c.isDigit = false ∧ c ≠ '.' ∧ c ≠ 'e' ∧ c ≠ 'E') : EndsNumber (c :: rest) := by
  rintro _ ⟨⟩
  exact h

theorem digits_append {ds rest : List Char} (hds : ∀ d ∈ ds, d.isDigit = true)
    (hrest : ∀ c ∈ rest.head?, c.isDigit = false) : digits (ds ++ rest) = (ds, rest) := by
  unfold digits
  rw [List.takeWhile_append_of_pos hds, List.dropWhile_append_of_pos hds]
  cases rest with
  | nil => simp
  | cons c rest =>
    have hc := hrest c rfl
    simp [hc]

theorem digitsValue_toDigits (n : Nat) : digitsValue (Nat.toDigits 10 n) = n :=
  Nat.ofDigitChars_ten_toDigits

theorem isDigit_toDigits (n : Nat) : ∀ d ∈ Nat.toDigits 10 n, d.isDigit = true :=
  fun _ => Nat.isDigit_of_mem_toDigits (by decide) (by decide)

theorem toDigits_head (n : Nat) : n = 0 ∨ ∃ d ds, Nat.toDigits 10 n = d :: ds ∧ d ≠ '0' := by
  induction n using Nat.strongRecOn with
  | ind n ih =>
    by_cases hzero : n = 0
    · exact .inl hzero
    refine .inr ?_
    by_cases hlt : n < 10
    · refine ⟨n.digitChar, [], Nat.toDigits_of_lt_base hlt, ?_⟩
      have hall : ∀ n : Nat, n < 10 → n ≠ 0 → n.digitChar ≠ '0' := by decide
      exact hall n hlt hzero
    · rcases ih (n / 10) (by omega) with hdiv | ⟨d, ds, hds, hd⟩
      · omega
      · refine ⟨d, ds ++ [(n % 10).digitChar], ?_, hd⟩
        rw [Nat.toDigits_of_base_le (by decide) (by omega), hds]
        rfl

theorem wholePart_toDigits (n : Nat) {rest : List Char}
    (hrest : ∀ c ∈ rest.head?, c.isDigit = false) :
    wholePart (Nat.toDigits 10 n ++ rest) = some (Nat.toDigits 10 n, rest) := by
  unfold wholePart
  rw [digits_append (isDigit_toDigits n) hrest]
  rcases toDigits_head n with rfl | ⟨d, ds, hds, hd⟩
  · rfl
  · rw [hds]
    simp [hd]

theorem fractionPart_of_ne {c : Char} (rest : List Char) (h : c ≠ '.') :
    fractionPart (c :: rest) = some (none, c :: rest) := by
  unfold fractionPart
  simp [h]

theorem EndsNumber.digit {rest : List Char} (h : EndsNumber rest) :
    ∀ c ∈ rest.head?, c.isDigit = false :=
  fun c hc => (h c hc).1

theorem EndsNumber.fraction {rest : List Char} (h : EndsNumber rest) :
    fractionPart rest = some (none, rest) := by
  cases rest with
  | nil => rfl
  | cons c rest => exact fractionPart_of_ne rest (h c rfl).2.1

theorem EndsNumber.exponent {rest : List Char} (h : EndsNumber rest) :
    exponentPart rest = some (none, rest) := by
  cases rest with
  | nil => rfl
  | cons c rest =>
    obtain ⟨-, -, he, hE⟩ := h c rfl
    simp [exponentPart, he, hE]

theorem toList_toString_nat (n : Nat) : (toString n).toList = Nat.toDigits 10 n := by
  rw [Nat.toString_eq_ofList_toDigits, String.toList_ofList]

theorem toList_toString_int (n : Int) :
    (0 ≤ n ∧ (toString n).toList = Nat.toDigits 10 n.natAbs) ∨
      (n < 0 ∧ (toString n).toList = '-' :: Nat.toDigits 10 n.natAbs) := by
  cases n with
  | ofNat m => exact .inl ⟨Int.natCast_nonneg m, toList_toString_nat m⟩
  | negSucc m =>
    refine .inr ⟨Int.negSucc_lt_zero m, ?_⟩
    change ("-" ++ toString (m + 1)).toList = _
    rw [String.toList_append, toList_toString_nat]
    rfl

/-- The sign in front of a number. -/
def sign (negative : Bool) : List Char :=
  if negative then ['-'] else []

theorem readNumber_digits (negative : Bool) (n : Nat) {rest : List Char}
    (hrest : ∀ c ∈ rest.head?, c.isDigit = false) :
    readNumber (sign negative ++ (Nat.toDigits 10 n ++ rest)) = (do
      let (fraction, cs) ← fractionPart rest
      let (power, cs) ← exponentPart cs
      return (number negative (Nat.toDigits 10 n) fraction power, cs)) := by
  have hwhole := wholePart_toDigits n hrest
  cases negative with
  | true => simp [readNumber, sign, hwhole]
  | false =>
    cases hds : Nat.toDigits 10 n with
    | nil => exact absurd hds Nat.toDigits_ne_nil
    | cons d ds =>
      have hd : d ≠ '-' := by
        rintro rfl
        exact absurd (isDigit_toDigits n '-' (hds ▸ List.mem_cons_self)) (by decide)
      rw [hds, List.cons_append] at hwhole
      simp [readNumber, sign, hd, hwhole]

theorem readNumber_int (n : Int) {rest : List Char} (h : EndsNumber rest) :
    readNumber ((toString n).toList ++ rest) = some (.int n, rest) := by
  have hread : ∀ negative, readNumber (sign negative ++ (Nat.toDigits 10 n.natAbs ++ rest)) =
      some (number negative (Nat.toDigits 10 n.natAbs) none none, rest) := by
    intro negative
    rw [readNumber_digits negative n.natAbs h.digit, h.fraction]
    simp [h.exponent]
  rcases toList_toString_int n with ⟨hn, htext⟩ | ⟨hn, htext⟩
  · have habs : (n.natAbs : Int) = n := by omega
    rw [htext]
    refine (hread false).trans ?_
    simp only [number, digitsValue_toDigits, Bool.false_eq_true, if_false, habs]
  · have habs : -(n.natAbs : Int) = n := by omega
    have hne : n.natAbs ≠ 0 := by omega
    rw [htext]
    refine (hread true).trans ?_
    simp only [number, digitsValue_toDigits, if_true, if_neg hne, habs]

/-! ## The parts of a text -/

mutual
/-- No object in the value has two fields of one name, and every number is an integer. -/
def Distinct : Json → Prop
  | .decimal .. => False
  | .arr items => AllDistinct items
  | .obj fields => (fields.map (·.1)).Nodup ∧ FieldsDistinct fields
  | _ => True
def AllDistinct : List Json → Prop
  | [] => True
  | item :: items => Distinct item ∧ AllDistinct items
def FieldsDistinct : List (String × Json) → Prop
  | [] => True
  | (_, value) :: fields => Distinct value ∧ FieldsDistinct fields
end

theorem lastWins_of_nodup {fields : List (String × Json)} (h : (fields.map (·.1)).Nodup) :
    lastWins fields = fields := by
  induction fields with
  | nil => rfl
  | cons field fields ih =>
    rw [List.map_cons, List.nodup_cons] at h
    have hrest := ih h.2
    unfold lastWins at hrest ⊢
    rw [List.foldr_cons, hrest, if_neg]
    intro hany
    obtain ⟨other, hmem, heq⟩ := List.any_eq_true.mp hany
    exact h.1 (List.mem_map.mpr ⟨other, hmem, of_decide_eq_true heq⟩)

theorem skipBlank_cons {c : Char} (cs : List Char) (h : isBlank c = false) :
    skipBlank (c :: cs) = c :: cs := by
  simp [skipBlank, h]

theorem starts_number {c : Char} (h : c.isDigit = true ∨ c = '-') :
    isBlank c = false ∧ c ≠ ']' ∧ c ≠ '"' ∧ c ≠ '[' ∧ c ≠ '\x7b' ∧ c ≠ 'n' ∧ c ≠ 't' ∧ c ≠ 'f' := by
  have hne : ∀ other : Char, other.isDigit = false → other ≠ '-' → c ≠ other := by
    rintro _ hdigit hsign rfl
    rcases h with h | h
    · rw [hdigit] at h
      cases h
    · exact hsign h
  refine ⟨?_, hne _ ?_ ?_, hne _ ?_ ?_, hne _ ?_ ?_, hne _ ?_ ?_, hne _ ?_ ?_, hne _ ?_ ?_,
    hne _ ?_ ?_⟩
  case refine_1 =>
    simp [isBlank, hne ' ' (by decide) (by decide), hne '\t' (by decide) (by decide),
      hne '\n' (by decide) (by decide), hne '\r' (by decide) (by decide)]
  all_goals decide

theorem text_number_head {value : Json}
    (h : (∃ n, value = .int n) ∨ ∃ negative n e, value = .decimal negative n e) :
    ∃ c cs, value.text.toList = c :: cs ∧ (c.isDigit = true ∨ c = '-') := by
  have hdigits : ∀ n, ∃ d ds, Nat.toDigits 10 n = d :: ds ∧ d.isDigit = true := by
    intro n
    cases hds : Nat.toDigits 10 n with
    | nil => exact absurd hds Nat.toDigits_ne_nil
    | cons d ds => exact ⟨d, ds, rfl, isDigit_toDigits n d (hds ▸ List.mem_cons_self)⟩
  rcases h with ⟨n, rfl⟩ | ⟨negative, n, e, rfl⟩
  · rw [text]
    rcases toList_toString_int n with ⟨-, htext⟩ | ⟨-, htext⟩
    · obtain ⟨d, ds, hds, hd⟩ := hdigits n.natAbs
      exact ⟨d, ds, htext.trans hds, .inl hd⟩
    · exact ⟨'-', _, htext, .inr rfl⟩
  · obtain ⟨d, ds, hds, hd⟩ := hdigits n
    rw [text]
    cases negative with
    | true => exact ⟨'-', _, by simp; rfl, .inr rfl⟩
    | false => exact ⟨d, _, by simp [hds]; rfl, .inl hd⟩

theorem text_head (value : Json) :
    ∃ c cs, value.text.toList = c :: cs ∧ isBlank c = false ∧ c ≠ ']' := by
  have hnumber : ∀ c : Char, c.isDigit = true ∨ c = '-' → isBlank c = false ∧ c ≠ ']' := by
    intro c hc
    exact ⟨(starts_number hc).1, (starts_number hc).2.1⟩
  cases value with
  | null => exact ⟨'n', _, rfl, by decide, by decide⟩
  | bool value => cases value <;> exact ⟨_, _, rfl, by decide, by decide⟩
  | int n =>
    obtain ⟨c, cs, htext, hc⟩ := text_number_head (.inl ⟨n, rfl⟩)
    exact ⟨c, cs, htext, hnumber c hc⟩
  | decimal negative n e =>
    obtain ⟨c, cs, htext, hc⟩ := text_number_head (.inr ⟨negative, n, e, rfl⟩)
    exact ⟨c, cs, htext, hnumber c hc⟩
  | str s => exact ⟨'"', _, by simpa [text] using toList_quote s [], by decide, by decide⟩
  | arr items => exact ⟨'[', _, by simpa using toList_text_arr items [], by decide, by decide⟩
  | obj fields => exact ⟨'\x7b', _, by simpa using toList_text_obj fields [], by decide, by decide⟩

theorem readValue_number (fuel : Nat) {c : Char} (rest : List Char)
    (h : c.isDigit = true ∨ c = '-') :
    readValue (fuel + 1) (c :: rest) = readNumber (c :: rest) := by
  obtain ⟨hblank, -, hquote, harr, hobj, hnull, htrue, hfalse⟩ := starts_number h
  rw [readValue, skipBlank_cons rest hblank]
  simp [hquote, harr, hobj, hnull, htrue, hfalse]

theorem length_text_pos (value : Json) : 0 < value.text.toList.length := by
  obtain ⟨c, cs, htext, -⟩ := text_head value
  rw [htext]
  exact Nat.succ_pos _

theorem length_textItems_cons (item : Json) {items : List Json} (h : items ≠ []) :
    (textItems (item :: items)).toList.length =
      item.text.toList.length + (textItems items).toList.length + 1 := by
  have htext := congrArg List.length (toList_textItems_cons item h [])
  simp only [List.append_nil, List.length_append, List.length_cons] at htext
  omega

theorem length_textFields_cons (name : String) (value : Json) {fields : List (String × Json)}
    (h : fields ≠ []) :
    value.text.toList.length + (textFields fields).toList.length + 1 ≤
      (textFields ((name, value) :: fields)).toList.length := by
  have htext := congrArg List.length (toList_textFields_cons name value h [])
  simp only [List.append_nil, List.length_append, List.length_cons] at htext
  omega

theorem length_textFields_nil (name : String) (value : Json) :
    value.text.toList.length ≤ (textFields [(name, value)]).toList.length := by
  have htext := congrArg List.length (toList_textFields_nil name value [])
  simp only [List.append_nil, List.length_append, List.length_cons] at htext
  omega

theorem textItems_head {items : List Json} (h : items ≠ []) :
    ∃ c cs, (textItems items).toList = c :: cs ∧ isBlank c = false ∧ c ≠ ']' := by
  cases items with
  | nil => exact absurd rfl h
  | cons item items =>
    obtain ⟨c, cs, htext, hc⟩ := text_head item
    by_cases hne : items = []
    · subst hne
      exact ⟨c, cs, htext, hc⟩
    · have hitems := toList_textItems_cons item hne []
      rw [List.append_nil, htext, List.cons_append] at hitems
      exact ⟨c, _, hitems, hc⟩

theorem textFields_head {fields : List (String × Json)} (h : fields ≠ []) :
    ∃ cs, (textFields fields).toList = '"' :: cs := by
  cases fields with
  | nil => exact absurd rfl h
  | cons field fields =>
    obtain ⟨name, value⟩ := field
    by_cases hne : fields = []
    · subst hne
      exact ⟨_, by simpa using toList_textFields_nil name value []⟩
    · exact ⟨_, by simpa using toList_textFields_cons name value hne []⟩

theorem readValue_str (fuel : Nat) (s : String) (rest : List Char) :
    readValue (fuel + 1) ((text (.str s)).toList ++ rest) = some (.str s, rest) := by
  rw [text, toList_quote, readValue, skipBlank_cons _ (by decide)]
  simp [readChars_escape]

/-! ## Values -/

mutual
/-- The text of a value is read as the value, whatever stands behind it. -/
theorem readValue_text (value : Json) (fuel : Nat) (rest : List Char) (hd : value.Distinct)
    (hfuel : value.text.toList.length ≤ fuel) (hrest : EndsNumber rest) :
    readValue fuel (value.text.toList ++ rest) = some (value, rest) := by
  cases fuel with
  | zero =>
    have hpos := length_text_pos value
    omega
  | succ fuel =>
    cases value with
    | null => rfl
    | bool value => cases value <;> rfl
    | int n =>
      obtain ⟨c, cs, htext, hc⟩ := text_number_head (.inl ⟨n, rfl⟩)
      rw [htext, List.cons_append, readValue_number fuel _ hc, ← List.cons_append, ← htext]
      exact readNumber_int n hrest
    | decimal => exact hd.elim
    | str s => exact readValue_str fuel s rest
    | arr items =>
      rw [toList_text_arr, readValue, skipBlank_cons _ (by decide)]
      by_cases hne : items = []
      · subst hne
        rfl
      · have hlength : (textItems items).toList.length < fuel := by
          have htext := congrArg List.length (toList_text_arr items [])
          simp only [List.append_nil, List.length_append, List.length_cons] at htext
          omega
        have hread := readItems_text items fuel rest hne hd hlength
        obtain ⟨c, cs, htext, hblank, hclose⟩ := textItems_head hne
        rw [htext, List.cons_append] at hread ⊢
        simp [skipBlank_cons _ hblank, hclose, hread]
    | obj fields =>
      rw [toList_text_obj, readValue, skipBlank_cons _ (by decide)]
      by_cases hne : fields = []
      · subst hne
        rfl
      · have hlength : (textFields fields).toList.length < fuel := by
          have htext := congrArg List.length (toList_text_obj fields [])
          simp only [List.append_nil, List.length_append, List.length_cons] at htext
          omega
        have hread := readFields_text fields fuel rest hne hd.2 hlength
        obtain ⟨cs, htext⟩ := textFields_head hne
        rw [htext, List.cons_append] at hread ⊢
        simp [skipBlank_cons _ (show isBlank '"' = false by decide), hread, lastWins_of_nodup hd.1]
theorem readItems_text : ∀ (items : List Json) (fuel : Nat) (rest : List Char), items ≠ [] →
    AllDistinct items → (textItems items).toList.length < fuel →
    readItems fuel ((textItems items).toList ++ ']' :: rest) = some (items, rest)
  | [], _, _, hne, _, _ => absurd rfl hne
  | _ :: _, 0, _, _, _, hfuel => absurd hfuel (Nat.not_lt_zero _)
  | item :: items, fuel + 1, rest, _, hd, hfuel => by
    rw [readItems]
    by_cases hne : items = []
    · subst hne
      have hread := readValue_text item fuel (']' :: rest) hd.1 (Nat.le_of_lt_succ hfuel)
        (endsNumber_cons _ (by decide))
      simp [textItems, hread, skipBlank_cons _ (show isBlank ']' = false by decide)]
    · have hlength := length_textItems_cons item hne
      have hread := readValue_text item fuel
        (',' :: ((textItems items).toList ++ ']' :: rest)) hd.1 (by omega)
        (endsNumber_cons _ (by decide))
      have hmore := readItems_text items fuel rest hne hd.2 (by omega)
      rw [toList_textItems_cons item hne]
      simp [hread, skipBlank_cons _ (show isBlank ',' = false by decide), hmore]
theorem readFields_text : ∀ (fields : List (String × Json)) (fuel : Nat) (rest : List Char),
    fields ≠ [] → FieldsDistinct fields → (textFields fields).toList.length < fuel →
    readFields fuel ((textFields fields).toList ++ '\x7d' :: rest) = some (fields, rest)
  | [], _, _, hne, _, _ => absurd rfl hne
  | _ :: _, 0, _, _, _, hfuel => absurd hfuel (Nat.not_lt_zero _)
  | (name, value) :: fields, fuel + 1, rest, _, hd, hfuel => by
    by_cases hne : fields = []
    · subst hne
      have hlength := length_textFields_nil name value
      have hread := readValue_text value fuel ('\x7d' :: rest) hd.1 (by omega)
        (endsNumber_cons _ (by decide))
      rw [toList_textFields_nil, readFields, skipBlank_cons _ (by decide)]
      simp [readChars_escape, hread, skipBlank_cons _ (show isBlank ':' = false by decide),
        skipBlank_cons _ (show isBlank '\x7d' = false by decide)]
    · have hlength := length_textFields_cons name value hne
      have hread := readValue_text value fuel
        (',' :: ((textFields fields).toList ++ '\x7d' :: rest)) hd.1 (by omega)
        (endsNumber_cons _ (by decide))
      have hmore := readFields_text fields fuel rest hne hd.2 (by omega)
      rw [toList_textFields_cons name value hne, readFields, skipBlank_cons _ (by decide)]
      simp [readChars_escape, hread, skipBlank_cons _ (show isBlank ':' = false by decide),
        skipBlank_cons _ (show isBlank ',' = false by decide), hmore]
end

theorem read?_text {value : Json} (h : value.Distinct) : read? value.text = some value := by
  have hread := readValue_text value _ [] h (Nat.le_succ _) endsNumber_nil
  rw [List.append_nil] at hread
  simp only [read?, hread, Option.bind_eq_bind, Option.bind_some]
  rfl

/-! ## One line -/

/-- No control character stands in the text. -/
def Printable (cs : List Char) : Prop :=
  ∀ c ∈ cs, 0x20 ≤ c.toNat

instance (cs : List Char) : Decidable (Printable cs) :=
  List.decidableBAll _ _

theorem printable_cons {c : Char} {cs : List Char} :
    Printable (c :: cs) ↔ 0x20 ≤ c.toNat ∧ Printable cs :=
  List.forall_mem_cons

theorem printable_append {cs more : List Char} :
    Printable (cs ++ more) ↔ Printable cs ∧ Printable more :=
  List.forall_mem_append

theorem printable_toDigits (n : Nat) : Printable (Nat.toDigits 10 n) := by
  intro c hc
  have hdigit := isDigit_toDigits n c hc
  simp only [Char.isDigit, Bool.and_eq_true, decide_eq_true_eq] at hdigit
  have hle : (48 : Nat) ≤ c.toNat := hdigit.1
  omega

theorem printable_toString_int (n : Int) : Printable (toString n).toList := by
  rcases toList_toString_int n with ⟨-, htext⟩ | ⟨-, htext⟩
  · rw [htext]
    exact printable_toDigits _
  · rw [htext, printable_cons]
    exact ⟨by decide, printable_toDigits _⟩

theorem printable_lowerHexDigit {n : Nat} (h : n < 16) : 0x20 ≤ (lowerHexDigit n).toNat := by
  have hall : ∀ n < 16, 0x20 ≤ (lowerHexDigit n).toNat := by decide
  exact hall n h

theorem printable_escapeChar (c : Char) : Printable (escapeChar c) := by
  rcases escapeChar_cases c with ⟨e, hesc, -, hle, -⟩ | ⟨hlow, hesc⟩ | ⟨-, -, hlow, hesc⟩
  · rw [hesc]
    simp only [printable_cons]
    exact ⟨by decide, hle, List.forall_mem_nil _⟩
  · rw [hesc]
    simp only [printable_cons]
    exact ⟨by decide, by decide, by decide, by decide, printable_lowerHexDigit (by omega),
      printable_lowerHexDigit (by omega), List.forall_mem_nil _⟩
  · rw [hesc, printable_cons]
    exact ⟨Nat.le_of_not_lt hlow, List.forall_mem_nil _⟩

theorem printable_quote (s : String) : Printable (quote s).toList := by
  have hchars : Printable (s.toList.flatMap escapeChar) := by
    intro c hc
    obtain ⟨d, -, hd⟩ := List.mem_flatMap.mp hc
    exact printable_escapeChar d c hd
  simp only [quote, String.toList_ofList, List.cons_append, printable_cons, printable_append]
  exact ⟨by decide, hchars, by decide, List.forall_mem_nil _⟩

mutual
theorem printable_text : ∀ value : Json, Printable value.text.toList
  | .null => by decide
  | .bool true => by decide
  | .bool false => by decide
  | .int n => printable_toString_int n
  | .decimal negative n e => by
    have hsign : Printable (if negative then "-" else "").toList := by
      cases negative <;> decide
    simp only [text, String.toList_append, printable_append, toList_toString_nat]
    exact ⟨⟨⟨hsign, printable_toDigits n⟩, by decide⟩, printable_toString_int e⟩
  | .str s => printable_quote s
  | .arr items => by
    have h := toList_text_arr items []
    rw [List.append_nil] at h
    rw [h, printable_cons, printable_append]
    exact ⟨by decide, printable_textItems items, by decide⟩
  | .obj fields => by
    have h := toList_text_obj fields []
    rw [List.append_nil] at h
    rw [h, printable_cons, printable_append]
    exact ⟨by decide, printable_textFields fields, by decide⟩
theorem printable_textItems : ∀ items : List Json, Printable (textItems items).toList
  | [] => by decide
  | item :: items => by
    by_cases hne : items = []
    · subst hne
      exact printable_text item
    · have h := toList_textItems_cons item hne []
      rw [List.append_nil, List.append_nil] at h
      rw [h, printable_append, printable_cons]
      exact ⟨printable_text item, by decide, printable_textItems items⟩
theorem printable_textFields : ∀ fields : List (String × Json),
    Printable (textFields fields).toList
  | [] => by decide
  | (name, value) :: fields => by
    have hfield : Printable (quote name ++ ":" ++ text value).toList := by
      simp only [String.toList_append, printable_append]
      exact ⟨⟨printable_quote name, by decide⟩, printable_text value⟩
    cases hfields : fields with
    | nil => exact hfield
    | cons field more =>
      have hmore := printable_textFields fields
      rw [hfields] at hmore
      rw [textFields, String.toList_append, String.toList_append, printable_append, printable_append]
      · exact ⟨⟨hfield, by decide⟩, hmore⟩
      · exact List.cons_ne_nil field more
end

end ScriptLang.Json
