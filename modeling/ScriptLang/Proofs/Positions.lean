import Mathlib.Data.List.Induction
import ScriptLang.Source.LineIndex

/-!
# Positions in a source

The line of an offset is counted by the newline bytes below it, and its column is its distance from
the last of them. A line index gives this position for every offset, also for one past the end: the
lines that start up to an offset are the lines of the text before it. From a position the offset can
be computed again, and later offsets have later positions.
-/

namespace ScriptLang

/-! ## Positions read off the text -/

def bytesOf (source : String) : List UInt8 :=
  source.toUTF8.data.toList

theorem length_bytesOf (source : String) : (bytesOf source).length = source.utf8ByteSize :=
  Array.length_toList

/-- How many newline bytes stand below an offset. -/
def newlinesBelow (bytes : List UInt8) (offset : Nat) : Nat :=
  (bytes.take offset).count 10

/-- The line of an offset starts at `start`: at the front of the text or behind a newline byte, with
no newline byte from there to the offset. -/
structure LineStartsAt (bytes : List UInt8) (offset start : Nat) : Prop where
  le : start ≤ offset
  opens : start = 0 ∨ bytes[start - 1]? = some 10
  unbroken : ∀ i, start ≤ i → i < offset → bytes[i]? ≠ some 10

namespace Position

/-- The position of an offset on a line that starts at `start`. -/
structure Locates (bytes : List UInt8) (offset start : Nat) (p : Position) : Prop where
  onLine : LineStartsAt bytes offset start
  line : p.line = newlinesBelow bytes offset + 1
  column : p.column = offset - start + 1

/-- By lines, and on one line by columns. -/
def Before (p q : Position) : Prop :=
  p.line < q.line ∨ p.line = q.line ∧ p.column < q.column

theorem Locates.offset {bytes : List UInt8} {offset start : Nat} {p : Position}
    (h : p.Locates bytes offset start) : start + (p.column - 1) = offset := by
  have hle := h.onLine.le
  have hcolumn := h.column
  omega

end Position

namespace LineIndex

/-! ## The starts of a text -/

theorem pairwise_startsFrom (bytes : List UInt8) : ∀ pos : Nat,
    (startsFrom pos bytes).Pairwise (· < ·) := by
  induction bytes with
  | nil => intro pos; exact .nil
  | cons byte rest ih =>
    intro pos
    unfold startsFrom
    by_cases hb : byte = 10
    · rw [if_pos hb]
      exact .cons (fun start hs => (lt_of_mem_startsFrom hs).1) (ih (pos + 1))
    · rw [if_neg hb]
      exact ih (pos + 1)

theorem length_startsFrom (bytes : List UInt8) : ∀ pos : Nat,
    (startsFrom pos bytes).length = bytes.count 10 := by
  induction bytes with
  | nil => intro pos; rfl
  | cons byte rest ih =>
    intro pos
    by_cases hb : byte = 10 <;> simp [startsFrom, hb, ih]

theorem startsFrom_append (bytes more : List UInt8) : ∀ pos : Nat,
    startsFrom pos (bytes ++ more) =
      startsFrom pos bytes ++ startsFrom (pos + bytes.length) more := by
  induction bytes with
  | nil => intro pos; rfl
  | cons byte rest ih =>
    intro pos
    have hpos : pos + 1 + rest.length = pos + (rest.length + 1) := by omega
    by_cases hb : byte = 10 <;> simp [startsFrom, hb, ih, hpos]

theorem takeWhile_startsFrom (offset : Nat) (bytes : List UInt8) : ∀ pos : Nat,
    (startsFrom pos bytes).takeWhile (· ≤ offset) = startsFrom pos (bytes.take (offset - pos)) := by
  induction bytes with
  | nil => intro pos; simp [startsFrom]
  | cons byte rest ih =>
    intro pos
    by_cases hpos : pos < offset
    · have htake : offset - pos = offset - (pos + 1) + 1 := by omega
      rw [htake, List.take_succ_cons]
      by_cases hb : byte = 10
      · have hle : pos + 1 ≤ offset := hpos
        simp [startsFrom, hb, ih, hle]
      · simp [startsFrom, hb, ih]
    · -- Every start lies behind `pos`, so none is up to the offset.
      have hzero : offset - pos = 0 := by omega
      rw [hzero, List.take_zero]
      cases hs : startsFrom pos (byte :: rest) with
      | nil => rfl
      | cons start starts =>
        have hlt : pos < start := (lt_of_mem_startsFrom (hs ▸ List.mem_cons_self)).1
        apply List.takeWhile_cons_of_neg
        simp only [decide_eq_true_eq]
        omega

theorem startsUpTo_ofBytes (bytes : List UInt8) (offset : Nat) :
    (ofBytes bytes).startsUpTo offset = (ofBytes (bytes.take offset)).starts := by
  simp [ofBytes, startsUpTo, takeWhile_startsFrom]

theorem lineStartsAt_last (text : List UInt8) :
    LineStartsAt text text.length ((ofBytes text).starts.getLastD 0) := by
  induction text using List.reverseRecOn with
  | nil =>
    exact ⟨Nat.le_refl _, .inl rfl, fun i _ hi => absurd hi (Nat.not_lt_zero i)⟩
  | append_singleton text byte ih =>
    have hlast : (ofBytes (text ++ [byte])).starts.getLastD 0 =
        if byte = 10 then text.length + 1 else (ofBytes text).starts.getLastD 0 := by
      simp only [ofBytes, startsFrom_append, startsFrom, List.getLastD_cons, Nat.zero_add]
      by_cases hb : byte = 10 <;> simp [hb]
    rw [hlast]
    by_cases hb : byte = 10
    · rw [if_pos hb]
      refine ⟨by simp, .inr (by simp [hb]), ?_⟩
      intro i hle hlt
      simp only [List.length_append, List.length_singleton] at hlt
      omega
    · rw [if_neg hb]
      have hle := ih.le
      refine ⟨by simp only [List.length_append]; omega, ?_, ?_⟩
      · rcases ih.opens with hzero | hnewline
        · exact .inl hzero
        · refine .inr ?_
          rw [List.getElem?_append_left (List.getElem?_eq_some_iff.mp hnewline).1]
          exact hnewline
      · intro i hstart hlt
        simp only [List.length_append, List.length_singleton] at hlt
        by_cases hi : i < text.length
        · rw [List.getElem?_append_left hi]
          exact ih.unbroken i hstart hi
        · have heq : i = text.length := by omega
          rw [heq, List.getElem?_concat_length]
          simpa using hb

/-! ## Positions by the index -/

theorem lineStartsAt_startsUpTo (bytes : List UInt8) (offset : Nat) :
    LineStartsAt bytes offset (((ofBytes bytes).startsUpTo offset).getLastD 0) := by
  rw [startsUpTo_ofBytes]
  have h := lineStartsAt_last (bytes.take offset)
  have hle := h.le
  rw [List.length_take] at hle
  refine ⟨by omega, ?_, ?_⟩
  · rcases h.opens with hzero | hnewline
    · exact .inl hzero
    · rw [List.getElem?_take] at hnewline
      split at hnewline
      · exact .inr hnewline
      · cases hnewline
  · intro i hstart hlt hnewline
    have hi := (List.getElem?_eq_some_iff.mp hnewline).1
    have hlen : i < (bytes.take offset).length := by
      rw [List.length_take]
      omega
    apply h.unbroken i hstart hlen
    rw [List.getElem?_take, if_pos hlt]
    exact hnewline

theorem length_startsUpTo (bytes : List UInt8) (offset : Nat) :
    ((ofBytes bytes).startsUpTo offset).length = newlinesBelow bytes offset + 1 := by
  rw [startsUpTo_ofBytes]
  simp [ofBytes, length_startsFrom, newlinesBelow]

theorem getElem?_starts (bytes : List UInt8) (offset : Nat) :
    (ofBytes bytes).starts[newlinesBelow bytes offset]? =
      some (((ofBytes bytes).startsUpTo offset).getLastD 0) := by
  have hlen := length_startsUpTo bytes offset
  have hupTo : ((ofBytes bytes).startsUpTo offset)[newlinesBelow bytes offset]? =
      some (((ofBytes bytes).startsUpTo offset).getLastD 0) := by
    rw [List.getLastD_eq_getLast?, List.getLast?_eq_getElem?, hlen, Nat.add_sub_cancel,
      List.getElem?_eq_getElem (by omega), Option.getD_some]
  obtain ⟨more, hmore⟩ := List.takeWhile_prefix (l := (ofBytes bytes).starts)
    (fun start => decide (start ≤ offset))
  change (ofBytes bytes).startsUpTo offset ++ more = _ at hmore
  rw [← hmore, List.getElem?_append_left (by omega)]
  exact hupTo

theorem inWord_eq (n : Nat) (fault : Fault) :
    inWord n fault = if UInt32.size ≤ n then .error fault else .ok n := by
  by_cases hn : n < UInt32.size
  · rw [inWord, if_pos hn, if_neg (by omega)]
  · rw [inWord, if_neg hn, if_pos (by omega)]

/-- The line of an offset is in the index and starts up to the offset. So a position is there unless
one of its numbers is too large. -/
theorem position_ofBytes (bytes : List UInt8) (offset : UInt32) :
    (ofBytes bytes).position offset =
      if UInt32.size ≤ newlinesBelow bytes offset.toNat + 1 then .error .lineOverflow
      else if UInt32.size ≤
          offset.toNat - ((ofBytes bytes).startsUpTo offset.toNat).getLastD 0 + 1 then
        .error .columnOverflow
      else
        .ok ⟨newlinesBelow bytes offset.toNat + 1,
          offset.toNat - ((ofBytes bytes).startsUpTo offset.toNat).getLastD 0 + 1⟩ := by
  have hle := (lineStartsAt_startsUpTo bytes offset.toNat).le
  simp only [position, length_startsUpTo, Nat.add_sub_cancel, lineStart, getElem?_starts, distance,
    if_pos hle, inWord_eq, bind, Except.bind, pure, Except.pure]
  by_cases hline : UInt32.size ≤ newlinesBelow bytes offset.toNat + 1
  · simp only [if_pos hline]
  · simp only [if_neg hline]
    by_cases hcolumn : UInt32.size ≤
        offset.toNat - ((ofBytes bytes).startsUpTo offset.toNat).getLastD 0 + 1
    · simp only [if_pos hcolumn]
    · simp only [if_neg hcolumn]

theorem position_locates {bytes : List UInt8} {offset : UInt32} {p : Position}
    (h : (ofBytes bytes).position offset = .ok p) :
    ∃ start, p.Locates bytes offset.toNat start ∧
      (ofBytes bytes).starts[p.line - 1]? = some start := by
  rw [position_ofBytes] at h
  split at h
  · cases h
  · split at h
    · cases h
    · cases h
      exact ⟨_, ⟨lineStartsAt_startsUpTo bytes offset.toNat, rfl, rfl⟩,
        getElem?_starts bytes offset.toNat⟩

theorem newlinesBelow_le (bytes : List UInt8) (offset : Nat) :
    newlinesBelow bytes offset ≤ offset :=
  Nat.le_trans List.count_le_length (List.length_take_le offset bytes)

theorem position_total (source : String) {offset : UInt32}
    (h : offset.toNat < UInt32.size - 1) : ∃ p, (ofSource source).position offset = .ok p := by
  have hle := newlinesBelow_le (bytesOf source) offset.toNat
  change ∃ p, (ofBytes (bytesOf source)).position offset = .ok p
  rw [position_ofBytes, if_neg (by omega), if_neg (by omega)]
  exact ⟨_, rfl⟩

theorem newlinesBelow_mono (bytes : List UInt8) {offset offset' : Nat} (h : offset ≤ offset') :
    newlinesBelow bytes offset ≤ newlinesBelow bytes offset' :=
  (List.take_sublist_take_left h).count_le 10

theorem position_before {bytes : List UInt8} {offset offset' : UInt32} {p p' : Position}
    (hlt : offset < offset') (h : (ofBytes bytes).position offset = .ok p)
    (h' : (ofBytes bytes).position offset' = .ok p') : p.Before p' := by
  obtain ⟨start, hp, hstart⟩ := position_locates h
  obtain ⟨start', hp', hstart'⟩ := position_locates h'
  have hnat : offset.toNat < offset'.toNat := hlt
  have hmono := newlinesBelow_mono bytes (Nat.le_of_lt hnat)
  rw [← Nat.add_le_add_iff_right (n := 1), ← hp.line, ← hp'.line] at hmono
  by_cases hline : p.line = p'.line
  · -- On one line the starts are the same, and only the columns differ.
    have hsame : start = start' := by
      rw [hline, hstart'] at hstart
      exact (Option.some.inj hstart).symm
    refine .inr ⟨hline, ?_⟩
    have hle := hp.onLine.le
    rw [hp.column, hp'.column, hsame]
    omega
  · exact .inl (by omega)

theorem starts_lt_size {bytes : List UInt8} (h : bytes.length < UInt32.size) :
    ∀ start ∈ (ofBytes bytes).starts, start < UInt32.size := by
  intro start hs
  rcases List.mem_cons.mp hs with rfl | hs
  · decide
  · have hle := (lt_of_mem_startsFrom hs).2
    omega

theorem pairwise_starts (bytes : List UInt8) : (ofBytes bytes).starts.Pairwise (· < ·) :=
  .cons (fun _ hs => (lt_of_mem_startsFrom hs).1) (pairwise_startsFrom bytes 0)

/-- The lines of a source start in order and within 32 bits. Every offset but the last of all has the
position that the text gives it, which makes up the offset with the start of its line, and later
offsets have later positions. -/
theorem position_inverts {source : String} (hsize : source.utf8ByteSize < UInt32.size) :
    ((ofSource source).starts.Pairwise (· < ·) ∧
      ∀ start ∈ (ofSource source).starts, start < UInt32.size) ∧
    (∀ offset : UInt32, offset.toNat < UInt32.size - 1 → ∃ p start,
      (ofSource source).position offset = .ok p ∧
        p.Locates (bytesOf source) offset.toNat start ∧
        (ofSource source).starts[p.line - 1]? = some start ∧
        start + (p.column - 1) = offset.toNat) ∧
    ∀ (offset offset' : UInt32) (p p' : Position), offset < offset' →
      (ofSource source).position offset = .ok p → (ofSource source).position offset' = .ok p' →
      p.Before p' := by
  refine ⟨⟨pairwise_starts _, starts_lt_size ?_⟩, ?_, ?_⟩
  · change (bytesOf source).length < UInt32.size
    rw [length_bytesOf]
    exact hsize
  · intro offset hoffset
    obtain ⟨p, hp⟩ := position_total source hoffset
    obtain ⟨start, hlocates, hstart⟩ := position_locates hp
    exact ⟨p, start, hp, hlocates, hstart, hlocates.offset⟩
  · intro offset offset' p p' hlt hp hp'
    exact position_before hlt hp hp'

/-- A source with a blank line, at an offset inside it and at one past its end. -/
theorem position_inverts_blankLine :
    "ab\n\ncd".utf8ByteSize < UInt32.size ∧
      (ofSource "ab\n\ncd").starts = [0, 3, 4] ∧
      (ofSource "ab\n\ncd").position 5 = .ok ⟨3, 2⟩ ∧
      (ofSource "ab\n\ncd").position 100 = .ok ⟨3, 97⟩ ∧ Position.Before ⟨3, 2⟩ ⟨3, 97⟩ := by
  have hsize : "ab\n\ncd".utf8ByteSize < UInt32.size := by decide
  exact ⟨hsize, rfl, rfl, rfl, (position_inverts hsize).2.2 5 100 _ _ (by decide) rfl rfl⟩

end LineIndex

end ScriptLang
