import ScriptLang.Proofs.DiagnosticLines

/-!
# Offsets without a position

Lines and columns are counted from one and have as many bits as offsets have. So a number can be too
large for the last offset of all only, and only in two sources: one without a newline, where the
column is too large, and one of nothing but newlines, as long as a source can be, where the line is.
-/

namespace ScriptLang

namespace LineIndex

/-- The largest offset that 32 bits can hold. -/
def lastOffset : UInt32 :=
  4294967295

/-- What is too large in the position of an offset. -/
inductive Overrun (bytes : List UInt8) : UInt32 → Fault → Prop where
  | column (h : 10 ∉ bytes) : Overrun bytes lastOffset .columnOverflow
  | line (h : bytes = List.replicate (UInt32.size - 1) 10) : Overrun bytes lastOffset .lineOverflow

variable {bytes : List UInt8} {offset : UInt32} {fault : Fault}

theorem eq_lastOffset (h : UInt32.size ≤ offset.toNat + 1) : offset = lastOffset := by
  have hlt := offset.toNat_lt_size
  have hlast : lastOffset.toNat + 1 = UInt32.size := by decide
  exact UInt32.toNat_inj.mp (by omega)

theorem line_overruns (hsize : bytes.length < UInt32.size) :
    UInt32.size ≤ newlinesBelow bytes offset.toNat + 1 ↔
      offset = lastOffset ∧ bytes = List.replicate (UInt32.size - 1) 10 := by
  constructor
  · intro h
    have hle := newlinesBelow_le bytes offset.toNat
    have hcount : newlinesBelow bytes offset.toNat ≤ bytes.count 10 :=
      (List.take_sublist offset.toNat bytes).count_le 10
    have hlen : bytes.count 10 ≤ bytes.length := List.count_le_length
    refine ⟨eq_lastOffset (by omega), List.eq_replicate_iff.mpr ⟨by omega, ?_⟩⟩
    intro byte hb
    exact (List.count_eq_length.mp (Nat.le_antisymm hlen (by omega)) byte hb).symm
  · rintro ⟨rfl, rfl⟩
    have hlast : min lastOffset.toNat (UInt32.size - 1) + 1 = UInt32.size := by decide
    rw [newlinesBelow, List.take_replicate, List.count_replicate_self, hlast]

theorem column_overruns (hsize : bytes.length < UInt32.size) {start : Nat}
    (h : LineStartsAt bytes offset.toNat start) :
    UInt32.size ≤ offset.toNat - start + 1 ↔ offset = lastOffset ∧ 10 ∉ bytes := by
  constructor
  · intro hcolumn
    have hlast : offset = lastOffset := eq_lastOffset (by omega)
    have hlt := offset.toNat_lt_size
    refine ⟨hlast, fun hmem => ?_⟩
    obtain ⟨i, hi, hbyte⟩ := List.mem_iff_getElem.mp hmem
    apply h.unbroken i (by omega) (by omega)
    rw [List.getElem?_eq_getElem hi, hbyte]
  · rintro ⟨rfl, hnone⟩
    have hlast : lastOffset.toNat + 1 = UInt32.size := by decide
    rcases h.opens with rfl | hnewline
    · omega
    · exact absurd (List.mem_of_getElem? hnewline) hnone

theorem Overrun.unique {offset' : UInt32} {fault' : Fault} (h : Overrun bytes offset fault)
    (h' : Overrun bytes offset' fault') : fault = fault' := by
  have hmem : (10 : UInt8) ∈ List.replicate (UInt32.size - 1) 10 :=
    List.mem_replicate.mpr ⟨by decide, rfl⟩
  cases h with
  | column hnone =>
    cases h' with
    | column => rfl
    | line hall => exact absurd (hall ▸ hmem) hnone
  | line hall =>
    cases h' with
    | column hnone => exact absurd (hall ▸ hmem) hnone
    | line => rfl

theorem position_eq_error (hsize : bytes.length < UInt32.size) :
    (ofBytes bytes).position offset = .error fault ↔ Overrun bytes offset fault := by
  have hline : UInt32.size ≤ newlinesBelow bytes offset.toNat + 1 ↔ _ := line_overruns hsize
  have hcolumn := column_overruns hsize (lineStartsAt_startsUpTo bytes offset.toNat)
  rw [position_ofBytes]
  constructor
  · intro h
    split at h
    · rename_i hl
      obtain ⟨rfl, hall⟩ := hline.mp hl
      cases h
      exact .line hall
    · split at h
      · rename_i hc
        obtain ⟨rfl, hnone⟩ := hcolumn.mp hc
        cases h
        exact .column hnone
      · cases h
  · intro h
    cases h with
    | line hall => rw [if_pos (hline.mpr ⟨rfl, hall⟩)]
    | column hnone =>
      rw [if_neg fun hl => ?_, if_pos (hcolumn.mpr ⟨rfl, hnone⟩)]
      cases (Overrun.column hnone).unique (.line (hline.mp hl).2)

end LineIndex

open LineIndex

theorem Diagnostic.placeLabels_eq_error {source : String}
    (hsize : (bytesOf source).length < UInt32.size) (labels : List DiagnosticLabel)
    {fault : Fault} :
    placeLabels (.ofSource source) labels = .error fault ↔
      ∃ label ∈ labels, Overrun (bytesOf source) label.span.start fault := by
  induction labels with
  | nil => simp [placeLabels]
  | cons label labels ih =>
    have hfirst : (ofSource source).position label.span.start = .error fault ↔
        Overrun (bytesOf source) label.span.start fault := position_eq_error hsize
    rw [List.exists_mem_cons_iff, ← ih, ← hfirst]
    cases hp : (ofSource source).position label.span.start with
    | error other =>
      -- A later label can only fail as this one does.
      have hover := (position_eq_error hsize).mp hp
      constructor
      · intro h
        simpa [placeLabels, spanPosition, hp, bind, Except.bind] using Or.inl h
      · intro h
        have hsame : fault = other := by
          rcases h with h | h
          · exact (Except.error.inj h).symm
          · obtain ⟨_, _, hlabel⟩ := ih.mp h
            exact hlabel.unique hover
        simp [placeLabels, spanPosition, hp, hsame, bind, Except.bind]
    | ok p =>
      cases hs : placeLabels (.ofSource source) labels <;>
        simp [placeLabels, spanPosition, hp, hs, bind, Except.bind, pure, Except.pure]

/-- An offset of a source has a position, unless it is the last of all and a number is too large
there. An error has a JSON line, unless this happens to a label of it. -/
theorem TypeError.jsonLine_overruns {source : String} (hsize : source.utf8ByteSize < UInt32.size) :
    (∀ offset fault, (ofSource source).position offset = .error fault ↔
      Overrun (bytesOf source) offset fault) ∧
    ∀ (error : TypeError) (file : String) (fault : Fault),
      error.jsonLine source file = .error fault ↔
        ∃ label ∈ (Diagnostic.ofError error).labels,
          Overrun (bytesOf source) label.span.start fault := by
  have hbytes : (bytesOf source).length < UInt32.size := length_bytesOf source ▸ hsize
  refine ⟨fun offset fault => position_eq_error hbytes, fun error file fault => ?_⟩
  rw [← Diagnostic.placeLabels_eq_error hbytes]
  cases hp : Diagnostic.placeLabels (.ofSource source) (Diagnostic.ofError error).labels <;>
    simp [jsonLine, Diagnostic.toJson, hp, bind, Except.bind, pure, Except.pure]

/-- Behind a newline the last offset of all has a position, too. -/
theorem TypeError.jsonLine_overruns_newline :
    "a\nb".utf8ByteSize < UInt32.size ∧
      ∀ fault, (undeclaredVariable "z" ⟨4294967295, 4294967295⟩).jsonLine "a\nb" "t" ≠
        .error fault := by
  have hsize : "a\nb".utf8ByteSize < UInt32.size := by decide
  have hmem : 10 ∈ bytesOf "a\nb" := by decide +kernel
  have hlen : (bytesOf "a\nb").length = 3 := by decide +kernel
  refine ⟨hsize, fun fault h => ?_⟩
  obtain ⟨label, -, hover⟩ := ((jsonLine_overruns hsize).2 _ _ _).mp h
  generalize label.span.start = offset at hover
  cases hover with
  | column hnone => exact hnone hmem
  | line hall =>
    rw [hall, List.length_replicate] at hlen
    exact absurd hlen (by decide)

/-- In a source of one line the last offset of all has no column, and an error there no line. -/
theorem TypeError.jsonLine_overruns_unbroken :
    "abc".utf8ByteSize < UInt32.size ∧
      (ofSource "abc").position 4294967295 = .error .columnOverflow ∧
      (undeclaredVariable "z" ⟨4294967295, 4294967295⟩).jsonLine "abc" "t" =
        .error .columnOverflow :=
  ⟨by decide, rfl, rfl⟩

end ScriptLang
