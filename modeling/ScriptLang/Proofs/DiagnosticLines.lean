import Mathlib.Data.List.Forall2
import ScriptLang.Diagnostic.Line
import ScriptLang.Proofs.JsonText
import ScriptLang.Proofs.Positions

/-!
# What a JSON line says about an error

The line of an error reads back as an object with the code and the message of the error, the name of
the file, and one entry for each label with the offsets and the place of the label. The first label
is the only primary one and stands where the error is.
-/

namespace ScriptLang

/-! ## Labels -/

theorem Diagnostic.ofMismatch_labels (expected found : Ty) (origin : Origin) :
    ∃ message others, (ofMismatch expected found origin).1 =
        primary (TypeError.mismatch expected found origin).span message :: others ∧
      ∀ label ∈ others, label.primary = false := by
  cases origin with
  | ascription name ascriptionSpan valueSpan =>
    exact ⟨_, _, rfl, List.forall_mem_singleton.mpr rfl⟩
  | returned returnSpan fnSpan =>
    exact ⟨_, _, rfl, List.forall_mem_singleton.mpr rfl⟩
  | _ => exact ⟨_, _, rfl, List.forall_mem_nil _⟩

/-- The first label is primary and stands where the error is; no other one is primary. -/
theorem Diagnostic.labels_ofError (error : TypeError) :
    ∃ message others, (ofError error).labels = primary error.span message :: others ∧
      ∀ label ∈ others, label.primary = false := by
  cases error with
  | mismatch expected found origin => exact ofMismatch_labels expected found origin
  | illegalRedefine name span previous =>
    exact ⟨_, _, rfl, List.forall_mem_singleton.mpr rfl⟩
  | couldNotInfer ty span =>
    by_cases hv : ty.isVariant = true
    · exact ⟨"could be any of " ++ ty.text, [], by simp [ofError, remarks, hv, TypeError.span],
        List.forall_mem_nil _⟩
    · exact ⟨"type cannot be determined", [], by simp [ofError, remarks, hv, TypeError.span],
        List.forall_mem_nil _⟩
  | _ => exact ⟨_, _, rfl, List.forall_mem_nil _⟩

/-! ## Entries -/

/-- The object shows the offsets of a span. -/
def OffsetsShown (span : Span) (object : Json) : Prop :=
  object.field? "start" = some (.int span.start.toNat) ∧
    object.field? "end" = some (.int span.stop.toNat)

/-- The object shows the line and the column of an offset. -/
def PlaceShown (bytes : List UInt8) (offset : UInt32) (object : Json) : Prop :=
  ∃ p start, Position.Locates bytes offset.toNat start p ∧
    object.field? "line" = some (.int p.line) ∧ object.field? "column" = some (.int p.column)

structure LabelShown (bytes : List UInt8) (label : DiagnosticLabel) (object : Json) : Prop where
  offsets : OffsetsShown label.span object
  place : PlaceShown bytes label.span.start object
  message : object.field? "label" = some (.str label.message)
  primary : object.field? "primary" = some (.bool label.primary)

theorem LabelShown.secondary {bytes : List UInt8} {labels : List DiagnosticLabel}
    {entries : List Json} (h : List.Forall₂ (LabelShown bytes) labels entries)
    (hl : ∀ label ∈ labels, label.primary = false) :
    ∀ entry ∈ entries, entry.field? "primary" = some (.bool false) := by
  induction h with
  | nil => exact List.forall_mem_nil _
  | cons hshown _ ih =>
    obtain ⟨hlabel, hl⟩ := List.forall_mem_cons.mp hl
    exact List.forall_mem_cons.mpr ⟨hlabel ▸ hshown.primary, ih hl⟩

/-- The label with the place that the source gives it. -/
def PlacedLabel.Fits (bytes : List UInt8) (label : DiagnosticLabel) (placed : PlacedLabel) : Prop :=
  placed.label = label ∧
    ∃ start, Position.Locates bytes label.span.start.toNat start placed.start

theorem PlacedLabel.Fits.shown {bytes : List UInt8} {label : DiagnosticLabel}
    {placed : PlacedLabel} (h : placed.Fits bytes label) :
    LabelShown bytes label placed.toJson := by
  obtain ⟨rfl, start, hlocates⟩ := h
  exact ⟨⟨rfl, rfl⟩, ⟨placed.start, start, hlocates, rfl, rfl⟩, rfl, rfl⟩

theorem Diagnostic.placeLabels_total (source : String) {labels : List DiagnosticLabel}
    (h : ∀ label ∈ labels, label.span.start.toNat < UInt32.size - 1) :
    ∃ placed, placeLabels (.ofSource source) labels = .ok placed ∧
      List.Forall₂ (PlacedLabel.Fits (bytesOf source)) labels placed := by
  induction labels with
  | nil => exact ⟨[], rfl, .nil⟩
  | cons label labels ih =>
    obtain ⟨hlabel, hlabels⟩ := List.forall_mem_cons.mp h
    obtain ⟨p, hp⟩ := LineIndex.position_total source hlabel
    obtain ⟨start, hlocates, -⟩ := LineIndex.position_locates hp
    obtain ⟨placed, hplaced, hfits⟩ := ih hlabels
    refine ⟨⟨label, p⟩ :: placed, ?_, .cons ⟨rfl, start, hlocates⟩ hfits⟩
    simp [placeLabels, LineIndex.spanPosition, hp, hplaced, bind, Except.bind, pure, Except.pure]

/-! ## Lines -/

theorem PlacedLabel.distinct_toJson (placed : List PlacedLabel) :
    Json.AllDistinct (placed.map toJson) := by
  induction placed with
  | nil => trivial
  | cons label placed ih =>
    have hnames : ["start", "end", "line", "column", "label", "primary"].Nodup := by decide
    exact ⟨⟨hnames, trivial, trivial, trivial, trivial, trivial, trivial, trivial⟩, ih⟩

theorem Diagnostic.toJson_placed {d : Diagnostic} {source : String} (file : String)
    {placed : List PlacedLabel} (h : placeLabels (.ofSource source) d.labels = .ok placed) :
    ∃ object, d.toJson source file = .ok object ∧ object.Distinct ∧
      object.field? "code" = some (.str d.code) ∧
      object.field? "message" = some (.str d.message) ∧
      object.field? "file" = some (.str file) ∧
      object.field? "line" = some (.int (placeOf placed).line) ∧
      object.field? "column" = some (.int (placeOf placed).column) ∧
      object.field? "spans" = some (.arr (placed.map PlacedLabel.toJson)) := by
  have hnames : ["code", "severity", "message", "file", "line", "column", "spans", "help"].Nodup := by
    decide
  have hhelp : (Json.ofOption .str d.help).Distinct := by
    cases d.help <;> trivial
  rw [toJson, h]
  refine ⟨_, rfl, ⟨hnames, ?_⟩, rfl, rfl, rfl, rfl, rfl, rfl⟩
  exact ⟨trivial, trivial, trivial, trivial, trivial, trivial, PlacedLabel.distinct_toJson placed,
    hhelp, trivial⟩

/-- The object shows an error: its code, its message and its place, and each of its labels. The
first label alone is primary, and stands where the error is. -/
structure ErrorShown (error : TypeError) (source file : String) (object : Json) : Prop where
  code : object.field? "code" = some (.str error.code)
  message : object.field? "message" = some (.str error.message)
  file : object.field? "file" = some (.str file)
  place : PlaceShown (bytesOf source) error.span.start object
  labels : ∃ first others, object.field? "spans" = some (.arr (first :: others)) ∧
    List.Forall₂ (LabelShown (bytesOf source)) (Diagnostic.ofError error).labels
      (first :: others) ∧
    OffsetsShown error.span first ∧ first.field? "primary" = some (.bool true) ∧
    ∀ entry ∈ others, entry.field? "primary" = some (.bool false)

/-- An error has a JSON line, unless a label starts at the last offset of all. The line holds no
control character, and reads back as an object that shows the error. -/
theorem TypeError.jsonLine_shows (error : TypeError) (source file : String)
    (h : ∀ label ∈ (Diagnostic.ofError error).labels,
      label.span.start.toNat < UInt32.size - 1) :
    ∃ line object, error.jsonLine source file = .ok line ∧ Json.Printable line.toList ∧
      Json.read? line = some object ∧ ErrorShown error source file object := by
  obtain ⟨placed, hplaced, hfits⟩ := Diagnostic.placeLabels_total source h
  obtain ⟨object, hobject, hdistinct, hcode, hmessage, hfile, hline, hcolumn, hspans⟩ :=
    Diagnostic.toJson_placed file hplaced
  have hshown : List.Forall₂ (LabelShown (bytesOf source)) (Diagnostic.ofError error).labels
      (placed.map PlacedLabel.toJson) :=
    List.forall₂_map_right_iff.mpr (hfits.imp fun _ _ hfit => hfit.shown)
  obtain ⟨message, others, hlabels, hothers⟩ := Diagnostic.labels_ofError error
  rw [hlabels] at hfits
  obtain ⟨first, rest, hfirst, hrest, rfl⟩ := List.forall₂_cons_left_iff.mp hfits
  refine ⟨object.text, object, by rw [jsonLine, hobject]; rfl, Json.printable_text object,
    Json.read?_text hdistinct, ⟨hcode, hmessage, hfile, ?_, first.toJson, _, hspans, hshown, ?_⟩⟩
  · obtain ⟨hlabel, start, hlocates⟩ := hfirst
    have hplace : Diagnostic.placeOf (first :: rest) = first.start := by
      simp [Diagnostic.placeOf, hlabel, Diagnostic.primary]
    rw [hplace] at hline hcolumn
    exact ⟨first.start, start, hlocates, hline, hcolumn⟩
  · rw [hlabels] at hshown
    exact ⟨hfirst.shown.offsets, hfirst.shown.primary,
      LabelShown.secondary (List.forall₂_cons.mp hshown).2 hothers⟩

/-- A name with a quote and a newline in it, defined on the second line after the first. -/
theorem TypeError.jsonLine_shows_redefined :
    let error := illegalRedefine "a\"\n" ⟨8, 9⟩ ⟨0, 1⟩
    (∀ label ∈ (Diagnostic.ofError error).labels, label.span.start.toNat < UInt32.size - 1) ∧
      ∃ line object, error.jsonLine "x := 1;\nx := 2;" "new\\old" = .ok line ∧
        Json.Printable line.toList ∧ Json.read? line = some object ∧
        ErrorShown error "x := 1;\nx := 2;" "new\\old" object :=
  ⟨by decide, jsonLine_shows _ _ _ (by decide)⟩

end ScriptLang
