import ScriptLang.Fault
import ScriptLang.Source.Span
import ScriptLang.Source.LineIndex
import ScriptLang.Ty.Basic
import ScriptLang.Ty.Unify
import ScriptLang.Number.Binary64
import ScriptLang.Number.Shortest
import ScriptLang.Json.Basic
import ScriptLang.Json.Text
import ScriptLang.Json.Reader
import ScriptLang.Json.Pointer
import ScriptLang.Tree.Basic
import ScriptLang.Tree.Queries
import ScriptLang.Tree.Writer
import ScriptLang.Tree.Reader
import ScriptLang.Error
import ScriptLang.Scope.Basic
import ScriptLang.Scope.Builtins
import ScriptLang.Check.Event
import ScriptLang.Check.Pass
import ScriptLang.Check.Binding
import ScriptLang.Check.Synthesis
import ScriptLang.Check.Commit
import ScriptLang.Check.Inference
import ScriptLang.Check.Discovery
import ScriptLang.Check.Unit
import ScriptLang.Ir.Type
import ScriptLang.Ir.Native
import ScriptLang.Ir.Instr
import ScriptLang.Ir.Emit
import ScriptLang.Ir.Body
import ScriptLang.Ir.Lowering
import ScriptLang.Diagnostic.Basic
import ScriptLang.Diagnostic.Line
import ScriptLang.Diagnostic.Report
import ScriptLang.Compile
import ScriptLang.Session
import ScriptLang.Proofs.Unification
import ScriptLang.Proofs.Passes
import ScriptLang.Proofs.ScopeTrees
import ScriptLang.Proofs.Resolved
import ScriptLang.Proofs.Lookup
import ScriptLang.Proofs.Erasure
import ScriptLang.Proofs.Binding
import ScriptLang.Proofs.Resolution
import ScriptLang.Proofs.InferenceRules
import ScriptLang.Proofs.Synthesis
import ScriptLang.Proofs.InferenceSteps
import ScriptLang.Proofs.Discovery
import ScriptLang.Proofs.Typing
import ScriptLang.Proofs.Committing
import ScriptLang.Proofs.Soundness
import ScriptLang.Proofs.Emitters
import ScriptLang.Proofs.Totality
import ScriptLang.Proofs.Blocks
import ScriptLang.Proofs.Emission
import ScriptLang.Proofs.Segments
import ScriptLang.Proofs.BlockStructure
import ScriptLang.Proofs.Dominance
import ScriptLang.Proofs.Availability
import ScriptLang.Proofs.StatementFlow
import ScriptLang.Proofs.SingleAssignment
import ScriptLang.Proofs.Evaluation
import ScriptLang.Proofs.Machine
import ScriptLang.Proofs.Execution
import ScriptLang.Proofs.Simulation
import ScriptLang.Proofs.BodySimulation
import ScriptLang.Proofs.Preservation
import ScriptLang.Proofs.Overloads
import ScriptLang.Proofs.Covering
import ScriptLang.Proofs.Settling
import ScriptLang.Proofs.Acceptance
import ScriptLang.Proofs.Annotations
import ScriptLang.Proofs.Renumbering
import ScriptLang.Proofs.Rebinding
import ScriptLang.Proofs.Probing
import ScriptLang.Proofs.Reordering
import ScriptLang.Proofs.Twins
import ScriptLang.Proofs.DefinitionOrder
import ScriptLang.Proofs.Repetition
import ScriptLang.Proofs.Placement
import ScriptLang.Proofs.Completeness
import ScriptLang.Proofs.Rerunning
import ScriptLang.Proofs.LexicalScoping
import ScriptLang.Proofs.IrTyping
import ScriptLang.Proofs.TypeConsistency
import ScriptLang.Proofs.Intersection
import ScriptLang.Proofs.Symbols
import ScriptLang.Proofs.CallTargets
import ScriptLang.Proofs.VoidValues
import ScriptLang.Proofs.Merging
import ScriptLang.Proofs.Narrowing
import ScriptLang.Proofs.ScopeHistory
import ScriptLang.Proofs.Complaints
import ScriptLang.Proofs.TreeFormat
import ScriptLang.Proofs.IncomingHandles
import ScriptLang.Proofs.LoopSites
import ScriptLang.Proofs.Predecessors
import ScriptLang.Proofs.LoopBounds
import ScriptLang.Proofs.Activations
import ScriptLang.Proofs.CountingLoops
import ScriptLang.Proofs.Refinement
import ScriptLang.Proofs.FirstFailure
import ScriptLang.Proofs.Chronicle
import ScriptLang.Proofs.Transience
import ScriptLang.Proofs.Rounds
import ScriptLang.Proofs.Positions
import ScriptLang.Proofs.Declarations
import ScriptLang.Proofs.Separation
import ScriptLang.Proofs.JsonText
import ScriptLang.Proofs.DiagnosticLines
import ScriptLang.Proofs.PositionLimits
import ScriptLang.Proofs.CandidateSets
import ScriptLang.Proofs.TypeTexts
