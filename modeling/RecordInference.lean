import RecordInference.Declaration.Reading
import RecordInference.Plan.Compilation
import RecordInference.Proofs.Builder.Declarable
import RecordInference.Proofs.Builder.Merge
import RecordInference.Proofs.Builder.Misuse
import RecordInference.Proofs.Declaration.Enclosure
import RecordInference.Proofs.Plan.Clash
import RecordInference.Proofs.Plan.Equality
import RecordInference.Proofs.Plan.Layout
import RecordInference.Proofs.Plan.Scope
import RecordInference.Proofs.Plan.Undeclared
import RecordInference.Proofs.Prompt.Description
import RecordInference.Proofs.Prompt.ExampleSet
import RecordInference.Proofs.Prompt.Occurrence
import RecordInference.Proofs.Response.Agreement
import RecordInference.Proofs.Response.Fence
import RecordInference.Proofs.Response.SingleField
import RecordInference.Proofs.Response.Undeclared
import RecordInference.Proofs.Response.Violations
import RecordInference.Proofs.Rule.Field
import RecordInference.Proofs.Rule.Lexeme
import RecordInference.Proofs.Rule.Literal
import RecordInference.Proofs.Run.Balance
import RecordInference.Proofs.Run.Conservation
import RecordInference.Proofs.Run.Fingerprint
import RecordInference.Proofs.Run.Flags
import RecordInference.Proofs.Run.Independence
import RecordInference.Proofs.Run.Influence
import RecordInference.Proofs.Run.LogFile
import RecordInference.Proofs.Run.Prompt
import RecordInference.Proofs.Run.Refusal
import RecordInference.Proofs.Schema.Correctness
import RecordInference.Proofs.Schema.Path
import RecordInference.Response.Validation
import RecordInference.Run.Rehearsal
import RecordInference.Schema.Resolution
