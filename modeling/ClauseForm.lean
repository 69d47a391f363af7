import ClauseForm.Main
import ClauseForm.Numbered
import ClauseForm.Semantics
import ClauseForm.Proofs.Known
import ClauseForm.Proofs.Semantics
import ClauseForm.Proofs.Negation
import ClauseForm.Proofs.Standardized
import ClauseForm.Proofs.Alpha
import ClauseForm.Proofs.Prenex
import ClauseForm.Proofs.Skolemized
import ClauseForm.Proofs.Closure
import ClauseForm.Proofs.Conjunctive
import ClauseForm.Proofs.Extraction
import ClauseForm.Proofs.ClauseCount
import ClauseForm.Proofs.Limits
import ClauseForm.Proofs.Stages
import ClauseForm.Proofs.Run
import ClauseForm.Proofs.Soundness
import ClauseForm.Proofs.Satisfiability
import ClauseForm.Proofs.ClauseLimit
import ClauseForm.Proofs.Completion
import ClauseForm.Proofs.OpenFormulas
import ClauseForm.Proofs.Standardization
import ClauseForm.Proofs.Quantifiers
import ClauseForm.Proofs.Replacement
import ClauseForm.Proofs.Supply
import ClauseForm.Proofs.SymbolMaps
import ClauseForm.Proofs.Threads
import ClauseForm.Proofs.Equivariance
import ClauseForm.Proofs.Renumbering
import ClauseForm.Proofs.Separation
import ClauseForm.Proofs.Turns
import ClauseForm.Proofs.Atoms
import ClauseForm.Proofs.Apartness
import ClauseForm.Proofs.WitnessTerms
import ClauseForm.Proofs.Variants
import ClauseForm.Proofs.Independence
import ClauseForm.Proofs.Interruption
import ClauseForm.Proofs.Calls
import ClauseForm.Proofs.Histories
import ClauseForm.Proofs.GeneratedNames
import ClauseForm.Proofs.Observation
import ClauseForm.Proofs.Timing
import ClauseForm.Proofs.Idempotence
import ClauseForm.Proofs.PrintedSymbols
import ClauseForm.Proofs.NamedForms
import ClauseForm.Proofs.JsonTexts
import ClauseForm.Proofs.Decoding
import ClauseForm.Proofs.NamedDocuments
import ClauseForm.Proofs.NumberedDocuments
import ClauseForm.Proofs.Distribution
import ClauseForm.Proofs.NegationSteps
import ClauseForm.Proofs.Relays
import ClauseForm.Proofs.Writers
import ClauseForm.Proofs.Traces
import ClauseForm.Proofs.Building
import ClauseForm.Proofs.Operands
import ClauseForm.Proofs.Renamings
import ClauseForm.Proofs.Growth
import ClauseForm.Proofs.Profiles
import ClauseForm.Proofs.Tautologies
import ClauseForm.Proofs.Recounts
import ClauseForm.Proofs.Instances
import ClauseForm.Proofs.TermDepth
import ClauseForm.Proofs.Legibility
import ClauseForm.Proofs.DisplayedTexts
import ClauseForm.Proofs.Arities
import ClauseForm.Proofs.ClauseDocuments
