import WordMachine.Files.Folder
import WordMachine.Main
import WordMachine.Proofs.Isa.Codec
import WordMachine.Proofs.Isa.Decoding
import WordMachine.Proofs.Source.Operand
import WordMachine.Proofs.Text.Words
import WordMachine.Proofs.Source.Listing
import WordMachine.Proofs.Source.NamedListing
import WordMachine.Proofs.Source.Diagnosis
import WordMachine.Proofs.Source.Insertion
import WordMachine.Proofs.Machine.Fetch
import WordMachine.Proofs.Machine.LineMachine
import WordMachine.Proofs.Machine.Simulation
import WordMachine.Proofs.Machine.LabelJump
import WordMachine.Proofs.Machine.Refusal
import WordMachine.Proofs.Machine.Limit
import WordMachine.Proofs.Machine.Invariant
import WordMachine.Proofs.Machine.Landing
import WordMachine.Proofs.Machine.Relisting
import WordMachine.Proofs.Machine.Safety
import WordMachine.Proofs.Machine.Transparency
import WordMachine.Proofs.Flow.Closure
import WordMachine.Proofs.Flow.Coverage
import WordMachine.Proofs.Flow.Reachability
import WordMachine.Proofs.Flow.Blocks
import WordMachine.Proofs.Flow.BlockGraph
import WordMachine.Proofs.Machine.Observation
import WordMachine.Proofs.Machine.Slicing
import WordMachine.Proofs.Source.Canonical
import WordMachine.Proofs.Flow.Unreached
import WordMachine.Proofs.Files.Lawful
import WordMachine.Proofs.Tool.Work
import WordMachine.Proofs.Tool.Overwriting
import WordMachine.Proofs.Source.Reference
import WordMachine.Proofs.Json.Spelling
import WordMachine.Proofs.Tool.SymbolFile
import WordMachine.Proofs.Flow.Reports
import WordMachine.Proofs.Machine.Reports
import WordMachine.Proofs.Tool.Analysis
import WordMachine.Proofs.Tool.Running
import WordMachine.Proofs.Machine.History
import WordMachine.Proofs.Machine.Comparison
import WordMachine.Proofs.Machine.Nesting
import WordMachine.Proofs.Machine.Bytewise
import WordMachine.Proofs.Source.Grammar
import WordMachine.Proofs.Source.NamedLine
import WordMachine.Proofs.Machine.Interruption
import WordMachine.Proofs.Machine.Renaming
import WordMachine.Proofs.Source.Layout
import WordMachine.Proofs.Source.Relocation
import WordMachine.Proofs.Flow.Entries
import WordMachine.Proofs.Flow.Budget
import WordMachine.Proofs.Flow.Lines
import WordMachine.Proofs.Flow.Ranges
import WordMachine.Proofs.Tool.Addresses
import WordMachine.Proofs.Tool.Ranges
import WordMachine.Proofs.Machine.Memory
