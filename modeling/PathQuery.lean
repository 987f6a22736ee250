import PathQuery.Main
import PathQuery.Query.Eval
import PathQuery.Host.Tracing
import PathQuery.Proofs.Induction
import PathQuery.Proofs.Slots
import PathQuery.Proofs.Hygiene
import PathQuery.Proofs.Simulation
import PathQuery.Proofs.Checked
import PathQuery.Proofs.Meaning
import PathQuery.Proofs.Correctness
import PathQuery.Proofs.Safety
import PathQuery.Proofs.Defects
import PathQuery.Proofs.Parts
import PathQuery.Proofs.Registers
import PathQuery.Proofs.Spelling
import PathQuery.Proofs.Interchange
import PathQuery.Proofs.Decimals
import PathQuery.Proofs.Names
import PathQuery.Proofs.Literals
import PathQuery.Proofs.Alike
import PathQuery.Proofs.Forests
import PathQuery.Proofs.Readability
import PathQuery.Proofs.Source
import PathQuery.Proofs.KeyOrder
import PathQuery.Proofs.ShortCircuit
import PathQuery.Proofs.FirstCall
import PathQuery.Proofs.Paths
import PathQuery.Proofs.Equality
import PathQuery.Proofs.Grammar
import PathQuery.Proofs.Lossless
import PathQuery.Proofs.Lines
import PathQuery.Proofs.Rounding
import PathQuery.Proofs.Conversion
import PathQuery.Proofs.Transitivity
import PathQuery.Proofs.Depth
import PathQuery.Proofs.FreshNames
import PathQuery.Proofs.Constructs
import PathQuery.Proofs.Slices
import PathQuery.Proofs.CodeSize
import PathQuery.Proofs.SlotTable
import PathQuery.Proofs.Renumbering
import PathQuery.Proofs.MovedCode
import PathQuery.Proofs.Relocation
import PathQuery.Proofs.Stages
