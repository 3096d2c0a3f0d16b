import ArithCircuit.Circuit.Json
import ArithCircuit.Circuit.Render
import ArithCircuit.Evaluation
import ArithCircuit.Formula
import ArithCircuit.Gadget.Sort
import ArithCircuit.Pipeline.Json
import ArithCircuit.Pipeline.Run
import ArithCircuit.Proofs.Collections
import ArithCircuit.Proofs.Steps
import ArithCircuit.Proofs.Denotation
import ArithCircuit.Proofs.Schedule
import ArithCircuit.Proofs.Evaluation
import ArithCircuit.Proofs.Pairing
import ArithCircuit.Proofs.Depth
import ArithCircuit.Proofs.Equality
import ArithCircuit.Proofs.Chain
import ArithCircuit.Proofs.Refinement
import ArithCircuit.Proofs.Rewriting
import ArithCircuit.Proofs.Needs
import ArithCircuit.Proofs.Likeness
import ArithCircuit.Proofs.Joining
import ArithCircuit.Proofs.Cuts
import ArithCircuit.Proofs.Uses
import ArithCircuit.Proofs.Weaving
import ArithCircuit.Proofs.Products
import ArithCircuit.Proofs.Trades
import ArithCircuit.Proofs.Gathering
import ArithCircuit.Proofs.Balance
import ArithCircuit.Proofs.Factor
import ArithCircuit.Proofs.Expand
import ArithCircuit.Proofs.Reachable
import ArithCircuit.Proofs.Merge
import ArithCircuit.Proofs.Canonical
import ArithCircuit.Proofs.Pipeline
import ArithCircuit.Proofs.Shallow
import ArithCircuit.Proofs.Wires
import ArithCircuit.Proofs.Building
import ArithCircuit.Proofs.Bits
import ArithCircuit.Proofs.Logic
import ArithCircuit.Proofs.Weight
import ArithCircuit.Proofs.Rank
import ArithCircuit.Proofs.Sort
import ArithCircuit.Proofs.Lifts
import ArithCircuit.Proofs.Alike
import ArithCircuit.Proofs.Network
import ArithCircuit.Proofs.Slots
import ArithCircuit.Proofs.Packed
import ArithCircuit.Proofs.SumOfProducts
import ArithCircuit.Proofs.Inputs
import ArithCircuit.Proofs.Adder
import ArithCircuit.Proofs.Operands
import ArithCircuit.Proofs.Guards
import ArithCircuit.Proofs.Refusal
import ArithCircuit.Proofs.Growth
import ArithCircuit.Proofs.Calls
import ArithCircuit.Proofs.Safety
import ArithCircuit.Proofs.Operators
import ArithCircuit.Proofs.Workbench
import ArithCircuit.Proofs.Decimals
import ArithCircuit.Proofs.Reading
import ArithCircuit.Proofs.Names
import ArithCircuit.Proofs.Outputs
import ArithCircuit.Proofs.Minimal
import ArithCircuit.Proofs.Appended
import ArithCircuit.Proofs.Layers
import ArithCircuit.Proofs.Leaves
import ArithCircuit.Proofs.Optimal
import ArithCircuit.Proofs.Sharing
import ArithCircuit.Proofs.Fabric
import ArithCircuit.Proofs.Flattening
import ArithCircuit.Proofs.Serialization
import ArithCircuit.Proofs.WorkStack
import ArithCircuit.Proofs.Marking
import ArithCircuit.Proofs.Counting
import ArithCircuit.Proofs.Naturality
import ArithCircuit.Proofs.Paths
import ArithCircuit.Proofs.Verdicts
import ArithCircuit.Proofs.Integers
import ArithCircuit.Proofs.Distribution
import ArithCircuit.Proofs.Construction
import ArithCircuit.Proofs.PairStack
import ArithCircuit.Proofs.Loops
import ArithCircuit.Proofs.ChainCache
import ArithCircuit.Proofs.Termination
import ArithCircuit.Proofs.Rendering
import ArithCircuit.Proofs.Occurrences
import ArithCircuit.Proofs.Matching
import ArithCircuit.Proofs.Prediction
