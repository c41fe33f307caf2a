import OmegaCheck.Channel
import OmegaCheck.Evaluator
import OmegaCheck.TransitionSystem.Execution
import OmegaCheck.TransitionSystem.Interleaving
import OmegaCheck.ProgramGraph.Interleaving
import OmegaCheck.ProgramGraph.Compilation
import OmegaCheck.ChannelSystem
import OmegaCheck.Datum
import OmegaCheck.Formula
import OmegaCheck.Circuit
import OmegaCheck.Verification
import OmegaCheck.Dot
import OmegaCheck.Proofs.Walk
import OmegaCheck.Proofs.Search
import OmegaCheck.Proofs.ShortestPath
import OmegaCheck.Proofs.Store
import OmegaCheck.Proofs.StateSpace
import OmegaCheck.Proofs.Product
import OmegaCheck.Proofs.Verification
import OmegaCheck.Proofs.ProgramGraph.Meaning
import OmegaCheck.Proofs.Exploration
import OmegaCheck.Proofs.Collecting
import OmegaCheck.Proofs.Program.Acceptance
import OmegaCheck.Proofs.Isomorphism
import OmegaCheck.Proofs.ProgramGraph.Store
import OmegaCheck.Proofs.ProgramGraph.Unfolding
import OmegaCheck.Proofs.Channel
import OmegaCheck.Proofs.ChannelSystem.Steps
import OmegaCheck.Proofs.ChannelSystem.Meaning
import OmegaCheck.Proofs.ProgramGraph.Interleaving
import OmegaCheck.Proofs.ChannelSystem.Interleaving
import OmegaCheck.Proofs.SideBySide
import OmegaCheck.Proofs.ProgramGraph.Names
import OmegaCheck.Proofs.ProgramGraph.Independence
import OmegaCheck.TransitionSystem.Store
import OmegaCheck.Proofs.TransitionStore
import OmegaCheck.Proofs.Interleaving
import OmegaCheck.Proofs.Program.Derivation
import OmegaCheck.Proofs.ProgramGraph.NormalForm
import OmegaCheck.Proofs.Feasibility
import OmegaCheck.Proofs.InterleavingLaws
import OmegaCheck.Proofs.ProductRuns
import OmegaCheck.Proofs.Relabelling
import OmegaCheck.Proofs.ChannelSystem.Order
import OmegaCheck.Proofs.StateLimit
import OmegaCheck.Proofs.Generators
import OmegaCheck.Proofs.Gate
import OmegaCheck.Proofs.Circuit
import OmegaCheck.Proofs.Program.Rereading
import OmegaCheck.Proofs.ChannelSystem.Queues
import OmegaCheck.Proofs.StoreQuery
import OmegaCheck.Proofs.Reach
import OmegaCheck.Proofs.Bindings
import OmegaCheck.Proofs.ProgramGraph.Labels
import OmegaCheck.Proofs.Hiding
import OmegaCheck.Proofs.Program.Exactness
import OmegaCheck.Proofs.ProgramGraph.Flow
import OmegaCheck.Proofs.Handshake
import OmegaCheck.Proofs.ProgramGraph.Edits
import OmegaCheck.Proofs.Dot
import OmegaCheck.Proofs.Formula
import OmegaCheck.Proofs.Program.Cutting
import OmegaCheck.Proofs.Program.Faults
import OmegaCheck.Proofs.Program.Slicing
import OmegaCheck.Proofs.Program.Coverage
