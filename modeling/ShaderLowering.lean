import ShaderLowering.Assembly.Builder
import ShaderLowering.Construction.Race
import ShaderLowering.Construction.Script
import ShaderLowering.Lowering.Clients
import ShaderLowering.Lowering.Workers
import ShaderLowering.Proofs.Layout.CanonicalForm
import ShaderLowering.Proofs.Semantics.Preservation
import ShaderLowering.Proofs.Threads.Progress
import ShaderLowering.Proofs.Threads.Refusals
import ShaderLowering.Proofs.Modules.Schedules
import ShaderLowering.Proofs.Modules.Definitions
import ShaderLowering.Proofs.Modules.EntryPoints
import ShaderLowering.Proofs.Modules.Typing
import ShaderLowering.Proofs.Modules.Uniqueness
import ShaderLowering.Proofs.Sessions.Failures
import ShaderLowering.Proofs.Sessions.Termination
import ShaderLowering.Proofs.Offsets.Modules
import ShaderLowering.Proofs.Modules.Interface
import ShaderLowering.Proofs.Assembly.ReadBack
import ShaderLowering.Proofs.Sessions.Poisoning
import ShaderLowering.Proofs.Sessions.Repetition
import ShaderLowering.Proofs.Grammar.Sections
import ShaderLowering.Proofs.Layout.Codec
import ShaderLowering.Proofs.Lowering.Tails
import ShaderLowering.Proofs.Assembly.Arena
import ShaderLowering.Proofs.Layout.Unfolding
import ShaderLowering.Proofs.Layout.Traversal
import ShaderLowering.Proofs.Threads.Ring
import ShaderLowering.Proofs.Threads.Scripts
import ShaderLowering.Proofs.Sessions.Instances
import ShaderLowering.Proofs.Modules.Delimiters
import ShaderLowering.Proofs.Lowering.SlotTables
