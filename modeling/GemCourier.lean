import GemCourier.Main
import GemCourier.Proofs.Disk.Deeds
import GemCourier.Proofs.Host.Directory
import GemCourier.Proofs.Remote.Entries
import GemCourier.Proofs.Remote.Accounts
import GemCourier.Proofs.Remote.Confinement
import GemCourier.Proofs.Disk.WellFormed
import GemCourier.Proofs.Path.Relative
import GemCourier.Proofs.Sync.Enumeration
import GemCourier.Proofs.Sync.Copying
import GemCourier.Proofs.Sync.Destinations
import GemCourier.Proofs.Disk.Ways
import GemCourier.Proofs.Sync.Pass
import GemCourier.Proofs.Disk.Opening
import GemCourier.Proofs.Sync.Snapshots
import GemCourier.Proofs.Sync.Apart
import GemCourier.Proofs.Sync.Moments
import GemCourier.Proofs.Sync.Edits
import GemCourier.Proofs.Sync.Beside
import GemCourier.Proofs.Sync.Following
import GemCourier.Proofs.Sync.Watching
import GemCourier.Proofs.Sync.Changes
import GemCourier.Proofs.Sync.Mapping
import GemCourier.Proofs.Sync.Reporting
import GemCourier.Proofs.Sync.Racing
import GemCourier.Proofs.Sync.Polling
import GemCourier.Proofs.Disk.Entering
import GemCourier.Proofs.Host.Ensuring
import GemCourier.Proofs.Host.Delivery
import GemCourier.Proofs.Remote.Naming
import GemCourier.Proofs.Remote.Carrying
import GemCourier.Proofs.Remote.Mirror
import GemCourier.Proofs.Remote.Alone
import GemCourier.Proofs.Remote.Isolation
import GemCourier.Proofs.Disk.Meeting
import GemCourier.Proofs.Sync.Again
import GemCourier.Proofs.Sync.Settling
import GemCourier.Proofs.Disk.Moving
import GemCourier.Proofs.Path.Ending
import GemCourier.Proofs.Release.Replacement
import GemCourier.Proofs.Commands.Update
import GemCourier.Proofs.Commands.Destination
import GemCourier.Proofs.Bytecode.Installing
import GemCourier.Proofs.Host.Clearing
import GemCourier.Proofs.Commands.Workspace
import GemCourier.Proofs.Disk.Twins
import GemCourier.Proofs.Host.Matching
import GemCourier.Proofs.Bytecode.Twins
import GemCourier.Proofs.Commands.Leftovers
import GemCourier.Proofs.Remote.Addresses
import GemCourier.Proofs.Host.Adding
import GemCourier.Proofs.Remote.Requests
import GemCourier.Proofs.Commands.Assets
import GemCourier.Proofs.Commands.Adding
import GemCourier.Proofs.Commands.Notice
import GemCourier.Proofs.CommandLine.Lines
import GemCourier.Proofs.Project.Settings
import GemCourier.Proofs.Host.Founding
import GemCourier.Proofs.Sync.Coverage
import GemCourier.Proofs.Sync.Quiet
import GemCourier.Proofs.Bytecode.Pairs
import GemCourier.Proofs.Bytecode.Collisions
import GemCourier.Proofs.Release.Versions
import GemCourier.Proofs.Release.Spelled
import GemCourier.Proofs.Bytecode.Targets
import GemCourier.Proofs.Sync.Keeping
import GemCourier.Proofs.Bytecode.Isolation
import GemCourier.Proofs.Remote.Levels
import GemCourier.Proofs.Remote.Depth
import GemCourier.Proofs.Disk.Folding
import GemCourier.Proofs.Sync.Nesting
import GemCourier.Proofs.Sync.Answers
import GemCourier.Proofs.Project.Entries
import GemCourier.Proofs.Remote.Siblings
