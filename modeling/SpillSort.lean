import SpillSort.Text.Hex
import SpillSort.Text.Decimal
import SpillSort.Text.Unprintable
import SpillSort.Text.Quoted
import SpillSort.Text.Blank
import SpillSort.Identifier
import SpillSort.Named
import SpillSort.Total
import SpillSort.Failure
import SpillSort.Memory.Forest
import SpillSort.Memory.Ledger
import SpillSort.Profile
import SpillSort.Fragment
import SpillSort.Data.Schema
import SpillSort.Data.Value
import SpillSort.Data.Batch
import SpillSort.Data.Chunk
import SpillSort.Data.HyperBatch
import SpillSort.Data.Holders
import SpillSort.Selection
import SpillSort.Spill.LittleEndian
import SpillSort.Spill.Codec
import SpillSort.Spill.Block
import SpillSort.Spill.Disk
import SpillSort.Spill.Directories
import SpillSort.Spill.Term
import SpillSort.Spill.Format
import SpillSort.Spill.Message
import SpillSort.Spill.File
import SpillSort.Spill.Damage
import SpillSort.Spill.Handles
import SpillSort.Journal
import SpillSort.Workspace
import SpillSort.Sort.Policy
import SpillSort.Sort.Options
import SpillSort.Sort.Key
import SpillSort.Sort.Stable
import SpillSort.Sort.InPlace
import SpillSort.Sort.Run
import SpillSort.Sort.Group
import SpillSort.Sort.Frontier
import SpillSort.Sort.Merger
import SpillSort.Sort.Spill
import SpillSort.Sort.GlobalMerge
import SpillSort.Sort.InMemory
import SpillSort.Sort.Input
import SpillSort.Sort.Operator
import SpillSort.Sort.Session
import SpillSort.Toml.Reader
import SpillSort.Toml.Quoted
import SpillSort.Toml.Number
import SpillSort.Toml.Value
import SpillSort.Toml.Document
import SpillSort.Settings
import SpillSort.Logging
import SpillSort.Host
import SpillSort.Proofs.StagingStates
import SpillSort.Proofs.Outputs
import SpillSort.Proofs.Leftovers
import SpillSort.Proofs.Replays
import SpillSort.Proofs.Affordability
import SpillSort.Proofs.Handouts
import SpillSort.Proofs.Aftermath
import SpillSort.Proofs.Cancellations
import SpillSort.Proofs.Priming
import SpillSort.Proofs.Reservations
import SpillSort.Proofs.Releases
import SpillSort.Proofs.RoundTrip
import SpillSort.Proofs.ResidentBytes
import SpillSort.Proofs.BrokenInputs
import SpillSort.Proofs.Counters
import SpillSort.Proofs.Blocks
import SpillSort.Proofs.Comparisons
import SpillSort.Proofs.MemoryBuilds
import SpillSort.Proofs.Histories
import SpillSort.Proofs.Slices
import SpillSort.Proofs.Snapshots
import SpillSort.Proofs.Guards
