import HeaderChain.Block
import HeaderChain.ChainError
import HeaderChain.Command.CommandLine
import HeaderChain.Command.Console
import HeaderChain.Command.Disk
import HeaderChain.Command.Host
import HeaderChain.Configuration
import HeaderChain.Draft
import HeaderChain.Draft.Changes
import HeaderChain.Draft.Commit
import HeaderChain.Encoding.Bytes
import HeaderChain.Encoding.CompactSize
import HeaderChain.Encoding.Cursor
import HeaderChain.Encoding.Hex
import HeaderChain.Encoding.Numeral
import HeaderChain.Encoding.Text
import HeaderChain.Files.FileFault
import HeaderChain.Files.Path
import HeaderChain.Hash
import HeaderChain.Hash.Merkle
import HeaderChain.Hash.Sha256
import HeaderChain.Header
import HeaderChain.Header.RawHeader
import HeaderChain.Header.Target
import HeaderChain.Json.Token
import HeaderChain.Json.Value
import HeaderChain.Ledger
import HeaderChain.Ledger.Event
import HeaderChain.Ledger.Query
import HeaderChain.Main
import HeaderChain.Network
import HeaderChain.Position
import HeaderChain.Proofs.Addition
import HeaderChain.Proofs.Adoption
import HeaderChain.Proofs.Agreement
import HeaderChain.Proofs.Ancestors
import HeaderChain.Proofs.Announcing
import HeaderChain.Proofs.Attaching
import HeaderChain.Proofs.Ballots
import HeaderChain.Proofs.Batching
import HeaderChain.Proofs.BestIndex
import HeaderChain.Proofs.Blocks
import HeaderChain.Proofs.Choosing
import HeaderChain.Proofs.ClaimedHeights
import HeaderChain.Proofs.Committing
import HeaderChain.Proofs.CompactSizes
import HeaderChain.Proofs.CompactTargets
import HeaderChain.Proofs.Contenders
import HeaderChain.Proofs.Exact
import HeaderChain.Proofs.Fitting
import HeaderChain.Proofs.Forest
import HeaderChain.Proofs.Founding
import HeaderChain.Proofs.Histories
import HeaderChain.Proofs.HistoryIndependence
import HeaderChain.Proofs.Incumbents
import HeaderChain.Proofs.Joining
import HeaderChain.Proofs.MerkleTrees
import HeaderChain.Proofs.Mutations
import HeaderChain.Proofs.Operating
import HeaderChain.Proofs.Outcomes
import HeaderChain.Proofs.Overlay
import HeaderChain.Proofs.Paths
import HeaderChain.Proofs.Performing
import HeaderChain.Proofs.Pinning
import HeaderChain.Proofs.Predicting
import HeaderChain.Proofs.ReachedStates
import HeaderChain.Proofs.Reading
import HeaderChain.Proofs.Reattaching
import HeaderChain.Proofs.Recasting
import HeaderChain.Proofs.Rechoosing
import HeaderChain.Proofs.Recognizing
import HeaderChain.Proofs.RecordForms
import HeaderChain.Proofs.Records
import HeaderChain.Proofs.Reorganizing
import HeaderChain.Proofs.Rewinding
import HeaderChain.Proofs.Route
import HeaderChain.Proofs.Showing
import HeaderChain.Proofs.Sifting
import HeaderChain.Proofs.Sound
import HeaderChain.Proofs.Staging
import HeaderChain.Proofs.Storing
import HeaderChain.Proofs.Syncing
import HeaderChain.Proofs.Tables
import HeaderChain.Proofs.Tampering
import HeaderChain.Proofs.Targets
import HeaderChain.Proofs.Tips
import HeaderChain.Proofs.Upgrading
import HeaderChain.Proofs.Writing
import HeaderChain.Selection
import HeaderChain.Selection.Candidate
import HeaderChain.Store
import HeaderChain.Store.Edge
import HeaderChain.Store.File
import HeaderChain.Store.Key
import HeaderChain.Store.Record
import HeaderChain.Trace
import HeaderChain.Tracker
