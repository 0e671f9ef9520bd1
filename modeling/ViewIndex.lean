import ViewIndex.CommandLine.MemoryDisk
import ViewIndex.Feed.Recorded
import ViewIndex.Main
import ViewIndex.Proofs.Lists
import ViewIndex.Proofs.Key.ByteOrder
import ViewIndex.Proofs.Key.Collation
import ViewIndex.Proofs.Tree.Balance
import ViewIndex.Proofs.Tree.Edit
import ViewIndex.Proofs.Tree.Build
import ViewIndex.Proofs.Tree.Check
import ViewIndex.Proofs.Tree.Listing
import ViewIndex.Proofs.Store.Contents
import ViewIndex.Proofs.Store.Refinement
import ViewIndex.Proofs.Feed.Log
import ViewIndex.Proofs.Feed.Shared
import ViewIndex.Proofs.Indexer.Evaluate
import ViewIndex.Proofs.Indexer.Reading
import ViewIndex.Proofs.Indexer.Currency
import ViewIndex.Proofs.Indexer.Following
import ViewIndex.Proofs.Storage.Codec
import ViewIndex.Proofs.Storage.Frames
import ViewIndex.Proofs.Storage.Directory
import ViewIndex.Proofs.Storage.Layout
import ViewIndex.Proofs.Storage.Operations
import ViewIndex.Proofs.Storage.Grouping
import ViewIndex.Proofs.Storage.Rereading
import ViewIndex.Proofs.Storage.Recovery
import ViewIndex.Proofs.Storage.Sessions
import ViewIndex.Proofs.Storage.Crashes
import ViewIndex.Proofs.Key.Spelling
import ViewIndex.Proofs.Key.Decoding
import ViewIndex.Proofs.Key.Prefixes
import ViewIndex.Proofs.Key.Numbers
import ViewIndex.Proofs.Key.Shown
import ViewIndex.Proofs.Tree.Counting
import ViewIndex.Proofs.Tree.Reducing
import ViewIndex.Proofs.Tree.Grouping
import ViewIndex.Proofs.Tree.GroupPages
import ViewIndex.Proofs.Query.Pages
import ViewIndex.Proofs.Query.Selection
import ViewIndex.Proofs.Query.Answers
import ViewIndex.Proofs.Query.Grouping
import ViewIndex.Proofs.Storage.Damage
import ViewIndex.Proofs.Storage.Tears
import ViewIndex.Proofs.Indexer.Storing
import ViewIndex.Proofs.Indexer.Restarts
import ViewIndex.Proofs.Query.Cutting
import ViewIndex.Proofs.Query.Resuming
import ViewIndex.Proofs.Query.Paging
import ViewIndex.Proofs.Query.GroupPaging
import ViewIndex.Proofs.Storage.Images
import ViewIndex.Proofs.Storage.Discarding
import ViewIndex.Proofs.Storage.Journal
import ViewIndex.Proofs.Indexer.Settling
import ViewIndex.Proofs.Indexer.Publishing
import ViewIndex.Proofs.Indexer.Filing
import ViewIndex.Proofs.Indexer.Agreement
import ViewIndex.Proofs.Feed.Replay
import ViewIndex.Proofs.Feed.Revisions
import ViewIndex.Proofs.Indexer.Progress
import ViewIndex.Proofs.Indexer.Delivery
import ViewIndex.Proofs.Indexer.Repairing
import ViewIndex.Proofs.Query.Accounting
import ViewIndex.Proofs.Key.Canonical
import ViewIndex.Proofs.Store.Overflow
import ViewIndex.Proofs.Key.Orderable
import ViewIndex.Proofs.Indexer.Tallies
import ViewIndex.Proofs.Indexer.Writing
import ViewIndex.Proofs.View.Signature
import ViewIndex.Proofs.Query.Choices
import ViewIndex.Proofs.Query.Combinations
import ViewIndex.Proofs.CommandLine.Documents
import ViewIndex.Proofs.Storage.Alterations
import ViewIndex.Proofs.Query.Lookup
