import PagedStorage.Page.Search
import PagedStorage.PageFile.Chain
import PagedStorage.Heap.Overflow
import PagedStorage.Cli.Run
import PagedStorage.Main
import PagedStorage.Proofs.Page.Entries
import PagedStorage.Proofs.Page.Layout
import PagedStorage.Proofs.Page.Decoding
import PagedStorage.Proofs.Page.Placing
import PagedStorage.Proofs.Page.Editing
import PagedStorage.Proofs.Page.RecordMap
import PagedStorage.Proofs.Page.Runs
import PagedStorage.Proofs.Page.Reuse
import PagedStorage.Proofs.Page.Admission
import PagedStorage.Proofs.Page.Searching
import PagedStorage.Proofs.Page.Listing
import PagedStorage.Proofs.Page.Accounting
import PagedStorage.Proofs.Page.Erasure
import PagedStorage.Proofs.Page.Untrusted
import PagedStorage.Proofs.Page.Format
import PagedStorage.Proofs.Replacement.Lawful
import PagedStorage.Proofs.Replacement.Links
import PagedStorage.Proofs.Replacement.Recency
import PagedStorage.Proofs.Replacement.Calls
import PagedStorage.Proofs.Replacement.Queue
import PagedStorage.Proofs.Replacement.SecondChance
import PagedStorage.Proofs.PageFile.Stored
import PagedStorage.Proofs.PageFile.Calls
import PagedStorage.Proofs.PageFile.PageMap
import PagedStorage.Proofs.PageFile.Opening
import PagedStorage.Proofs.PageFile.Index
import PagedStorage.Proofs.PageFile.HandingOut
import PagedStorage.Proofs.PageFile.Reopening
import PagedStorage.Proofs.PageFile.Gaps
import PagedStorage.Proofs.PageFile.Serving
import PagedStorage.Proofs.PageFile.Chains
import PagedStorage.Proofs.PageFile.ChainWalks
import PagedStorage.Proofs.PageFile.LinkedPages
import PagedStorage.Proofs.PageFile.Ids
import PagedStorage.Proofs.Pool.Moves
import PagedStorage.Proofs.Pool.Bookkeeping
import PagedStorage.Proofs.Pool.Calls
import PagedStorage.Proofs.Pool.Accounts
import PagedStorage.Proofs.Pool.Candidates
import PagedStorage.Proofs.Pool.Transparency
import PagedStorage.Proofs.Pool.Users
import PagedStorage.Proofs.Pool.Errands
import PagedStorage.Proofs.Pool.Pins
import PagedStorage.Proofs.Pool.Readiness
import PagedStorage.Proofs.Pool.FailedDeletes
import PagedStorage.Proofs.Pool.Appearing
import PagedStorage.Proofs.Pool.LastId
import PagedStorage.Proofs.Pool.Settled
import PagedStorage.Proofs.Pool.HandingOut
import PagedStorage.Proofs.Pool.Tidiness
import PagedStorage.Proofs.Heap.Cutting
import PagedStorage.Proofs.Heap.Calls
import PagedStorage.Proofs.Heap.Records
import PagedStorage.Proofs.Heap.Walks
import PagedStorage.Proofs.Heap.Seeing
import PagedStorage.Proofs.Heap.Chains
import PagedStorage.Proofs.Heap.StoringInFull
import PagedStorage.Proofs.Heap.Leftovers
import PagedStorage.Proofs.Heap.Pins
import PagedStorage.Proofs.Heap.ChainReaders
import PagedStorage.Proofs.Heap.ChainRuns
import PagedStorage.Proofs.Heap.PartialDeletes
import PagedStorage.Proofs.Heap.ChainGrowth
import PagedStorage.Proofs.Heap.Reopening
import PagedStorage.Proofs.Text.Utf8
import PagedStorage.Proofs.Store.Directories
import PagedStorage.Proofs.Cli.Contents
import PagedStorage.Proofs.Cli.Commands
import PagedStorage.Proofs.Cli.Session
import PagedStorage.Proofs.Cli.LongRecords
