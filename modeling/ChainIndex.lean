import ChainIndex.Proofs.Filter.Comparisons
import ChainIndex.Proofs.Filter.Echo
import ChainIndex.Proofs.Http.ListRequests
import ChainIndex.Proofs.Http.PageLimits
import ChainIndex.Proofs.Listing.Chain
import ChainIndex.Proofs.Listing.PointReads
import ChainIndex.Proofs.Listing.Retention
import ChainIndex.Proofs.Listing.Session
import ChainIndex.Proofs.Listing.Tokens
import ChainIndex.Proofs.Listing.Turning
import ChainIndex.Proofs.Listing.Walk
import ChainIndex.Proofs.Reconcile.Atomicity
import ChainIndex.Proofs.Reconcile.BurnAccounts
import ChainIndex.Proofs.Reconcile.DisjointBurns
import ChainIndex.Proofs.Reconcile.Ordinals
import ChainIndex.Proofs.Reconcile.SwapHistory
import ChainIndex.Proofs.Reconcile.SwapListing
import ChainIndex.Proofs.Reconcile.SwapOutcomes
import ChainIndex.Proofs.Reconcile.SwapRedelivery
import ChainIndex.Proofs.Record.Drafts
import ChainIndex.Proofs.Record.Dust
import ChainIndex.Proofs.Record.KeySpelling
import ChainIndex.Proofs.Record.Rows
import ChainIndex.Proofs.Store.Table
import ChainIndex.Record.Row
import ChainIndex.Store.ClosedPool
