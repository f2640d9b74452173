import IceLog.Catalog.Identity
import IceLog.Cache.Order
import IceLog.Catalog.Invalidation
import IceLog.Catalog.Encoding
import IceLog.Server.Configuration
import IceLog.Server.Listings
import IceLog.Server.Mutations
import IceLog.Transaction.Cleanup
import IceLog.Transaction.Threads
import IceLog.Properties.Failures
import IceLog.Properties.Metadata
import IceLog.Properties.Pages
import IceLog.Properties.TransactionIds
import IceLog.Properties.Outcomes
import IceLog.Properties.TimeTravel
import IceLog.Properties.Collecting
import IceLog.Properties.Freshness
import IceLog.Properties.Coherence
import IceLog.Properties.Contents
import IceLog.Properties.Connections
import IceLog.Properties.Conflicts
import IceLog.Properties.FailedReads
import IceLog.Properties.SchemaHistory
import IceLog.Properties.Interference
import IceLog.Properties.Renaming
import IceLog.Properties.Resurrection
import IceLog.Properties.TableListing
import IceLog.Properties.NotFound
import IceLog.Properties.Validation
import IceLog.Properties.Aggregates
import IceLog.Properties.Balance
import IceLog.Properties.SchemaUpdates
import IceLog.Properties.Acknowledged
import IceLog.Properties.Ancestors
import IceLog.Properties.SnapshotLists
import IceLog.Properties.Deadlock
import IceLog.Properties.Processes
import IceLog.Properties.Serializability
import IceLog.Properties.Durability
import IceLog.Properties.Quiescence
import IceLog.Properties.Visibility
import IceLog.Properties.Specification
import IceLog.Properties.Responses
import IceLog.Properties.ReadPoints
import IceLog.Properties.Retention
