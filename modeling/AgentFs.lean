import AgentFs.Context
import AgentFs.Db
import AgentFs.Drive.Canonical
import AgentFs.Drive.Law
import AgentFs.Drive.Mentions
import AgentFs.Drive.Threads
import AgentFs.Favorites.Law
import AgentFs.Favorites.PathKind
import AgentFs.Favorites.Stars
import AgentFs.Fuse.Inodes
import AgentFs.Fuse.Mount
import AgentFs.Fuse.Timestamps
import AgentFs.Fuse.Truncate
import AgentFs.Fuse.WorkingCopy
import AgentFs.Identity.Access
import AgentFs.Identity.Directory
import AgentFs.Identity.GrantedKeys
import AgentFs.Identity.InviteAccept
import AgentFs.Identity.InviteLifecycle
import AgentFs.Identity.Invites
import AgentFs.Identity.Isolation
import AgentFs.Identity.LastAdmin
import AgentFs.Identity.Members
import AgentFs.Identity.System
import AgentFs.Ipc.Client
import AgentFs.Ipc.Drives
import AgentFs.Ipc.Frames
import AgentFs.JustBash.Coherence
import AgentFs.JustBash.Conserve
import AgentFs.JustBash.Copy
import AgentFs.JustBash.Drive
import AgentFs.JustBash.FileSystem
import AgentFs.JustBash.Reads
import AgentFs.JustBash.Remove
import AgentFs.JustBash.RequestCache
import AgentFs.Lib.Async
import AgentFs.Lib.Base64
import AgentFs.Lib.Calendar
import AgentFs.Lib.Distinct
import AgentFs.Lib.EditScript
import AgentFs.Lib.Forest
import AgentFs.Lib.Fueled
import AgentFs.Lib.Incremental
import AgentFs.Lib.Keyset
import AgentFs.Lib.Like
import AgentFs.Lib.Listeners
import AgentFs.Lib.Matches
import AgentFs.Lib.Numbered
import AgentFs.Lib.OrderedMap
import AgentFs.Lib.Paired
import AgentFs.Lib.PrefixRange
import AgentFs.Lib.RegExp
import AgentFs.Lib.Rely
import AgentFs.Lib.SlidingWindow
import AgentFs.Lib.Solo
import AgentFs.Lib.Split
import AgentFs.Lib.Sql
import AgentFs.Lib.SqlLexer
import AgentFs.Lib.Subsequence
import AgentFs.Lib.Table
import AgentFs.Lib.Update
import AgentFs.Lib.Utf8
import AgentFs.Live.CommentAnchor
import AgentFs.Live.ImageCache
import AgentFs.Live.LineRemap
import AgentFs.Live.Outline
import AgentFs.Live.PresenceConnectionLaw
import AgentFs.Live.PresencePosition
import AgentFs.Live.PresenceTab
import AgentFs.Live.PresenceTabLaw
import AgentFs.Live.Sse
import AgentFs.Live.UploadLaw
import AgentFs.Live.Uploads
import AgentFs.Markdown.Links
import AgentFs.Migrations.PathCompleteness
import AgentFs.Migrations.PathMerge
import AgentFs.Migrations.PathNormalization
import AgentFs.Migrations.Reconcile
import AgentFs.Ops.Agreement
import AgentFs.Ops.Blobs
import AgentFs.Ops.CommentNotification
import AgentFs.Ops.Comments
import AgentFs.Ops.CompareAndSwap
import AgentFs.Ops.ConsistentRead
import AgentFs.Ops.Content
import AgentFs.Ops.Edit
import AgentFs.Ops.Files
import AgentFs.Ops.Find
import AgentFs.Ops.Glob
import AgentFs.Ops.GlobCache
import AgentFs.Ops.History
import AgentFs.Ops.Law
import AgentFs.Ops.Move
import AgentFs.Ops.Order
import AgentFs.Ops.Protocol
import AgentFs.Ops.Revert
import AgentFs.Ops.Solo
import AgentFs.Ops.Tree
import AgentFs.Ops.Utf8
import AgentFs.Ops.Versioning
import AgentFs.Paths
import AgentFs.Presence.Calls
import AgentFs.Presence.ClientView
import AgentFs.Presence.Law
import AgentFs.Presence.Registry
import AgentFs.Presence.StreamLaw
import AgentFs.Presence.StreamRuns
import AgentFs.Presence.Streams
import AgentFs.RawFiles.Escapes
import AgentFs.RawFiles.Url
import AgentFs.Search.Candidates
import AgentFs.Search.Chunker
import AgentFs.Search.Chunks
import AgentFs.Search.EmbeddingMigration
import AgentFs.Search.FtsMigration
import AgentFs.Search.Hybrid
import AgentFs.Search.Images
import AgentFs.Search.Index
import AgentFs.Search.Law
import AgentFs.Search.Operations
import AgentFs.Search.Order
import AgentFs.Search.PathScope
import AgentFs.Search.Pipeline
import AgentFs.Search.Ranking
import AgentFs.Search.Semaphore
import AgentFs.Search.System
import AgentFs.Search.Tables
import AgentFs.Search.VersionGuard
import AgentFs.Server.RateLimit
import AgentFs.Share.Accounting
import AgentFs.Share.Active
import AgentFs.Share.Law
import AgentFs.Share.Links
import AgentFs.Share.MarkdownEscaping
import AgentFs.Share.MarkdownIds
import AgentFs.Share.MarkdownPlaceholders
import AgentFs.Share.MarkdownRender
import AgentFs.Share.MarkdownRestored
import AgentFs.Share.MarkdownSlots
import AgentFs.Share.MarkdownSource
import AgentFs.Share.Presigned
import AgentFs.Share.Preview
import AgentFs.Share.Prose
import AgentFs.Share.Routes
import AgentFs.Share.Site
import AgentFs.Sql.Columns
import AgentFs.Sql.PathLiterals
import AgentFs.Storage.Adapter
import AgentFs.Storage.Keys
import AgentFs.Webhooks.AddressForms
import AgentFs.Webhooks.AddressVerdicts
import AgentFs.Webhooks.Addresses
import AgentFs.Webhooks.Deliveries
import AgentFs.Webhooks.DeliveryCursor
import AgentFs.Webhooks.Disable
import AgentFs.Webhooks.Egress
import AgentFs.Webhooks.Events
import AgentFs.Webhooks.Exactness
import AgentFs.Webhooks.GuardedFetch
import AgentFs.Webhooks.Lease
import AgentFs.Webhooks.Outbox
import AgentFs.Webhooks.Prefixes
import AgentFs.Webhooks.Retry
import AgentFs.Webhooks.Rows
import AgentFs.Webhooks.SecretKey
import AgentFs.Webhooks.SecretKeyLaw
import AgentFs.Webhooks.Signature
import AgentFs.Webhooks.Stranded
import AgentFs.Webhooks.Subscriptions
import AgentFs.Webhooks.System
import AgentFs.Webhooks.Worker
