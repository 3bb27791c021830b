import N3ur0n.Announcements
import N3ur0n.Audit
import N3ur0n.Auth.Admins
import N3ur0n.Auth.Logins
import N3ur0n.Auth.Passwords
import N3ur0n.Auth.Routes
import N3ur0n.Auth.Sessions
import N3ur0n.Auth.Store
import N3ur0n.Auth.Updates
import N3ur0n.Bindings.Http
import N3ur0n.Bindings.McpClient
import N3ur0n.Blobs.Agreement
import N3ur0n.Blobs.Classes
import N3ur0n.Blobs.FetchUrls
import N3ur0n.Blobs.Files
import N3ur0n.Blobs.Index
import N3ur0n.Blobs.Names
import N3ur0n.Blobs.Outputs
import N3ur0n.Blobs.Provisional
import N3ur0n.Blobs.Quota
import N3ur0n.Blobs.Readers
import N3ur0n.Blobs.Retention
import N3ur0n.Blobs.Routes
import N3ur0n.Blobs.SafeNames
import N3ur0n.Blobs.Ticket
import N3ur0n.Bootstrap
import N3ur0n.Chats.Coherence
import N3ur0n.Chats.Exclusion
import N3ur0n.Chats.Runtime
import N3ur0n.Chats.Stored
import N3ur0n.Conversation
import N3ur0n.Directory
import N3ur0n.Inbound
import N3ur0n.Lib.Firsts
import N3ur0n.Lib.Lru
import N3ur0n.Lib.Threads
import N3ur0n.Lib.Toml.Document
import N3ur0n.Manifests.Backends
import N3ur0n.Manifests.BaseUrl
import N3ur0n.Manifests.CapDocument
import N3ur0n.Manifests.CapFile
import N3ur0n.Manifests.CapRoundTrip
import N3ur0n.Manifests.CapTexts
import N3ur0n.Manifests.CapToml
import N3ur0n.Manifests.Documents
import N3ur0n.Manifests.Instance
import N3ur0n.Manifests.Live
import N3ur0n.Manifests.Lobes
import N3ur0n.Manifests.Published
import N3ur0n.Manifests.Registry
import N3ur0n.Manifests.Reload
import N3ur0n.Manifests.Settings
import N3ur0n.Manifests.Types
import N3ur0n.PeerRows
import N3ur0n.Planner.Cascade
import N3ur0n.Planner.Confluence
import N3ur0n.Planner.Delegation
import N3ur0n.Planner.Dispatch
import N3ur0n.Planner.Embeddings
import N3ur0n.Planner.FailFast
import N3ur0n.Planner.Ledger
import N3ur0n.Planner.LocalCompiler
import N3ur0n.Planner.Mention
import N3ur0n.Planner.MentionToken
import N3ur0n.Planner.Merge
import N3ur0n.Planner.Order
import N3ur0n.Planner.Parse
import N3ur0n.Planner.PeerMention
import N3ur0n.Planner.Quote
import N3ur0n.Planner.Ranked
import N3ur0n.Planner.Remote
import N3ur0n.Planner.Repeats
import N3ur0n.Planner.Retriever
import N3ur0n.Planner.Rounds
import N3ur0n.Planner.Scope
import N3ur0n.Planner.Spans
import N3ur0n.Planner.ToolNames
import N3ur0n.Planner.Tools
import N3ur0n.Planner.Window
import N3ur0n.Publication
import N3ur0n.Replay
import N3ur0n.Replies
import N3ur0n.Session
import N3ur0n.Wire
