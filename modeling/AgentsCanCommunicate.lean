import AgentsCanCommunicate.Library.Table
import AgentsCanCommunicate.Library.Keyed
import AgentsCanCommunicate.Library.Run
import AgentsCanCommunicate.Library.Process
import AgentsCanCommunicate.Library.Leases
import AgentsCanCommunicate.Library.Search
import AgentsCanCommunicate.Library.Recent
import AgentsCanCommunicate.Library.Actors
import AgentsCanCommunicate.Library.Directories
import AgentsCanCommunicate.Library.Utf16
import AgentsCanCommunicate.Library.Paths
import AgentsCanCommunicate.Protocol.Ids
import AgentsCanCommunicate.Protocol.Fields
import AgentsCanCommunicate.Protocol.Resources
import AgentsCanCommunicate.Protocol.Paths
import AgentsCanCommunicate.Protocol.Config
import AgentsCanCommunicate.Protocol.Records
import AgentsCanCommunicate.Protocol.TransactionIndexes
import AgentsCanCommunicate.Core.Workspace
import AgentsCanCommunicate.Core.Sessions
import AgentsCanCommunicate.Core.Claims
import AgentsCanCommunicate.Core.Conversations
import AgentsCanCommunicate.Core.ClaimExclusivity
import AgentsCanCommunicate.Core.DecisionState
import AgentsCanCommunicate.Core.Inbox
import AgentsCanCommunicate.Core.Receipts
import AgentsCanCommunicate.Core.Changes
import AgentsCanCommunicate.Storage.ActiveJournal
import AgentsCanCommunicate.Storage.Journal
import AgentsCanCommunicate.Storage.System
import AgentsCanCommunicate.Storage.Ledger
import AgentsCanCommunicate.Storage.Holder
import AgentsCanCommunicate.Storage.CrashAtomicity
import AgentsCanCommunicate.Storage.Feed
import AgentsCanCommunicate.Storage.Visibility
import AgentsCanCommunicate.Storage.WriterMutex
import AgentsCanCommunicate.Core.Prune
import AgentsCanCommunicate.Core.PrunePrefix
import AgentsCanCommunicate.Core.Run
import AgentsCanCommunicate.Core.PruneReferences
import AgentsCanCommunicate.Core.Rejections
import AgentsCanCommunicate.Core.ReceiptLife
import AgentsCanCommunicate.Core.DecisionView
import AgentsCanCommunicate.Core.DecisionGroups
import AgentsCanCommunicate.Core.InboxScan
import AgentsCanCommunicate.Core.InboxPages
import AgentsCanCommunicate.Core.ReplyObligation
import AgentsCanCommunicate.Core.PruneDecisions
import AgentsCanCommunicate.Core.Processes
import AgentsCanCommunicate.Core.Promotion
import AgentsCanCommunicate.Core.Acts
import AgentsCanCommunicate.Core.Asides
import AgentsCanCommunicate.Core.Keeping
import AgentsCanCommunicate.Core.Told
import AgentsCanCommunicate.Core.DeliveryBindings
import AgentsCanCommunicate.Core.Attention
import AgentsCanCommunicate.Core.Notices
import AgentsCanCommunicate.Core.FinishRetries
import AgentsCanCommunicate.Core.Closing
import AgentsCanCommunicate.Core.Populated
import AgentsCanCommunicate.Core.Replies
import AgentsCanCommunicate.Core.Handoffs
import AgentsCanCommunicate.HookRunner.Guard
import AgentsCanCommunicate.ManagedRuntime.Mutex
import AgentsCanCommunicate.ManagedRuntime.MutexSafety
import AgentsCanCommunicate.AdapterAntigravity.Relay
import AgentsCanCommunicate.Library.Marker
import AgentsCanCommunicate.Adapters.Wakes
import AgentsCanCommunicate.Library.Trees
import AgentsCanCommunicate.Installer.Directories
import AgentsCanCommunicate.Installer.Restoring
import AgentsCanCommunicate.Installer.NativeActivation
import AgentsCanCommunicate.Library.Visits
import AgentsCanCommunicate.Library.InsertionMap
import AgentsCanCommunicate.Storage.TransactionView
import AgentsCanCommunicate.Storage.ExactTransactions
import AgentsCanCommunicate.Cli.SenderGrants
import AgentsCanCommunicate.ManagedRuntime.Maintenance
import AgentsCanCommunicate.ManagedRuntime.MaintenanceSafety
import AgentsCanCommunicate.Storage.StableReads
import AgentsCanCommunicate.Storage.DoomedDirectory
import AgentsCanCommunicate.Storage.Trimming
import AgentsCanCommunicate.Library.Marking
import AgentsCanCommunicate.Storage.IndexPages
import AgentsCanCommunicate.Storage.IndexReclaim
import AgentsCanCommunicate.Library.Sorting
import AgentsCanCommunicate.Library.Gathering
import AgentsCanCommunicate.ManagedRuntime.Blockers
import AgentsCanCommunicate.Library.Text
import AgentsCanCommunicate.AdapterSdk.TomlBlock
import AgentsCanCommunicate.Library.Decimal
import AgentsCanCommunicate.Storage.Retention
import AgentsCanCommunicate.Storage.Ephemeral
import AgentsCanCommunicate.AdapterSdk.ConfigMerge
import AgentsCanCommunicate.Library.Distinct
import AgentsCanCommunicate.AdapterSdk.ShellWrites
import AgentsCanCommunicate.AdapterSdk.ShellLines
import AgentsCanCommunicate.AdapterSdk.ShellQuoting
import AgentsCanCommunicate.AdapterSdk.ContextProjector
import AgentsCanCommunicate.AdapterSdk.ContextLines
import AgentsCanCommunicate.AdapterSdk.ContextBudget
import AgentsCanCommunicate.AdapterSdk.CommandLine
import AgentsCanCommunicate.AdapterAntigravity.RenderMessage
import AgentsCanCommunicate.Library.Framing
import AgentsCanCommunicate.AdapterCodex.PatchTargets
import AgentsCanCommunicate.AdapterCodex.Frames
import AgentsCanCommunicate.AdapterCodex.WebSocketPeer
import AgentsCanCommunicate.McpServer.LineServers
import AgentsCanCommunicate.Core.Owed
import AgentsCanCommunicate.AdapterCodex.BlockRewrite
import AgentsCanCommunicate.AdapterSdk.HeredocRounds
import AgentsCanCommunicate.AdapterSdk.NativeAgreement
import AgentsCanCommunicate.AdapterSdk.HookShim
import AgentsCanCommunicate.Installer.Ownership
import AgentsCanCommunicate.DeliveryRouter.Offers
import AgentsCanCommunicate.Library.Ends
import AgentsCanCommunicate.Library.Radix
import AgentsCanCommunicate.Storage.IndexTree
import AgentsCanCommunicate.Storage.IndexGroups
import AgentsCanCommunicate.Storage.IndexMultimap
import AgentsCanCommunicate.Storage.IndexRoots
