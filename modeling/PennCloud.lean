import PennCloud.Text
import PennCloud.Pattern
import PennCloud.UnorderedMap
import PennCloud.FileTree
import PennCloud.Runs
import PennCloud.KvInterface
import PennCloud.ChunkFiles
import PennCloud.KvCache
import PennCloud.CacheSync
import PennCloud.KvStore
import PennCloud.LogReplay
import PennCloud.CacheSteps
import PennCloud.LiveLog
import PennCloud.Acknowledgement
import PennCloud.ChunkFormat
import PennCloud.ChunkFolder
import PennCloud.ChunkOverlay
import PennCloud.NodeDisk
import PennCloud.StoreView
import PennCloud.LiveNode
import PennCloud.Durability
import PennCloud.ReadPaths
import PennCloud.Replication
import PennCloud.FirstMatch
import PennCloud.Monitor
import PennCloud.BackendLists
import PennCloud.PrimaryRouting
import PennCloud.Login
import PennCloud.LogDecoding
import PennCloud.FullSync
import PennCloud.ChunkHistory
import PennCloud.Footprint
import PennCloud.Counters
import PennCloud.Dialogue
import PennCloud.StorageMetadata
import PennCloud.StorageHandler
import PennCloud.HandlerObjects
import PennCloud.StorageCommit
import PennCloud.Interleaving
import PennCloud.ChunkCrash
import PennCloud.CrashSafety
import PennCloud.Roles
import PennCloud.Succession
import PennCloud.MasterProtocol
import PennCloud.ActingPrimary
import PennCloud.Framing
import PennCloud.TcpOperation
import PennCloud.Mailbox
import PennCloud.Smtp
import PennCloud.EmailReply
import PennCloud.MailSessions
import PennCloud.Numbering
import PennCloud.MailDelivery
import PennCloud.MailRemoval
import PennCloud.BreadthFirst
import PennCloud.StorageTree
import PennCloud.MetadataText
import PennCloud.MetadataPrinting
import PennCloud.MetadataParsing
import PennCloud.MetadataRoundTrip
import PennCloud.TreeChanges
import PennCloud.TreePaths
import PennCloud.PathResolution
import PennCloud.EntryPaths
import PennCloud.StorageMove
import PennCloud.StorageRename
import PennCloud.MetadataIds
import PennCloud.HandlerIds
import PennCloud.SharedMetadata
import PennCloud.MadeIds
import PennCloud.FreshIds
import PennCloud.StorageCreate
import PennCloud.PairDelimiter
import PennCloud.LineReader
import PennCloud.MailRelay
import PennCloud.MovableDirs
import PennCloud.StorageDelete
import PennCloud.StorageFailure
import PennCloud.MetadataMerging
import PennCloud.FormBodies
import PennCloud.StorageForms
import PennCloud.SendMails
import PennCloud.SmtpSafety
import PennCloud.HttpRequest
import PennCloud.SessionCookie
import PennCloud.FrontEnd
import PennCloud.Acyclicity
import PennCloud.StorageTrace
import PennCloud.StorageLinks
import PennCloud.StorageCycles
import PennCloud.PathMaps
import PennCloud.TreeEntries
import PennCloud.StorageReload
import PennCloud.StorageEffects
import PennCloud.StorageParts
import PennCloud.StorageAttempts
import PennCloud.StorageAlone
import PennCloud.StorageConflict
import PennCloud.FileService
import PennCloud.StoredFiles
import PennCloud.ServedChanges
import PennCloud.StorageIsolation
import PennCloud.ServedDeletes
import PennCloud.ServedFiles
import PennCloud.NodeStorage
import PennCloud.Accounts
import PennCloud.AccountService
import PennCloud.ServedAccounts
import PennCloud.CompareAndSwap
import PennCloud.SignUpRace
import PennCloud.FrontEndSessions
import PennCloud.FilePages
import PennCloud.Recovery
import PennCloud.Following
import PennCloud.Rejoining
import PennCloud.MailOrder
import PennCloud.NodeMail
