import DgxPlatform.Lib.Run
import DgxPlatform.Lib.Lock
import DgxPlatform.Lib.Text
import DgxPlatform.Lib.Calls
import DgxPlatform.Lib.Table
import DgxPlatform.Runner.Supervisor
import DgxPlatform.Runner.Service
import DgxPlatform.Runner.StopFinal
import DgxPlatform.Runner.Decisions
import DgxPlatform.Runner.StatusAgrees
import DgxPlatform.Runner.LaunchFailure
import DgxPlatform.Portal.Basic
import DgxPlatform.Portal.Budget
import DgxPlatform.Portal.GrantReaper
import DgxPlatform.Portal.BudgetRace
import DgxPlatform.Portal.Url
import DgxPlatform.Portal.Passkeys
import DgxPlatform.Portal.Login
import DgxPlatform.Portal.Accounts
import DgxPlatform.Portal.AccountHandlers
import DgxPlatform.Portal.LocalAdmins
import DgxPlatform.Portal.Directory
import DgxPlatform.Portal.DirectoryRole
import DgxPlatform.Lib.Json
import DgxPlatform.Lib.Ordered
import DgxPlatform.Runner.Download
import DgxPlatform.Runner.LogStream
import DgxPlatform.Runner.OneEngine
import DgxPlatform.Runner.AutoResume
import DgxPlatform.Runner.DeleteFiles
import DgxPlatform.Portal.Conversations
import DgxPlatform.Portal.Playground
import DgxPlatform.Portal.Checkpoint
import DgxPlatform.Portal.Memory
import DgxPlatform.Portal.MemoryGraph
import DgxPlatform.Portal.MemoryExport
import DgxPlatform.Portal.MemoryNorm
import DgxPlatform.Portal.MemoryRows
import DgxPlatform.Portal.MemoryFacts
import DgxPlatform.Portal.MemoryImport
import DgxPlatform.Portal.MemorySubjects
import DgxPlatform.Portal.MemoryRestore
import DgxPlatform.Portal.Ranking
import DgxPlatform.Portal.RankingPrivacy
import DgxPlatform.Portal.RateLimit
import DgxPlatform.Portal.JobSlots
import DgxPlatform.Portal.MediaJobs
import DgxPlatform.Portal.MediaStore
import DgxPlatform.Portal.ToolPhase
import DgxPlatform.Portal.SupportActions
import DgxPlatform.Lib.Trim
import DgxPlatform.Portal.SupportReply
import DgxPlatform.Lib.Utf8
import DgxPlatform.Lib.Framing
import DgxPlatform.Portal.PyDumps
import DgxPlatform.Portal.StreamRelay
import DgxPlatform.Lib.Doc
import DgxPlatform.Portal.DecisionPayload
import DgxPlatform.Portal.DecisionAgree
import DgxPlatform.Lib.Scan
import DgxPlatform.Portal.AskBlocks
import DgxPlatform.Portal.AskFences
import DgxPlatform.Portal.AskFiles
import DgxPlatform.Runner.ValidateArgs
import DgxPlatform.Portal.Launches
import DgxPlatform.Monitoring.Monitor
import DgxPlatform.Portal.MemoryTriples
import DgxPlatform.Portal.MemoryCap
import DgxPlatform.Portal.MemoryWords
import DgxPlatform.Portal.McpServers
import DgxPlatform.Portal.AsrReaper
import DgxPlatform.Lib.Regex
import DgxPlatform.Portal.MemoryMarkdown
import DgxPlatform.Portal.MarkdownLines
import DgxPlatform.Portal.MarkdownFile
import DgxPlatform.Portal.MarkdownExport
import DgxPlatform.Portal.MarkdownRoundTrip
import DgxPlatform.Runner.LaunchRequest
import DgxPlatform.Lib.EventStream
import DgxPlatform.Runner.LogEvents
import DgxPlatform.Runner.TrustRemote
import DgxPlatform.Portal.SafeNext
import DgxPlatform.Lib.IpAddr
import DgxPlatform.Portal.AddressFilter
import DgxPlatform.Lib.Walk
import DgxPlatform.Portal.SkillPaths
import DgxPlatform.Portal.SkillText
import DgxPlatform.Runner.BuildCmd
import DgxPlatform.Portal.SkillArchive
import DgxPlatform.Portal.SkillExport
import DgxPlatform.Portal.SkillNames
import DgxPlatform.Portal.ConversationTrim
import DgxPlatform.Portal.ConversationReload
import DgxPlatform.Portal.DumpsRoundTrip
import DgxPlatform.Portal.Sessions
import DgxPlatform.Runner.RepoIds
import DgxPlatform.Portal.FileEdits
import DgxPlatform.Portal.FileReload
import DgxPlatform.Portal.RankingTotals
import DgxPlatform.Portal.FileBlocks
import DgxPlatform.Portal.FileView
import DgxPlatform.Portal.ChatHistory
import DgxPlatform.Portal.FileVersions
import DgxPlatform.Portal.ArtifactLayout
import DgxPlatform.Portal.ArtifactNames
import DgxPlatform.Portal.OpenFence
import DgxPlatform.Portal.Rejoin
import DgxPlatform.Lib.JsonMachine
import DgxPlatform.Portal.JsonRepair
import DgxPlatform.Portal.AskText
import DgxPlatform.Portal.AskPrefix
import DgxPlatform.Lib.Collect
import DgxPlatform.Portal.AskMessage
import DgxPlatform.Portal.PageParsers
import DgxPlatform.Portal.EditReports
import DgxPlatform.Portal.FileFragments
import DgxPlatform.Portal.MicListener
import DgxPlatform.Portal.InlineThink
import DgxPlatform.Lib.Subsequence
import DgxPlatform.Portal.LineDiff
import DgxPlatform.Lib.Crc32
import DgxPlatform.Lib.WordOps
import DgxPlatform.Lib.Bytes
import DgxPlatform.Lib.ZipArchive
import DgxPlatform.Portal.ZipFiles
import DgxPlatform.Portal.SupportChunks
import DgxPlatform.Portal.AskTrim
import DgxPlatform.Portal.RepairClosings
import DgxPlatform.Portal.MultipartField
import DgxPlatform.Portal.JsonChain
import DgxPlatform.Portal.VoiceText
import DgxPlatform.Portal.VoiceMode
import DgxPlatform.Portal.LegacyHistory
import DgxPlatform.Portal.ContextWindow
import DgxPlatform.Portal.ToolRouting
import DgxPlatform.Portal.WebSearch
import DgxPlatform.Portal.ReferenceImage
import DgxPlatform.Portal.MediaProxy
import DgxPlatform.Portal.VideoForm
import DgxPlatform.Portal.S3Request
import DgxPlatform.Portal.McpAnswer
import DgxPlatform.Portal.Backups
import DgxPlatform.Portal.RankingStreaks
import DgxPlatform.Portal.LoginRedirect
import DgxPlatform.Runner.ShellWords
import DgxPlatform.Portal.ScriptDepth
import DgxPlatform.Portal.VoiceGrowth
import DgxPlatform.Portal.RecentImages
import DgxPlatform.Portal.SkillFiles
import DgxPlatform.Lib.Tokens
import DgxPlatform.Portal.Dictation
import DgxPlatform.Portal.Inflight
import DgxPlatform.Portal.SafeHref
import DgxPlatform.Portal.Maths
