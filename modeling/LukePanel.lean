import LukePanel.Library.Machine
import LukePanel.Library.GoStrings
import LukePanel.Library.SlashPath
import LukePanel.Library.LockedStore
import LukePanel.Library.PathTree
import LukePanel.Library.CommitHistory
import LukePanel.Library.JsonObject
import LukePanel.Config
import LukePanel.Auth.Ratelimit
import LukePanel.Auth.LimiterLocks
import LukePanel.Auth.Totp
import LukePanel.Auth.SessionStore
import LukePanel.Server.Login
import LukePanel.Server.LoginAttempts
import LukePanel.Server.PanelBackup
import LukePanel.Server.SecondFactor
import LukePanel.Server.RecoveryCodes
import LukePanel.Server.ConfigHandlers
import LukePanel.Server.ConfigStore
import LukePanel.Server.AccountChanges
import LukePanel.GithubHelper.Archive
import LukePanel.GithubHelper.Extraction
import LukePanel.GithubHelper.ImportedPaths
import LukePanel.GithubHelper.Importer
import LukePanel.GithubHelper.ImportHistory
import LukePanel.GithubHelper.ImportOverlay
import LukePanel.DockerApi.Containers
import LukePanel.DockerApi.RecreateRequest
import LukePanel.DockerApi.Recreate
import LukePanel.Library.PhasedSwitch
import LukePanel.SshAdmin.Manager
import LukePanel.SshAdmin.PortSwitch
import LukePanel.SshAdmin.Keys
import LukePanel.SshAdmin.PasswordLogin
import LukePanel.HostAdmin.Firewall
import LukePanel.HostAdmin.Recovery
import LukePanel.Agent.FirewallEnable
import LukePanel.Library.History
import LukePanel.Server.GithubAuth
import LukePanel.Server.DeviceFlows
import LukePanel.Server.PasskeyCounters
import LukePanel.Server.TotpSetup
import LukePanel.Library.QuotaMap
import LukePanel.Server.PasskeyFlows
import LukePanel.Library.Renames
import LukePanel.Server.RestoreInstall
import LukePanel.Library.FileTree
import LukePanel.Server.PanelArchive
import LukePanel.Server.BackupRestore
import LukePanel.Server.KeptPart
import LukePanel.Server.BackupRoundTrip
import LukePanel.Library.Rotation
import LukePanel.Server.AuditLog
import LukePanel.Server.AuditIndex
import LukePanel.Library.BackwardLines
import LukePanel.Library.Wildcards
import LukePanel.Server.AuditQueries
import LukePanel.Library.Attempt
import LukePanel.Library.Gathering
import LukePanel.DockerApi.AcceptedRequest
import LukePanel.DockerApi.EditSpec
import LukePanel.DockerApi.SaveUnchanged
import LukePanel.Library.FileSystem
import LukePanel.Library.PathWalks
import LukePanel.Library.Syscalls
import LukePanel.Library.Directories
import LukePanel.Library.Substrings
import LukePanel.Files.Paths
import LukePanel.Files.Copying
import LukePanel.Files.CopyTree
import LukePanel.Files.CrossDevice
import LukePanel.Files.Versions
import LukePanel.Files.VersionStore
import LukePanel.Files.VersionOwners
import LukePanel.Library.Base64
import LukePanel.Auth.Password
import LukePanel.SshAdmin.KeyLines
import LukePanel.Library.NetAddress
import LukePanel.Server.ClientIp
import LukePanel.Library.Outcome
import LukePanel.Library.Cbor
import LukePanel.Auth.Cbor
import LukePanel.Auth.CborItems
import LukePanel.Auth.CborPanics
import LukePanel.Auth.CborValues
import LukePanel.Auth.Webauthn
import LukePanel.Library.NetUrl
import LukePanel.Validate
import LukePanel.Server.WebauthnContext
import LukePanel.Server.ImportedCodes
import LukePanel.Server.AllowlistRecovery
import LukePanel.Library.EditScript
import LukePanel.Files.LineDiff
import LukePanel.Library.SplitLists
import LukePanel.Files.BackupDiff
import LukePanel.Server.FilePreferences
import LukePanel.Server.RecentFiles
import LukePanel.Server.FavoriteFiles
import LukePanel.HostAdmin.Fstab
import LukePanel.Library.AddressText
import LukePanel.Library.IpNetworks
import LukePanel.Server.IpAllowlist
import LukePanel.Agent.ComposeSave
import LukePanel.Agent.ComposeContents
import LukePanel.Files.BackupFiles
import LukePanel.Files.StoredVersions
import LukePanel.Files.EditBackups
import LukePanel.Library.Frames
import LukePanel.DockerApi.LogStream
import LukePanel.Agent.Jobs
import LukePanel.Library.UnitFile
import LukePanel.Tasks.Units
import LukePanel.Tasks.UnitSyntax
import LukePanel.Tasks.Manager
import LukePanel.Tasks.CreateTask
import LukePanel.Library.AddressZones
import LukePanel.Tools.HttpCheck
import LukePanel.Library.JsonLines
import LukePanel.DockerApi.PullImage
import LukePanel.Library.Words
import LukePanel.Library.PlainSources
import LukePanel.HostAdmin.SoftwareSources
import LukePanel.HostAdmin.SourceToggle
import LukePanel.HostAdmin.SourceSchemes
import LukePanel.Library.Coverage
import LukePanel.Library.OptionFile
import LukePanel.Library.Utf8
import LukePanel.HostAdmin.Fail2ban
import LukePanel.HostAdmin.Fail2banIgnore
import LukePanel.Library.YamlScalars
import LukePanel.Library.Yaml
import LukePanel.Library.GoQuote
import LukePanel.DockerApi.ComposeWizard
import LukePanel.DockerApi.ComposeYaml
import LukePanel.Library.ShortestPrefix
import LukePanel.Files.PruneOldest
import LukePanel.Library.Doubles
import LukePanel.AptAdmin.Simulation
import LukePanel.AptAdmin.DownloadSize
import LukePanel.AptAdmin.UpgradePreview
import LukePanel.Files.RestoreVersions
import LukePanel.Library.HeldBlocks
import LukePanel.Library.LittleEndian
import LukePanel.Library.CountedLoops
import LukePanel.Library.Interleaving
import LukePanel.Crypto.Blake2b
import LukePanel.Crypto.Blake2bReference
import LukePanel.Crypto.Blake2bStream
import LukePanel.Crypto.Argon2
import LukePanel.Crypto.VariableHash
import LukePanel.Crypto.Argon2Index
import LukePanel.Crypto.Argon2Reference
import LukePanel.Crypto.Argon2Fill
import LukePanel.Crypto.Argon2Tag
import LukePanel.Crypto.Goroutines
import LukePanel.Crypto.AnyOrder
import LukePanel.Auth.SessionTokens
import LukePanel.Auth.PasswordKey
import LukePanel.Library.HeldDocuments
import LukePanel.LoadOrCreate
import LukePanel.Startups
import LukePanel.Restarts
import LukePanel.Server.Elevation
import LukePanel.Auth.Pbkdf2
