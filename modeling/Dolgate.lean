import Dolgate.AgentRoundTrip
import Dolgate.CommandRuns
import Dolgate.CompletionStatus
import Dolgate.ControlParser
import Dolgate.CoreFramingAgree
import Dolgate.DataChannelDrain
import Dolgate.DataChannelSocket
import Dolgate.DesktopPull
import Dolgate.DesktopRevision
import Dolgate.EchoStream
import Dolgate.EventOrder
import Dolgate.FlowReaders
import Dolgate.Handshake
import Dolgate.HostsTwice
import Dolgate.InFlightCancel
import Dolgate.OutputAcks
import Dolgate.PortForwardOwners
import Dolgate.PromptAnswers
import Dolgate.PromptGate
import Dolgate.PushCoverage
import Dolgate.RefreshTokens
import Dolgate.Rfc2217Frames
import Dolgate.Rfc2217Reads
import Dolgate.RingPages
import Dolgate.RouterProgress
import Dolgate.SerialLines
import Dolgate.ShareDisable
import Dolgate.ShareScreen
import Dolgate.StaleLease
import Dolgate.StallGuard
import Dolgate.TailnetLeases
import Dolgate.TmuxNames
import Dolgate.TmuxRedraw
import Dolgate.TransferAtomic
import Dolgate.UnchangedPush
import Dolgate.VncExtensions
import Dolgate.WatchWakeups
import Dolgate.WorkerPoolRuns
import Dolgate.RemovalLinks
import Dolgate.Snippets
import Dolgate.PhoneUpload
import Dolgate.ProxyAutocomplete
import Dolgate.SocksConformance
import Dolgate.WorkspaceIntegrity
import Dolgate.HeaderDeletion
import Dolgate.BannerText
import Dolgate.PhoneConvergence
import Dolgate.CommandAgreement
import Dolgate.CopyRect
import Dolgate.ZrlePixels
import Dolgate.TightDecoding
import Dolgate.AwsProfileNames
import Dolgate.GroupSync
import Dolgate.GroupClosure
import Dolgate.TerminalInput
import Dolgate.EchoSearch
import Dolgate.EgfxMirror
import Dolgate.AuthRateLimit
import Dolgate.OneTimeCodes
import Dolgate.PlainReplay
import Dolgate.SessionRenaming
import Dolgate.SharedBase64
import Dolgate.RdpDrives
import Dolgate.TmuxLayout
