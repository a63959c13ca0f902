import Bakaneko.Terminal
import Bakaneko.TerminalFrame
import Bakaneko.TerminalRows
import Bakaneko.TerminalColumns
import Bakaneko.TerminalSequences
import Bakaneko.Base64
import Bakaneko.Ini
import Bakaneko.Authenticate
import Bakaneko.Credentials
import Bakaneko.AuthorizationHeader
import Bakaneko.Messages
import Bakaneko.Rest
import Bakaneko.HostControl
import Bakaneko.ControlAccess
import Bakaneko.ServerList
import Bakaneko.ServiceIds
import Bakaneko.Library.CountingLatch
import Bakaneko.RoundLatch
import Bakaneko.DumbTerminal
import Bakaneko.Library.Lockstep
import Bakaneko.TerminalEquivalence
import Bakaneko.FieldFidelity
import Bakaneko.KeyReconciliation
import Bakaneko.Library.Mirror
import Bakaneko.LoginAttempts
import Bakaneko.OnlineSignals
import Bakaneko.RowSignals
import Bakaneko.ServerObjects
import Bakaneko.StateSignals
import Bakaneko.UpdateTasks
import Bakaneko.UpdateWait
import Bakaneko.Base64Standard
import Bakaneko.DriveList
import Bakaneko.IniOperations
import Bakaneko.IniText
import Bakaneko.Intensity
import Bakaneko.InverseVideo
import Bakaneko.JsonText
import Bakaneko.PtyDecoding
import Bakaneko.Serialisable
import Bakaneko.WireFormat
import Bakaneko.Library.PaddedRow
import Bakaneko.TerminalStates
import Bakaneko.DumbText
import Bakaneko.DumbGrid
import Bakaneko.PtyRead
import Bakaneko.ScreenPaint
import Bakaneko.Library.CachedValue
import Bakaneko.LineCount
import Bakaneko.EscapeFraming
import Bakaneko.Erasing
import Bakaneko.CursorPosition
import Bakaneko.CursorMotion
import Bakaneko.UnicodeOrder
import Bakaneko.UnescapeLoops
import Bakaneko.PackageUpdates
import Bakaneko.UpdateRows
import Bakaneko.AdapterRates
import Bakaneko.ColumnWidths
import Bakaneko.DiskPartitions
import Bakaneko.PageRequests
import Bakaneko.ApkUpdates
import Bakaneko.ByteUnits
import Bakaneko.DriveOrder
import Bakaneko.TermInfo
import Bakaneko.BufferedText
import Bakaneko.CommandLine
import Bakaneko.Interfaces
import Bakaneko.ReadFile
import Bakaneko.ServerEndpoint
import Bakaneko.WakeUp
import Bakaneko.Library.MoveOnly
import Bakaneko.SshConnections
import Bakaneko.RestConnection
import Bakaneko.PageReports
import Bakaneko.HostRounds
import Bakaneko.ControlRequests
import Bakaneko.TerminalCells
import Bakaneko.Library.LastWrite
import Bakaneko.SystemInfo
import Bakaneko.OpenrcServices
import Bakaneko.ShellOutput
import Bakaneko.NetworkAdapters
import Bakaneko.CommandOutput
import Bakaneko.ServiceLoop
import Bakaneko.UpdateHistory
import Bakaneko.DiskReports
