import Ps2rd.Basic
import Ps2rd.CString.Basic
import Ps2rd.CString.Hex
import Ps2rd.Cheats.CheatList
import Ps2rd.Cheats.MyString
import Ps2rd.Cheats.Parser
import Ps2rd.Cheats.Grammar
import Ps2rd.Cheats.ParseLine
import Ps2rd.Cheats.ParseBuf
import Ps2rd.Cheats.LibCheats
import Ps2rd.Cheats.Tokens
import Ps2rd.Cheats.ParseStream
import Ps2rd.Cheats.Stored
import Ps2rd.Cheats.Comments
import Ps2rd.Cheats.Scanner
import Ps2rd.Cheats.Reload
import Ps2rd.Cheats.ErrorLine
import Ps2rd.Mips.Memory
import Ps2rd.Mips.Isa
import Ps2rd.Mips.Exec
import Ps2rd.Mips.Flow
import Ps2rd.Mips.Trace
import Ps2rd.Mips.Routine
import Ps2rd.Mips.Bytes
import Ps2rd.Engine.Lists
import Ps2rd.Engine.CodeTypes
import Ps2rd.Engine.Fields
import Ps2rd.Engine.CodeHandler
import Ps2rd.Engine.Handlers
import Ps2rd.Engine.Refinement
import Ps2rd.Engine.Counted
import Ps2rd.Engine.EngineHandler
import Ps2rd.Loader.CheatMan
import Ps2rd.Loader.Activation
import Ps2rd.Lib.First
import Ps2rd.Loader.StrstrWc
import Ps2rd.Loader.ElfId
import Ps2rd.Loader.FindCheats
import Ps2rd.Engine.Fetches
import Ps2rd.Engine.Rewriting
import Ps2rd.Engine.Frames
import Ps2rd.Engine.Hook
import Ps2rd.Engine.HookSetupThread
import Ps2rd.Debugger.ResetHook
import Ps2rd.Lib.Region
import Ps2rd.Lib.While
import Ps2rd.Lib.Blocks
import Ps2rd.Lib.WriteBack
import Ps2rd.Lib.Tiling
import Ps2rd.Ntpb.Packet
import Ps2rd.Ntpb.Client
import Ps2rd.Ntpb.Dump
import Ps2rd.Debugger.SendDump
import Ps2rd.Ntpb.Request
import Ps2rd.Lib.Run
import Ps2rd.Ntpb.Connection
import Ps2rd.Ntpb.Delivery
import Ps2rd.Ntpb.Framing
import Ps2rd.Ntpb.Reply
import Ps2rd.Ntpb.Session
import Ps2rd.Ntpb.Completion
import Ps2rd.Ntpb.ExactlyOnce
import Ps2rd.Ntpb.IoSema
import Ps2rd.Ntpb.RecvData
import Ps2rd.Ntpb.Levels
import Ps2rd.Debugger.ExecRemoteCmd
import Ps2rd.Lib.Scan
import Ps2rd.Lib.Layout
import Ps2rd.Debugger.Pattern
import Ps2rd.Debugger.HookPatterns
import Ps2rd.Debugger.AutoHook
import Ps2rd.Debugger.PatchCalls
import Ps2rd.Lib.BoundedLog
import Ps2rd.Debugger.AutoHookLog
import Ps2rd.Debugger.Romdir
import Ps2rd.Debugger.RebootIop
import Ps2rd.Debugger.IpConfig
import Ps2rd.Debugger.ResetPath
import Ps2rd.Loader.ElfLdr
import Ps2rd.Loader.LoadElf
import Ps2rd.Loader.Menu
import Ps2rd.Loader.EndToEnd
import Ps2rd.Loader.IrxMan
import Ps2rd.Lib.Stailq
import Ps2rd.Cheats.Remove
import Ps2rd.UsbMass.SectorCache
import Ps2rd.UsbMass.Coherence
import Ps2rd.UsbMass.Transparent
import Ps2rd.TcpIp.Heap
import Ps2rd.TcpIp.HeapBlocks
import Ps2rd.TcpIp.HeapRuns
import Ps2rd.Lib.LinkTable
import Ps2rd.Lib.Replies
import Ps2rd.UsbMass.ClusterChain
import Ps2rd.UsbMass.DirectoryEntries
import Ps2rd.UsbMass.DirectorySectors
import Ps2rd.UsbMass.FileSession
import Ps2rd.UsbMass.DirectoryListing
import Ps2rd.UsbMass.LongNames
import Ps2rd.UsbMass.StalePart
