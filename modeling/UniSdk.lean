import UniSdk.Library.Cells
import UniSdk.Library.Aligned
import UniSdk.Library.Words
import UniSdk.Library.BoundedFifo
import UniSdk.Library.Runs
import UniSdk.Storage.Device
import UniSdk.Storage.Pages
import UniSdk.Storage.PageSpec
import UniSdk.Storage.WalkSpec
import UniSdk.Storage.Write
import UniSdk.Storage.Erase
import UniSdk.Storage.Frame
import UniSdk.Mcuboot.FlashMap
import UniSdk.Planner.WorkQueue
import UniSdk.Planner.SwTimer
import UniSdk.Planner.CallSpec
import UniSdk.Planner.Machine
import UniSdk.Planner.Idle
import UniSdk.Planner.Pass
import UniSdk.Planner.Compare
import UniSdk.Planner.Critical
import UniSdk.Planner.MtimerHandler
import UniSdk.Core.NestedTraps
import UniSdk.Core.Ecall
import UniSdk.Log.EventQueue
import UniSdk.Log.Transmit
import UniSdk.Mcuboot.Base64
import UniSdk.Mcuboot.Recovery
import UniSdk.Library.Streams
import UniSdk.Mcuboot.SerialRead
import UniSdk.Library.CircularList
import UniSdk.Library.OrderedSet
import UniSdk.Storage.Registry
import UniSdk.Core.DmaChannels
import UniSdk.System.Heap
import UniSdk.Library.Crc
import UniSdk.Scripts.Firmware
import UniSdk.Library.Text
import UniSdk.Scripts.KconfigParser
import UniSdk.Library.Dict
import UniSdk.Scripts.Pinmux
import UniSdk.Scripts.PinmuxSave
import UniSdk.Library.CallLog
import UniSdk.Storage.Trace
import UniSdk.Storage.Contract
import UniSdk.Storage.Failure
import UniSdk.Storage.EraseOnce
import UniSdk.Scripts.ChipConfig
import UniSdk.Library.Lines
import UniSdk.Scripts.ForLoops
import UniSdk.Scripts.ForLoopsRun
import UniSdk.Scripts.Registers
import UniSdk.Library.Spans
import UniSdk.Scripts.RegisterLayout
import UniSdk.Scripts.RegisterStruct
import UniSdk.Scripts.RegisterWalk
import UniSdk.Scripts.AnalogRegisters
import UniSdk.Scripts.ChipConfigRule
import UniSdk.Core.Mtimer
import UniSdk.Planner.Parked
import UniSdk.Library.Scans
import UniSdk.Planner.Periodic
import UniSdk.Planner.TaskDeadline
import UniSdk.Planner.Restart
import UniSdk.Library.Rates
import UniSdk.Planner.LowPower
import UniSdk.Storage.SocFlash
import UniSdk.Storage.Lookup
import UniSdk.Core.MtimerCompare
import UniSdk.Core.Sleep
import UniSdk.Core.SleepInterrupts
import UniSdk.Core.SleepOnce
import UniSdk.Planner.SleepTicks
import UniSdk.Core.ApiTime
import UniSdk.Log.Timestamp
import UniSdk.Library.CharBuffers
import UniSdk.Log.Format
import UniSdk.Log.Consumers
import UniSdk.Library.CrcMsb
import UniSdk.Mcuboot.Crc16
import UniSdk.Mcuboot.Base64Accept
import UniSdk.Mcuboot.Sectors
import UniSdk.Core.Pmp
import UniSdk.Usb.Descriptors
import UniSdk.Usb.CdcWriters
import UniSdk.Library.HexText
import UniSdk.Log.Hexdump
import UniSdk.Core.PmpEntries
import UniSdk.Core.PlicClear
import UniSdk.Common.StrUtils
import UniSdk.Scripts.ConfigReader
import UniSdk.Library.Sharing
import UniSdk.Scripts.PinmuxConflicts
import UniSdk.Library.Defines
import UniSdk.Scripts.PinmuxHeader
import UniSdk.Scripts.PinmuxOrders
import UniSdk.Scripts.PinmuxAccept
import UniSdk.Scripts.PinmuxRead
import UniSdk.Scripts.PinmuxShared
import UniSdk.Core.MtimerSet
import UniSdk.Library.Replies
import UniSdk.Library.Regions
import UniSdk.Library.Brackets
import UniSdk.Library.Programs
import UniSdk.Library.Macros
import UniSdk.Library.Jumps
import UniSdk.Library.Names
import UniSdk.Mcuboot.FlashStore
import UniSdk.Planner.Response
import UniSdk.Core.PlicNesting
import UniSdk.Core.PlicWfi
import UniSdk.Core.PmpRetention
import UniSdk.Core.Context
import UniSdk.Scripts.Properties
import UniSdk.Scripts.KconfigMacros
import UniSdk.Scripts.ConfigHeader
import UniSdk.Core.StartCode
import UniSdk.Log.Delivery
import UniSdk.Common.InitArrays
import UniSdk.Planner.StartUp
