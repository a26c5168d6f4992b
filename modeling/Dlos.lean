import Dlos.Library.StateMachine
import Dlos.Library.Program
import Dlos.Library.Linked
import Dlos.Library.Rendezvous
import Dlos.Kernel.Main
import Dlos.Kernel.Delivery
import Dlos.Kernel.Clock
import Dlos.Kernel.Console
import Dlos.Kernel.Window
import Dlos.Kernel.Assertions
import Dlos.Kernel.Receive
import Dlos.Mm.ForkQueues
import Dlos.Mm.Calls
import Dlos.Fs.Main
import Dlos.Library.Tiles
import Dlos.Fs.Layout
import Dlos.Fs.Directory
import Dlos.Fs.NewEntry
import Dlos.Fs.UnlinkName
import Dlos.Fs.FileBytes
import Dlos.Fs.Transfer
import Dlos.Fs.ReadFile
import Dlos.Fs.WriteFile
import Dlos.Fs.Copies
import Dlos.Fs.Arguments
import Dlos.Kernel.KeyPress
import Dlos.Kernel.Typing
import Dlos.Fs.Evict
import Dlos.Fs.Allocate
import Dlos.Fs.Refused
import Dlos.Kernel.Fairness
import Dlos.Kernel.LineInput
import Dlos.Kernel.HdTransfer
import Dlos.Kernel.Partition
import Dlos.Fs.Driver
import Dlos.Fs.Log
import Dlos.Lib.Klib
import Dlos.Kernel.Delay
import Dlos.Kernel.InputRings
import Dlos.Mm.Descriptors
import Dlos.Boot.MemoryMap
import Dlos.Boot.LoadFile
import Dlos.Library.Sharing
import Dlos.Fs.Format
import Dlos.Fs.Volume
import Dlos.Fs.CreateFile
import Dlos.Fs.Requests
import Dlos.Fs.Counting
import Dlos.Fs.Within
import Dlos.Fs.Consistent
import Dlos.Fs.Invariant
import Dlos.Fs.Reachable
import Dlos.Fs.Served
import Dlos.Fs.Safety
import Dlos.Fs.FileStore
import Dlos.Fs.Names
import Dlos.Fs.Progress
import Dlos.Fs.ReadBack
