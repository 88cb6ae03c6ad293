import SystemInterface.Lib.Proc
import SystemInterface.Lib.Transfer
import SystemInterface.Lib.Splice
import SystemInterface.Lib.Store
import SystemInterface.Model.Definitions
import SystemInterface.Model.Slices
import SystemInterface.Model.Loops
import SystemInterface.Model.BufferLoop
import SystemInterface.Model.LoopInstances
import SystemInterface.Model.Trait
import SystemInterface.Device.Device
import SystemInterface.Device.Reads
import SystemInterface.Windows.Definitions
import SystemInterface.Device.Stuck
import SystemInterface.Lib.Client
import SystemInterface.Unix.Definitions
import SystemInterface.Unix.Kernel
import SystemInterface.Unix.Append
import SystemInterface.Unix.AppendAll
import SystemInterface.Unix.Paths
import SystemInterface.Unix.Clients
import SystemInterface.Windows.World
import SystemInterface.Windows.Files
import SystemInterface.Unix.Files
import SystemInterface.Model.Session
import SystemInterface.Refinement
import SystemInterface.Windows.Interrupted
import SystemInterface.Lib.Scope
import SystemInterface.Model.ToEnd
import SystemInterface.ReadToEnd
import SystemInterface.Readers.Definitions
import SystemInterface.Readers.Overflow
import SystemInterface.Readers.Ready
import SystemInterface.Lib.Tap
import SystemInterface.Readers.Peek
import SystemInterface.Readers.Exact
import SystemInterface.Lib.Flags
import SystemInterface.Windows.FdFlags
import SystemInterface.Lib.Recursion
import SystemInterface.Unix.Peek
import SystemInterface.Model.Offsets
import SystemInterface.Shared.Definitions
import SystemInterface.Shared.Delivered
import SystemInterface.Shared.Outcomes
import SystemInterface.Shared.ReadToEnd
import SystemInterface.Lib.Script
import SystemInterface.Lib.Crowd
import SystemInterface.Unix.Scripts
import SystemInterface.Lib.Regions
import SystemInterface.Unix.Isolated
import SystemInterface.Model.Streams
import SystemInterface.Unix.Streams
import SystemInterface.Unix.Tape
import SystemInterface.Lib.Ledger
import SystemInterface.Model.Log
import SystemInterface.Unix.Log
import SystemInterface.Windows.Scripts
import SystemInterface.Windows.Log
import SystemInterface.Windows.Isolated
import SystemInterface.Lib.Spec
import SystemInterface.Model.Handles
import SystemInterface.Handles
import SystemInterface.Unix.FdFlags
import SystemInterface.Model.Singles
import SystemInterface.Singles
import SystemInterface.Model.Looks
import SystemInterface.Readers.Files
import SystemInterface.Lib.Pieces
