import XCore.Net.Frame
import XCore.Redis.Progress
import XCore.Redis.Fragment
import XCore.Redis.Update
import XCore.Redis.Queue
import XCore.Redis.Pairing
import XCore.Lib.Mealy
import XCore.Lib.Monitor
import XCore.Lua.Format
import XCore.Net.Base
import XCore.Net.Buffer
import XCore.Net.Message
import XCore.Net.RoundTrip
import XCore.Net.Send
import XCore.Redis.Callbacks
import XCore.Redis.Reconnect
import XCore.Net.Agreement
import XCore.Lib.Scan
import XCore.Net.Scan
import XCore.Net.Unpack
import XCore.Timer.Events
import XCore.Timer.Handles
import XCore.Class.Attribute
import XCore.Class.Accounting
import XCore.Class.History
import XCore.Class.Serialize
import XCore.Require.Classes
import XCore.Require.Lifecycle
import XCore.Require.Trace
import XCore.Require.Once
import XCore.Net.Codec
import XCore.Lib.Search
import XCore.Net.Reader
import XCore.Net.CheckType
import XCore.Net.Schema
import XCore.Class.Event
import XCore.Timer.Isolation
import XCore.Class.Dirty
import XCore.Class.Group
import XCore.Class.Spared
import XCore.Class.Simulation
import XCore.Class.Hierarchy
import XCore.Redis.Encoding
import XCore.Net.Monitor
import XCore.Setting.Load
import XCore.Setting.Readonly
import XCore.Net.Lengths
import XCore.Net.ListReader
import XCore.Net.Cursor
import XCore.Net.WriteData
import XCore.Lib.Occur
import XCore.Utils.Split
import XCore.Utils.Strip
import XCore.Utils.Suffix
import XCore.Lib.CString
import XCore.Luv.StackDump
import XCore.Utils.Equal
import XCore.Utils.DeepCopy
import XCore.Lua.Source
import XCore.Lua.Quote
import XCore.Utils.ToString
import XCore.Repl.Text
import XCore.Repl.Dump
import XCore.Repl.Visit
import XCore.Lib.Blocks
import XCore.Repl.Layout
import XCore.Repl.Stack
import XCore.Repl.Width
import XCore.Lib.FreeList
import XCore.Lua.Registry
import XCore.Lib.Refs
import XCore.Luv.World
import XCore.Luv.Owned
import XCore.Luv.Lifetime
import XCore.Net.Session
import XCore.Lib.BinaryHeap
import XCore.Timer.Heap
import XCore.Timer.LibUv
import XCore.Lib.Tickets
import XCore.Uv.Stream
import XCore.Uv.Written
import XCore.Uv.Runs
import XCore.Net.Answers
import XCore.Lib.Ring
import XCore.Uv.Watcher
