import Unodb.Util.Words
import Unodb.Util.Arrays
import Unodb.Util.Runs
import Unodb.Util.Linked
import Unodb.Util.Outcome
import Unodb.Util.Radix
import Unodb.Util.RadixOps
import Unodb.Util.Precede
import Unodb.Util.Endian
import Unodb.Util.Ieee
import Unodb.Util.Bump
import Unodb.Util.Prog
import Unodb.Key
import Unodb.KeyPrefix
import Unodb.Node.Layout
import Unodb.Node.Dense
import Unodb.Node.Sparse
import Unodb.Node.Rep
import Unodb.Node.Split
import Unodb.Node.Iter
import Unodb.Node.Calls
import Unodb.Tree.Basic
import Unodb.Tree.Descent
import Unodb.Tree.Ops
import Unodb.Stats
import Unodb.Db.State
import Unodb.Db.Exec
import Unodb.Db.Insert
import Unodb.Db.Remove
import Unodb.Db.Clear
import Unodb.Db.Map
import Unodb.Db.Run
import Unodb.Db.Shape
import Unodb.Db.Counters
import Unodb.Db.Iterator
import Unodb.Encode.Encoder
import Unodb.Encode.Bytes
import Unodb.Encode.Text
import Unodb.Encode.Number
import Unodb.Encode.Compound
import Unodb.Lock.Optimistic
import Unodb.Qsbr.State
import Unodb.Qsbr.Model
import Unodb.Qsbr.Count
import Unodb.Qsbr.Threads
import Unodb.Qsbr.Lists
import Unodb.Qsbr.Requests
import Unodb.Qsbr.EpochCount
import Unodb.Qsbr.Grace
import Unodb.Qsbr.Calls
import Unodb.Qsbr.Reclaim
import Unodb.Olc.State
import Unodb.Olc.Ops
import Unodb.Olc.World
import Unodb.Olc.Actions
import Unodb.Olc.Knowledge
import Unodb.Olc.Rules
import Unodb.Olc.Guards
import Unodb.Olc.Commits
import Unodb.Olc.Updates
import Unodb.Olc.Inserting
import Unodb.Olc.Removing
import Unodb.Olc.Getting
import Unodb.Olc.Reading
import Unodb.Util.Atomic
import Unodb.Db.Ordered
import Unodb.Db.Memory
import Unodb.Tree.Branching
import Unodb.Db.Lookup
import Unodb.Db.Collapse
import Unodb.Db.Seek
import Unodb.Db.Scan
import Unodb.Db.Buffer
import Unodb.Db.Keybuf
import Unodb.Db.Range
import Unodb.Olc.Iterator
import Unodb.Olc.System
import Unodb.Olc.Locking
import Unodb.Olc.Deadlock
import Unodb.Olc.Words
import Unodb.Olc.Alone
import Unodb.Olc.Keybuf
import Unodb.Olc.Scan
import Unodb.Olc.Mirror
import Unodb.Olc.Insert
import Unodb.Olc.Remove
import Unodb.Olc.Calls
import Unodb.Olc.Statistics
import Unodb.Olc.Versions
import Unodb.Olc.Watch
import Unodb.Olc.Lookup
import Unodb.Olc.Refine
import Unodb.Olc.Memory
import Unodb.Olc.Linear
import Unodb.Olc.Retire
import Unodb.Olc.Scanning
import Unodb.Util.Slots
import Unodb.Util.CommonPrefix
import Unodb.Util.Lanes
import Unodb.Util.Simd
import Unodb.PrefixBytes
import Unodb.Qsbr.Pointers
import Unodb.Node.Search
import Unodb.Node.FreeSlot
