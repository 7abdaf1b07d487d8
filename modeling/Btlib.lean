import Btlib.Source.Roots
import Btlib.Machine.Plain
import Btlib.Theory.Guard
import Btlib.Theory.Reads
import Btlib.Theory.Tree
import Btlib.Theory.Zipper
import Btlib.Theory.Siblings
import Btlib.Theory.Room
import Btlib.Theory.Links
import Btlib.Theory.Cursor
import Btlib.Theory.Always
import Btlib.Theory.Alike
import Btlib.Theory.DoubleLinks
import Btlib.Index.Shows
import Btlib.Index.Order
import Btlib.Machine.Steps
import Btlib.Index.Holds
import Btlib.Machine.Store
import Btlib.Index.Index
import Btlib.Index.Split
import Btlib.Index.Find
import Btlib.Index.Calls
import Btlib.Index.Map
import Btlib.Index.Refine
import Btlib.Index.Plant
import Btlib.Index.Descend
import Btlib.Index.Climb
import Btlib.Index.Back
import Btlib.Index.Moves
import Btlib.Cache.Busy
import Btlib.Cache.MarksKept
import Btlib.Cache.MarksKeptData
import Btlib.Cache.MarksKeptKeys
import Btlib.Cache.MarksKeptDelete
import Btlib.Source.Files
import Btlib.Source.World
import Btlib.Cache.Calls
import Btlib.Cache.Api
import Btlib.Cache.Roots
import Btlib.Cache.Records
import Btlib.Cache.Selects
import Btlib.Cache.Debug
import Btlib.Cache.Names
import Btlib.Cache.Every
import Btlib.Cache.Locks
import Btlib.Cache.Slots
import Btlib.Cache.Hangs
import Btlib.Dups.Bytes
import Btlib.Dups.Segs
import Btlib.Dups.Store
import Btlib.Dups.Insert
import Btlib.Dups.Chains
import Btlib.Dups.Queues
import Btlib.Dups.Whole
import Btlib.Dups.Lists
import Btlib.Walk.Along
import Btlib.Walk.Carry
import Btlib.Walk.Allot
import Btlib.Walk.Latch
import Btlib.Walk.Stands
import Btlib.Walk.Steps
import Btlib.Walk.Calls
import Btlib.Walk.Finds
import Btlib.Walk.Runs
import Btlib.Walk.Answers
import Btlib.Walk.Starts
import Btlib.Walk.Pos
import Btlib.Walk.Places
import Btlib.Dups.Selected
import Btlib.Dups.Fifo
import Btlib.Dups.Runs
import Btlib.Walk.Lists
import Btlib.Walk.Mixed
import Btlib.Walk.Current
import Btlib.Walk.Sweep
import Btlib.Walk.Shared
import Btlib.Keys.ErrorArg
import Btlib.Keys.Carry
import Btlib.Keys.Sole
import Btlib.Keys.Drop
import Btlib.Keys.Delete
import Btlib.Keys.Names
import Btlib.Keys.Cut
import Btlib.Data.Segs
import Btlib.Data.Store
import Btlib.Data.Drop
import Btlib.Data.Insert
import Btlib.Data.Put
import Btlib.Data.Update
import Btlib.Data.Read
import Btlib.Data.Records
import Btlib.Machine.Stack
import Btlib.Index.Probe
import Btlib.Theory.Thread
import Btlib.Cache.Queue
import Btlib.Machine.Free
import Btlib.Data.Address
import Btlib.Theory.RoseTree
import Btlib.Tour.Steps
import Btlib.Tour.Visits
import Btlib.Tour.Count
import Btlib.Cache.Enact
import Btlib.Cache.Prealloc
import Btlib.Mend.Bare
import Btlib.Mend.Pair
import Btlib.Mend.Moves
import Btlib.Mend.Join
import Btlib.Mend.Balance
import Btlib.Mend.Mend
import Btlib.Theory.Image
import Btlib.Mend.Fuse
import Btlib.Mend.Demote
import Btlib.Mend.Merge
import Btlib.Mend.Erase
import Btlib.Mend.Reach
import Btlib.Mend.Delete
import Btlib.Mend.Calls
import Btlib.Mend.Bdelky
import Btlib.Theory.Retrace
import Btlib.Cache.SlotFacts
import Btlib.Cache.SlotFactsBlocks
import Btlib.Cache.SlotFactsData
import Btlib.Cache.SlotFactsCalls
import Btlib.Cache.SlotSafe
import Btlib.Cache.View
import Btlib.Cache.Mirror
import Btlib.Cache.Through
import Btlib.Cache.Close
import Btlib.Index.Catalog
import Btlib.Cache.Sessions
import Btlib.Cache.Create
import Btlib.Share.SharedFile
