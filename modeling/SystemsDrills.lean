import SystemsDrills.Lib.Transition
import SystemsDrills.Lib.Calls
import SystemsDrills.Lib.Linearization
import SystemsDrills.Lib.CasLoop
import SystemsDrills.Lib.Monitor
import SystemsDrills.Lib.Wakeup
import SystemsDrills.Lib.Progress
import SystemsDrills.Lib.Search
import SystemsDrills.Lib.Spans
import SystemsDrills.Lib.Cyclic
import SystemsDrills.Lib.Recency
import SystemsDrills.Lib.Framing
import SystemsDrills.Lib.Sweep
import SystemsDrills.Lib.Cuts
import SystemsDrills.Lib.Grid
import SystemsDrills.Lib.Checks
import SystemsDrills.Lib.Probing
import SystemsDrills.Lib.Copying
import SystemsDrills.Lib.Brackets
import SystemsDrills.Lib.PriorityQueue
import SystemsDrills.Lib.Reversible
import SystemsDrills.Lib.Cover
import SystemsDrills.Lib.Cells
import SystemsDrills.Lib.Flood
import SystemsDrills.Lib.Layers
import SystemsDrills.Lib.Merging
import SystemsDrills.Lib.Bits
import SystemsDrills.Lib.Stdio
import SystemsDrills.Lib.Stores
import SystemsDrills.Lib.Views
import SystemsDrills.Lib.Exchange
import SystemsDrills.Lib.SeqCst
import SystemsDrills.Lib.Matching
import SystemsDrills.Region.MemoryMap
import SystemsDrills.Region.Linear
import SystemsDrills.Region.Sorted
import SystemsDrills.Region.Agreement
import SystemsDrills.Region.Order
import SystemsDrills.Mutex.Futex
import SystemsDrills.Mutex.Worker
import SystemsDrills.Mutex.Progress
import SystemsDrills.Mutex.ReleaseAcquire
import SystemsDrills.Queue.BoundedBuffer
import SystemsDrills.Ring.Spsc
import SystemsDrills.Ring.Fifo
import SystemsDrills.Ring.ReleaseAcquire
import SystemsDrills.Ring.Capacity
import SystemsDrills.Queue.LockRing
import SystemsDrills.Queue.Agreement
import SystemsDrills.Queue.Waiting
import SystemsDrills.Queue.Delivery
import SystemsDrills.Queue.Workers
import SystemsDrills.Queue.Progress
import SystemsDrills.Queue.Setup
import SystemsDrills.Logger.Machine
import SystemsDrills.Logger.Solo
import SystemsDrills.Logger.Seqlock
import SystemsDrills.Logger.WrapFree
import SystemsDrills.Logger.ReleaseAcquire
import SystemsDrills.LockLogger.Machine
import SystemsDrills.LockLogger.Conservation
import SystemsDrills.LockLogger.Workers
import SystemsDrills.Rcu.Machine
import SystemsDrills.Rcu.Solo
import SystemsDrills.Rcu.Invariant
import SystemsDrills.Rcu.Reclamation
import SystemsDrills.Rcu.Linearizable
import SystemsDrills.Rcu.Views
import SystemsDrills.Rcu.Refinement
import SystemsDrills.Rcu.Answers
import SystemsDrills.Lru.Cache
import SystemsDrills.Lru.History
import SystemsDrills.Lru.Inclusion
import SystemsDrills.Cas.MyAdd
import SystemsDrills.Cas.MyMax
import SystemsDrills.Cas.LockFree
import SystemsDrills.Parser.Wire
import SystemsDrills.Parser.ParseMsgs
import SystemsDrills.TicTacToe.Board
import SystemsDrills.TicTacToe.Lines
import SystemsDrills.TicTacToe.Game
import SystemsDrills.TicTacToe.Input
import SystemsDrills.Pool.Allocator
import SystemsDrills.Pool.InitPool
import SystemsDrills.Intervals.Merge
import SystemsDrills.Intervals.Canonical
import SystemsDrills.Shipping.ShipPackages
import SystemsDrills.ParkingLot.Lot
import SystemsDrills.ParkingLot.Counters
import SystemsDrills.ParkingLot.BestFit
import SystemsDrills.ParkingLot.Optimal
import SystemsDrills.ParkingLot.Tickets
import SystemsDrills.ParkingLot.Drivers
import SystemsDrills.ParkingLot.Layout
import SystemsDrills.Sudoku.Validators
import SystemsDrills.Sudoku.Exact
import SystemsDrills.Sudoku.Gatherers
import SystemsDrills.TwoSum.Map
import SystemsDrills.TwoSum.Pairs
import SystemsDrills.TwoSum.Sizing
import SystemsDrills.Memcpy.Memmove
import SystemsDrills.Parens.CheckParen
import SystemsDrills.WordCount.TopK
import SystemsDrills.WordCount.CountWords
import SystemsDrills.LinkedList.Reverse
import SystemsDrills.LinkedList.Merge
import SystemsDrills.LinkedList.BuildArray
import SystemsDrills.LinkedList.Destroy
import SystemsDrills.Islands.NumberOfIslands
import SystemsDrills.Islands.QueueBounds
import SystemsDrills.Oranges.OrangesRotting
import SystemsDrills.Oranges.QueueBounds
import SystemsDrills.Handoff.Handoff
import SystemsDrills.PingPong.Exchange
import SystemsDrills.Race.VisibleRace
import SystemsDrills.Atomic.Counter
