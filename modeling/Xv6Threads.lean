import Xv6Threads.Base.Except
import Xv6Threads.Base.Transition
import Xv6Threads.Base.Weight
import Xv6Threads.Memory.Layout
import Xv6Threads.Memory.Kalloc
import Xv6Threads.Memory.PageTable
import Xv6Threads.Memory.Vm
import Xv6Threads.Memory.Halting
import Xv6Threads.Memory.Mapping
import Xv6Threads.Memory.Release
import Xv6Threads.Process.Proc
import Xv6Threads.Process.Lifecycle
import Xv6Threads.Process.Calls
import Xv6Threads.Process.Exec
import Xv6Threads.Process.Tables
import Xv6Threads.System.Step
import Xv6Threads.Process.Entries
import Xv6Threads.Process.Rooms
import Xv6Threads.Base.Circular
import Xv6Threads.Base.Ledger
import Xv6Threads.Process.Files
import Xv6Threads.Process.Remaps
import Xv6Threads.Process.Groups
import Xv6Threads.Process.Moves
import Xv6Threads.Process.Calm
import Xv6Threads.Process.Handles
import Xv6Threads.Process.Still
import Xv6Threads.Process.Holdings
import Xv6Threads.Process.Sharing
import Xv6Threads.Process.Retains
import Xv6Threads.System.Groups
import Xv6Threads.System.Rings
import Xv6Threads.System.Orphans
import Xv6Threads.System.Transfers
import Xv6Threads.System.Lineage
import Xv6Threads.System.Waiting
import Xv6Threads.System.Waits
import Xv6Threads.System.References
import Xv6Threads.System.Stacks
import Xv6Threads.System.Locks
import Xv6Threads.System.Wakeups
import Xv6Threads.System.Chronicle
import Xv6Threads.System.Joins
import Xv6Threads.System.Frames
import Xv6Threads.System.PageCounts
import Xv6Threads.System.RefCount
import Xv6Threads.System.FreshSlots
import Xv6Threads.System.Kill
import Xv6Threads.Fs.Log
import Xv6Threads.Fs.Crash
import Xv6Threads.Base.Fifo
import Xv6Threads.Fs.Pipe
import Xv6Threads.Fs.Reserve
import Xv6Threads.Base.Links
import Xv6Threads.Fs.Bcache
import Xv6Threads.Fs.Coherence
import Xv6Threads.Memory.Supply
import Xv6Threads.Memory.Copying
import Xv6Threads.Memory.Copyout
import Xv6Threads.Process.Discarding
import Xv6Threads.Process.Loading
import Xv6Threads.Process.Arguments
import Xv6Threads.Process.Fitting
import Xv6Threads.System.Shrinking
import Xv6Threads.System.Growing
import Xv6Threads.Memory.Range
import Xv6Threads.System.Range
import Xv6Threads.Process.Supplies
import Xv6Threads.System.Spawning
import Xv6Threads.System.Threads
import Xv6Threads.System.Forking
import Xv6Threads.System.Equipped
import Xv6Threads.System.Family
import Xv6Threads.System.Execing
import Xv6Threads.Base.Bytes
import Xv6Threads.Memory.Copyin
import Xv6Threads.Fs.Inode
import Xv6Threads.Fs.Blocks
import Xv6Threads.Fs.Contents
import Xv6Threads.Fs.Trunc
import Xv6Threads.Fs.Clean
import Xv6Threads.Fs.Filewrite
import Xv6Threads.Base.Slots
import Xv6Threads.Fs.Names
import Xv6Threads.Fs.Dir
import Xv6Threads.Memory.Word
import Xv6Threads.Memory.Resizing
import Xv6Threads.Base.Trie
import Xv6Threads.Memory.Sv39
import Xv6Threads.Memory.Bindings
import Xv6Threads.Memory.Refinement
import Xv6Threads.Base.Path
import Xv6Threads.User.Umalloc
import Xv6Threads.User.FreeList
import Xv6Threads.User.Heap
import Xv6Threads.System.Removal
import Xv6Threads.System.Teardown
import Xv6Threads.User.Grammar
import Xv6Threads.User.Parsing
import Xv6Threads.User.Printing
import Xv6Threads.Virtio.Chains
import Xv6Threads.Virtio.Delivery
import Xv6Threads.Tty.Readers
import Xv6Threads.Tty.Uart
