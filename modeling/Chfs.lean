import Chfs.Blocks.Alloc
import Chfs.Blocks.Allocator
import Chfs.Blocks.Fill
import Chfs.Blocks.InUse
import Chfs.Blocks.Prefix
import Chfs.Blocks.Release
import Chfs.Blocks.Trim
import Chfs.Client.Calls
import Chfs.Client.Codec
import Chfs.Client.Creation
import Chfs.Client.DeadInodes
import Chfs.Client.Directory
import Chfs.Client.Failures
import Chfs.Client.FileCalls
import Chfs.Client.FileData
import Chfs.Client.FileSpec
import Chfs.Client.Grammar
import Chfs.Client.History
import Chfs.Client.Honest
import Chfs.Client.Inverse
import Chfs.Client.NameMap
import Chfs.Client.Nodes
import Chfs.Client.Operations
import Chfs.Client.Orderly
import Chfs.Client.Refines
import Chfs.Client.Returns
import Chfs.Client.Run
import Chfs.Client.SetLength
import Chfs.Client.Spec
import Chfs.Client.Start
import Chfs.Client.Times
import Chfs.Client.Tree
import Chfs.Client.Unlinking
import Chfs.Extent.Aborts
import Chfs.Extent.Accounting
import Chfs.Extent.AllOrNothing
import Chfs.Extent.Complete
import Chfs.Extent.Content
import Chfs.Extent.DiskFull
import Chfs.Extent.Fresh
import Chfs.Extent.InodesFull
import Chfs.Extent.Known
import Chfs.Extent.Leaks
import Chfs.Extent.Ledger
import Chfs.Extent.LifeCycle
import Chfs.Extent.OwnBytes
import Chfs.Extent.Ownership
import Chfs.Extent.Padding
import Chfs.Extent.Reaches
import Chfs.Extent.Refinement
import Chfs.Extent.RemoveAll
import Chfs.Extent.Run
import Chfs.Extent.StartUp
import Chfs.Extent.Times
import Chfs.Extent.WholeFiles
import Chfs.Extent.ZeroBlocks
import Chfs.Fuse.Dirbuf
import Chfs.Fuse.Dirent
import Chfs.Fuse.Handlers
import Chfs.Fuse.Paging
import Chfs.Fuse.Refines
import Chfs.Fuse.Returns
import Chfs.Fuse.Run
import Chfs.Fuse.Spec
import Chfs.Fuse.Walk
import Chfs.Inodes.Accessed
import Chfs.Inodes.Alloc
import Chfs.Inodes.Sequential
import Chfs.Inodes.Table
import Chfs.Inodes.Times
import Chfs.Inodes.Unchanged
import Chfs.Lib.Codec
import Chfs.Lib.Decimal
import Chfs.Lib.EdgeTree
import Chfs.Lib.Linearizable
import Chfs.Lib.LittleEndian
import Chfs.Lib.Memory
import Chfs.Lib.Monitor
import Chfs.Lib.Observed
import Chfs.Lib.Records
import Chfs.Lib.Separated
import Chfs.Lib.StdString
import Chfs.Lib.Trace
import Chfs.Lib.Words
import Chfs.Model.BlockManager
import Chfs.Model.ChfsClient
import Chfs.Model.Disk
import Chfs.Model.ExtentProtocol
import Chfs.Model.ExtentServer
import Chfs.Model.Fifo
import Chfs.Model.Fuse
import Chfs.Model.Inode
import Chfs.Model.InodeManager
import Chfs.Model.Marshall
import Chfs.Model.Part1Tester
import Chfs.Model.Rpc
import Chfs.Owned
import Chfs.ReadFile
import Chfs.RemoveFile
import Chfs.Rpc.Buffers
import Chfs.Rpc.Containers
import Chfs.Rpc.Fifo
import Chfs.Rpc.Handler
import Chfs.Rpc.Header
import Chfs.Rpc.Messages
import Chfs.Rpc.Operators
import Chfs.Rpc.Wakeups
import Chfs.Tester.Exchanges
import Chfs.Tester.Score
import Chfs.WriteFile.Contents
import Chfs.WriteFile.Direct
import Chfs.WriteFile.Ensure
import Chfs.WriteFile.Errors
import Chfs.WriteFile.FreeDirect
import Chfs.WriteFile.FreeIndirect
import Chfs.WriteFile.FreeUnused
import Chfs.WriteFile.Indirect
import Chfs.WriteFile.Input
import Chfs.WriteFile.Pointers
import Chfs.WriteFile.Spec
