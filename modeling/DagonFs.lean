import DagonFs.Lib.BlockSplit
import DagonFs.Lib.Collective
import DagonFs.Lib.Runs
import DagonFs.FileSystem.Namespace
import DagonFs.FileSystem.Changes
import DagonFs.FileSystem.FileLinks
import DagonFs.FileSystem.DirectoryLinks
import DagonFs.FileSystem.Reclaim
import DagonFs.FileSystem.Failures
import DagonFs.FileSystem.ExtendedAttributes
import DagonFs.Blocks.Distribution
import DagonFs.Blocks.MachineArithmetic
import DagonFs.ClientServer.Addressing
import DagonFs.ClientServer.Protocol
import DagonFs.ClientServer.Sessions
import DagonFs.ClientServer.Bounds
import DagonFs.ClientServer.Handles
import DagonFs.ClientServer.Accounting
import DagonFs.ClientServer.Exposure
import DagonFs.ClientServer.FailedAllocations
import DagonFs.ClientServer.NodeTables
import DagonFs.ClientServer.Overwrites
import DagonFs.ClientServer.PartialReads
import DagonFs.ClientServer.RecordedRanks
import DagonFs.FileSystem.ListingChanges
import DagonFs.PeerToPeer.BlockCounts
import DagonFs.PeerToPeer.Broadcast
import DagonFs.PeerToPeer.Collectives
import DagonFs.PeerToPeer.DataPath
import DagonFs.PeerToPeer.LostBlocks
import DagonFs.PeerToPeer.Numbering
import DagonFs.PeerToPeer.Packets
import DagonFs.PeerToPeer.Replays
import DagonFs.PeerToPeer.SameTree
import DagonFs.PeerToPeer.Sizes
import DagonFs.PeerToPeer.Splits
import DagonFs.PeerToPeer.TwoWays
import DagonFs.ClientServer.Interleavings
import DagonFs.ClientServer.ReadBack
import DagonFs.ClientServer.Startup
import DagonFs.PeerToPeer.Termination
import DagonFs.PeerToPeer.SharedFiles
import DagonFs.PeerToPeer.Progress
import DagonFs.FileSystem.KernelView
import DagonFs.FileSystem.Forest
import DagonFs.FileSystem.Lasting
import DagonFs.FileSystem.Turnover
import DagonFs.Launcher
