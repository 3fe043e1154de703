import Ntfs2Btrfs.Lib.Extents
import Ntfs2Btrfs.Lib.SortedMap
import Ntfs2Btrfs.Lib.ByteStore
import Ntfs2Btrfs.Lib.BitRuns
import Ntfs2Btrfs.Lib.PackedRecords
import Ntfs2Btrfs.Lib.PrefixCode
import Ntfs2Btrfs.Lib.SignedFields
import Ntfs2Btrfs.Lib.Visits
import Ntfs2Btrfs.Lib.Exploration
import Ntfs2Btrfs.Lib.ReflectedDivision
import Ntfs2Btrfs.Lib.Turns
import Ntfs2Btrfs.Basic
import Ntfs2Btrfs.SpaceList
import Ntfs2Btrfs.Items
import Ntfs2Btrfs.Allocator
import Ntfs2Btrfs.AllocatorRuns
import Ntfs2Btrfs.BitmapScan
import Ntfs2Btrfs.BitmapRuns
import Ntfs2Btrfs.DataChunks
import Ntfs2Btrfs.ChunkPlacement
import Ntfs2Btrfs.Crc32c
import Ntfs2Btrfs.Crc32cRegisters
import Ntfs2Btrfs.Runs
import Ntfs2Btrfs.Checksums
import Ntfs2Btrfs.Root
import Ntfs2Btrfs.Links
import Ntfs2Btrfs.Unicode
import Ntfs2Btrfs.FileNames
import Ntfs2Btrfs.DataBitmap
import Ntfs2Btrfs.RunSplitting
import Ntfs2Btrfs.Relocation
import Ntfs2Btrfs.Protection
import Ntfs2Btrfs.Regions
import Ntfs2Btrfs.UsedSpace
import Ntfs2Btrfs.RunAssignment
import Ntfs2Btrfs.Mappings
import Ntfs2Btrfs.RunLists
import Ntfs2Btrfs.AttributeWalk
import Ntfs2Btrfs.ProcessMappings
import Ntfs2Btrfs.AttributeRead
import Ntfs2Btrfs.DeviceRead
import Ntfs2Btrfs.WalkTermination
import Ntfs2Btrfs.AttributeOrder
import Ntfs2Btrfs.FileRead
import Ntfs2Btrfs.Fixups
import Ntfs2Btrfs.IndexTermination
import Ntfs2Btrfs.Lznt1Safety
import Ntfs2Btrfs.RollbackExtents
import Ntfs2Btrfs.SplitAttributes
import Ntfs2Btrfs.InPlaceData
import Ntfs2Btrfs.VolumeLabel
import Ntfs2Btrfs.Utf8
import Ntfs2Btrfs.ExtendedAttributes
import Ntfs2Btrfs.ExtentItems
import Ntfs2Btrfs.WriteSafety
import Ntfs2Btrfs.WofDecompress
import Ntfs2Btrfs.LzoStreams
import Ntfs2Btrfs.TreeFormat
import Ntfs2Btrfs.TreeContents
import Ntfs2Btrfs.TreeWalk
import Ntfs2Btrfs.TreePositions
import Ntfs2Btrfs.TreeTermination
import Ntfs2Btrfs.MetadataLoop
import Ntfs2Btrfs.MetadataAccounts
import Ntfs2Btrfs.MetadataConsistency
import Ntfs2Btrfs.LeafUpdates
import Ntfs2Btrfs.RootItems
import Ntfs2Btrfs.FinishedTrees
import Ntfs2Btrfs.ConversionEnd
