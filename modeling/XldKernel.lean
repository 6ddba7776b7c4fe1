import XldKernel.ByteMemory
import XldKernel.GuardedRun
import XldKernel.IntervalTiling
import XldKernel.LinkedPath
import XldKernel.FiniteWalk
import XldKernel.Lists
import XldKernel.PmmBitmap
import XldKernel.PmmAlloc
import XldKernel.PmmInit
import XldKernel.PmmOwnership
import XldKernel.PmmCounter
import XldKernel.PmmAccess
import XldKernel.PmmBoot
import XldKernel.HeapModel
import XldKernel.HeapLayout
import XldKernel.HeapBlocks
import XldKernel.HeapCalls
import XldKernel.HeapTiling
import XldKernel.HeapData
import XldKernel.HeapCoalescing
import XldKernel.HeapSizes
import XldKernel.HeapReturns
import XldKernel.HeapAlignment
import XldKernel.BlockDevice
import XldKernel.FatTable
import XldKernel.FatDirectory
import XldKernel.FatSlots
import XldKernel.FatFile
import XldKernel.FatChain
import XldKernel.FatWriting
import XldKernel.FatVolume
import XldKernel.FatNames
import XldKernel.FatTree
import XldKernel.FatLookup
import XldKernel.FatCreate
import XldKernel.FatCheck
import XldKernel.FatIntegrity
import XldKernel.FatMount
import XldKernel.FatNamespace
import XldKernel.FatDotEntries
import XldKernel.UniformBlocks
import XldKernel.FatReading
import XldKernel.FatWriteRuns
import XldKernel.FatAppending
import XldKernel.FatFaults
import XldKernel.FatLinkFaults
import XldKernel.FatSession
import XldKernel.FaultSchedules
import XldKernel.FatReadCosts
import XldKernel.FatFaultyCreate
import XldKernel.FatFaultyWrites
import XldKernel.FatLostSectors
import XldKernel.FatOpenFailure
import XldKernel.FatRollback
import XldKernel.FatUniqueNames
import XldKernel.FatListing
import XldKernel.FatWalks
import XldKernel.FatListedNames
import XldKernel.FatReadBounds
import XldKernel.FatAllocation
import XldKernel.FatTransfers
import XldKernel.Vfs
import XldKernel.VfsDispatch
import XldKernel.VfsHandles
import XldKernel.VfsFat32
import XldKernel.VfsPositions
import XldKernel.VfsSeeking
import XldKernel.VfsOpening
import XldKernel.VfsSlots
import XldKernel.Components
import XldKernel.FatPaths
import XldKernel.FatParents
import XldKernel.FatFlatDirectory
import XldKernel.FatShortNames
import XldKernel.FatMountArithmetic
import XldKernel.VfsComponents
import XldKernel.VfsLongPaths
import XldKernel.TreeLevels
import XldKernel.FatListingCounts
import XldKernel.FatEntries
import XldKernel.MemoryRoutines
import XldKernel.StringCopy
import XldKernel.Klog
import XldKernel.KlogNumbers
import XldKernel.KlogFormat
import XldKernel.Ps2
import XldKernel.AtaPio
import XldKernel.StoreBuffers
import XldKernel.Spinlock
import XldKernel.PmmLocking
import XldKernel.SectorMedium
import XldKernel.AtaChannel
import XldKernel.AtaTransfer
import XldKernel.DeviceSimulation
import XldKernel.FatSimulation
import XldKernel.DeviceLocality
import XldKernel.FatLocality
import XldKernel.AtaVolume
import XldKernel.AtaInit
import XldKernel.X86
import XldKernel.DescriptorTables
import XldKernel.InterruptStubs
import XldKernel.Pic
import XldKernel.KeyboardPath
import XldKernel.Console
import XldKernel.ConsoleLog
