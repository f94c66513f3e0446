import Vdf.FatCapacity
import Vdf.Recalc
import Vdf.Tree
import Vdf.Layout
import Vdf.Partition
import Vdf.Fat
import Vdf.FatWalk
import Vdf.Fat12Walk
import Vdf.FatServed
import Vdf.DirSlots
import Vdf.DataServed
import Vdf.DirServed
import Vdf.BootParse
import Vdf.BootLabel
import Vdf.RecalcChecks
import Vdf.AutoCreate
import Vdf.LongSlots
import Vdf.Rooted
import Vdf.Deletion
import Vdf.Failure
import Vdf.Sizes
import Vdf.Shortnames
import Vdf.Locked
import Vdf.Cache
import Vdf.Lookup
import Vdf.Tags
import Vdf.NbdImage
import Vdf.NbdReplies
import Vdf.TransportLocks
import Vdf.Clusters
import Vdf.RootSlots
import Vdf.Lib.Ring
import Vdf.Reorder
import Vdf.DosNames
import Vdf.FatStays
import Vdf.Fat12Served
import Vdf.DataStays
import Vdf.Lib.Regions
import Vdf.ReadParts
import Vdf.ReadCount
import Vdf.Image
import Vdf.ImageBytes
import Vdf.Lib.Shown
import Vdf.Lib.FatVolume
import Vdf.Lib.FatCheck
import Vdf.Listing
import Vdf.Mount
import Vdf.NbdMount
import Vdf.NbdThread
import Vdf.Check
import Vdf.DriveStop
import Vdf.Dump
import Vdf.Lib.Calendar
import Vdf.Dates
import Vdf.Callbacks
import Vdf.DirIndex
import Vdf.Paths
import Vdf.Counts
import Vdf.RunMount
import Vdf.ReadLeaks
import Vdf.ReadSplit
