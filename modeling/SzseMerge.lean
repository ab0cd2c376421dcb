import SzseMerge.Text
import SzseMerge.StableSort
import SzseMerge.FileSystem
import SzseMerge.Events
import SzseMerge.KWayMerge
import SzseMerge.MergeBatch
import SzseMerge.MultiPass
import SzseMerge.RoundSchedule
import SzseMerge.Build
import SzseMerge.Main
import SzseMerge.Polars.Split
import SzseMerge.Polars.Merge
import SzseMerge.Polars.SplitEvents
