import Luxir.Store.WriterFencing
import Luxir.Index.SnapshotRetention
import Luxir.Index.RunsRoundTrip
import Luxir.Index.TrieRoundTrip
import Luxir.Schema.FieldPattern
import Luxir.Screaming.SetRoundTrip
import Luxir.Codec.PforVectors
import Luxir.Points.BKDRoundTrip
import Luxir.Util.OrderedMerge
import Luxir.Search.ReaderFreshness
import Luxir.Queries.BooleanPlan
import Luxir.Queries.KeyFaithfulness
import Luxir.Search.OrdMapRoundTrip
import Luxir.Search.FacetRuns
import Luxir.Search.FrequentTerms
import Luxir.Index.CommitAccounting
import Luxir.Index.VersionWatermark
import Luxir.Index.FileRetention
import Luxir.Index.IdResolution
import Luxir.Util.GranulePartition
import Luxir.Util.DistinctSketch
import Luxir.Util.DeadlineScheduler
