import Fissure.Analysis.AnnounceQuery
import Fissure.Analysis.AnnouncedProgress
import Fissure.Analysis.BlockBookkeeping
import Fissure.Analysis.CompactPeers
import Fissure.Analysis.CompleteDownload
import Fissure.Analysis.ConcurrencyCounts
import Fissure.Analysis.ConnectionStream
import Fissure.Analysis.DiskFailures
import Fissure.Analysis.DownloadPaths
import Fissure.Analysis.ExpiredAssignments
import Fissure.Analysis.ExpiredRequests
import Fissure.Analysis.HandshakeReply
import Fissure.Analysis.HaveCursor
import Fissure.Analysis.HonestSeeds
import Fissure.Analysis.InformedPeers
import Fissure.Analysis.Interest
import Fissure.Analysis.LegacyAnnounce
import Fissure.Analysis.LoadedMetainfo
import Fissure.Analysis.OneBuffer
import Fissure.Analysis.OrderIndependence
import Fissure.Analysis.PassFixpoint
import Fissure.Analysis.PeersContacted
import Fissure.Analysis.ReadBack
import Fissure.Analysis.Recovery
import Fissure.Analysis.Survival
import Fissure.Analysis.TierRotation
import Fissure.Analysis.UdpAgreement
import Fissure.Analysis.WakeUps
import Fissure.Analysis.WatchdogRace
