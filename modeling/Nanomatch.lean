import Nanomatch.Proofs.IdMapRuns
import Nanomatch.Proofs.Bitmap
import Nanomatch.Lib.LinkedList
import Nanomatch.Proofs.LadderWf
import Nanomatch.Proofs.ExactRuns
import Nanomatch.Proofs.StlOrderBook
import Nanomatch.Proofs.LadderCount
import Nanomatch.Proofs.BaselineRuns
import Nanomatch.Proofs.LedgerRuns
import Nanomatch.Proofs.LadderGreedy
import Nanomatch.Cached
import Nanomatch.Proofs.LadderCached
import Nanomatch.Proofs.Makers
import Nanomatch.Proofs.CachedRuns
import Nanomatch.Proofs.PriorityRuns
import Nanomatch.Proofs.AsyncLogger
import Nanomatch.Proofs.MatchGreedy
import Nanomatch.Proofs.IdTableRuns
import Nanomatch.Lib.Interleaving
import Nanomatch.SPSCQueue
import Nanomatch.Lib.Framing
import Nanomatch.ItchParser
import Nanomatch.ItchFeed
import Nanomatch.Proofs.ItchFraming
import Nanomatch.Proofs.ItchMessages
import Nanomatch.Proofs.ItchBounds
import Nanomatch.Proofs.ItchApart
import Nanomatch.Proofs.ItchTickers
import Nanomatch.Proofs.Owners
import Nanomatch.Proofs.OwnersRuns
import Nanomatch.Proofs.BitmapScans
import Nanomatch.Proofs.IdTableSize
import Nanomatch.Proofs.EventRuns
import Nanomatch.Proofs.UndoRuns
import Nanomatch.Proofs.VolumeRuns
import Nanomatch.Proofs.PriceRuns
import Nanomatch.Proofs.TableRuns
import Nanomatch.Proofs.TradeRuns
import Nanomatch.Proofs.ReportWhole
import Nanomatch.Proofs.MmapParser
import Nanomatch.Proofs.EngineRuns
import Nanomatch.Proofs.BaselineSize
import Nanomatch.Proofs.MockData
import Nanomatch.Proofs.MockRuns
import Nanomatch.Proofs.RoutingRuns
import Nanomatch.Proofs.VenueRuns
import Nanomatch.Proofs.ItchInterleave
import Nanomatch.Proofs.DiagnosticsRuns
import Nanomatch.Proofs.ItchMain
import Nanomatch.Proofs.TableReplay
import Nanomatch.Proofs.ReportText
import Nanomatch.Proofs.ExchangeRuns
