import GstPravega.Lib.Program
import GstPravega.Lib.Threads
import GstPravega.Lib.Checkpoint
import GstPravega.Lib.BigEndian
import GstPravega.Lib.Bisect
import GstPravega.Lib.Framing
import GstPravega.Lib.Io
import GstPravega.Lib.Write
import GstPravega.Lib.Readers
import GstPravega.Lib.Storage
import GstPravega.Lib.Log
import GstPravega.Lib.Machine
import GstPravega.Lib.Calls
import GstPravega.Lib.Extremes
import GstPravega.Lib.MovingAverage
import GstPravega.Client.ByteStream
import GstPravega.Client.ByteReader
import GstPravega.Gst.Buffer
import GstPravega.Video.Timestamp
import GstPravega.Video.EventSerde
import GstPravega.Video.Index
import GstPravega.Video.Decoding
import GstPravega.Plugin.Retention
import GstPravega.Plugin.Writer
import GstPravega.Plugin.Sink
import GstPravega.Plugin.TransactionCoordinator
import GstPravega.Plugin.FragMp4Pay
import GstPravega.Plugin.Reader
import GstPravega.Plugin.Src
import GstPravega.Plugin.TimestampCvt
import GstPravega.Server.Db
import GstPravega.Deepstream.ProtocolAdapter
import GstPravega.Proofs.IndexSearch
import GstPravega.Proofs.RetentionDays
import GstPravega.Proofs.SizeSearch
import GstPravega.Proofs.RetentionBytes
import GstPravega.Proofs.Truncation
import GstPravega.Proofs.Discontinuity
import GstPravega.Proofs.Fragments
import GstPravega.Proofs.SinkWorld
import GstPravega.Proofs.Commands
import GstPravega.Proofs.SinkSpec
import GstPravega.Proofs.SinkCalls
import GstPravega.Proofs.SinkHistory
import GstPravega.Proofs.CrashSafety
import GstPravega.Proofs.AtomicAppends
import GstPravega.Proofs.MarkedIndex
import GstPravega.Proofs.SinkSession
import GstPravega.Proofs.Fates
import GstPravega.Proofs.IndexDecision
import GstPravega.Proofs.IndexedEvents
import GstPravega.Proofs.TimePartition
import GstPravega.Proofs.Cadence
import GstPravega.Proofs.RenderSucceeds
import GstPravega.Proofs.SrcReads
import GstPravega.Proofs.RoundTrip
import GstPravega.Proofs.TimeWindow
import GstPravega.Proofs.Playlist
import GstPravega.Proofs.Recovery
import GstPravega.Proofs.Resume
import GstPravega.Proofs.Decoders
import GstPravega.Proofs.SearchMonotone
import GstPravega.Proofs.PlaylistStability
import GstPravega.Proofs.FinalRecord
import GstPravega.Proofs.FirstEvent
import GstPravega.Proofs.Restart
import GstPravega.Proofs.SeekTarget
import GstPravega.Proofs.SkipAhead
import GstPravega.Proofs.BoundedReader
import GstPravega.Proofs.OutputTimes
import GstPravega.Proofs.Unconvertible
import GstPravega.Proofs.Offsets
import GstPravega.Proofs.Writers
import GstPravega.Proofs.Atoms
import GstPravega.Proofs.Payloader
import GstPravega.Proofs.PlayableIndex
import GstPravega.Proofs.PayCalls
import GstPravega.Proofs.FragmentTimes
import GstPravega.Proofs.StaleMoof
import GstPravega.Proofs.MissingTimes
import GstPravega.Proofs.TargetDuration
import GstPravega.Proofs.UnixTime
import GstPravega.Proofs.SkipGrowth
import GstPravega.Proofs.WriterPool
import GstPravega.Proofs.AdapterCalls
import GstPravega.Proofs.Redelivery
import GstPravega.Proofs.SrcReplay
import GstPravega.Lib.Snapshot
import GstPravega.Proofs.LiveSearch
import GstPravega.Proofs.RetentionRuns
import GstPravega.Proofs.LiveReader
import GstPravega.Proofs.SrcSession
import GstPravega.Lib.Versioned
import GstPravega.Proofs.Attempts
import GstPravega.Proofs.LivePlaylist
import GstPravega.Proofs.PlaylistPolls
