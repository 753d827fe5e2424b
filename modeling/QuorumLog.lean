import QuorumLog.Main
import QuorumLog.Cli.FileTree
import QuorumLog.Cluster
import QuorumLog.Format.Hex
import QuorumLog.Log.Shelf
import QuorumLog.Net.Loopback
import QuorumLog.Proofs.DurableCopies
import QuorumLog.Proofs.LateAnnouncement
import QuorumLog.Proofs.LittleEndian
import QuorumLog.Proofs.ReportedDurability
import QuorumLog.Proofs.StoredLog
import QuorumLog.Rehearsal.Follower
import QuorumLog.Rehearsal.Reception
import QuorumLog.Settings.Source
import QuorumLog.System
import QuorumLog.Wire.Frame
import QuorumLog.Wire.Refusal
import QuorumLog.Proofs.TornRecords
import QuorumLog.Proofs.SegmentRecovery
import QuorumLog.Proofs.Purging
import QuorumLog.Proofs.StoredRuns
import QuorumLog.Proofs.TornTail
import QuorumLog.Proofs.Bystanders
import QuorumLog.Proofs.ComparedHistory
import QuorumLog.Proofs.CarriedEntries
import QuorumLog.Proofs.ShippingRuns
import QuorumLog.Proofs.DurablePrefix
import QuorumLog.Proofs.AfterStop
import QuorumLog.Proofs.KnownHistory
import QuorumLog.Proofs.EntryShipment
import QuorumLog.Proofs.FrameFormat
import QuorumLog.Proofs.FrameStreams
import QuorumLog.Proofs.Checksums
import QuorumLog.Proofs.DamagedLogs
import QuorumLog.Proofs.Handshakes
import QuorumLog.Proofs.TurnedAway
import QuorumLog.Proofs.OpenedSegments
import QuorumLog.Proofs.CatchUpEnds
import QuorumLog.Proofs.Rotation
import QuorumLog.Proofs.SourceOrder
import QuorumLog.Proofs.LinkRoster
import QuorumLog.Proofs.Accounts
import QuorumLog.Proofs.FrameBursts
import QuorumLog.Proofs.FailedAppends
import QuorumLog.Proofs.StuckFiles
import QuorumLog.Proofs.ReadableRecords
import QuorumLog.Proofs.HandedEntries
import QuorumLog.Proofs.ReceivedEntries
import QuorumLog.Proofs.SkippedEntries
import QuorumLog.Proofs.WithoutConnections
import QuorumLog.Proofs.OvertakenConnections
import QuorumLog.Proofs.StrayFiles
import QuorumLog.Proofs.PagedReading
import QuorumLog.Proofs.SharedOutcomes
import QuorumLog.Proofs.LineRuns
import QuorumLog.Proofs.SettingLimits
import QuorumLog.Proofs.SupervisedAttempts
import QuorumLog.Proofs.RetoldInput
import QuorumLog.Proofs.SavedSettings
import QuorumLog.Proofs.ReplicaProgress
import QuorumLog.Proofs.EntryChecksums
