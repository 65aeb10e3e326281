import Tusk.Benchmark.ClientSchedule
import Tusk.Benchmark.SilentClients
import Tusk.Config
import Tusk.Consensus.Agreement
import Tusk.Consensus.Availability
import Tusk.Consensus.Causality
import Tusk.Consensus.CommitOnce
import Tusk.Consensus.CommittedRound
import Tusk.Consensus.CommitteeRun
import Tusk.Consensus.Completeness
import Tusk.Consensus.Contents
import Tusk.Consensus.Deployment
import Tusk.Consensus.Elections
import Tusk.Consensus.Execution
import Tusk.Consensus.Feedback
import Tusk.Consensus.Filing
import Tusk.Consensus.FinitePool
import Tusk.Consensus.LeaderAgreement
import Tusk.Consensus.LeaderFlags
import Tusk.Consensus.LeaderOrder
import Tusk.Consensus.Pool
import Tusk.Consensus.Propagation
import Tusk.Consensus.Run
import Tusk.Consensus.Searches
import Tusk.Consensus.State
import Tusk.Consensus.SubDags
import Tusk.Consensus.Totality
import Tusk.Consensus.Tracking
import Tusk.Crypto
import Tusk.KeyEncoding
import Tusk.Lib.Base64
import Tusk.Lib.Commands
import Tusk.Lib.FixedWidth
import Tusk.Lib.HashMap
import Tusk.Lib.Parts
import Tusk.Lib.Progress
import Tusk.Lib.Quorums
import Tusk.Lib.Ranking
import Tusk.Lib.Results
import Tusk.Lib.RoundDag
import Tusk.Lib.RoundRobin
import Tusk.Lib.Runs
import Tusk.Lib.SortedCollections
import Tusk.Lib.Worklist
import Tusk.Network.Ordering
import Tusk.Network.Receiver
import Tusk.Network.Recovery
import Tusk.Network.ReliableSender
import Tusk.Network.SimpleSender
import Tusk.Primary.Adversary
import Tusk.Primary.Aggregators
import Tusk.Primary.AssembledCertificates
import Tusk.Primary.Assembly
import Tusk.Primary.Assertions
import Tusk.Primary.Ballots
import Tusk.Primary.CausalHandover
import Tusk.Primary.CertificateSoundness
import Tusk.Primary.CertificateUniqueness
import Tusk.Primary.CertifiedBatches
import Tusk.Primary.CollectionWindows
import Tusk.Primary.Core
import Tusk.Primary.CoreActs
import Tusk.Primary.CoreMoves
import Tusk.Primary.CoreRecursion
import Tusk.Primary.CoreState
import Tusk.Primary.FailedWrites
import Tusk.Primary.FaultyCore
import Tusk.Primary.HeaderEncoding
import Tusk.Primary.HeaderErrors
import Tusk.Primary.HeaderWaiter
import Tusk.Primary.Helper
import Tusk.Primary.JustifiedVotes
import Tusk.Primary.LeaderWindows
import Tusk.Primary.Messages
import Tusk.Primary.MissingPayload
import Tusk.Primary.NodeCleanup
import Tusk.Primary.NodeHeaders
import Tusk.Primary.OwnCertificates
import Tusk.Primary.OwnHeaders
import Tusk.Primary.OwnRounds
import Tusk.Primary.OwnVotes
import Tusk.Primary.ParentChecks
import Tusk.Primary.ParentRequests
import Tusk.Primary.PositiveRounds
import Tusk.Primary.PrimaryNode
import Tusk.Primary.ProposedHeaders
import Tusk.Primary.ProposedParents
import Tusk.Primary.Proposer
import Tusk.Primary.Reception
import Tusk.Primary.RejectedCertificates
import Tusk.Primary.ReportedBatches
import Tusk.Primary.SilentAuthorities
import Tusk.Primary.Store
import Tusk.Primary.StoreContents
import Tusk.Primary.SuspendedCertificates
import Tusk.Primary.Synchronizer
import Tusk.Primary.VoteConsistency
import Tusk.Primary.VoteTally
import Tusk.Primary.WaitingHeaders
import Tusk.Store.BlockingReads
import Tusk.Store.Task
import Tusk.Thresholds
import Tusk.Worker.AwaitedBatches
import Tusk.Worker.BatchMaker
import Tusk.Worker.BatchSilence
import Tusk.Worker.Cluster
import Tusk.Worker.Dissemination
import Tusk.Worker.QuorumWaiter
import Tusk.Worker.Receivers
import Tusk.Worker.Reporting
import Tusk.Worker.Storage
import Tusk.Worker.Synchronizer
