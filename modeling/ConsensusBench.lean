import ConsensusBench.Lib.AsyncNet
import ConsensusBench.Lib.Repeat
import ConsensusBench.Lib.HashMap
import ConsensusBench.Network
import ConsensusBench.Consensus
import ConsensusBench.Fault
import ConsensusBench.Pbft.State
import ConsensusBench.Lib.Ledger
import ConsensusBench.Pbft.Step
import ConsensusBench.Pbft.Ledger
import ConsensusBench.Pbft.Assign
import ConsensusBench.Pbft.Agreement
import ConsensusBench.Pbft.Certificate
import ConsensusBench.Lib.Rounds
import ConsensusBench.Pbft.Equivocation
import ConsensusBench.HotStuff.State
import ConsensusBench.Lib.Proposals
import ConsensusBench.HotStuff.Step
import ConsensusBench.HotStuff.Ledger
import ConsensusBench.HotStuff.Agreement
import ConsensusBench.HotStuff.Equivocation
import ConsensusBench.Raft.State
import ConsensusBench.Raft.Step
import ConsensusBench.Lib.Quorum
import ConsensusBench.Raft.Election
import ConsensusBench.Raft.Voting
import ConsensusBench.Lib.Replication
import ConsensusBench.Raft.Log
import ConsensusBench.Raft.Refinement
import ConsensusBench.Raft.Safety
import ConsensusBench.Raft.Holding
import ConsensusBench.Raft.Matching
import ConsensusBench.Raft.Stream
import ConsensusBench.Raft.Bootstrap
import ConsensusBench.Pbft.Views
import ConsensusBench.HotStuff.Views
import ConsensusBench.HotStuff.Certificate
import ConsensusBench.Pbft.Order
import ConsensusBench.HotStuff.Order
import ConsensusBench.Bft
import ConsensusBench.Crash
import ConsensusBench.HotStuff.Crash
import ConsensusBench.Cluster
import ConsensusBench.Schedule
import ConsensusBench.Lib.Pipeline
import ConsensusBench.Pbft.Round
import ConsensusBench.Pbft.Fifo
import ConsensusBench.Normal
import ConsensusBench.HotStuff.Round
import ConsensusBench.HotStuff.Fifo
import ConsensusBench.Lib.Relay
import ConsensusBench.Raft.Feed
import ConsensusBench.Raft.Fifo
import ConsensusBench.Raft.LeaderView
import ConsensusBench.Raft.CatchUp
import ConsensusBench.Isolation
import ConsensusBench.Pbft.Digest
import ConsensusBench.HotStuff.Digest
import ConsensusBench.HotStuff.Slots
import ConsensusBench.HotStuff.Highest
import ConsensusBench.Pbft.Promise
import ConsensusBench.Invariant
import ConsensusBench.Tamper
import ConsensusBench.Raft.Append
import ConsensusBench.Conservation
import ConsensusBench.Leaders
import ConsensusBench.Complexity
import ConsensusBench.Pbft.Numbering
import ConsensusBench.Harness
import ConsensusBench.Record
import ConsensusBench.Verdict
import ConsensusBench.Quiescence
import ConsensusBench.Benchmark
import ConsensusBench.Minority
import ConsensusBench.Raft.Split
import ConsensusBench.Forked
import ConsensusBench.Timed
import ConsensusBench.Pbft.Idle
import ConsensusBench.HotStuff.Idle
import ConsensusBench.Idle
import ConsensusBench.Standstill
import ConsensusBench.Raft.Reign
import ConsensusBench.Raft.Campaign
import ConsensusBench.Failover
