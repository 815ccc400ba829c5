import DdsBenchmark.Stream.Gaps
import DdsBenchmark.Stream.Growth
import DdsBenchmark.Stream.Pacing
import DdsBenchmark.Stream.OrderStats
import DdsBenchmark.Stream.Sequencing
import DdsBenchmark.Stream.Visits
import DdsBenchmark.Stream.Interleave
import DdsBenchmark.Stream.Classes
import DdsBenchmark.Table.Overwrite
import DdsBenchmark.Table.Upsert
import DdsBenchmark.Table.Snapshots
import DdsBenchmark.Memory.Chain
import DdsBenchmark.Concurrency.Runs
import DdsBenchmark.Concurrency.Logged
import DdsBenchmark.CLib.Text
import DdsBenchmark.CLib.Getopt
import DdsBenchmark.CLib.Scan
import DdsBenchmark.Netload.Throughput
import DdsBenchmark.Netload.LossAccounting
import DdsBenchmark.Netload.LossRate
import DdsBenchmark.Netload.Latency
import DdsBenchmark.Netload.Percentiles
import DdsBenchmark.Publisher.Loop
import DdsBenchmark.Publisher.Accounting
import DdsBenchmark.Publisher.Rate
import DdsBenchmark.Cli.ParseArgs
import DdsBenchmark.Cputime.StatText
import DdsBenchmark.Cputime.StatusText
import DdsBenchmark.Cputime.Monitor
import DdsBenchmark.Cputime.Walk
import DdsBenchmark.Cputime.Matching
import DdsBenchmark.Cputime.Failures
import DdsBenchmark.Cputime.Runs
import DdsBenchmark.Cputime.Attribution
import DdsBenchmark.Transport.Cyclone
import DdsBenchmark.Transport.Trace
import DdsBenchmark.Transport.Handles
import DdsBenchmark.Transport.Routing
import DdsBenchmark.Transport.Faults
import DdsBenchmark.Wire.Words
import DdsBenchmark.Wire.Codec
import DdsBenchmark.Wire.Fields
import DdsBenchmark.Wire.CdrStream
import DdsBenchmark.Wire.TestData
import DdsBenchmark.Wire.Serdata
import DdsBenchmark.Wire.Streaming
import DdsBenchmark.Wire.RoundTrip
import DdsBenchmark.Wire.Acceptance
import DdsBenchmark.Wire.Pipeline
import DdsBenchmark.Listener.EventQueue
import DdsBenchmark.Listener.Exclusion
import DdsBenchmark.Listener.Ownership
import DdsBenchmark.Listener.Delivery
import DdsBenchmark.Listener.Progress
import DdsBenchmark.Perf.Samples
import DdsBenchmark.Perf.Histogram
import DdsBenchmark.Perf.PubThread
import DdsBenchmark.Perf.Latency
import DdsBenchmark.Perf.Eseq
import DdsBenchmark.Perf.Losses
import DdsBenchmark.Perf.Verdict
import DdsBenchmark.Perf.Report
import DdsBenchmark.Perf.Lines
import DdsBenchmark.Perf.Announce
import DdsBenchmark.Perf.Participants
import DdsBenchmark.Perf.PongWriters
import DdsBenchmark.Perf.Discovery
import DdsBenchmark.Perf.Expected
import DdsBenchmark.Perf.Answers
import DdsBenchmark.Perf.Matching
