import LogLinear.Collector
import LogLinear.Exchange
import LogLinear.Histogram.Merge
import LogLinear.Histogram.Percentile
import LogLinear.Note
import LogLinear.Proofs.Cell.Accuracy
import LogLinear.Proofs.Cell.Adjoint
import LogLinear.Proofs.Cell.Partition
import LogLinear.Proofs.Collector.Mirror
import LogLinear.Proofs.Histogram.Finer
import LogLinear.Proofs.Histogram.LookedUp
import LogLinear.Proofs.Histogram.Quantity
import LogLinear.Proofs.Histogram.Recounted
import LogLinear.Proofs.Histogram.Sharding
import LogLinear.Proofs.Layout.Sizes
import LogLinear.Proofs.Rank.Extremes
import LogLinear.Proofs.Ticks.Level
import LogLinear.Proofs.Traversal.Attained
import LogLinear.Proofs.Traversal.Cells
import LogLinear.Proofs.Traversal.Ending
import LogLinear.Proofs.Traversal.Forecast
import LogLinear.Proofs.Traversal.Inquiries
import LogLinear.Proofs.Traversal.Percents
import LogLinear.Proofs.Traversal.Queries
import LogLinear.Setup
import LogLinear.Traversal.Cells
import LogLinear.Traversal.Ticks
import LogLinear.Proofs.Ticks.Halving
