import ForkJoin.Proofs.EveryPolicy
import ForkJoin.Proofs.Scan.Adjacent
import ForkJoin.Proofs.Scan.CallCount
import ForkJoin.Proofs.Scan.Depth
import ForkJoin.Proofs.Scan.Prefix
import ForkJoin.Proofs.Sorting.AnyComparator
import ForkJoin.Proofs.Sorting.Comparisons
import ForkJoin.Proofs.Sorting.Distinct
import ForkJoin.Proofs.Sorting.LastReport
import ForkJoin.Proofs.Sorting.LeafSorts
import ForkJoin.Proofs.Sorting.SharedBuffers
import ForkJoin.Proofs.Sorting.Shuffle
import ForkJoin.Proofs.Sorting.SortedInput
import ForkJoin.Workload.Digest
import ForkJoin.Workload.Generator
import ForkJoin.Workload.Session
