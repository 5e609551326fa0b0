import ForkJoin.Scan
import ForkJoin.Workload.Digest
import ForkJoin.Workload.Functions

/-!
# Sessions

A session holds an array and a setting of the knobs, on which scans and sorts are run one after
another. A request that fails leaves the array as it was. A traced request runs on one thread, and
its answer tells the calls that were made, in an order that does not depend on when each was made.
-/
namespace ForkJoin.Workload

variable {α γ : Type}

/-! ## Requests -/

/-- Where a kernel gets its window and its tuning from. -/
inductive Entry where
  /-- All of the array, with the tuning for the threads there are. -/
  | entire
  /-- A window, with the tuning for the threads there are. -/
  | window (w : Window)
  /-- A window, with the tuning of the session. -/
  | tuned (w : Window)

/-- What a sort goes by. -/
inductive Criterion (α : Type) where
  /-- The natural order, on all of the array. -/
  | natural
  /-- The order of some key, on all of the array. -/
  | key (sort : KeySort α)
  | comparator (cmp : Comparator α) (entry : Entry)

/-- What a session is asked to do. -/
inductive Request (α : Type) where
  | scan (op : Operator α) (entry : Entry) (traced : Bool)
  | sort (criterion : Criterion α) (traced : Bool)
  /-- Turns knobs. -/
  | tune (settings : List (Tuning.Knob × Count))

/-! ## Sessions -/

structure Session (α : Type) where
  threads : Count
  tuning : Tuning
  values : Array α

namespace Session

variable [Element α]

/-- The threads that a request runs on. -/
def threadsFor (s : Session α) (traced : Bool) : Count :=
  if traced then { val := 1 } else s.threads

def traceOf (traced : Bool) (calls : Array (α × α)) : Option (Trace α) :=
  if traced then some (Trace.of calls) else none

/-- Takes over the array of a kernel that succeeded. -/
def conclude (s : Session α) (traced : Bool) (values : γ → Array α)
    (answer : γ → Option (Trace α) → Answer α) :
    Except (Failure String) (Report α γ) → Answer α × Session α
  | .ok r => (answer r.result (traceOf traced r.calls), { s with values := values r.result })
  | .error (.window why) => (.refused why s.values (traceOf traced #[]), s)
  | .error (.raised message) => (.raised message s.values, s)
  | .error (.fault why) => (.broken why, s)

/-- Scans the array. -/
def runScan (s : Session α) (op : Operator α) (traced : Bool) :
    Entry → Except (Failure String) (Report α (Scanned α))
  | .entire => scan (s.threadsFor traced) op s.values
  | .window w => scanWindow (s.threadsFor traced) op s.values w
  | .tuned w => scanWith s.tuning op s.values w

/-- Sorts the array. -/
def runSort (s : Session α) (traced : Bool) :
    Criterion α → Except (Failure String) (Report α (Array α))
  | .natural =>
    have : Ord α := ⟨Element.order⟩
    sort (s.threadsFor traced) s.values
  | .key sort => sort (s.threadsFor traced) s.values
  | .comparator cmp .entire => sortBy (s.threadsFor traced) cmp s.values
  | .comparator cmp (.window w) => sortWindowBy (s.threadsFor traced) cmp s.values w
  | .comparator cmp (.tuned w) => sortWith s.tuning cmp s.values w

/-- Answers one request. -/
def answer (s : Session α) : Request α → Answer α × Session α
  | .scan op entry traced =>
    s.conclude traced (·.values) (fun r => .scanned r.total r.values) (s.runScan op traced entry)
  | .sort criterion traced =>
    s.conclude traced id Answer.sorted (s.runSort traced criterion)
  | .tune settings =>
    let tuning := s.tuning.setAll settings
    (.tuned tuning, { s with tuning := tuning })

/-- Answers requests one after another. -/
def answers (s : Session α) : List (Request α) → List (Answer α)
  | [] => []
  | r :: rs =>
    let (a, s) := s.answer r
    a :: s.answers rs

end Session

end ForkJoin.Workload
