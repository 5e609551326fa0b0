import ForkJoin.Calling
import ForkJoin.Tuning
import ForkJoin.Workload.Generator

/-!
# Answers, and long arrays in short

What a session answers to a request: the array afterwards, and for a traced request the calls that
were made, in an order that does not depend on when each was made.

A long array is told by its length, its two ends, and a hash of the written forms of its elements,
each followed by a comma: FNV-1a on 64 bits.
-/
namespace ForkJoin.Workload

variable {α : Type}

/-! ## Answers -/

/-- The calls that were made, by the natural order of their operands. -/
structure Trace (α : Type) where
  calls : Nat
  pairs : Array (α × α)

/-- Orders the operand pairs of calls. -/
def Trace.of [Element α] (calls : Array (α × α)) : Trace α where
  calls := calls.size
  pairs := (calls.toList.mergeSort fun x y =>
    ((Element.order x.1 y.1).then (Element.order x.2 y.2)).isLE).toArray

/-- What a session answers; the values are those of the array afterwards. -/
inductive Answer (α : Type) where
  | scanned (total : Option α) (values : Array α) (trace? : Option (Trace α))
  | sorted (values : Array α) (trace? : Option (Trace α))
  | refused (why : WindowError) (values : Array α) (trace? : Option (Trace α))
  | raised (message : String) (values : Array α)
  | tuned (tuning : Tuning)
  | broken (why : Fault)

/-! ## Digests -/

/-- A hash in the making. -/
structure Fnv where
  state : UInt64 := 0xcbf29ce484222325

namespace Fnv

def byte (h : Fnv) (b : UInt8) : Fnv := ⟨(h.state ^^^ b.toUInt64) * 0x100000001b3⟩

def text (h : Fnv) (s : String) : Fnv := s.toUTF8.foldl byte h

/-- A written form and the comma after it. -/
def item (h : Fnv) (s : String) : Fnv := (h.text s).text ","

end Fnv

/-- The digest of an array. -/
structure Digest (α : Type) where
  len : Nat
  hash : UInt64
  head : Array α
  tail : Array α

section

variable [Element α]

def Digest.of (xs : Array α) : Digest α where
  len := xs.size
  hash := (xs.foldl (fun h x => h.item (Element.text x)) ({} : Fnv)).state
  head := xs.extract 0 4
  tail := xs.extract (xs.size - 4) xs.size

/-- The hash of pairs, whose written form has a tilde between the two elements. -/
def hashPairs (pairs : Array (α × α)) : UInt64 :=
  (pairs.foldl (fun h (a, b) => h.item s!"{Element.text a}~{Element.text b}") ({} : Fnv)).state

end

end ForkJoin.Workload
