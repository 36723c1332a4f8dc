import Mathlib

/-!
# The ring buffer

`RingBuffer` is the circular queue of `internal/queue/ring.go`: two free-running 64-bit counters
`head` and `tail`, a power-of-two `capacity`, and a `mask` that turns a counter into a slot index.
The counters are never reduced, so `PushFront` on a fresh buffer takes `head` below zero and both
counters live modulo `2 ^ 64` from then on.

Slots are a function of the slot index. The source indexes a slice of length `capacity`, and only
ever through `& mask`; `RingBuffer.Shape.slot_lt` is the bound that makes the two the same thing.

The mutex and the condition variable have no counterpart here: every definition below is one
critical section of the source, run to its end.
-/

namespace VortexMQ

/-- The largest capacity the ring grows to; from here on a full ring drops messages instead. -/
def saturationCapacity : UInt64 := 16777216

/-- Go's conversion `int(x)` of an unsigned 64-bit value. -/
def goInt (x : UInt64) : ℤ := x.toInt64.toInt

structure RingBuffer (α : Type) where
  /-- Slot contents; `none` is the nil pointer. -/
  nodes : UInt64 → Option α
  /-- Counter of the first unconsumed element. -/
  head : UInt64
  /-- Counter one past the last element. -/
  tail : UInt64
  mask : UInt64
  capacity : UInt64
  closed : Bool

namespace RingBuffer

variable {α : Type}

/-! ## The operations -/

/-- The rounding loop `for capacity < cap { capacity <<= 1 }`. Sixty-four doublings take any
starting value to zero, where the loop spins forever, so running out of `fuel = 65` means that the
source does not terminate. -/
def roundUp (cap : UInt64) : ℕ → UInt64 → Option UInt64
  | 0, _ => none
  | fuel + 1, capacity =>
      if capacity < cap then roundUp cap fuel (capacity <<< 1) else some capacity

/-- `NewRingBuffer`. Besides the endless loop, `none` is the run-time panic of `make`, whose length
argument has to be representable as an `int`. Memory is unbounded here: on a 64-bit machine `make`
panics above `2 ^ 45` slots already, and runs out of memory long before. -/
def newRingBuffer (cap : UInt64) : Option (RingBuffer α) :=
  (roundUp cap 65 1).bind fun rounded ↦
    let capacity := if rounded < 1024 then 1024 else rounded
    if 2 ^ 63 ≤ capacity.toNat then none
    else some
      { nodes := fun _ ↦ none, head := 0, tail := 0, mask := capacity - 1, capacity := capacity,
        closed := false }

def len (rb : RingBuffer α) : ℤ := goInt (rb.tail - rb.head)

def cap (rb : RingBuffer α) : ℤ := goInt rb.capacity

/-- The nodes of the reallocated slice after `n` rounds of the copying loop of `grow`. -/
def growNodes (rb : RingBuffer α) : ℕ → UInt64 → Option α
  | 0 => fun _ ↦ none
  | n + 1 => Function.update (growNodes rb n) (UInt64.ofNat n)
      (rb.nodes ((rb.head + UInt64.ofNat n) &&& rb.mask))

/-- `grow`: double the capacity and re-base the live elements to slot zero. -/
def grow (rb : RingBuffer α) : RingBuffer α :=
  { rb with
    nodes := rb.growNodes (rb.tail - rb.head).toNat
    capacity := rb.capacity * 2
    mask := rb.capacity * 2 - 1
    head := 0
    tail := rb.tail - rb.head }

/-- What both pushes do first when the buffer is full: `drop` an element once the capacity has
reached its ceiling, `grow` otherwise. -/
def makeRoom (rb : RingBuffer α) (drop : RingBuffer α → RingBuffer α) : RingBuffer α :=
  if rb.capacity ≤ rb.tail - rb.head then
    if saturationCapacity ≤ rb.capacity then drop rb else rb.grow
  else rb

/-- `rb.head++`, which loses the oldest element. -/
def dropOldest (rb : RingBuffer α) : RingBuffer α := { rb with head := rb.head + 1 }

/-- `rb.tail--`, which loses the newest element. -/
def dropNewest (rb : RingBuffer α) : RingBuffer α := { rb with tail := rb.tail - 1 }

/-- Store at the slot of `tail` and advance `tail`. -/
def writeTail (rb : RingBuffer α) (msg : α) : RingBuffer α :=
  { rb with
    nodes := Function.update rb.nodes (rb.tail &&& rb.mask) (some msg)
    tail := rb.tail + 1 }

/-- Retreat `head` and store at its slot. -/
def writeHead (rb : RingBuffer α) (msg : α) : RingBuffer α :=
  { rb with
    nodes := Function.update rb.nodes ((rb.head - 1) &&& rb.mask) (some msg)
    head := rb.head - 1 }

def push (rb : RingBuffer α) (msg : α) : Bool × RingBuffer α :=
  if rb.closed then (false, rb) else (true, (rb.makeRoom dropOldest).writeTail msg)

def pushFront (rb : RingBuffer α) (msg : α) : Bool × RingBuffer α :=
  if rb.closed then (false, rb) else (true, (rb.makeRoom dropNewest).writeHead msg)

/-- The section shared by `Pop`, `PopWait` and the loop of `PopBatch`: read the slot of `head`,
clear it, advance `head`. -/
def takeHead (rb : RingBuffer α) : Option α × RingBuffer α :=
  (rb.nodes (rb.head &&& rb.mask),
    { rb with
      nodes := Function.update rb.nodes (rb.head &&& rb.mask) none
      head := rb.head + 1 })

/-- `Pop`: the message, the `ok` flag and the new buffer. -/
def pop (rb : RingBuffer α) : (Option α × Bool) × RingBuffer α :=
  if rb.head = rb.tail then ((none, false), rb)
  else ((rb.takeHead.1, true), rb.takeHead.2)

/-- The loop of `PopBatch`, `count` rounds of it. -/
def takeBatch (rb : RingBuffer α) : ℕ → List (Option α) × RingBuffer α
  | 0 => ([], rb)
  | count + 1 =>
      let (batch, rb') := takeBatch rb.takeHead.2 count
      (rb.takeHead.1 :: batch, rb')

/-- `PopBatch`. A negative `count` would make `make` panic; that is the outer `none`. -/
def popBatch (rb : RingBuffer α) (max : ℤ) : Option (List (Option α) × RingBuffer α) :=
  if max ≤ 0 then some ([], rb)
  else
    let avail := goInt (rb.tail - rb.head)
    if avail = 0 then some ([], rb)
    else
      let count := if avail < max then avail else max
      if count < 0 then none else some (rb.takeBatch count.toNat)

def close (rb : RingBuffer α) : RingBuffer α := { rb with closed := true }

end RingBuffer

end VortexMQ
