import Etaos.Crt.Time
import Etaos.Lib.List
import Etaos.Library.Run

/-!
# Timers

The timers of a clock source, from `timer.c` and `clocksource.c`.  The timers that run are on
the list of the clock source, and `timer_process` calls the handlers of the timers at its
front until it meets one that has not expired.  A handler touches no timer.
-/

namespace Etaos.Time

open Lib Crt

/-- The number of values of `unsigned long` and of `unsigned int`. -/
structure Widths where
  ulong : ℕ
  uint : ℕ

/-- The AVR, where `unsigned long` has 32 bits and `unsigned int` has 16. -/
def Widths.avr : Widths where
  ulong := 2 ^ 32
  uint := 2 ^ 16

/-- The list heads in memory: the field `timers` of the clock source, and the field `entry` of
the timer at an address. -/
inductive Entry where
  | timers
  | entry (timer : ℕ)
  deriving DecidableEq

/-- The structure `struct timer`, without its list entry and its clock source. -/
structure Timer where
  handle : Option ℕ
  privData : ℕ
  expireAt : ℤ
  interval : ℕ

/-- A call of a handler. -/
structure Call where
  handle : ℕ
  timer : ℕ
  arg : ℕ
  deriving DecidableEq

/-- The structure `struct clocksource`, with the memory of its timers. -/
structure Clocksource where
  freq : ℕ
  count : ℕ
  tcUpdate : ℕ
  lists : ListHeads Entry
  timer : ℕ → Timer
  /-- The timers whose memory is allocated. -/
  live : List ℕ

namespace Clocksource

/-- The function `clocksource_init`. -/
def clocksourceInit (cs : Clocksource) (freq : ℕ) : Clocksource :=
  { cs with freq, count := 0, tcUpdate := 0, lists := cs.lists.listHeadInit .timers }

/-- The function `clocksource_get_tick`. -/
def clocksourceGetTick (cs : Clocksource) : ℕ :=
  cs.count

/-- The function `clocksource_update`. -/
def clocksourceUpdate (cs : Clocksource) : Clocksource :=
  { cs with tcUpdate := cs.clocksourceGetTick }

/-- The function `timer_is_expired`. -/
def timerIsExpired (cs : Clocksource) (timer : ℕ) : Bool :=
  let now := toInt64 cs.clocksourceGetTick
  now ≥ (cs.timer timer).expireAt

/-- The function `timer_list_comparator`. -/
def timerListComparator (cs : Clocksource) (t1 t2 : ℕ) : ℤ :=
  if (cs.timer t1).expireAt < (cs.timer t2).expireAt then
    -1
  else if (cs.timer t1).expireAt > (cs.timer t2).expireAt then
    1
  else
    0

/-- The walk of `raw_clocksource_insert_timer`. -/
def insertLoop (cs : Clocksource) (timer : ℕ) : ℕ → Entry → Option Clocksource
  | _, .timers => some cs
  | 0, .entry _ => none
  | n + 1, .entry carriage =>
      if cs.lists.listIsLast (.entry carriage) .timers then do
        let lists ← cs.lists.listAdd (.entry timer) (.entry carriage)
        some { cs with lists }
      else if cs.timerListComparator timer carriage ≤ 0 then do
        let lists ← cs.lists.listAddTail (.entry timer) (.entry carriage)
        some { cs with lists }
      else do
        let next ← cs.lists.next (.entry carriage)
        insertLoop cs timer n next

/-- The function `raw_clocksource_insert_timer`. -/
def rawClocksourceInsertTimer (cs : Clocksource) (timer : ℕ) : Option Clocksource := do
  if cs.lists.listEmpty .timers then
    let lists ← cs.lists.listAdd (.entry timer) .timers
    some { cs with lists }
  else
    let carriage ← cs.lists.next .timers
    cs.insertLoop timer cs.live.length carriage

/-- The function `timer_create`, where `mem` is the memory that `kzalloc` returns. -/
def timerCreate (w : Widths) (cs : Clocksource) (ms : ℕ) (handle : Option ℕ) (arg flags : ℕ)
    (mem : Option ℕ) : Option (Clocksource × Option ℕ) :=
  match mem with
  | none => some (cs, none)
  | some timer => do
      let expire := cs.freq / 1000 * ms % w.ulong
      let interval := if flags.testBit 0 then 0 else expire % w.uint
      let expireAt := toInt64 (expire + cs.clocksourceGetTick)
      let cs := { cs with
        lists := cs.lists.listHeadInit (.entry timer)
        timer := Function.update cs.timer timer { handle, privData := arg, expireAt, interval }
        live := timer :: cs.live }
      let cs ← cs.rawClocksourceInsertTimer timer
      some (cs, some timer)

/-- The function `kfree`. -/
def kfree (cs : Clocksource) (timer : ℕ) : Clocksource :=
  { cs with live := cs.live.erase timer }

/-- The function `timer_stop`. -/
def timerStop (cs : Clocksource) (timer : ℕ) : Option Clocksource := do
  guard (timer ∈ cs.live)
  let lists ← cs.lists.listDel (.entry timer)
  some ({ cs with lists }.kfree timer)

/-- The timer that was processed runs again, or is released. -/
def rearm (cs : Clocksource) (timer : ℕ) : Option Clocksource :=
  if (cs.timer timer).interval ≠ 0 then
    let expireAt := toInt64 ((cs.timer timer).interval + cs.clocksourceGetTick)
    { cs with timer := Function.update cs.timer timer { cs.timer timer with expireAt } }
      |>.rawClocksourceInsertTimer timer
  else
    some (cs.kfree timer)

/-- The walk of `timer_process`, with the calls of handlers it makes. -/
def processLoop : ℕ → Entry → Entry → Clocksource → Option (Clocksource × List Call)
  | _, .timers, _, cs => some (cs, [])
  | 0, .entry _, _, _ => none
  | n + 1, .entry timer, x, cs =>
      if cs.timerIsExpired timer then do
        let lists ← cs.lists.listDel (.entry timer)
        let call := (cs.timer timer).handle.map fun handle =>
          { handle, timer, arg := (cs.timer timer).privData }
        let cs ← { cs with lists }.rearm timer
        let next ← cs.lists.next x
        let (cs, calls) ← processLoop n x next cs
        some (cs, call.toList ++ calls)
      else
        some (cs, [])

/-- The function `timer_process`. -/
def timerProcess (cs : Clocksource) : Option (Clocksource × List Call) := do
  let cs := cs.clocksourceUpdate
  let carriage ← cs.lists.next .timers
  let x ← cs.lists.next carriage
  processLoop (cs.live.length + 1) carriage x cs

end Clocksource

/-! ### Runs -/

/-- A clock source with the timers that were created, stopped and fired. -/
structure TimerSystem where
  cs : Clocksource
  /-- The expiry of every timer created, in the order of creation. -/
  expiry : List ℕ
  /-- The place in the order of creation of the timer at an address. -/
  serial : ℕ → ℕ
  /-- The timers that were stopped, by their places. -/
  stopped : List ℕ
  /-- The timers whose handler was called, by their places, and the ticks of the calls. -/
  fired : List (ℕ × ℕ)

/-- What happens to a clock source. -/
inductive TimerOp where
  | create (ms handle arg flags : ℕ) (mem : Option ℕ)
  | stop (timer : ℕ)
  | tick (n : ℕ)
  | process
  deriving DecidableEq

namespace TimerSystem

/-- A step of a clock source.  Memory that is allocated is not allocated again. -/
def step (w : Widths) (s : TimerSystem) : TimerOp → Option TimerSystem
  | .create ms handle arg flags mem => do
      guard (∀ t ∈ mem, t ∉ s.cs.live)
      let (cs, timer) ← s.cs.timerCreate w ms (some handle) arg flags mem
      match timer with
      | none => some { s with cs }
      | some timer => some { s with
          cs
          expiry := s.expiry ++ [s.cs.count + s.cs.freq / 1000 * ms]
          serial := Function.update s.serial timer s.expiry.length }
  | .stop timer => do
      let cs ← s.cs.timerStop timer
      some { s with cs, stopped := s.serial timer :: s.stopped }
  | .tick n => some { s with cs := { s.cs with count := (s.cs.count + n) % 2 ^ 64 } }
  | .process => do
      let (cs, calls) ← s.cs.timerProcess
      some { s with
        cs
        fired := s.fired ++ calls.map fun call => (s.serial call.timer, s.cs.count) }

/-- The clock source of a frequency after its initialization. -/
def init (freq : ℕ) : TimerSystem where
  cs :=
    { freq, count := 0, tcUpdate := 0
      lists := { next := fun _ => none, prev := fun _ => none }
      timer := fun _ => { handle := none, privData := 0, expireAt := 0, interval := 0 }
      live := [] : Clocksource }.clocksourceInit freq
  expiry := []
  serial := fun _ => 0
  stopped := []
  fired := []

end TimerSystem

end Etaos.Time
