import ComputerNetworking.Scheduling.Ring

/-!
# The calendar scheduler

`CalendarScheduler` of `common/scheduler.cc`. Events are filed by time into the
buckets of a year; each bucket is a ring of events, kept here as the list that
starts at `list_`. Times are exact numbers, and the width a resize arrives at is
an argument of the call. A failed assertion, a null pointer followed and a loop
that would not end are errors.
-/

set_option autoImplicit false

namespace ComputerNetworking.Scheduling

open ComputerNetworking.Foundations

/-- The conversion of a `double` to an `int`. -/
def toInt (x : ℚ) : ℤ := if x < 0 then ⌈x⌉ else ⌊x⌋

/-- The remainder of `fmod`, of the sign of `x`. -/
def fmod (x y : ℚ) : ℚ := x - toInt (x / y) * y

/-- `CalendarScheduler::Bucket`. -/
structure Bucket where
  list : List Event := []
  count : ℤ := 0

/-- The state of `CalendarScheduler`. -/
structure CalendarScheduler where
  minBinWidth : ℚ
  adjustNewWidthInterval : ℕ
  timeToNewwidth : ℕ
  headSearch : ℕ
  insertSearch : ℕ
  roundNum : ℤ
  gapNum : ℤ
  lastTime : ℚ
  avgGap : ℚ
  width : ℚ
  diff0 : ℚ
  diff1 : ℚ
  diff2 : ℚ
  /-- the number of distinct priorities in the queue -/
  statQsize : ℤ
  nbuckets : ℕ
  lastbucket : ℕ
  topThreshold : ℤ
  botThreshold : ℤ
  buckets : ℕ → Bucket
  qsize : ℤ
  calClock : ℚ

/-- A search of `head`: the bucket it looks at, the bucket and the earliest of
the events it has come by, and the event it stops at. -/
structure Search where
  i : ℕ
  l : Option ℕ := none
  minE : Option Event := none
  found : Option Event := none
  headSearch : ℕ

namespace CalendarScheduler

/-- `CALENDAR_HASH`. -/
def hash (c : CalendarScheduler) (t : ℚ) : ℕ := (toInt (fmod (t / c.width) c.nbuckets)).toNat

/-- `CalendarScheduler::reinit`. -/
def reinit (c : CalendarScheduler) (nbuck : ℕ) (bwidth start : ℚ) : CalendarScheduler :=
  let c := { c with buckets := fun _ => {}, width := bwidth, nbuckets := nbuck, qsize := 0,
                    statQsize := 0 }
  { c with lastbucket := c.hash start
           diff0 := bwidth * nbuck / 2
           diff1 := bwidth * nbuck / 2 + bwidth
           diff2 := bwidth * nbuck
           botThreshold := (nbuck / 2 : ℕ) - 2
           topThreshold := 2 * nbuck }

/-- The constructor. Only with an adjustment interval does it set the adjustment's
fields, which it finds as `raw` has them. -/
def create (adjust : ℕ) (minBinWidth : ℚ) (raw : CalendarScheduler) : CalendarScheduler :=
  let c := { raw with adjustNewWidthInterval := adjust, minBinWidth, calClock := 0 }
  let c := if adjust = 0 then c
    else { c with avgGap := -2, lastTime := -2, gapNum := 0, headSearch := 0, insertSearch := 0,
                  roundNum := 0, timeToNewwidth := adjust }
  c.reinit 4 1 c.calClock

/-- Bucket `i` gets the ring `list` with one event more, whose time is new to it
if `unique`. -/
def place (c : CalendarScheduler) (i : ℕ) (list : List Event) (unique : Bool) :
    CalendarScheduler :=
  let more : ℤ := if unique then 1 else 0
  { c with buckets := Function.update c.buckets i { list, count := (c.buckets i).count + more }
           statQsize := c.statQsize + more
           qsize := c.qsize + 1 }

/-- Bucket `i` gets the ring `list` with one event less, which was alone with its
time if `alone`. -/
def remove (c : CalendarScheduler) (i : ℕ) (list : List Event) (alone : Bool) :
    CalendarScheduler :=
  let less : ℤ := if alone then 1 else 0
  { c with buckets := Function.update c.buckets i { list, count := (c.buckets i).count - less }
           statQsize := c.statQsize - less
           qsize := c.qsize - 1 }

/-- `CalendarScheduler::insert2`: in front of the events of the same time. -/
def insert2 (c : CalendarScheduler) (e : Event) : CalendarScheduler :=
  let i := c.hash e.time
  match (c.buckets i).list with
  | [] => c.place i [e] true
  | head :: rest =>
      let ring :=
        if e.time > (prev (head :: rest) head).time then (head :: rest) ++ [e]
        else (head :: rest).takeWhile (fun before => e.time > before.time) ++
          e :: (head :: rest).dropWhile (fun before => e.time > before.time)
      c.place i ring (e ≠ next ring e ∧ (next ring e).time ≠ e.time)

/-- The fullest bucket of `newwidth`. -/
def maxBucket (c : CalendarScheduler) : ℕ :=
  (List.range' 1 (c.nbuckets - 1)).foldl
    (fun m i => if (c.buckets i).count > (c.buckets m).count then i else m) 0

/-- `CalendarScheduler::newwidth`, which returns the width it is given. -/
def newwidth (c : CalendarScheduler) (fresh : ℚ) : Except Failure (ℚ × CalendarScheduler) :=
  let c := if c.adjustNewWidthInterval = 0 then c
    else { c with timeToNewwidth := c.adjustNewWidthInterval }
  if c.adjustNewWidthInterval ≠ 0 ∧ c.avgGap > 0 then .ok (fresh, c)
  else
    let full := c.buckets c.maxBucket
    if full.count ≤ 4 then .ok (fresh, c)
    else
      match full.list with
      | [] => .error .nullPointer
      | head :: rest =>
          if (prev (head :: rest) head).time - head.time > 0 then .ok (fresh, c)
          else .error .assertion

/-- The part of `resize` behind the choice of the width. From the end of each
bucket `insert2` keeps the order of the events of one time. -/
def rebuild (c : CalendarScheduler) (newsize : ℕ) (bwidth start : ℚ) : CalendarScheduler :=
  let events := (List.range c.nbuckets).flatMap fun i => (c.buckets i).list.reverse
  { events.foldl insert2 (c.reinit newsize bwidth start) with
    headSearch := 0, insertSearch := 0, roundNum := 0 }

/-- `CalendarScheduler::resize`. -/
def resize (c : CalendarScheduler) (newsize : ℕ) (start : ℚ) (w : Widths) :
    Except Failure CalendarScheduler :=
  if newsize = c.nbuckets then
    if w.searched < c.minBinWidth then
      if c.timeToNewwidth > 0 then
        -- failed to adjust the width
        .ok { c with timeToNewwidth := c.timeToNewwidth - 1, headSearch := 0, insertSearch := 0,
                     roundNum := 0 }
      else
        match c.newwidth w.fresh with
        | .error f => .error f
        | .ok (bwidth, c) => .ok (c.rebuild newsize bwidth start)
    else .ok (c.rebuild newsize w.searched start)
  else
    match c.newwidth w.fresh with
    | .error f => .error f
    | .ok (bwidth, c) => .ok (c.rebuild (if newsize < 4 then 4 else newsize) bwidth start)

/-- The part of `insert` that files the event. -/
def file (c : CalendarScheduler) (e : Event) : CalendarScheduler :=
  let i := c.hash e.time
  match (c.buckets i).list with
  | [] => c.place i [e] true
  | head :: rest =>
      let c := { c with insertSearch := c.insertSearch + 1 }
      if e.time < head.time then c.place i (e :: head :: rest) true
      else
        -- the walk from the tail stops at `after`, the last event that is not later
        let later := (head :: rest).rtakeWhile (fun a => e.time < a.time)
        let upto := (head :: rest).rdropWhile (fun a => e.time < a.time)
        let c := { c with insertSearch := c.insertSearch + later.length }
        c.place i (upto ++ e :: later) (upto.getLast?.any fun after => after.time < e.time)

/-- `CalendarScheduler::insert`. -/
def insert (c : CalendarScheduler) (e : Event) (w : Widths) : Except Failure CalendarScheduler :=
  let c := if c.calClock > e.time then
      { c with calClock := e.time, lastbucket := c.hash e.time }
    else c
  let c := c.file e
  if c.statQsize > c.topThreshold then c.resize (2 * c.nbuckets) c.calClock w else .ok c

/-- `CAL_DEQUEUE`; a search that has found its event goes no further. -/
def calDequeue (c : CalendarScheduler) (diffx : ℚ) (s : Search) : Search :=
  if s.found.isSome then s
  else
    let s := { s with headSearch := s.headSearch + 1 }
    let succ := if s.i + 1 = c.nbuckets then 0 else s.i + 1
    match (c.buckets s.i).list.head? with
    | none => { s with i := succ }
    | some e =>
        if e.time - c.calClock < diffx then { s with l := some s.i, found := some e }
        else if s.minE.all (fun m => m.time > e.time) then
          { s with minE := some e, l := some s.i, i := succ }
        else { s with i := succ }

/-- The loop of `head` up to the bucket before the last one dequeued from. -/
def scanYear (c : CalendarScheduler) (lastbucketDec : ℕ) : ℕ → Search → Except Failure Search
  | 0, _ => .error .endless
  | fuel + 1, s =>
      if s.found.isSome ∨ s.i = lastbucketDec then .ok s
      else c.scanYear lastbucketDec fuel (c.calDequeue c.diff2 s)

/-- The end of `head`: the last bucket is left unchecked, take the minimum. -/
def settle (c : CalendarScheduler) (s : Search) : Option Event × Option ℕ :=
  match s.found with
  | some e => (some e, s.l)
  | none =>
      let e := (c.buckets s.i).list.head?
      if s.minE.isSome ∧ e.all (fun e => s.minE.any fun m => m.time < e.time) then (s.minE, s.l)
      else (e, some s.i)

/-- `CalendarScheduler::head`. -/
def head (c : CalendarScheduler) : Except Failure (Option Event × CalendarScheduler) :=
  if c.qsize = 0 then .ok (none, c)
  else
    let lastbucketDec := if c.lastbucket = 0 then c.nbuckets - 1 else c.lastbucket - 1
    let start : Search := { i := c.lastbucket, headSearch := c.headSearch }
    match c.scanYear lastbucketDec c.nbuckets (c.calDequeue c.diff1 (c.calDequeue c.diff0 start))
    with
    | .error f => .error f
    | .ok s =>
        match c.settle s with
        | (_, none) => .error .assertion
        | (none, some _) => .error .nullPointer
        | (some e, some l) =>
            .ok (some e, { c with headSearch := s.headSearch, lastbucket := l,
                                  calClock := e.time })

/-- The adjustment of the bin width in `deque`. -/
def adjust (c : CalendarScheduler) (e : Event) (w : Widths) : Except Failure CalendarScheduler :=
  if c.adjustNewWidthInterval = 0 then .ok c
  else if c.lastTime < 0 then .ok { c with lastTime := e.time }
  else
    let c := { c with gapNum := c.gapNum + 1 }
    if c.gapNum < c.qsize then .ok c
    else
      let c := { c with avgGap := (e.time - c.lastTime) / c.gapNum, gapNum := 0,
                        lastTime := e.time, roundNum := c.roundNum + 1 }
      if c.roundNum > 20 ∧
          (c.headSearch > 2 * c.insertSearch ∨ c.insertSearch > 2 * c.headSearch) then
        match c.resize c.nbuckets c.calClock w with
        | .error f => .error f
        | .ok c => .ok { c with roundNum := 0 }
      else if c.roundNum > 100 then
        .ok { c with roundNum := 0, headSearch := 0, insertSearch := 0 }
      else .ok c

/-- `CalendarScheduler::deque`. -/
def deque (c : CalendarScheduler) (w w' : Widths) :
    Except Failure (Option Event × CalendarScheduler) :=
  match c.head with
  | .error f => .error f
  | .ok (none, c) => .ok (none, c)
  | .ok (some e, c) =>
      match c.adjust e w with
      | .error f => .error f
      | .ok c =>
          let l := c.lastbucket
          let ring := (c.buckets l).list
          let c := c.remove l (others ring e)
            (next ring e = e ∨ (next ring e).time ≠ e.time)
          if c.statQsize < c.botThreshold then
            match c.resize (c.nbuckets / 2) c.calClock w' with
            | .error f => .error f
            | .ok c => .ok (some e, c)
          else .ok (some e, c)

/-- `CalendarScheduler::cancel`. -/
def cancel (c : CalendarScheduler) (e : Event) : Except Failure CalendarScheduler :=
  if e.uid ≤ 0 then .ok c
  else
    let i := c.hash e.time
    let ring := (c.buckets i).list
    let alone : Bool := next ring e = e ∨
      ((next ring e).time ≠ e.time ∧ (prev ring e).time ≠ e.time)
    let c' := c.remove i (ring.erase e) alone
    if next ring (prev ring e) = e ∧ prev ring (next ring e) = e ∧
        (alone = true → 0 ≤ c'.statQsize ∧ 0 ≤ (c'.buckets i).count) ∧
        (next ring e = e → ring.head? = some e) ∧
        ((c'.buckets i).count = 0 → (c'.buckets i).list = []) then .ok c'
    else .error .assertion

/-- `CalendarScheduler::lookup`. -/
def lookup (c : CalendarScheduler) (uid : ℤ) : Option Event :=
  (List.range c.nbuckets).findSome? fun i => (c.buckets i).list.find? (·.uid = uid)

/-- The virtual functions. -/
def discipline : Discipline CalendarScheduler := { insert, cancel, lookup, head, deque }

end CalendarScheduler

end ComputerNetworking.Scheduling
