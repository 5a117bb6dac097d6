import ComputerNetworking.Analysis.WiredCounts
import ComputerNetworking.Analysis.WirelessCounts

/-!
# The comparison of RED and NARED

A loop of `run.sh` appends a parameter value to a file, and then the analysis of
the trace appends a line of numbers, unless a division by zero ends it. `summary.py`
tells the two kinds of lines apart by the number of their fields and pairs the
numbers by their places. The pairing is right exactly if every run of both loops
sent and received a packet in some time, and in a wireless network reported an
energy (`paired_iff_measured`).
-/

set_option autoImplicit false

namespace ComputerNetworking.Analysis

/-- A line of a parameter file: its fields, which are numbers. -/
abbrev FileLine := List ℚ

/-- The network type that `summary.py` is called with. -/
inductive NetworkType where
  | wired
  | wireless
deriving DecidableEq, Repr

/-- A loop of `run.sh` after `n` turns, over the parameter values and what the
analysis of each trace has to print; `ofmt` is the rounding of awk's `print`. -/
def loop (ofmt : ℚ → ℚ) (value : ℕ → ℕ) (report : ℕ → Option (List ℚ)) : ℕ → List FileLine
  | 0 => []
  | n + 1 =>
      loop ofmt value report n ++ [[(value n : ℚ)]] ++ ((report n).map (List.map ofmt)).toList

/-- The lists of one file's metrics in `summary.py`. -/
structure Axes where
  throughput : List ℚ := []
  avgdelay : List ℚ := []
  deliveryratio : List ℚ := []
  dropratio : List ℚ := []
  energyConsumption : List ℚ := []
deriving DecidableEq, Repr

/-- Appends the fields of a line to the lists; `none` is the `IndexError` of a missing
field. -/
def Axes.append (net : NetworkType) (a : Axes) (separatedLine : FileLine) : Option Axes := do
  let throughput ← separatedLine[0]?
  let avgdelay ← separatedLine[1]?
  let deliveryratio ← separatedLine[2]?
  let dropratio ← separatedLine[3]?
  let a := { a with throughput := a.throughput ++ [throughput]
                    avgdelay := a.avgdelay ++ [avgdelay]
                    deliveryratio := a.deliveryratio ++ [deliveryratio]
                    dropratio := a.dropratio ++ [dropratio] }
  match net with
  | .wired => pure a
  | .wireless => do
      let energy ← separatedLine[4]?
      pure { a with energyConsumption := a.energyConsumption ++ [energy] }

/-- One turn of the loop over the lines of `params_RED.txt`. -/
def redLine (net : NetworkType) (acc : List ℚ × Axes) (separatedLine : FileLine) :
    Option (List ℚ × Axes) :=
  if separatedLine.length > 1 then (acc.2.append net separatedLine).map fun a => (acc.1, a)
  else separatedLine[0]?.map fun value => (acc.1 ++ [value], acc.2)

/-- One turn of the loop over the lines of `params_NARED.txt`. -/
def naredLine (net : NetworkType) (a : Axes) (separatedLine : FileLine) : Option Axes :=
  if separatedLine.length > 1 then a.append net separatedLine else some a

/-- The lists of `summary.py`: the values of the x axis, and the metrics of the files. -/
def summary (net : NetworkType) (params_RED params_NARED : List FileLine) :
    Option (List ℚ × Axes × Axes) := do
  let (xAxisValues, red) ← params_RED.foldlM (redLine net) ([], {})
  let nared ← params_NARED.foldlM (naredLine net) {}
  pure (xAxisValues, red, nared)

/-- All lists of a file have the length `m`. -/
def Axes.HasLength (net : NetworkType) (a : Axes) (m : ℕ) : Prop :=
  a.throughput.length = m ∧ a.avgdelay.length = m ∧ a.deliveryratio.length = m ∧
    a.dropratio.length = m ∧ (net = .wireless → a.energyConsumption.length = m)

/-- The `k`-th entries of the lists of a file. -/
def Axes.entry (net : NetworkType) (a : Axes) (k : ℕ) : Option (List ℚ) := do
  let throughput ← a.throughput[k]?
  let avgdelay ← a.avgdelay[k]?
  let deliveryratio ← a.deliveryratio[k]?
  let dropratio ← a.dropratio[k]?
  match net with
  | .wired => pure [throughput, avgdelay, deliveryratio, dropratio]
  | .wireless => do
      let energy ← a.energyConsumption[k]?
      pure [throughput, avgdelay, deliveryratio, dropratio, energy]

/-- The lists have an entry for each of the `n` values, and the `k`-th entries come
from the `k`-th value, its trace under RED and its trace under NARED. -/
structure Paired (net : NetworkType) (ofmt : ℚ → ℚ) (value : ℕ → ℕ)
    (red nared : ℕ → Option (List ℚ)) (n : ℕ) (xs : List ℚ) (r s : Axes) : Prop where
  length_eq : xs.length = n
  red_length : r.HasLength net xs.length
  nared_length : s.HasLength net xs.length
  entries : ∀ k < n, xs[k]? = some (value k : ℚ) ∧
    (∃ m, red k = some m ∧ r.entry net k = some (m.map ofmt)) ∧
    ∃ m, nared k = some m ∧ s.entry net k = some (m.map ofmt)

section Reading

variable {net : NetworkType} {ofmt : ℚ → ℚ} {value : ℕ → ℕ} {report : ℕ → Option (List ℚ)}
  {rows : List FileLine} {row : FileLine}

/-- The number of fields of a line of metrics. -/
def width : NetworkType → ℕ
  | .wired => 4
  | .wireless => 5

/-- The lists for given lines of metrics. -/
def Axes.ofRows (net : NetworkType) (rows : List FileLine) : Axes where
  throughput := rows.map (·.getD 0 0)
  avgdelay := rows.map (·.getD 1 0)
  deliveryratio := rows.map (·.getD 2 0)
  dropratio := rows.map (·.getD 3 0)
  energyConsumption := if net = .wireless then rows.map (·.getD 4 0) else []

theorem append_ofRows (rows : List FileLine) (h : row.length = width net) :
    (Axes.ofRows net rows).append net row = some (Axes.ofRows net (rows ++ [row])) := by
  cases net with
  | wired =>
      match row, h with
      | [t, d, r, p], _ => simp [Axes.append, Axes.ofRows]
  | wireless =>
      match row, h with
      | [t, d, r, p, e], _ => simp [Axes.append, Axes.ofRows]

theorem hasLength_ofRows {m : ℕ} : (Axes.ofRows net rows).HasLength net m ↔ rows.length = m := by
  cases net <;> simp [Axes.HasLength, Axes.ofRows]

theorem entry_ofRows (h : ∀ row ∈ rows, row.length = width net) (k : ℕ) :
    (Axes.ofRows net rows).entry net k = rows[k]? := by
  cases hk : rows[k]? with
  | none => simp [Axes.entry, Axes.ofRows, hk]
  | some row =>
      have hw := h row (List.mem_of_getElem? hk)
      cases net with
      | wired =>
          match row, hw with
          | [t, d, r, p], _ => simp [Axes.entry, Axes.ofRows, hk]
      | wireless =>
          match row, hw with
          | [t, d, r, p, e], _ => simp [Axes.entry, Axes.ofRows, hk]

/-- The lines of metrics that `n` turns leave in the file. -/
def printed (ofmt : ℚ → ℚ) (report : ℕ → Option (List ℚ)) : ℕ → List FileLine
  | 0 => []
  | n + 1 => printed ofmt report n ++ ((report n).map (List.map ofmt)).toList

theorem printed_width (h : ∀ k m, report k = some m → m.length = width net) (n : ℕ) :
    ∀ row ∈ printed ofmt report n, row.length = width net := by
  induction n with
  | zero =>
      intro row hrow
      cases hrow
  | succ n ih =>
      intro row hrow
      rcases List.mem_append.mp hrow with hold | hnew
      · exact ih row hold
      · obtain ⟨m, hm, rfl⟩ := Option.map_eq_some_iff.mp (Option.mem_toList.mp hnew)
        rw [List.length_map]
        exact h n m hm

theorem one_lt_width (net : NetworkType) : 1 < width net := by
  cases net <;> decide

theorem ofRows_nil (net : NetworkType) : Axes.ofRows net [] = {} := by
  cases net <;> rfl

theorem redLine_row {xs : List ℚ} {a a' : Axes} (h : row.length = width net)
    (ha : a.append net row = some a') : redLine net (xs, a) row = some (xs, a') := by
  rw [redLine, if_pos (h ▸ one_lt_width net), ha]
  rfl

theorem naredLine_row {a a' : Axes} (h : row.length = width net)
    (ha : a.append net row = some a') : naredLine net a row = some a' := by
  rw [naredLine, if_pos (h ▸ one_lt_width net), ha]

theorem redLine_value (net : NetworkType) (xs : List ℚ) (a : Axes) (x : ℚ) :
    redLine net (xs, a) [x] = some (xs ++ [x], a) := rfl

theorem naredLine_value (net : NetworkType) (a : Axes) (x : ℚ) :
    naredLine net a [x] = some a := rfl

/-- The loop over the lines of `params_RED.txt`. -/
theorem read_red (h : ∀ k m, report k = some m → m.length = width net) (n : ℕ) :
    (loop ofmt value report n).foldlM (redLine net) ([], {}) =
      some ((List.range n).map fun k => (value k : ℚ),
        Axes.ofRows net (printed ofmt report n)) := by
  induction n with
  | zero =>
      rw [printed, ofRows_nil]
      rfl
  | succ n ih =>
      rw [loop, List.append_assoc, List.foldlM_append, ih, List.range_succ, List.map_append,
        printed]
      cases hr : report n with
      | none =>
          simp only [Option.map_none, Option.toList_none, List.append_nil, List.foldlM_cons,
            List.foldlM_nil, redLine_value, Option.bind_eq_bind, Option.bind_some]
          rfl
      | some m =>
          have hw : (m.map ofmt).length = width net := (List.length_map _).trans (h n m hr)
          have hrow := append_ofRows (printed ofmt report n) hw
          simp only [Option.map_some, Option.toList_some, List.singleton_append, List.foldlM_cons,
            List.foldlM_nil, redLine_value, redLine_row hw hrow, Option.bind_eq_bind,
            Option.bind_some]
          rfl

theorem read_nared (h : ∀ k m, report k = some m → m.length = width net) (n : ℕ) :
    (loop ofmt value report n).foldlM (naredLine net) {} =
      some (Axes.ofRows net (printed ofmt report n)) := by
  induction n with
  | zero =>
      rw [printed, ofRows_nil]
      rfl
  | succ n ih =>
      rw [loop, List.append_assoc, List.foldlM_append, ih, printed]
      cases hr : report n with
      | none =>
          simp only [Option.map_none, Option.toList_none, List.append_nil, List.foldlM_cons,
            List.foldlM_nil, naredLine_value, Option.bind_eq_bind, Option.bind_some]
          rfl
      | some m =>
          have hw : (m.map ofmt).length = width net := (List.length_map _).trans (h n m hr)
          have hrow := append_ofRows (printed ofmt report n) hw
          simp only [Option.map_some, Option.toList_some, List.singleton_append, List.foldlM_cons,
            List.foldlM_nil, naredLine_value, naredLine_row hw hrow, Option.bind_eq_bind,
            Option.bind_some]
          rfl

theorem printed_length_le (ofmt : ℚ → ℚ) (report : ℕ → Option (List ℚ)) (n : ℕ) :
    (printed ofmt report n).length ≤ n := by
  induction n with
  | zero => exact le_refl 0
  | succ n ih =>
      rw [printed, List.length_append]
      cases report n with
      | none => simpa using Nat.le_succ_of_le ih
      | some m => simpa using ih

/-- The metrics are all there exactly if every turn has printed some. -/
theorem printed_length_iff (ofmt : ℚ → ℚ) (report : ℕ → Option (List ℚ)) (n : ℕ) :
    (printed ofmt report n).length = n ↔ ∀ k < n, (report k).isSome := by
  induction n with
  | zero => simp [printed]
  | succ n ih =>
      rw [printed, List.length_append]
      have hle := printed_length_le ofmt report n
      cases hr : report n with
      | none =>
          refine iff_of_false ?_ ?_
          · simp
            omega
          · intro hall
            have hn := hall n (Nat.lt_succ_self n)
            rw [hr] at hn
            cases hn
      | some m =>
          have hlen : (printed ofmt report n).length + 1 = n + 1 ↔ ∀ k < n, (report k).isSome := by
            rw [← ih]
            exact Nat.succ_inj
          refine hlen.trans ⟨fun hall k hk => ?_, fun hall k hk => hall k (Nat.lt_succ_of_lt hk)⟩
          rcases Nat.lt_succ_iff_lt_or_eq.mp hk with hlt | rfl
          · exact hall k hlt
          · rw [hr]
            rfl

/-- Then the `k`-th line of metrics is that of the `k`-th turn. -/
theorem printed_getElem {n : ℕ} (h : ∀ k < n, (report k).isSome) {k : ℕ} (hk : k < n) :
    (printed ofmt report n)[k]? = (report k).map (List.map ofmt) := by
  induction n with
  | zero => exact absurd hk (Nat.not_lt_zero k)
  | succ n ih =>
      have hall : ∀ k < n, (report k).isSome := fun k hk => h k (Nat.lt_succ_of_lt hk)
      have hlen := (printed_length_iff ofmt report n).mpr hall
      rw [printed]
      rcases Nat.lt_succ_iff_lt_or_eq.mp hk with hlt | rfl
      · rw [List.getElem?_append_left (by rw [hlen]; exact hlt)]
        exact ih hall hlt
      · obtain ⟨m, hm⟩ := Option.isSome_iff_exists.mp (h k hk)
        rw [List.getElem?_append_right hlen.le, hlen, Nat.sub_self, hm]
        rfl

end Reading

section Pairing

variable {net : NetworkType} {red nared : ℕ → Option (List ℚ)}

/-- The pairing is right exactly if every turn of both loops prints its metrics. -/
theorem paired_iff (ofmt : ℚ → ℚ) (value : ℕ → ℕ) (n : ℕ)
    (hred : ∀ k m, red k = some m → m.length = width net)
    (hnared : ∀ k m, nared k = some m → m.length = width net) :
    (∃ xs r s, summary net (loop ofmt value red n) (loop ofmt value nared n) = some (xs, r, s) ∧
      Paired net ofmt value red nared n xs r s) ↔
      ∀ k < n, (red k).isSome ∧ (nared k).isSome := by
  -- the three lists that `summary.py` plots
  have hsum : summary net (loop ofmt value red n) (loop ofmt value nared n) =
      some ((List.range n).map fun k => (value k : ℚ), Axes.ofRows net (printed ofmt red n),
        Axes.ofRows net (printed ofmt nared n)) := by
    rw [summary, read_red hred, read_nared hnared]
    rfl
  have hx : ((List.range n).map fun k => (value k : ℚ)).length = n := by simp
  rw [hsum]
  constructor
  · rintro ⟨xs, r, s, heq, hpaired⟩
    obtain ⟨rfl, heq'⟩ := Prod.mk.inj (Option.some.inj heq)
    obtain ⟨rfl, rfl⟩ := Prod.mk.inj heq'
    -- a turn that prints nothing makes the lists shorter
    have hr := hasLength_ofRows.mp hpaired.red_length
    have hs := hasLength_ofRows.mp hpaired.nared_length
    rw [hx] at hr hs
    intro k hk
    exact ⟨(printed_length_iff _ _ n).mp hr k hk, (printed_length_iff _ _ n).mp hs k hk⟩
  · intro hall
    have hr : ∀ k < n, (red k).isSome := fun k hk => (hall k hk).1
    have hs : ∀ k < n, (nared k).isSome := fun k hk => (hall k hk).2
    refine ⟨_, _, _, rfl, hx, ?_, ?_, ?_⟩
    · rw [hasLength_ofRows, hx]
      exact (printed_length_iff _ _ n).mpr hr
    · rw [hasLength_ofRows, hx]
      exact (printed_length_iff _ _ n).mpr hs
    · intro k hk
      obtain ⟨m, hm⟩ := Option.isSome_iff_exists.mp (hr k hk)
      obtain ⟨m', hm'⟩ := Option.isSome_iff_exists.mp (hs k hk)
      refine ⟨by simp [hk], ⟨m, hm, ?_⟩, m', hm', ?_⟩
      · rw [entry_ofRows (printed_width hred n), printed_getElem hr hk, hm]
        rfl
      · rw [entry_ofRows (printed_width hnared n), printed_getElem hs hk, hm']
        rfl

end Pairing

section Traces

/-- The traces of the runs of two loops of `run.sh`, under RED and under NARED. -/
inductive Traces where
  | wired (red nared : ℕ → List LinkLine)
  | wireless (red nared : ℕ → List Line)

namespace Traces

def networkType : Traces → NetworkType
  | wired .. => .wired
  | wireless .. => .wireless

/-- What the analysis of the `k`-th trace under RED has to print. -/
def redReport : Traces → ℕ → Option (List ℚ)
  | wired red _, k => (ParseWired.run (red k)).report
  | wireless red _, k => (ParseWireless.run (red k)).report

/-- What the analysis of the `k`-th trace under NARED has to print. -/
def naredReport : Traces → ℕ → Option (List ℚ)
  | wired _ nared, k => (ParseWired.run (nared k)).report
  | wireless _ nared, k => (ParseWireless.run (nared k)).report

/-- All lines are in the order of their times. -/
def InTimeOrder : Traces → Prop
  | wired red nared => ∀ k, ParseWired.Ordered (red k) ∧ ParseWired.Ordered (nared k)
  | wireless red nared =>
      ∀ k, InOrder ((red k).map Line.time) ∧ InOrder ((nared k).map Line.time)

end Traces

/-- A tcp packet entered a queue and one arrived over a link, and the last line is
later than the first one. -/
def MeasuredWired (trace : List LinkLine) : Prop :=
  (∃ l ∈ trace, l.sends) ∧ (∃ l ∈ trace, l.arrives) ∧
    endOf (trace.map LinkLine.time) ≠ startOf (trace.map LinkLine.time)

/-- A tcp packet was sent and one received by an agent, a node reported its energy,
and the last line of a packet is later than the first one. -/
def MeasuredWireless (trace : List Line) : Prop :=
  agentLines .s trace ≠ [] ∧ agentLines .r trace ≠ [] ∧ (∃ l ∈ trace, l.isPacket = false) ∧
    endOf (packetTimes trace) ≠ startOf (packetTimes trace)

/-- The `k`-th runs under RED and under NARED were measured. -/
def Traces.Measured : Traces → ℕ → Prop
  | wired red nared, k => MeasuredWired (red k) ∧ MeasuredWired (nared k)
  | wireless red nared, k => MeasuredWireless (red k) ∧ MeasuredWireless (nared k)

theorem wired_report_length (v : ParseWired) {m : List ℚ} (h : v.report = some m) :
    m.length = width .wired := by
  rw [ParseWired.report] at h
  simp only [Option.bind_eq_bind, Option.bind_eq_some_iff, Option.pure_def, Option.some.injEq] at h
  obtain ⟨a, -, b, -, c, -, d, -, rfl⟩ := h
  rfl

theorem wireless_report_length (v : ParseWireless) {m : List ℚ} (h : v.report = some m) :
    m.length = width .wireless := by
  rw [ParseWireless.report] at h
  simp only [Option.bind_eq_bind, Option.bind_eq_some_iff, Option.pure_def, Option.some.injEq] at h
  obtain ⟨a, -, b, -, c, -, d, -, e, -, rfl⟩ := h
  rfl

/-- The analysis of a wired trace gets to its end. -/
theorem wired_report_isSome {trace : List LinkLine} (h : ParseWired.Ordered trace) :
    (ParseWired.run trace).report.isSome ↔ MeasuredWired trace := by
  obtain ⟨hs, ht⟩ := ParseWired.interval_run h
  have hend : (ParseWired.run trace).report.isSome ↔ _ :=
    bind_isSome fun _ => bind_isSome fun _ => bind_isSome fun _ => bind_isSome fun _ =>
      iff_of_true (b := True) rfl trivial
  have hsent : (∃ l ∈ trace, l.sends) ↔ ((ParseWired.run trace).sentPackets : ℚ) ≠ 0 := by
    rw [ParseWired.sentPackets_run, Nat.cast_ne_zero, ← Nat.pos_iff_ne_zero, List.countP_pos_iff]
  have hreceived : (∃ l ∈ trace, l.arrives) ↔
      ((ParseWired.run trace).receivedPackets : ℚ) ≠ 0 := by
    rw [ParseWired.receivedPackets_run h, Nat.cast_ne_zero, ← Nat.pos_iff_ne_zero,
      List.countP_pos_iff]
  rw [hend, divide_isSome, divide_isSome, divide_isSome, divide_isSome, MeasuredWired, hsent,
    hreceived, hs, ht, sub_ne_zero]
  constructor
  · rintro ⟨hsent', hinterval, hreceived', -, -⟩
    exact ⟨hsent', hreceived', hinterval⟩
  · rintro ⟨hsent', hreceived', hinterval⟩
    exact ⟨hsent', hinterval, hreceived', hsent', trivial⟩

/-- The analysis of a wireless trace gets to its end. -/
theorem wireless_report_isSome {trace : List Line} (h : InOrder (trace.map Line.time)) :
    (ParseWireless.run trace).report.isSome ↔ MeasuredWireless trace := by
  obtain ⟨hs, ht⟩ := ParseWireless.interval_run (inOrder_packetTimes h)
  have hend : (ParseWireless.run trace).report.isSome ↔ _ :=
    bind_isSome fun _ => bind_isSome fun _ => bind_isSome fun _ => bind_isSome fun _ =>
      bind_isSome fun _ => iff_of_true (b := True) rfl trivial
  have hsent : agentLines .s trace ≠ [] ↔ ((ParseWireless.run trace).sentPackets : ℚ) ≠ 0 := by
    rw [ParseWireless.sentPackets_run, Nat.cast_ne_zero, Ne, Ne, List.length_eq_zero_iff]
  have hreceived : agentLines .r trace ≠ [] ↔
      ((ParseWireless.run trace).receivedPackets : ℚ) ≠ 0 := by
    rw [ParseWireless.receivedPackets_run, Nat.cast_ne_zero, Ne, Ne, List.length_eq_zero_iff]
  have hnodes : (∃ l ∈ trace, l.isPacket = false) ↔
      ((ParseWireless.run trace).finalEnergy.length : ℚ) ≠ 0 := by
    rw [← ParseWireless.finalEnergy_run, Nat.cast_ne_zero, Ne, Ne, List.length_eq_zero_iff]
  rw [hend, divide_isSome, divide_isSome, divide_isSome, divide_isSome, divide_isSome,
    MeasuredWireless, hsent, hreceived, hnodes, hs, ht, sub_ne_zero]
  constructor
  · rintro ⟨hnodes', hsent', hinterval, hreceived', -, -⟩
    exact ⟨hsent', hreceived', hnodes', hinterval⟩
  · rintro ⟨hsent', hreceived', hnodes', hinterval⟩
    exact ⟨hnodes', hsent', hinterval, hreceived', hsent', trivial⟩

/-- `summary.py` pairs the values, the metrics under RED and those under NARED right
exactly if every run of the loops was measured. -/
theorem paired_iff_measured (ofmt : ℚ → ℚ) (value : ℕ → ℕ) (n : ℕ) (t : Traces)
    (h : t.InTimeOrder) :
    (∃ xs r s, summary t.networkType (loop ofmt value t.redReport n)
        (loop ofmt value t.naredReport n) = some (xs, r, s) ∧
      Paired t.networkType ofmt value t.redReport t.naredReport n xs r s) ↔
      ∀ k < n, t.Measured k := by
  cases t with
  | wired red nared =>
      refine (paired_iff ofmt value n (fun k m => wired_report_length _)
        (fun k m => wired_report_length _)).trans (forall₂_congr fun k _ => ?_)
      exact and_congr (wired_report_isSome (h k).1) (wired_report_isSome (h k).2)
  | wireless red nared =>
      refine (paired_iff ofmt value n (fun k m => wireless_report_length _)
        (fun k m => wireless_report_length _)).trans (forall₂_congr fun k _ => ?_)
      exact and_congr (wireless_report_isSome (h k).1) (wireless_report_isSome (h k).2)

/-- A line of packet 0 on the link from node 0 to node 1. -/
def hopLine (event : LinkEvent) (time : ℚ) : LinkLine where
  event := event
  time := time
  node := 0
  toNode := 1
  packetType := .tcp
  packetBytes := 1040
  source := 0
  destination := 1
  packetId := 0

/-- Packet 0 is received. -/
def oneHop : List LinkLine := [hopLine .plus 1, hopLine .minus 1, hopLine .r 2]

theorem ordered_oneHop : ParseWired.Ordered oneHop := ⟨by decide +kernel, by decide +kernel⟩

/-- Loops in which every packet is received. -/
def received : Traces := .wired (fun _ => oneHop) (fun _ => oneHop)

theorem measured_oneHop : MeasuredWired oneHop :=
  ⟨⟨hopLine .plus 1, by decide +kernel, rfl⟩, ⟨hopLine .r 2, by decide +kernel, rfl⟩,
    by decide +kernel⟩

theorem paired_received :
    ∃ xs r s, summary .wired (loop id (20 + 20 * ·) received.redReport 2)
        (loop id (20 + 20 * ·) received.naredReport 2) = some (xs, r, s) ∧
      Paired .wired id (20 + 20 * ·) received.redReport received.naredReport 2 xs r s :=
  (paired_iff_measured id (20 + 20 * ·) 2 received fun _ => ⟨ordered_oneHop, ordered_oneHop⟩).2
    fun _ _ => ⟨measured_oneHop, measured_oneHop⟩

/-- Loops in whose first run under RED the packet stays in the queue. -/
def unreceived : Traces :=
  .wired
    (fun
      | 0 => [hopLine .plus 1]
      | _ + 1 => oneHop)
    (fun _ => oneHop)

/-- The metrics of the second run are then the first ones of the list. -/
theorem not_paired_unreceived :
    ¬∀ (ofmt : ℚ → ℚ) (value : ℕ → ℕ) (n : ℕ) (t : Traces), t.InTimeOrder →
      ∃ xs r s, summary t.networkType (loop ofmt value t.redReport n)
          (loop ofmt value t.naredReport n) = some (xs, r, s) ∧
        Paired t.networkType ofmt value t.redReport t.naredReport n xs r s := by
  intro hall
  have horder : unreceived.InTimeOrder := by
    intro k
    refine ⟨?_, ordered_oneHop⟩
    cases k with
    | zero => exact ⟨by decide +kernel, by decide +kernel⟩
    | succ k => exact ordered_oneHop
  obtain ⟨xs, r, s, hsum, hpaired⟩ := hall id (20 + 20 * ·) 2 unreceived horder
  have hlengths : (summary unreceived.networkType (loop id (20 + 20 * ·) unreceived.redReport 2)
      (loop id (20 + 20 * ·) unreceived.naredReport 2)).map
        (fun lists => (lists.1.length, lists.2.1.throughput.length)) = some (2, 1) := by
    decide +kernel
  rw [hsum, Option.map_some, Option.some.injEq, Prod.mk.injEq] at hlengths
  have hlen := hpaired.red_length.1
  rw [hlengths.1, hlengths.2] at hlen
  exact absurd hlen (by decide)

end Traces

end ComputerNetworking.Analysis
