import ComputerNetworking.Dsdv.Agent
import ComputerNetworking.Foundations.ByteRecords

/-!
# The bytes of an update

`DSDV_Agent::makeUpdate` with the machine words of its table and the bytes of its packet,
and the loop of `processUpdate` that reads them. An address is a signed word, a metric and
a sequence number are unsigned ones. The reader gets the entries that were due exactly if
there are fewer than 256 (`roundTrips_iff`): their number goes into one byte.
-/

set_option autoImplicit false

namespace ComputerNetworking.Dsdv.Wire

open ComputerNetworking.Foundations.ByteRecords

/-- `rtable_ent`, as far as `makeUpdate` reads or writes it. -/
structure RtableWords where
  dst : Word
  hop : Word
  metric : Word
  seqnum : Word
  advertiseOkAt : ℚ
  advertSeqnum : Bool
  advertMetric : Bool
  lastAdvertisedMetric : Word
  changedAt : ℚ
  newSeqnumAt : ℚ
  wst : ℚ
deriving DecidableEq

/-- `RoutingTable::AddEntry`: `ent` in the place of the entry of its destination, or in front
of the first one of a larger destination. -/
def addEntry (t : List RtableWords) (ent : RtableWords) : Except Failure (List RtableWords) :=
  if ent.metric.toNat ≤ BIG then
    if t.any (·.dst = ent.dst) then .ok (t.map fun e => if e.dst = ent.dst then ent else e)
    else
      .ok (t.takeWhile (fun e => !ent.dst.slt e.dst) ++
        ent :: t.dropWhile fun e => !ent.dst.slt e.dst)
  else .error .assertion

/-- The members of `DSDV_Agent` that `makeUpdate` uses. -/
structure AgentWords where
  myaddr : Word
  seqno : Word
  table : List RtableWords

/-- The nine bytes of an entry. -/
def entryBytes (prte : RtableWords) : List Byte :=
  [ (prte.dst.sshiftRight 24).setWidth 8,
    (prte.dst.sshiftRight 16 &&& 0xFF#32).setWidth 8,
    (prte.dst.sshiftRight 8 &&& 0xFF#32).setWidth 8,
    (prte.dst.sshiftRight 0 &&& 0xFF#32).setWidth 8,
    prte.metric.setWidth 8,
    (prte.seqnum >>> 24).setWidth 8,
    (prte.seqnum >>> 16 &&& 0xFF#32).setWidth 8,
    (prte.seqnum >>> 8 &&& 0xFF#32).setWidth 8,
    (prte.seqnum &&& 0xFF#32).setWidth 8 ]

/-- `makeUpdate`'s test for a change that may be advertised. -/
def changed (now : ℚ) (prte : RtableWords) : Bool :=
  (prte.advertSeqnum || prte.advertMetric) && prte.advertiseOkAt ≤ now

/-- Whether the loop of `makeUpdate` writes the entry. -/
def included (periodic : Bool) (now : ℚ) (prte : RtableWords) : Bool :=
  if periodic && prte.advertiseOkAt > now then false else periodic || changed now prte

/-- The entry after it was written into an update. -/
def advertised (periodic : Bool) (prte : RtableWords) : RtableWords :=
  { prte with lastAdvertisedMetric := prte.metric, advertSeqnum := false,
              advertMetric := if periodic then false else prte.advertMetric }

/-- The loop of `makeUpdate` that writes the packet: the table, the bytes and what is left
of `change_count`. -/
def writeEntries (periodic : Bool) (now : ℚ) :
    List RtableWords → ℤ → List RtableWords × List Byte × ℤ
  | [], changeCount => ([], [], changeCount)
  | prte :: t, changeCount =>
      if included periodic now prte then
        let (table, walk, left) := writeEntries periodic now t (changeCount - 1)
        (advertised periodic prte :: table, entryBytes prte ++ walk, left)
      else
        let (table, walk, left) := writeEntries periodic now t changeCount
        (prte :: table, walk, left)

/-- The agent's own entry in a periodic update. -/
def ownEntry (a : AgentWords) (now : ℚ) : RtableWords where
  dst := a.myaddr
  hop := a.myaddr
  metric := 0
  seqnum := a.seqno + 2
  advertiseOkAt := 0
  advertSeqnum := true
  advertMetric := false
  lastAdvertisedMetric := 0
  changedAt := now
  newSeqnumAt := now
  wst := 0

/-- The end of `makeUpdate`, which makes the packet of `changeCount` entries. -/
def packet (a : AgentWords) (periodic : Bool) (changeCount : ℤ) (now : ℚ) :
    Except Failure (AgentWords × Option (List Byte)) :=
  if changeCount = 0 then .ok (a, none)
  else
    let (table, walk, left) := writeEntries periodic now a.table changeCount
    if left = 0 then .ok ({ a with table }, some (BitVec.ofInt 8 changeCount :: walk))
    else .error .assertion

/-- Whether `makeUpdate` makes a full update: it was asked to, or much has changed. -/
def full (a : AgentWords) (periodic : Bool) (now : ℚ) : Bool :=
  let changeCount := a.table.countP (changed now)
  periodic || (changeCount * 3 > a.table.length && changeCount > 3)

/-- `DSDV_Agent::makeUpdate`. -/
def makeUpdate (a : AgentWords) (periodic : Bool) (now : ℚ) :
    Except Failure (AgentWords × Option (List Byte)) :=
  let changeCount : ℤ := a.table.countP (changed now)
  let rtblSz : ℤ := a.table.length
  let unadvertiseable : ℤ := a.table.countP (·.advertiseOkAt > now)
  if full a periodic now then
    match addEntry a.table (ownEntry a now) with
    | .error f => .error f
    | .ok table =>
        packet { a with seqno := a.seqno + 2, table } true (rtblSz - unadvertiseable) now
  else packet a false changeCount now

/-- What an update says of one destination. -/
structure Listed where
  dst : Word
  metric : Word
  seqnum : Word
deriving DecidableEq

/-- One turn of the loop of `processUpdate` reads nine bytes. -/
def readEntry : List Byte → Option (Listed × List Byte)
  | d₀ :: d₁ :: d₂ :: d₃ :: m :: s₀ :: s₁ :: s₂ :: s₃ :: w =>
      some (⟨wordOf d₀ d₁ d₂ d₃, m.setWidth 32, wordOf s₀ s₁ s₂ s₃⟩, w)
  | _ => none

/-- The loop of `processUpdate` that reads an update. -/
def readUpdate (d : List Byte) : Option (List Listed) := readCounted readEntry d

/-! ## The entries that are due -/

/-- The table is in the order of its destinations. -/
def Sorted (t : List RtableWords) : Prop := t.Pairwise fun e e' => e.dst.slt e'.dst

/-- The entry is due for advertisement: its settling time is over, and in a partial update
its metric or its number has changed. -/
def Due (full : Bool) (now : ℚ) (e : RtableWords) : Prop :=
  e.advertiseOkAt ≤ now ∧ (full = true ∨ e.advertSeqnum = true ∨ e.advertMetric = true)

instance (full : Bool) (now : ℚ) : DecidablePred (Due full now) := fun e => by
  unfold Due
  infer_instance

/-- What an entry says of its destination. -/
def RtableWords.listed (e : RtableWords) : Listed := ⟨e.dst, e.metric, e.seqnum⟩

/-- The table that an update is about: a full one carries the agent's next number. -/
def current (a : AgentWords) (full : Bool) (now : ℚ) : List RtableWords :=
  if full then a.table.map fun e => if e.dst = a.myaddr then ownEntry a now else e else a.table

/-- The entries of the update, in the order of the table. -/
def dueEntries (a : AgentWords) (full : Bool) (now : ℚ) : List Listed :=
  ((current a full now).filter (Due full now)).map RtableWords.listed

/-- The call returns, and what it made is read as `entries`; there is nothing only if there
are no entries. -/
def Carries (r : Except Failure (AgentWords × Option (List Byte))) (entries : List Listed) : Prop :=
  ∃ a' update?, r = .ok (a', update?) ∧
    match update? with
    | some update => readUpdate update = some entries
    | none => entries = []

/-- The update that is made is read as the entries that were due. -/
def RoundTrips (a : AgentWords) (periodic : Bool) (now : ℚ) : Prop :=
  Carries (makeUpdate a periodic now) (dueEntries a (full a periodic now) now)

section Bytes

variable {e : RtableWords} {t : List RtableWords} {now : ℚ}

/-- A metric of at most `BIG` fits into its byte. -/
theorem metric_byte {metric : Word} (h : metric.toNat ≤ BIG) :
    (metric.setWidth 8).setWidth 32 = metric := by
  have hlt : metric.toNat < 256 := h.trans_lt (by decide)
  apply BitVec.eq_of_toNat_eq
  rw [BitVec.toNat_setWidth, BitVec.toNat_setWidth, Nat.mod_eq_of_lt hlt,
    Nat.mod_eq_of_lt metric.isLt]

theorem entryBytes_eq (e : RtableWords) :
    entryBytes e =
      [byteAt 24 e.dst, byteAt 16 e.dst, byteAt 8 e.dst, byteAt 0 e.dst, e.metric.setWidth 8,
        byteAt 24 e.seqnum, byteAt 16 e.seqnum, byteAt 8 e.seqnum, byteAt 0 e.seqnum] := by
  rw [entryBytes]
  simp only [setWidth_mask, setWidth_sshiftRight _ (le_refl 24),
    setWidth_sshiftRight _ (show 16 ≤ 24 by decide), setWidth_sshiftRight _ (show 8 ≤ 24 by decide),
    setWidth_sshiftRight _ (show 0 ≤ 24 by decide)]
  simp [byteAt]

/-- The nine bytes for what an entry says. -/
def Listed.bytes (l : Listed) : List Byte :=
  [byteAt 24 l.dst, byteAt 16 l.dst, byteAt 8 l.dst, byteAt 0 l.dst, l.metric.setWidth 8,
    byteAt 24 l.seqnum, byteAt 16 l.seqnum, byteAt 8 l.seqnum, byteAt 0 l.seqnum]

theorem flatMap_entryBytes (t : List RtableWords) :
    t.flatMap entryBytes = (t.map RtableWords.listed).flatMap Listed.bytes := by
  rw [List.flatMap_map]
  exact List.flatMap_congr fun e _ => entryBytes_eq e

/-- The nine bytes are read as what they were written for. -/
theorem reads_listed {l : Listed} (h : l.metric.toNat ≤ BIG) : Reads Listed.bytes readEntry l := by
  intro rest
  show some ((⟨wordOf _ _ _ _, _, wordOf _ _ _ _⟩ : Listed), rest) = _
  rw [wordOf_bytes, wordOf_bytes, metric_byte h]

theorem included_eq (full : Bool) (now : ℚ) (e : RtableWords) :
    included full now e = decide (Due full now e) := by
  rw [Bool.eq_iff_iff, decide_eq_true_iff, included, changed, Due]
  by_cases h : e.advertiseOkAt ≤ now
  · cases full <;> simp [h]
  · cases full <;> simp [h, lt_of_not_ge h]

/-- The loop writes the entries that are due and counts them down. -/
theorem writeEntries_eq (full : Bool) (now : ℚ) (t : List RtableWords) (changeCount : ℤ) :
    writeEntries full now t changeCount =
      (t.map fun e => if Due full now e then advertised full e else e,
        (t.filter (Due full now)).flatMap entryBytes,
        changeCount - (t.filter (Due full now)).length) := by
  induction t generalizing changeCount with
  | nil => simp [writeEntries]
  | cons e t ih =>
      rw [writeEntries, included_eq]
      by_cases h : Due full now e
      · rw [if_pos (decide_eq_true h), ih, List.filter_cons_of_pos (by simpa using h)]
        simp only [List.map_cons, if_pos h, List.flatMap_cons, List.length_cons, Nat.cast_add,
          Nat.cast_one]
        congr 2
        ring
      · rw [if_neg (by simpa using h), ih, List.filter_cons_of_neg (by simpa using h)]
        simp only [List.map_cons, if_neg h]

/-- What `makeUpdate` packs: the entries that are due, if it has counted them right. -/
theorem packet_eq (a : AgentWords) (full : Bool) (now : ℚ) :
    packet a full ((a.table.filter (Due full now)).length : ℤ) now =
      .ok (if a.table.filter (Due full now) = [] then (a, none) else
        ({ a with table := a.table.map fun e => if Due full now e then advertised full e else e },
          some (writeCounted Listed.bytes ((a.table.filter (Due full now)).map
            RtableWords.listed)))) := by
  rw [packet]
  by_cases hnil : a.table.filter (Due full now) = []
  · rw [hnil]
    rfl
  · have hne : ((a.table.filter (Due full now)).length : ℤ) ≠ 0 := by
      rw [Nat.cast_ne_zero, Ne, List.length_eq_zero_iff]
      exact hnil
    rw [if_neg hne, if_neg hnil, writeEntries_eq, sub_self]
    dsimp only
    rw [if_pos rfl, flatMap_entryBytes, BitVec.ofInt_natCast, writeCounted, List.length_map]

/-- If it has counted one entry too few, it has none to pack or its assertion fails. -/
theorem packet_short (a : AgentWords) (full : Bool) (now : ℚ) (changeCount : ℤ)
    (h : changeCount = (a.table.filter (Due full now)).length - 1) :
    packet a full changeCount now = .ok (a, none) ∧ changeCount = 0 ∨
      packet a full changeCount now = .error .assertion := by
  rw [packet]
  by_cases hzero : changeCount = 0
  · rw [if_pos hzero]
    exact Or.inl ⟨rfl, hzero⟩
  · rw [if_neg hzero, writeEntries_eq]
    dsimp only
    rw [if_neg (by omega)]
    exact Or.inr rfl

/-- The bytes of the entries that are due are read as these entries if there are few. -/
theorem readUpdate_iff (hm : ∀ e ∈ t, e.metric.toNat ≤ BIG) :
    readUpdate (writeCounted Listed.bytes (t.map RtableWords.listed)) =
      some (t.map RtableWords.listed) ↔ t.length < 256 := by
  rw [readUpdate, readCounted_eq_iff, List.length_map]
  intro l hl
  obtain ⟨e, he, rfl⟩ := List.mem_map.mp hl
  exact reads_listed (hm e he)

theorem carries_packet (a : AgentWords) (full : Bool) (now : ℚ)
    (hm : ∀ e ∈ a.table, e.metric.toNat ≤ BIG) :
    Carries (packet a full ((a.table.filter (Due full now)).length : ℤ) now)
        ((a.table.filter (Due full now)).map RtableWords.listed) ↔
      (a.table.filter (Due full now)).length < 256 := by
  have hread := readUpdate_iff (t := a.table.filter (Due full now)) fun e he =>
    hm e (List.mem_of_mem_filter he)
  rw [packet_eq]
  by_cases hnil : a.table.filter (Due full now) = []
  · rw [if_pos hnil, hnil]
    exact iff_of_true ⟨a, none, rfl, rfl⟩ (by decide)
  · rw [if_neg hnil, ← hread]
    constructor
    · rintro ⟨a', update?, hok, hcarries⟩
      rw [Except.ok.injEq, Prod.mk.injEq] at hok
      obtain ⟨-, rfl⟩ := hok
      exact hcarries
    · intro h
      exact ⟨_, _, rfl, h⟩

end Bytes

section Own

variable {a : AgentWords} {full : Bool} {now : ℚ}

/-- A table with an entry of the agent keeps its length. -/
theorem addEntry_own (hown : ∃ e ∈ a.table, e.dst = a.myaddr) :
    addEntry a.table (ownEntry a now) = .ok (current a true now) := by
  have hany : a.table.any (·.dst = (ownEntry a now).dst) = true := by
    obtain ⟨e, he, hdst⟩ := hown
    exact List.any_eq_true.mpr ⟨e, he, decide_eq_true hdst⟩
  have hzero : (ownEntry a now).metric.toNat ≤ BIG := Nat.zero_le BIG
  rw [addEntry, if_pos hzero, if_pos hany]
  rfl

theorem dst_ne_of_slt {e e' : RtableWords} (h : e.dst.slt e'.dst) : e.dst ≠ e'.dst := by
  intro heq
  rw [heq, BitVec.slt_eq_decide] at h
  exact lt_irrefl _ (of_decide_eq_true h)

/-- Around the agent's own entry the table stays. -/
theorem current_own (hs : Sorted a.table) (hown : ∃ e ∈ a.table, e.dst = a.myaddr) (now : ℚ) :
    ∃ pre e post, a.table = pre ++ e :: post ∧ e.dst = a.myaddr ∧
      (∀ e' ∈ a.table, e'.dst = a.myaddr → e' = e) ∧
      current a true now = pre ++ ownEntry a now :: post := by
  obtain ⟨e, he, hdst⟩ := hown
  obtain ⟨pre, post, hsplit⟩ := List.append_of_mem he
  rw [Sorted, hsplit] at hs
  obtain ⟨-, hpost, hpre⟩ := List.pairwise_append.mp hs
  have hpre' : ∀ x ∈ pre, x.dst ≠ a.myaddr := fun x hx =>
    hdst ▸ dst_ne_of_slt (hpre x hx e List.mem_cons_self)
  have hpost' : ∀ x ∈ post, x.dst ≠ a.myaddr := fun x hx =>
    hdst ▸ (dst_ne_of_slt ((List.pairwise_cons.mp hpost).1 x hx)).symm
  have hkeep : ∀ l : List RtableWords, (∀ x ∈ l, x.dst ≠ a.myaddr) →
      l.map (fun x => if x.dst = a.myaddr then ownEntry a now else x) = l := by
    intro l hl
    refine (List.map_congr_left fun x hx => ?_).trans (List.map_id l)
    exact if_neg (hl x hx)
  refine ⟨pre, e, post, hsplit, hdst, ?_, ?_⟩
  · intro x hx hxdst
    rw [hsplit] at hx
    rcases List.mem_append.mp hx with hx | hx
    · exact absurd hxdst (hpre' x hx)
    · exact (List.mem_cons.mp hx).resolve_right fun hx => hpost' x hx hxdst
  · rw [current, if_pos rfl, hsplit, List.map_append, List.map_cons, hkeep pre hpre',
      hkeep post hpost', if_pos hdst]

/-- The agent's own entry may be advertised. -/
def OwnReady (a : AgentWords) (now : ℚ) : Prop :=
  ∀ e ∈ a.table, e.dst = a.myaddr → e.advertiseOkAt ≤ now

theorem due_true {e : RtableWords} : Due true now e ↔ e.advertiseOkAt ≤ now := by
  simp [Due]

/-- Renewing the agent's own entry adds it to those that are due, if it was not there. -/
theorem length_current (hs : Sorted a.table) (hnow : 0 ≤ now)
    (hown : ∃ e ∈ a.table, e.dst = a.myaddr) :
    (OwnReady a now → ((current a true now).filter (Due true now)).length =
        a.table.countP (Due true now)) ∧
      (¬OwnReady a now → ((current a true now).filter (Due true now)).length =
        a.table.countP (Due true now) + 1) := by
  obtain ⟨pre, e, post, hsplit, hdst, hunique, hcurrent⟩ := current_own hs hown now
  have hready : OwnReady a now ↔ Due true now e := by
    rw [due_true]
    constructor
    · intro h
      exact h e (hsplit ▸ List.mem_append_right pre List.mem_cons_self) hdst
    · intro h e' he' hdst'
      rw [hunique e' he' hdst']
      exact h
  have hnew : Due true now (ownEntry a now) := due_true.mpr hnow
  rw [hready, hcurrent, hsplit, ← List.countP_eq_length_filter, List.countP_append,
    List.countP_append, List.countP_cons, List.countP_cons]
  constructor
  · intro h
    simp [h, hnew]
  · intro h
    simp [h, hnew]
    omega

theorem metric_current (full : Bool) (now : ℚ) (hm : ∀ e ∈ a.table, e.metric.toNat ≤ BIG) :
    ∀ e ∈ current a full now, e.metric.toNat ≤ BIG := by
  intro e he
  rw [current] at he
  split at he
  · obtain ⟨e', he', rfl⟩ := List.mem_map.mp he
    split
    · exact Nat.zero_le BIG
    · exact hm e' he'
  · exact hm e he

/-- All but the unadvertiseable entries are due in a full update. -/
theorem length_sub_unadvertiseable (t : List RtableWords) (now : ℚ) :
    (t.length : ℤ) - t.countP (·.advertiseOkAt > now) = t.countP (Due true now) := by
  have hsum := List.length_eq_countP_add_countP (fun e : RtableWords => decide (Due true now e))
    (l := t)
  have hrest : t.countP (fun e => decide (e.advertiseOkAt > now)) =
      t.countP fun e => decide ¬decide (Due true now e) = true := by
    refine List.countP_congr fun e _ => ?_
    simp [due_true]
  rw [hrest]
  omega

end Own

section Update

variable {a : AgentWords} {periodic : Bool} {now : ℚ}

theorem roundTrips_incremental (hm : ∀ e ∈ a.table, e.metric.toNat ≤ BIG)
    (hfull : full a periodic now = false) :
    RoundTrips a periodic now ↔ a.table.countP (Due false now) < 256 := by
  have hchanged : a.table.countP (changed now) = (a.table.filter (Due false now)).length := by
    rw [← List.countP_eq_length_filter]
    refine List.countP_congr fun e _ => ?_
    simp [changed, Due, and_comm]
  rw [RoundTrips, makeUpdate, hfull, if_neg (by decide), hchanged, List.countP_eq_length_filter]
  exact carries_packet a false now hm

/-- A full update packs what it counted before the agent's own entry was renewed. -/
theorem makeUpdate_full (hown : ∃ e ∈ a.table, e.dst = a.myaddr)
    (hfull : full a periodic now = true) :
    makeUpdate a periodic now =
      packet { a with seqno := a.seqno + 2, table := current a true now } true
        (a.table.countP (Due true now)) now := by
  rw [makeUpdate, hfull, if_pos rfl, addEntry_own hown]
  dsimp only
  rw [length_sub_unadvertiseable]

theorem roundTrips_full (hs : Sorted a.table) (hm : ∀ e ∈ a.table, e.metric.toNat ≤ BIG)
    (hown : ∃ e ∈ a.table, e.dst = a.myaddr) (hnow : 0 ≤ now)
    (hfull : full a periodic now = true) (h : OwnReady a now) :
    RoundTrips a periodic now ↔ a.table.countP (Due true now) < 256 := by
  have hlen := (length_current hs hnow hown).1 h
  rw [RoundTrips, makeUpdate_full hown hfull, hfull, ← hlen]
  exact carries_packet { a with seqno := a.seqno + 2, table := current a true now } true now
    (metric_current true now hm)

/-- If the agent's own entry could not be advertised, one entry more is due than was counted. -/
theorem not_roundTrips_full (hs : Sorted a.table) (hown : ∃ e ∈ a.table, e.dst = a.myaddr)
    (hnow : 0 ≤ now) (hfull : full a periodic now = true) (h : ¬OwnReady a now) :
    ¬RoundTrips a periodic now := by
  have hlen := (length_current hs hnow hown).2 h
  rw [RoundTrips, makeUpdate_full hown hfull, hfull]
  rintro ⟨a', update?, hok, hread⟩
  have hshort := packet_short { a with seqno := a.seqno + 2, table := current a true now } true now
    (a.table.countP (Due true now)) (by dsimp only; rw [hlen]; push_cast; ring)
  rcases hshort with ⟨hnone, -⟩ | herror
  · rw [hok, Except.ok.injEq, Prod.mk.injEq] at hnone
    rw [hnone.2] at hread
    have hempty : (current a true now).filter (Due true now) = [] := List.map_eq_nil_iff.mp hread
    rw [hempty] at hlen
    cases hlen
  · rw [hok] at herror
    cases herror

end Update

/-- In a table with the agent's own entry, an update carries the entries that were due
exactly if there are fewer than 256 of them, and the agent's own entry, which a full update
renews, could be advertised before. -/
theorem roundTrips_iff (a : AgentWords) (periodic : Bool) (now : ℚ) (hs : Sorted a.table)
    (hm : ∀ e ∈ a.table, e.metric.toNat ≤ BIG) (hown : ∃ e ∈ a.table, e.dst = a.myaddr)
    (hnow : 0 ≤ now) :
    RoundTrips a periodic now ↔
      a.table.countP (Due (full a periodic now) now) < 256 ∧
        (full a periodic now = true → OwnReady a now) := by
  cases hfull : full a periodic now with
  | false =>
      exact (roundTrips_incremental hm hfull).trans
        (and_iff_left fun hfalse => by cases hfalse).symm
  | true =>
      by_cases h : OwnReady a now
      · exact (roundTrips_full hs hm hown hnow hfull h).trans (and_iff_left fun _ => h).symm
      · exact iff_of_false (not_roundTrips_full hs hown hnow hfull h) fun hcond => h (hcond.2 rfl)

section Tables

/-- An entry that is always due. -/
def dueEntry (n : ℕ) : RtableWords where
  dst := BitVec.ofNat 32 n
  hop := BitVec.ofNat 32 n
  metric := 1
  seqnum := 2
  advertiseOkAt := 0
  advertSeqnum := true
  advertMetric := true
  lastAdvertisedMetric := 0
  changedAt := 0
  newSeqnumAt := 0
  wst := 0

/-- Node 0 with entries for the destinations below `n`. -/
def knowing (n : ℕ) : AgentWords := ⟨0, 0, (List.range n).map dueEntry⟩

theorem sorted_knowing {n : ℕ} (hn : n ≤ 2 ^ 31) : Sorted (knowing n).table := by
  have hint : ∀ k < n, (BitVec.ofNat 32 k).toInt = k := by
    intro k hk
    rw [BitVec.toInt_ofNat', Int.bmod_eq_of_le (by omega) (by omega)]
  refine List.pairwise_map.mpr (List.pairwise_lt_range.imp_of_mem ?_)
  intro k l hk hl hlt
  rw [dueEntry, dueEntry, BitVec.slt_iff_toInt_lt, hint k (List.mem_range.mp hk),
    hint l (List.mem_range.mp hl)]
  exact_mod_cast hlt

theorem mem_knowing {n : ℕ} {e : RtableWords} (he : e ∈ (knowing n).table) :
    e.metric.toNat ≤ BIG ∧ e.advertiseOkAt = 0 := by
  obtain ⟨k, -, rfl⟩ := List.mem_map.mp he
  have hone : (1#32).toNat ≤ BIG := by decide
  exact ⟨hone, rfl⟩

theorem own_knowing {n : ℕ} (hn : 0 < n) : ∃ e ∈ (knowing n).table, e.dst = (knowing n).myaddr :=
  ⟨dueEntry 0, List.mem_map_of_mem (List.mem_range.mpr hn), rfl⟩

/-- Node 1 with five entries: a changed route, its own, one that has not settled, a broken
route and one that has not changed. -/
def mixed : AgentWords where
  myaddr := 1
  seqno := 6
  table :=
    [{ dueEntry 0 with metric := 2, seqnum := 4 },
     { dueEntry 1 with metric := 0, advertSeqnum := false, advertMetric := false },
     { dueEntry 2 with advertiseOkAt := 9 },
     { dueEntry 3 with metric := 250, seqnum := 5 },
     { dueEntry 7 with advertSeqnum := false, advertMetric := false }]

/-- A partial update carries the two that have changed and settled, a full one all that have
settled, with the next number of the node. -/
theorem roundTrips_iff_mixed :
    (RoundTrips mixed false 1 ∧ dueEntries mixed false 1 = [⟨0, 2, 4⟩, ⟨3, 250, 5⟩]) ∧
      RoundTrips mixed true 1 ∧
        dueEntries mixed true 1 = [⟨0, 2, 4⟩, ⟨1, 0, 8⟩, ⟨3, 250, 5⟩, ⟨7, 1, 2⟩] := by
  have hs : Sorted mixed.table := by
    unfold Sorted
    decide
  have hm : ∀ e ∈ mixed.table, e.metric.toNat ≤ BIG := by decide
  have hown : ∃ e ∈ mixed.table, e.dst = mixed.myaddr := by decide
  have hready : OwnReady mixed 1 := by
    unfold OwnReady
    decide +kernel
  refine ⟨⟨?_, by decide +kernel⟩, ?_, by decide +kernel⟩
  · exact (roundTrips_iff mixed false 1 hs hm hown zero_le_one).mpr
      ⟨by decide +kernel, fun _ => hready⟩
  · exact (roundTrips_iff mixed true 1 hs hm hown zero_le_one).mpr
      ⟨by decide +kernel, fun _ => hready⟩

/-- The number of 256 entries is the byte 0, and the reader gets none of them. -/
theorem count_wraps : ¬∀ (a : AgentWords) (periodic : Bool) (now : ℚ), Sorted a.table →
    (∀ e ∈ a.table, e.metric.toNat ≤ BIG) → (∃ e ∈ a.table, e.dst = a.myaddr) → 0 ≤ now →
    RoundTrips a periodic now := by
  intro h
  have hs := sorted_knowing (n := 256) (by decide)
  have hm : ∀ e ∈ (knowing 256).table, e.metric.toNat ≤ BIG := fun e he => (mem_knowing he).1
  have hown := own_knowing (n := 256) (by decide)
  have hready : OwnReady (knowing 256) 1 := fun e he _ => (mem_knowing he).2.trans_le zero_le_one
  have hfull : full (knowing 256) true 1 = true := by rw [full, Bool.true_or]
  have hlt := (roundTrips_full hs hm hown zero_le_one hfull hready).mp
    (h (knowing 256) true 1 hs hm hown zero_le_one)
  have hlen : (knowing 256).table.length = 256 := by
    rw [knowing, List.length_map, List.length_range]
  have hall : (knowing 256).table.countP (Due true 1) = (knowing 256).table.length := by
    refine List.countP_eq_length.mpr fun e he => ?_
    exact decide_eq_true (due_true.mpr ((mem_knowing he).2.trans_le zero_le_one))
  rw [hall, hlen] at hlt
  exact lt_irrefl 256 hlt

end Tables

end ComputerNetworking.Dsdv.Wire
