import Mathlib.Tactic

/-!
# A buffered line reader over a segmented byte stream

A stream socket hands its bytes over in segments, one for each read. `Reader`
is a line reader with a read-ahead buffer over such a socket, after
`java.io.BufferedReader`: it fills its buffer with a whole segment when the
buffer is empty, ends a line at a carriage return or a line feed, and skips the
line feed of a pair when the next line is read.

Two facts describe it. The lines it returns are those of the byte stream,
however the stream is cut (`Reader.lines_readLine`). The bytes it has taken from
the socket are those of its lines and of its buffer, and the buffer is a proper
part of the last segment taken (`Reader.After.readLine`).
-/

set_option autoImplicit false

namespace ComputerNetworking.Foundations

/-- Carriage return. -/
def cr : UInt8 := 13

/-- Line feed. -/
def lf : UInt8 := 10

/-- The bytes one read of a socket returns: at least one. -/
abbrev Segment := { bs : List UInt8 // bs ≠ [] }

/-- The byte stream a list of segments cuts. -/
def streamBytes : List Segment → List UInt8
  | [] => []
  | seg :: segs => seg.1 ++ streamBytes segs

@[simp] theorem streamBytes_nil : streamBytes [] = [] := rfl

@[simp] theorem streamBytes_cons (seg : Segment) (segs : List Segment) :
    streamBytes (seg :: segs) = seg.1 ++ streamBytes segs := rfl

@[simp] theorem streamBytes_append (segs segs' : List Segment) :
    streamBytes (segs ++ segs') = streamBytes segs ++ streamBytes segs' := by
  induction segs with
  | nil => rfl
  | cons seg segs ih => rw [List.cons_append, streamBytes_cons, ih, streamBytes_cons,
      List.append_assoc]

/-! ## Lines of a byte stream -/

/-- A byte that ends a line. -/
def endsLine (b : UInt8) : Bool := b == cr || b == lf

/-- A text of one line: no byte of it ends a line. -/
def OneLine (bs : List UInt8) : Prop := ∀ b ∈ bs, endsLine b = false

/-- The bytes before the first line end, whether it is a carriage return, and the
bytes behind it. -/
def takeLine : List UInt8 → Option (List UInt8 × Bool × List UInt8)
  | [] => none
  | b :: bs =>
      if endsLine b then some ([], b == cr, bs)
      else (takeLine bs).map fun r => (b :: r.1, r.2.1, r.2.2)

/-- The bytes without the line feed of a pair that a carriage return has begun. -/
def dropLF (skip : Bool) : List UInt8 → List UInt8
  | [] => []
  | b :: bs => if skip && b == lf then bs else b :: bs

/-- The lines of a byte stream, the first of which begins with `acc`. A last line
without an end counts when it is not empty. -/
def linesFrom (acc : List UInt8) (skip : Bool) : List UInt8 → List (List UInt8)
  | [] => if acc = [] then [] else [acc]
  | b :: bs =>
      -- the second byte of a pair belongs to the line end before it
      if skip && b == lf then linesFrom acc false bs
      else if endsLine b then acc :: linesFrom [] (b == cr) bs
      else linesFrom (acc ++ [b]) false bs

section Lines

variable {bs rest line : List UInt8} {acc : List UInt8} {skip : Bool}

theorem OneLine.of_append_left (h : OneLine (bs ++ rest)) : OneLine bs :=
  fun b hb => h b (List.mem_append_left rest hb)

theorem OneLine.of_append_right (h : OneLine (bs ++ rest)) : OneLine rest :=
  fun b hb => h b (List.mem_append_right bs hb)

theorem oneLine_nil : OneLine [] := by
  intro b hb
  exact absurd hb List.not_mem_nil

theorem oneLine_cons_iff {b : UInt8} : OneLine (b :: bs) ↔ endsLine b = false ∧ OneLine bs :=
  List.forall_mem_cons

theorem takeLine_of_oneLine (h : OneLine bs) : takeLine bs = none := by
  induction bs with
  | nil => rfl
  | cons b bs ih =>
      obtain ⟨hb, hbs⟩ := oneLine_cons_iff.1 h
      simp only [takeLine, hb, Bool.false_eq_true, if_false, ih hbs, Option.map_none]

theorem takeLine_append {t : UInt8} (rest : List UInt8) (h : OneLine line)
    (ht : endsLine t = true) : takeLine (line ++ t :: rest) = some (line, t == cr, rest) := by
  induction line with
  | nil => simp only [List.nil_append, takeLine, ht, if_true]
  | cons b line ih =>
      obtain ⟨hb, hline⟩ := oneLine_cons_iff.1 h
      simp only [List.cons_append, takeLine, hb, Bool.false_eq_true, if_false, ih hline,
        Option.map_some]

/-- Either the bytes hold no line end, or they split at the first one. -/
theorem oneLine_or_split (bs : List UInt8) :
    OneLine bs ∨ ∃ line t rest, bs = line ++ t :: rest ∧ OneLine line ∧ endsLine t = true := by
  induction bs with
  | nil =>
      left
      exact oneLine_nil
  | cons b bs ih =>
      cases hb : endsLine b with
      | true =>
          right
          exact ⟨[], b, bs, rfl, oneLine_nil, hb⟩
      | false =>
          rcases ih with hone | ⟨line, t, rest, heq, hline, ht⟩
          · left
            exact oneLine_cons_iff.2 ⟨hb, hone⟩
          · right
            refine ⟨b :: line, t, rest, ?_, oneLine_cons_iff.2 ⟨hb, hline⟩, ht⟩
            rw [heq, List.cons_append]

theorem linesFrom_oneLine (h : OneLine bs) :
    linesFrom acc false (bs ++ rest) = linesFrom (acc ++ bs) false rest := by
  induction bs generalizing acc with
  | nil => rw [List.nil_append, List.append_nil]
  | cons b bs ih =>
      obtain ⟨hb, hbs⟩ := oneLine_cons_iff.1 h
      simp only [List.cons_append, linesFrom, Bool.false_and, Bool.false_eq_true, if_false, hb]
      rw [ih hbs, List.append_assoc, List.singleton_append]

theorem linesFrom_end {t : UInt8} (ht : endsLine t = true) :
    linesFrom acc false (t :: rest) = acc :: linesFrom [] (t == cr) rest := by
  simp only [linesFrom, Bool.false_and, Bool.false_eq_true, if_false, ht, if_true]

/-- A line with its end in front of a stream is the stream's first line. -/
theorem linesFrom_line {t : UInt8} (h : OneLine line) (ht : endsLine t = true) :
    linesFrom acc false (line ++ t :: rest) = (acc ++ line) :: linesFrom [] (t == cr) rest := by
  rw [linesFrom_oneLine h, linesFrom_end ht]

/-- A line that ends with the pair. -/
theorem linesFrom_crlf (h : OneLine line) :
    linesFrom acc false (line ++ cr :: lf :: rest) =
      (acc ++ line) :: linesFrom [] false rest := by
  rw [linesFrom_line h rfl]
  rfl

theorem dropLF_append (hne : bs ≠ []) : dropLF skip (bs ++ rest) = dropLF skip bs ++ rest := by
  cases bs with
  | nil => exact absurd rfl hne
  | cons b bs =>
      cases hb : skip && b == lf with
      | true => simp only [List.cons_append, dropLF, hb, if_true]
      | false => simp only [List.cons_append, dropLF, hb, Bool.false_eq_true, if_false]

theorem linesFrom_dropLF (hne : bs ≠ []) :
    linesFrom acc skip (bs ++ rest) = linesFrom acc false (dropLF skip bs ++ rest) := by
  cases bs with
  | nil => exact absurd rfl hne
  | cons b bs =>
      cases hb : skip && b == lf with
      | true => simp only [List.cons_append, linesFrom, dropLF, hb, if_true]
      | false =>
          simp only [List.cons_append, linesFrom, dropLF, hb, Bool.false_and,
            Bool.false_eq_true, if_false]

/-- Bytes without a line end join the line the stream is in. -/
theorem linesFrom_absorb (h : OneLine (dropLF skip bs)) :
    linesFrom acc skip (bs ++ rest) =
      linesFrom (acc ++ dropLF skip bs) (skip && bs.isEmpty) rest := by
  by_cases hne : bs = []
  · subst hne
    rw [List.nil_append, List.isEmpty_nil, Bool.and_true]
    show linesFrom acc skip rest = linesFrom (acc ++ []) skip rest
    rw [List.append_nil]
  · rw [linesFrom_dropLF hne, linesFrom_oneLine h, List.isEmpty_eq_false_iff.2 hne,
      Bool.and_false]

end Lines

/-! ## The reader -/

/-- A line reader: what it has read ahead, whether it skips a line feed next, and
the segments the socket still has for it. -/
structure Reader where
  buffered : List UInt8
  skipLF : Bool
  segments : List Segment

/-- The loop of `readLine`: `acc` is the part of the line read so far. -/
def readFrom (acc : List UInt8) (skip : Bool) (buf : List UInt8) :
    List Segment → Option (List UInt8) × Reader
  | [] =>
      match takeLine (dropLF skip buf) with
      | some (line, ended, rest) => (some (acc ++ line), ⟨rest, ended, []⟩)
      | none =>
          -- end of stream: a line without an end is returned, an empty one is not
          let line := acc ++ dropLF skip buf
          (if line = [] then none else some line, ⟨[], skip && buf.isEmpty, []⟩)
  | seg :: segs =>
      match takeLine (dropLF skip buf) with
      | some (line, ended, rest) => (some (acc ++ line), ⟨rest, ended, seg :: segs⟩)
      -- the line goes on behind the buffer, which the next segment fills
      | none => readFrom (acc ++ dropLF skip buf) (skip && buf.isEmpty) seg.1 segs

namespace Reader

/-- A fresh reader over a socket. -/
def start (segs : List Segment) : Reader := ⟨[], false, segs⟩

/-- `readLine`: the next line, or nothing at the end of the stream. -/
def readLine (r : Reader) : Option (List UInt8) × Reader :=
  readFrom [] r.skipLF r.buffered r.segments

/-- The bytes still to be read. -/
def stream (r : Reader) : List UInt8 := r.buffered ++ streamBytes r.segments

/-- The lines still to be read. -/
def lines (r : Reader) : List (List UInt8) := linesFrom [] r.skipLF r.stream

end Reader

section ReadFrom

variable {acc buf rest line : List UInt8} {skip : Bool} {segs : List Segment}

theorem readFrom_of_takeLine {ended : Bool}
    (h : takeLine (dropLF skip buf) = some (line, ended, rest)) :
    readFrom acc skip buf segs = (some (acc ++ line), ⟨rest, ended, segs⟩) := by
  cases segs with
  | nil => simp only [readFrom, h]
  | cons seg segs => simp only [readFrom, h]

theorem readFrom_fill {seg : Segment} (h : OneLine (dropLF skip buf)) :
    readFrom acc skip buf (seg :: segs) =
      readFrom (acc ++ dropLF skip buf) (skip && buf.isEmpty) seg.1 segs := by
  simp only [readFrom, takeLine_of_oneLine h]

theorem readFrom_eof (h : OneLine (dropLF skip buf)) :
    readFrom acc skip buf [] =
      (if acc ++ dropLF skip buf = [] then none else some (acc ++ dropLF skip buf),
        ⟨[], skip && buf.isEmpty, []⟩) := by
  simp only [readFrom, takeLine_of_oneLine h]

/-- A buffer that holds a line end: the loop ends there. -/
theorem readFrom_split {t : UInt8} (heq : dropLF skip buf = line ++ t :: rest)
    (hline : OneLine line) (ht : endsLine t = true) :
    readFrom acc skip buf segs = (some (acc ++ line), ⟨rest, t == cr, segs⟩) := by
  apply readFrom_of_takeLine
  rw [heq]
  exact takeLine_append rest hline ht

/-- The bytes of a line with its end, and a line feed skipped before it, are used. -/
theorem split_used {t : UInt8} (heq : dropLF skip buf = line ++ t :: rest) :
    ∃ used, buf = used ++ rest ∧ used ≠ [] := by
  cases buf with
  | nil => exact absurd heq.symm (List.append_ne_nil_of_right_ne_nil line (List.cons_ne_nil t rest))
  | cons b bs =>
      cases hb : skip && b == lf with
      | true =>
          -- the line feed that is skipped is used too
          simp only [dropLF, hb, if_true] at heq
          exact ⟨b :: (line ++ [t]), by simp [heq], List.cons_ne_nil _ _⟩
      | false =>
          simp only [dropLF, hb, Bool.false_eq_true, if_false] at heq
          refine ⟨line ++ [t], by simp [heq], ?_⟩
          exact List.append_ne_nil_of_right_ne_nil line (List.cons_ne_nil t [])

theorem ne_nil_of_dropLF {t : UInt8} (heq : dropLF skip buf = line ++ t :: rest) : buf ≠ [] := by
  rintro rfl
  exact absurd heq.symm (List.append_ne_nil_of_right_ne_nil line (List.cons_ne_nil t rest))

/-- What the loop leaves is a last part of what it was given, after some bytes of
it (`used`) that are not empty unless the stream has ended. -/
theorem readFrom_custody (acc : List UInt8) (skip : Bool) (buf : List UInt8)
    (segs : List Segment) :
    ∃ pre used, segs = pre ++ (readFrom acc skip buf segs).2.segments ∧
      buf ++ streamBytes pre = used ++ (readFrom acc skip buf segs).2.buffered ∧
      ((readFrom acc skip buf segs).2.buffered = [] ∨ used ≠ []) ∧
      ∀ last ∈ pre.getLast?, (readFrom acc skip buf segs).2.buffered.length < last.1.length := by
  -- induction on the segments: with a line end in the buffer none is taken
  induction segs generalizing acc skip buf with
  | nil =>
      rcases oneLine_or_split (dropLF skip buf) with hone | ⟨line, t, rest, heq, hline, ht⟩
      · rw [readFrom_eof hone]
        refine ⟨[], buf, rfl, rfl, Or.inl rfl, ?_⟩
        intro last hlast
        cases hlast
      · rw [readFrom_split heq hline ht]
        obtain ⟨used, hused, hne⟩ := split_used heq
        refine ⟨[], used, rfl, ?_, Or.inr hne, ?_⟩
        · rw [streamBytes_nil, List.append_nil]
          exact hused
        · intro last hlast
          cases hlast
  | cons seg segs ih =>
      rcases oneLine_or_split (dropLF skip buf) with hone | ⟨line, t, rest, heq, hline, ht⟩
      · rw [readFrom_fill hone]
        obtain ⟨pre, used, hsegs, hbytes, hprogress, htight⟩ :=
          ih (acc ++ dropLF skip buf) (skip && buf.isEmpty) seg.1
        generalize (readFrom (acc ++ dropLF skip buf) (skip && buf.isEmpty) seg.1 segs).2 = r at *
        refine ⟨seg :: pre, buf ++ used, by rw [List.cons_append, ← hsegs], ?_, ?_, ?_⟩
        · rw [streamBytes_cons, hbytes, List.append_assoc]
        · rcases hprogress with hnil | hne
          · exact Or.inl hnil
          · exact Or.inr (List.append_ne_nil_of_right_ne_nil buf hne)
        · intro last hlast
          cases pre with
          | nil =>
              -- the filled segment itself: something of it was used
              rw [List.getLast?_singleton, Option.mem_some_iff] at hlast
              subst hlast
              rw [streamBytes_nil, List.append_nil] at hbytes
              rcases hprogress with hnil | hne
              · rw [hnil]
                exact List.length_pos_iff.2 seg.2
              · rw [hbytes, List.length_append]
                have hpos : 0 < used.length := List.length_pos_iff.2 hne
                omega
          | cons seg' pre =>
              rw [List.getLast?_cons_cons] at hlast
              exact htight last hlast
      · rw [readFrom_split heq hline ht]
        obtain ⟨used, hused, hne⟩ := split_used heq
        refine ⟨[], used, rfl, ?_, Or.inr hne, ?_⟩
        · rw [streamBytes_nil, List.append_nil]
          exact hused
        · intro last hlast
          cases hlast

/-- The line the loop returns and the lines it leaves are those of the stream. -/
theorem readFrom_lines (acc : List UInt8) (skip : Bool) (buf : List UInt8)
    (segs : List Segment) :
    (readFrom acc skip buf segs).1.toList ++ (readFrom acc skip buf segs).2.lines =
      linesFrom acc skip (buf ++ streamBytes segs) := by
  have hsplit : ∀ {acc skip buf line t rest segs}, dropLF skip buf = line ++ t :: rest →
      OneLine line → endsLine t = true →
      (readFrom acc skip buf segs).1.toList ++ (readFrom acc skip buf segs).2.lines =
        linesFrom acc skip (buf ++ streamBytes segs) := by
    intro acc skip buf line t rest segs heq hline ht
    rw [readFrom_split heq hline ht, linesFrom_dropLF (ne_nil_of_dropLF heq), heq,
      List.append_assoc, List.cons_append, linesFrom_line hline ht]
    rfl
  -- induction on the segments: a buffer without a line end makes the loop fill
  induction segs generalizing acc skip buf with
  | nil =>
      rcases oneLine_or_split (dropLF skip buf) with hone | ⟨line, t, rest, heq, hline, ht⟩
      · rw [readFrom_eof hone, streamBytes_nil, linesFrom_absorb hone]
        show _ ++ linesFrom [] _ [] = linesFrom _ _ []
        rw [linesFrom, linesFrom, if_pos rfl, List.append_nil]
        split
        · rfl
        · rfl
      · exact hsplit heq hline ht
  | cons seg segs ih =>
      rcases oneLine_or_split (dropLF skip buf) with hone | ⟨line, t, rest, heq, hline, ht⟩
      · rw [readFrom_fill hone, ih, streamBytes_cons, linesFrom_absorb hone]
      · exact hsplit heq hline ht

/-- The loop on a stream that begins with a line and a carriage return. -/
theorem readFrom_cr (acc : List UInt8) (hline : OneLine line)
    (h : dropLF skip (buf ++ streamBytes segs) = line ++ cr :: rest) :
    ∃ r, readFrom acc skip buf segs = (some (acc ++ line), r) ∧ r.skipLF = true ∧
      r.stream = rest := by
  induction segs generalizing acc skip buf line with
  | nil =>
      rw [streamBytes_nil, List.append_nil] at h
      refine ⟨_, readFrom_split h hline rfl, rfl, ?_⟩
      exact List.append_nil rest
  | cons seg segs ih =>
      by_cases hne : buf = []
      · -- nothing is buffered: a line feed to skip can only be the segment's first byte
        subst hne
        rw [List.nil_append, streamBytes_cons] at h
        have hempty : OneLine (dropLF skip []) := oneLine_nil
        rw [readFrom_fill hempty, List.isEmpty_nil, Bool.and_true]
        obtain ⟨r, hr, hskip, hstream⟩ := ih (acc ++ dropLF skip []) hline h
        exact ⟨r, by rw [hr]; show (some (acc ++ [] ++ line), r) = _; rw [List.append_nil],
          hskip, hstream⟩
      · rw [dropLF_append hne] at h
        have hempty : (skip && buf.isEmpty) = false := by
          rw [List.isEmpty_eq_false_iff.2 hne, Bool.and_false]
        rcases List.append_eq_append_iff.1 h with ⟨a, hl, htail⟩ | ⟨c, hbuf, htail⟩
        · -- the buffer ends inside the line
          rw [hl] at hline
          rw [readFrom_fill hline.of_append_left, hempty]
          have hdrop : dropLF false (seg.1 ++ streamBytes segs) = a ++ cr :: rest := by
            rw [← streamBytes_cons, htail]
            cases a with
            | nil => rfl
            | cons b a => rfl
          obtain ⟨r, hr, hskip, hstream⟩ :=
            ih (acc ++ dropLF skip buf) hline.of_append_right hdrop
          exact ⟨r, by rw [hr, hl, List.append_assoc], hskip, hstream⟩
        · cases c with
          | nil =>
              -- the buffer ends where the line does
              rw [List.append_nil] at hbuf
              rw [← hbuf] at hline
              rw [readFrom_fill hline, hempty]
              have hdrop : dropLF false (seg.1 ++ streamBytes segs) = [] ++ cr :: rest := by
                rw [← streamBytes_cons, ← List.nil_append (streamBytes _), ← htail]
                rfl
              obtain ⟨r, hr, hskip, hstream⟩ := ih (acc ++ dropLF skip buf) oneLine_nil hdrop
              exact ⟨r, by rw [hr, List.append_nil, hbuf], hskip, hstream⟩
          | cons b c =>
              -- the buffer holds the carriage return
              obtain ⟨rfl, rfl⟩ := List.cons.inj htail
              exact ⟨_, readFrom_split hbuf hline rfl, rfl, rfl⟩

/-- At the end of the stream the loop leaves no lines. -/
theorem readFrom_none (h : (readFrom acc skip buf segs).1 = none) :
    (readFrom acc skip buf segs).2.lines = [] := by
  induction segs generalizing acc skip buf with
  | nil =>
      rcases oneLine_or_split (dropLF skip buf) with hone | ⟨line, t, rest, heq, hline, ht⟩
      · rw [readFrom_eof hone]
        rfl
      · rw [readFrom_split heq hline ht] at h
        cases h
  | cons seg segs ih =>
      rcases oneLine_or_split (dropLF skip buf) with hone | ⟨line, t, rest, heq, hline, ht⟩
      · rw [readFrom_fill hone] at h ⊢
        exact ih h
      · rw [readFrom_split heq hline ht] at h
        cases h

end ReadFrom

namespace Reader

/-! ## What `readLine` returns -/

/-- `readLine` returns the first of the lines to be read and leaves the others. -/
theorem lines_readLine (r : Reader) : r.readLine.1.toList ++ r.readLine.2.lines = r.lines :=
  readFrom_lines [] r.skipLF r.buffered r.segments

/-- `readLine` by the lines to be read. -/
theorem readLine_cases (r : Reader) :
    (r.lines = [] ∧ r.readLine.1 = none ∧ r.readLine.2.lines = []) ∨
      ∃ line, r.readLine.1 = some line ∧ r.lines = line :: r.readLine.2.lines := by
  have hlines := r.lines_readLine
  cases hread : r.readLine.1 with
  | none =>
      have hrest : r.readLine.2.lines = [] := readFrom_none hread
      rw [hread, hrest] at hlines
      exact Or.inl ⟨hlines.symm, rfl, hrest⟩
  | some line =>
      rw [hread] at hlines
      exact Or.inr ⟨line, rfl, hlines.symm⟩

theorem readLine_of_lines_nil {r : Reader} (h : r.lines = []) :
    r.readLine.1 = none ∧ r.readLine.2.lines = [] := by
  rcases r.readLine_cases with ⟨-, hread⟩ | ⟨line, -, hlines⟩
  · exact hread
  · rw [h] at hlines
    cases hlines

theorem readLine_of_lines_cons {r : Reader} {line : List UInt8} {rest : List (List UInt8)}
    (h : r.lines = line :: rest) : r.readLine.1 = some line ∧ r.readLine.2.lines = rest := by
  rcases r.readLine_cases with ⟨hnil, -⟩ | ⟨line', hread, hlines⟩
  · rw [hnil] at h
    cases h
  · rw [h] at hlines
    obtain ⟨rfl, rfl⟩ := List.cons.inj hlines
    exact ⟨hread, rfl⟩

/-- A stream that begins with a line and a carriage return. -/
theorem readLine_cr {r : Reader} {line rest : List UInt8} (hline : OneLine line)
    (h : dropLF r.skipLF r.stream = line ++ cr :: rest) :
    r.readLine.1 = some line ∧ r.readLine.2.skipLF = true ∧ r.readLine.2.stream = rest := by
  obtain ⟨r', hr', hskip, hstream⟩ := readFrom_cr [] hline h
  rw [readLine, hr']
  exact ⟨rfl, hskip, hstream⟩

/-! ## What it has taken from the socket -/

/-- A reader that was given `segs`, has used the bytes `used` of them and has taken
the segments `pre` from the socket. It holds less than the last of these: it
takes a segment only when it needs a byte of it. -/
structure After (segs : List Segment) (used : List UInt8) (pre : List Segment) (r : Reader) :
    Prop where
  given : segs = pre ++ r.segments
  custody : streamBytes pre = used ++ r.buffered
  tight : ∀ last ∈ pre.getLast?, r.buffered.length < last.1.length

theorem After.start (segs : List Segment) : After segs [] [] (start segs) := by
  refine ⟨rfl, rfl, ?_⟩
  intro last hlast
  cases hlast

variable {segs pre : List Segment} {used : List UInt8} {r : Reader}

theorem After.stream_eq (h : After segs used pre r) : streamBytes segs = used ++ r.stream := by
  rw [h.given, streamBytes_append, h.custody, List.append_assoc]
  rfl

/-- Reading a line keeps the account of the socket. -/
theorem After.readLine (h : After segs used pre r) :
    ∃ more taken, After segs (used ++ more) (pre ++ taken) r.readLine.2 := by
  obtain ⟨taken, more, hgiven, hbytes, -, htight⟩ :=
    readFrom_custody [] r.skipLF r.buffered r.segments
  refine ⟨more, taken, ?_, ?_, ?_⟩
  · rw [h.given, List.append_assoc]
    exact congrArg (pre ++ ·) hgiven
  · rw [streamBytes_append, h.custody, List.append_assoc, hbytes, List.append_assoc]
    rfl
  · intro last hlast
    cases taken with
    | nil =>
        -- nothing new was taken: the buffer has only become shorter
        rw [List.append_nil] at hlast
        have hold := h.tight last hlast
        rw [streamBytes_nil, List.append_nil] at hbytes
        have hshorter : r.readLine.2.buffered.length ≤ r.buffered.length := by
          rw [hbytes, List.length_append]
          exact Nat.le_add_left _ _
        omega
    | cons seg taken =>
        rw [List.getLast?_append_cons] at hlast
        exact htight last hlast

end Reader

/-! ## Where the stream is cut -/

theorem streamBytes_eq_nil_iff {segs : List Segment} : streamBytes segs = [] ↔ segs = [] := by
  cases segs with
  | nil => exact iff_of_true rfl rfl
  | cons seg segs =>
      apply iff_of_false
      · intro h
        exact seg.2 (List.append_eq_nil_iff.1 h).1
      · exact List.cons_ne_nil seg segs

theorem length_le_streamBytes {segs : List Segment} {last : Segment}
    (h : last ∈ segs.getLast?) : last.1.length ≤ (streamBytes segs).length := by
  obtain ⟨init, rfl⟩ := List.getLast?_eq_some_iff.1 h
  rw [streamBytes_append, streamBytes_cons, streamBytes_nil, List.append_nil, List.length_append]
  exact Nat.le_add_left _ _

/-- One read of the socket ends right behind `head`, and none ends right before the
line feed that `head` ends with. -/
def CutBehind (segs : List Segment) (head : List UInt8) : Prop :=
  ∃ before after, segs = before ++ after ∧ streamBytes before = head ∧
    ∀ last ∈ before.getLast?, last.1 ≠ [lf]

/-- A reader that has used everything up to a line feed leaves exactly the bytes
behind the line feed to the socket if and only if the stream is cut there. -/
theorem Reader.After.left_eq_iff {segs pre : List Segment} {used rest : List UInt8} {r : Reader}
    (h : Reader.After segs used pre r) (hstream : r.stream = lf :: rest) :
    streamBytes r.segments = rest ↔ CutBehind segs (used ++ [lf]) := by
  have hsplit : r.buffered ++ streamBytes r.segments = [lf] ++ rest := hstream
  -- what the reader holds decides it
  have hheld : r.buffered = [lf] ↔ streamBytes r.segments = rest := by
    constructor
    · intro hb
      rw [hb] at hsplit
      exact List.append_cancel_left hsplit
    · intro hrest
      rw [hrest] at hsplit
      exact List.append_cancel_right hsplit
  rw [← hheld]
  constructor
  · intro hb
    refine ⟨pre, r.segments, h.given, by rw [h.custody, hb], ?_⟩
    intro last hlast hlf
    have hlt := h.tight last hlast
    rw [hb, hlf] at hlt
    exact absurd hlt (lt_irrefl _)
  · rintro ⟨before, after, hsegs, hbefore, hlast⟩
    rcases List.append_eq_append_iff.1 (h.given.symm.trans hsegs) with
      ⟨a, hpre, -⟩ | ⟨c, hpre, -⟩
    · -- the cut lies in what the reader has not taken: only a lone line feed fits
      rw [hpre, streamBytes_append, h.custody, List.append_assoc] at hbefore
      have hrest : r.buffered ++ streamBytes a = [lf] := List.append_cancel_left hbefore
      cases a with
      | nil => rwa [streamBytes_nil, List.append_nil] at hrest
      | cons seg a =>
          exfalso
          have hlen := congrArg List.length hrest
          have hpos : 0 < seg.1.length := List.length_pos_iff.2 seg.2
          simp only [streamBytes_cons, List.length_append, List.length_singleton] at hlen
          have ha : a = [] :=
            streamBytes_eq_nil_iff.1 (List.length_eq_zero_iff.1 (by omega))
          have hb : r.buffered = [] := List.length_eq_zero_iff.1 (by omega)
          rw [ha, hb, streamBytes_cons, streamBytes_nil, List.append_nil, List.nil_append] at hrest
          exact hlast seg (by rw [hpre, ha, List.getLast?_append_cons]; rfl) hrest
    · -- the cut lies in what the reader has taken: behind it only the buffer is left
      have hbytes : used ++ [lf] ++ streamBytes c = used ++ r.buffered := by
        rw [← h.custody, hpre, streamBytes_append, hbefore]
      rw [List.append_assoc] at hbytes
      have hheldc : [lf] ++ streamBytes c = r.buffered := List.append_cancel_left hbytes
      cases c with
      | nil => exact hheldc.symm
      | cons seg c =>
          exfalso
          obtain ⟨last, hmem⟩ : ∃ last, last ∈ (seg :: c).getLast? :=
            ⟨_, List.getLast_mem_getLast? (List.cons_ne_nil seg c)⟩
          have hle := length_le_streamBytes hmem
          have hlt := h.tight last (by rw [hpre, List.getLast?_append_cons]; exact hmem)
          rw [← hheldc, List.length_append] at hlt
          omega

/-- A reader that has read two lines, each sent with both line ends: it has used all but
the last line feed. -/
theorem Reader.after_two_lines {segs : List Segment} {first second rest : List UInt8}
    (hfirst : OneLine first) (hsecond : OneLine second)
    (h : streamBytes segs = first ++ cr :: lf :: (second ++ cr :: lf :: rest)) :
    ∃ pre, Reader.After segs (first ++ cr :: lf :: (second ++ [cr])) pre
        (Reader.start segs).readLine.2.readLine.2 ∧
      (Reader.start segs).readLine.2.readLine.2.stream = lf :: rest := by
  obtain ⟨-, hskip, hstream⟩ := Reader.readLine_cr (r := Reader.start segs) hfirst
    (show dropLF false ([] ++ streamBytes segs) = _ by rw [List.nil_append, h]; cases first <;> rfl)
  -- the line feed of the first line is skipped when the second is read
  have hdrop : dropLF (Reader.start segs).readLine.2.skipLF (Reader.start segs).readLine.2.stream =
      second ++ cr :: (lf :: rest) := by
    rw [hskip, hstream]
    rfl
  obtain ⟨-, -, hstream'⟩ := Reader.readLine_cr hsecond hdrop
  obtain ⟨more, taken, hafter⟩ := (Reader.After.start segs).readLine
  obtain ⟨more', taken', hafter'⟩ := hafter.readLine
  refine ⟨[] ++ taken ++ taken', ?_, hstream'⟩
  -- the bytes used are determined by those that are left
  have hused : [] ++ more ++ more' = first ++ cr :: lf :: (second ++ [cr]) := by
    have heq := hafter'.stream_eq
    rw [hstream', h] at heq
    apply List.append_cancel_right
    calc [] ++ more ++ more' ++ (lf :: rest)
        = first ++ cr :: lf :: (second ++ cr :: lf :: rest) := heq.symm
      _ = first ++ cr :: lf :: (second ++ [cr]) ++ (lf :: rest) := by
          simp only [List.append_assoc, List.cons_append, List.nil_append]
  rw [← hused]
  exact hafter'

end ComputerNetworking.Foundations
