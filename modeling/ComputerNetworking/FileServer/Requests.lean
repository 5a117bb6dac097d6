import ComputerNetworking.FileServer.Server

/-!
# The connection as a machine on requests

The lines a peer sends fall into requests, one for each iteration of the loop of
`run`. `serve` handles one request and knows nothing of readers and bytes; the
loop refines it (`Server.advance_of_requests`, `Server.run_serves`), so a
question about the loop is a question about the list of requests.
-/

set_option autoImplicit false

namespace ComputerNetworking.FileServer

open ComputerNetworking.Foundations

/-- What one iteration of the loop takes from the stream: a line of spaces, a GET line, an
UPLOAD line without a name, one with a name and the line behind it, or a line that
is ignored. -/
inductive Request where
  | blank
  | get (httpRequest : Text)
  | bareUpload
  | upload (uploadFileName : Text) (validMessage : Option Text)
  | other
  deriving DecidableEq, Repr

/-- The requests of a stream of lines. -/
def requests : List Text → List Request
  | [] => []
  | line :: lines =>
      match javaSplit ' ' line with
      | [] => .blank :: requests lines
      | word :: _ =>
          if word = "GET".toList then .get line :: requests lines
          else if word = "UPLOAD".toList then
            if line.length < 7 then .bareUpload :: requests lines
            else
              match lines with
              | [] => [.upload (line.drop 7) none]
              | answer :: lines => .upload (line.drop 7) (some answer) :: requests lines
          else .other :: requests lines

/-- One request on a connection. -/
def serve (w : World) (c : Connection) : Request → Except Exit Connection
  | .blank => .error (.thrown .arrayIndexOutOfBounds)
  | .get httpRequest => c.get w httpRequest
  | .bareUpload => .error (.thrown .stringIndexOutOfBounds)
  | .upload uploadFileName validMessage => c.upload w uploadFileName validMessage
  | .other => .ok c

/-- The reader behind a request. -/
def Request.readerAfter (r : Reader) : Request → Reader
  | .upload _ _ => r.readLine.2.readLine.2
  | _ => r.readLine.2

/-- The reader behind a list of requests. -/
def readerBehind (r : Reader) (qs : List Request) : Reader := qs.foldl Request.readerAfter r

theorem readerBehind_concat (r : Reader) (qs : List Request) (q : Request) :
    readerBehind r (qs ++ [q]) = q.readerAfter (readerBehind r qs) := by
  rw [readerBehind, List.foldl_concat]
  rfl

/-- The number of GET requests. -/
def gets (qs : List Request) : Nat :=
  qs.countP fun q => match q with
    | .get _ => true
    | _ => false

theorem gets_cons (q : Request) (qs : List Request) : gets (q :: qs) = gets [q] + gets qs := by
  rw [← List.singleton_append, gets, List.countP_append]
  rfl

theorem requests_eq_nil_iff {lines : List Text} : requests lines = [] ↔ lines = [] := by
  cases lines with
  | nil => exact iff_of_true rfl rfl
  | cons line lines =>
      apply iff_of_false
      · -- every branch begins with a request
        intro h
        rw [requests.eq_def] at h
        simp only at h
        split at h
        · cases h
        · split at h
          · cases h
          · split at h
            · split at h
              · cases h
              · split at h <;> cases h
            · cases h
      · exact List.cons_ne_nil line lines

/-- Lines that were sent with both line ends are the lines the handler reads. -/
theorem Server.lines_start {w : World} {segs : List Segment} (ts : List Text) (rest : List UInt8)
    (hcs : w.charset.Lossless) (hone : ∀ t ∈ ts, '\r' ∉ t ∧ '\n' ∉ t)
    (h : streamBytes segs = w.charset.encode (ts.flatMap (· ++ crlf)) ++ rest) :
    (Server.start segs).lines w = ts ++ (linesFrom [] false rest).map w.charset.decode := by
  have hlines : linesFrom [] false (w.charset.encode (ts.flatMap (· ++ crlf)) ++ rest) =
      ts.map w.charset.encode ++ linesFrom [] false rest := by
    clear h
    induction ts with
    | nil => rfl
    | cons t ts ih =>
        obtain ⟨hcr, hlf⟩ := hone t List.mem_cons_self
        have hcrlf : w.charset.encode crlf = [cr, lf] :=
          w.charset.encode_of_ascii (by decide)
        rw [List.flatMap_cons, Charset.encode_append, Charset.encode_append, hcrlf]
        simp only [List.append_assoc, List.cons_append, List.nil_append]
        rw [linesFrom_crlf (w.charset.encode_oneLine_of hcr hlf), List.nil_append,
          ih fun u hu => hone u (List.mem_cons_of_mem t hu)]
        rfl
  show (linesFrom [] false ([] ++ streamBytes segs)).map w.charset.decode = _
  rw [List.nil_append, h, hlines, List.map_append, List.map_map]
  congr 1
  conv_rhs => rw [← List.map_id ts]
  exact List.map_congr_left fun t _ => hcs t

/-! ## One iteration -/

namespace Server

variable {w : World} {s : Server}

theorem advance_of_closed (h : s.closed = true) : s.advance w = s := by
  rw [advance, if_pos h]

/-- Without a request left the loop goes round and does nothing. -/
theorem advance_of_no_requests (hopen : s.closed = false) (h : requests (s.lines w) = []) :
    s.advance w = { s with reader := s.reader.readLine.2 } ∧
      requests ((s.advance w).lines w) = [] := by
  have hlines : s.reader.lines = [] := List.map_eq_nil_iff.1 (requests_eq_nil_iff.1 h)
  obtain ⟨hread, hrest⟩ := Reader.readLine_of_lines_nil hlines
  have heq : s.advance w = { s with reader := s.reader.readLine.2 } := by
    rw [advance, hopen]
    cases hr : s.reader.readLine with
    | mk o reader =>
        rw [hr] at hread
        subst hread
        rfl
  refine ⟨heq, ?_⟩
  rw [heq, lines, hrest]
  rfl

/-- An iteration serves the next request. -/
theorem advance_of_requests {q : Request} {qs : List Request} (hopen : s.closed = false)
    (h : requests (s.lines w) = q :: qs) :
    s.advance w = s.finish w (q.readerAfter s.reader) (serve w s.conn q) ∧
      requests ((q.readerAfter s.reader).lines.map w.charset.decode) = qs := by
  cases hlines : s.reader.lines with
  | nil =>
      rw [lines, hlines] at h
      cases h
  | cons line rest =>
      obtain ⟨hread, hrest⟩ := Reader.readLine_of_lines_cons hlines
      rw [lines, hlines, List.map_cons] at h
      cases hr : s.reader.readLine with
      | mk o reader =>
          rw [hr] at hread hrest
          simp only at hread hrest
          subst hread
          rw [requests.eq_def] at h
          rw [advance, hopen]
          simp only [hr, Bool.false_eq_true, if_false] at h ⊢
          -- the two case distinctions are the same, branch by branch
          cases hsplit : javaSplit ' ' (w.charset.decode line) with
          | nil =>
              simp only [hsplit] at h ⊢
              obtain ⟨rfl, rfl⟩ := List.cons.inj h
              refine ⟨by simp only [Request.readerAfter, hr, serve], ?_⟩
              simp only [Request.readerAfter, hr, hrest]
          | cons word words =>
              simp only [hsplit] at h ⊢
              by_cases hget : word = "GET".toList
              · rw [if_pos hget] at h ⊢
                obtain ⟨rfl, rfl⟩ := List.cons.inj h
                refine ⟨by simp only [Request.readerAfter, hr, serve], ?_⟩
                simp only [Request.readerAfter, hr, hrest]
              rw [if_neg hget] at h ⊢
              by_cases hupload : word = "UPLOAD".toList
              · rw [if_pos hupload] at h ⊢
                by_cases hbare : (w.charset.decode line).length < 7
                · rw [if_pos hbare] at h ⊢
                  obtain ⟨rfl, rfl⟩ := List.cons.inj h
                  refine ⟨by simp only [Request.readerAfter, hr, serve], ?_⟩
                  simp only [Request.readerAfter, hr, hrest]
                · rw [if_neg hbare] at h ⊢
                  cases rest with
                  | nil =>
                      obtain ⟨hnone, hnil⟩ := Reader.readLine_of_lines_nil hrest
                      obtain ⟨rfl, rfl⟩ := List.cons.inj h
                      refine ⟨by simp only [Request.readerAfter, hr, serve, hnone, Option.map_none],
                        ?_⟩
                      simp only [Request.readerAfter, hr, hnil, List.map_nil, requests]
                  | cons answer rest =>
                      obtain ⟨hsome, hcons⟩ := Reader.readLine_of_lines_cons hrest
                      obtain ⟨rfl, rfl⟩ := List.cons.inj h
                      refine ⟨by simp only [Request.readerAfter, hr, serve, hsome, Option.map_some],
                        ?_⟩
                      simp only [Request.readerAfter, hr, hcons]
              · rw [if_neg hupload] at h ⊢
                obtain ⟨rfl, rfl⟩ := List.cons.inj h
                refine ⟨by simp only [Request.readerAfter, hr, serve, finish, hopen], ?_⟩
                simp only [Request.readerAfter, hr, hrest]

/-- A connection that is closed stays as it is. -/
theorem run_of_closed (n : Nat) (h : s.closed = true) : s.run w n = s := by
  induction n with
  | zero => rfl
  | succ n ih => rw [run, advance_of_closed h, ih]

theorem run_add (m n : Nat) : s.run w (m + n) = (s.run w m).run w n := by
  induction m generalizing s with
  | zero => rw [Nat.zero_add, run]
  | succ m ih => rw [Nat.succ_add, run, run, ih]

/-- Requests that do not leave the loop are served in order. -/
theorem run_serves {c : Connection} {qs rest : List Request} (hopen : s.closed = false)
    (h : requests (s.lines w) = qs ++ rest) (hrun : runAll (serve w) s.conn qs = .ok c) :
    s.run w qs.length = { s with reader := readerBehind s.reader qs, conn := c } ∧
      requests ((readerBehind s.reader qs).lines.map w.charset.decode) = rest := by
  induction qs generalizing s with
  | nil =>
      rw [runAll_nil, Except.ok.injEq] at hrun
      subst hrun
      exact ⟨rfl, h⟩
  | cons q qs ih =>
      obtain ⟨hadvance, hnext⟩ := advance_of_requests hopen h
      cases hserve : serve w s.conn q with
      | error e =>
          rw [runAll_cons_error hserve] at hrun
          cases hrun
      | ok c' =>
          rw [runAll_cons_ok hserve] at hrun
          rw [hserve] at hadvance
          have hopen' : (s.advance w).closed = false := by
            rw [hadvance]
            exact hopen
          have hnext' : requests ((s.advance w).lines w) = qs ++ rest := by
            rw [hadvance]
            exact hnext
          have hrun' : runAll (serve w) (s.advance w).conn qs = .ok c := by
            rw [hadvance]
            exact hrun
          obtain ⟨heq, hrest⟩ := ih hopen' hnext' hrun'
          rw [hadvance] at heq hrest
          refine ⟨?_, hrest⟩
          rw [List.length_cons, run, hadvance, heq]
          rfl

/-- Behind requests that are served, one that leaves the loop closes the connection. -/
theorem run_leaves {c : Connection} {pre post : List Request} {q : Request} {e : Exit}
    (hopen : s.closed = false) (h : requests (s.lines w) = pre ++ q :: post)
    (hpre : runAll (serve w) s.conn pre = .ok c) (hq : serve w c q = .error e) :
    s.run w (pre.length + 1) =
      { s with conn := c }.finish w (readerBehind s.reader (pre ++ [q])) (.error e) := by
  obtain ⟨hrun, hrest⟩ := run_serves hopen h hpre
  obtain ⟨hadvance, -⟩ := advance_of_requests (w := w)
    (s := { s with reader := readerBehind s.reader pre, conn := c }) hopen hrest
  rw [run_add, hrun, run, run, hadvance, hq, readerBehind_concat]
  cases e with
  | thrown e => rfl
  | receives path => rfl

theorem closed_finish_error (reader : Reader) (e : Exit) :
    (s.finish w reader (.error e)).closed = true := by
  cases e with
  | thrown e => rfl
  | receives path => rfl

/-- When all requests are served the connection stays open and idle. -/
theorem run_idle (n : Nat) (hopen : s.closed = false) (h : requests (s.lines w) = []) :
    ∃ reader, s.run w n = { s with reader := reader } := by
  induction n generalizing s with
  | zero => exact ⟨s.reader, rfl⟩
  | succ n ih =>
      obtain ⟨heq, hnone⟩ := advance_of_no_requests hopen h
      have hopen' : (s.advance w).closed = false := by
        rw [heq]
        exact hopen
      obtain ⟨reader, hreader⟩ := ih hopen' hnone
      refine ⟨reader, ?_⟩
      rw [run, hreader, heq]

/-- A connection that is open after some iterations has served that many requests, or
all there are. -/
theorem served_of_open {n : Nat} (hopen : s.closed = false) (hopen' : (s.run w n).closed = false) :
    runAll (serve w) s.conn ((requests (s.lines w)).take n) = .ok (s.run w n).conn := by
  have hsplit := (List.take_append_drop n (requests (s.lines w))).symm
  rcases runAll_cases (serve w) s.conn ((requests (s.lines w)).take n) with
    ⟨c, hok⟩ | ⟨pre, q, post, c, e, htake, hpre, hq, -⟩
  · obtain ⟨hrun, hrest⟩ := run_serves hopen hsplit hok
    generalize readerBehind s.reader _ = reader at hrun hrest
    rw [hok]
    by_cases hn : n ≤ (requests (s.lines w)).length
    · rw [List.length_take_of_le hn] at hrun
      rw [hrun]
    · -- all requests are served before the `n`-th iteration
      have hall : (requests (s.lines w)).drop n = [] := List.drop_eq_nil_of_le (by omega)
      rw [hall] at hrest
      obtain ⟨m, hm⟩ : ∃ m, n = ((requests (s.lines w)).take n).length + m :=
        ⟨n - ((requests (s.lines w)).take n).length, by rw [List.length_take]; omega⟩
      obtain ⟨reader', hidle⟩ :=
        run_idle (w := w) (s := { s with reader := reader, conn := c }) m hopen hrest
      have hlong := (congrArg (fun k => s.run w k) hm).trans (run_add _ _)
      rw [hlong, hrun, hidle]
  · exfalso
    rw [htake, List.append_assoc, List.cons_append] at hsplit
    have hrun := run_leaves hopen hsplit hpre hq
    have hlen := congrArg List.length htake
    rw [List.length_take, List.length_append, List.length_cons] at hlen
    obtain ⟨m, rfl⟩ : ∃ m, n = pre.length + 1 + m := ⟨n - (pre.length + 1), by omega⟩
    rw [run_add, hrun, run_of_closed m (closed_finish_error _ _), closed_finish_error] at hopen'
    cases hopen'

end Server

end ComputerNetworking.FileServer
