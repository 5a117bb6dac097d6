import ComputerNetworking.FileServer.Leaving
import ComputerNetworking.FileServer.Recovery

/-!
# One response to each GET line

Whether the handling of every line goes on without an exception, and answers a GET line
with one response. The responses in an answer are counted by the status lines of the head
that its branch writes. A line of spaces, a GET line without a second field, an UPLOAD
line without a name and some others raise an exception (`Request.Throws`), and
the branch of a missing target writes what the connection has stored before its own
head. Along every run these are the only ones (`answeredOnce_iff`).
-/

set_option autoImplicit false

namespace ComputerNetworking.FileServer

open ComputerNetworking.Foundations

/-! ## Counting responses -/

/-- A line with the protocol version of a response. -/
def beginsResponse (line : Text) : Bool := "HTTP/1.1 ".toList.isPrefixOf line

/-- The number of status lines in a text. -/
def statusLines (t : Text) : Nat := (t.splitOn '\n').countP beginsResponse

/-- The head that the branch of a target writes, with the line end behind it if it writes
one, after it has set `httpResponse`. -/
def headText (httpResponse : Text) (target : Target) : Text :=
  sentHead httpResponse target ++ lineBehind target

/-- The number of responses a GET line is answered by. -/
def responses (w : World) (c : Connection) (httpRequest : Text) : Nat :=
  let env := w.env c.httpRequestCount
  match requestTarget env httpRequest with
  | .error _ => 0
  | .ok (path, target) =>
      statusLines (headText (newResponse w.charset env.date c.httpResponse path target) target)

/-- What `httpResponse` can hold: nothing, or whole lines with a status line among them. -/
def Stored (t : Text) : Prop := t = [] ∨ (∃ u, t = u ++ ['\n']) ∧ 0 < statusLines t

section Counting

variable {cs : Charset} {date : DateText} {old path : Text} {target : Target}

theorem statusLines_append_cons (t u : Text) :
    statusLines (t ++ '\n' :: u) = statusLines t + statusLines u := by
  rw [statusLines, List.splitOn_append_cons_self, List.countP_append]
  rfl

theorem Stored.statusLines_append (hold : Stored old) (u : Text) :
    statusLines (old ++ u) = statusLines old + statusLines u := by
  have hempty : statusLines [] = 0 := by decide
  rcases hold with rfl | ⟨⟨t, rfl⟩, -⟩
  · rw [List.nil_append, hempty, Nat.zero_add]
  · rw [List.append_assoc, List.singleton_append, statusLines_append_cons,
      statusLines_append_cons, hempty, Nat.add_zero]

theorem Stored.statusLines_eq_zero_iff (hold : Stored old) : statusLines old = 0 ↔ old = [] := by
  rcases hold with rfl | ⟨⟨t, rfl⟩, hpos⟩
  · exact iff_of_true (by decide) rfl
  · exact iff_of_false hpos.ne' (List.append_ne_nil_of_right_ne_nil t (by decide))

theorem statusLines_renderHead {lines : List Text} (h : ∀ line ∈ lines, Printable line) :
    statusLines (renderHead lines) = (lines.map (· ++ ['\r'])).countP beginsResponse := by
  induction lines with
  | nil => decide
  | cons line lines ih =>
      have hline : '\n' ∉ line ++ ['\r'] := by
        intro hmem
        rcases List.mem_append.1 hmem with hmem | hmem
        · exact absurd (h line List.mem_cons_self _ hmem).1 (by decide)
        · exact absurd hmem (by decide)
      have hsplit : renderHead (line :: lines) = line ++ ['\r'] ++ '\n' :: renderHead lines := by
        simp only [renderHead, List.flatMap_cons, crlf, List.append_assoc, List.cons_append,
          List.nil_append]
      have hone : statusLines (line ++ ['\r']) = [line ++ ['\r']].countP beginsResponse := by
        rw [statusLines, List.splitOn_eq_singleton hline]
      rw [hsplit, statusLines_append_cons, hone, ih fun l hl => h l (List.mem_cons_of_mem line hl),
        ← List.countP_append]
      rfl

/-- The heads the handler builds have one status line. -/
theorem statusLines_responseLines {status contentType : String} (n : Nat) {more : List Text}
    (hstatus : beginsResponse (status.toList ++ ['\r']) = true)
    (hmore : ∀ line ∈ more, beginsResponse (line ++ ['\r']) = false)
    (hprint : ∀ line ∈ [status.toList, contentType.toList] ++ more, Printable line) :
    statusLines (renderHead (responseLines status contentType date n more)) = 1 := by
  have hall : ∀ line ∈ responseLines status contentType date n more, Printable line := by
    intro line hline
    simp only [responseLines, List.cons_append, List.nil_append, List.mem_cons] at hline hprint
    rcases hline with rfl | rfl | rfl | rfl | rfl | hmore
    · exact hprint _ (Or.inl rfl)
    · decide
    · exact Printable.append (by decide) date.2
    · exact Printable.append (by decide) (hprint _ (Or.inr (Or.inl rfl)))
    · exact printable_lengthLine n
    · exact hprint _ (Or.inr (Or.inr hmore))
  have hrest : (more.map (· ++ ['\r'])).countP beginsResponse = 0 := by
    rw [List.countP_eq_zero]
    intro l hl
    obtain ⟨line, hline, rfl⟩ := List.mem_map.1 hl
    rw [hmore line hline]
    exact Bool.false_ne_true
  rw [statusLines_renderHead hall, responseLines, List.map_append, List.countP_append, hrest,
    Nat.add_zero, List.map_cons, List.countP_cons_of_pos hstatus]
  rfl

theorem statusLines_pageHead (page : Text) : statusLines (pageHead date page) = 1 :=
  statusLines_responseLines _ (by decide) (by decide) (by decide)

theorem statusLines_imageHead (n : Nat) : statusLines (imageHead date n) = 1 :=
  statusLines_responseLines n (by decide) (by decide) (by decide)

theorem statusLines_downloadHead (n : Nat) : statusLines (downloadHead date n) = 1 :=
  statusLines_responseLines n (by decide) (by decide) (by decide)

theorem statusLines_errorHead (page : Text) : statusLines (errorHead date page) = 1 :=
  statusLines_responseLines _ (by decide) (by decide) (by decide)

theorem statusLines_sentImageLines (n : Nat) :
    statusLines (renderHead (sentImageLines n)) = 1 := by
  rw [statusLines_renderHead]
  · rfl
  · intro line hline
    simp only [sentImageLines, List.mem_cons, List.not_mem_nil, or_false] at hline
    rcases hline with rfl | rfl | rfl
    · decide
    · decide
    · exact printable_lengthLine n

/-- A head goes behind what is stored. -/
theorem Stored.append_renderHead (hold : Stored old) {lines : List Text}
    (h : statusLines (renderHead lines) = 1) : Stored (old ++ renderHead lines) := by
  right
  constructor
  · refine ⟨old ++ (lines.flatMap (· ++ crlf) ++ ['\r']), ?_⟩
    rw [renderHead, List.append_assoc, List.append_assoc]
    rfl
  · rw [hold.statusLines_append, h]
    exact Nat.succ_pos _

theorem stored_nil : Stored [] := Or.inl rfl

/-- Every branch keeps what `httpResponse` can hold. -/
theorem stored_newResponse (hold : Stored old) :
    Stored (newResponse cs date old path target) := by
  cases target with
  | directory entries => exact stored_nil.append_renderHead (statusLines_pageHead _)
  | textFile bytes readable => exact stored_nil.append_renderHead (statusLines_pageHead _)
  | image data => exact stored_nil.append_renderHead (statusLines_imageHead _)
  | download bytes readable => exact stored_nil.append_renderHead (statusLines_downloadHead _)
  | special => exact hold
  | missing => exact hold.append_renderHead (statusLines_errorHead _)

/-- A branch writes one status line, unless the target is neither a file nor a directory or
it is missing and something is stored. -/
theorem statusLines_headText (hold : Stored old) :
    statusLines (headText (newResponse cs date old path target) target) = 1 ↔
      target ≠ .special ∧ (target = .missing → old = []) := by
  -- the line end behind a head is none of its lines
  have hcrlf : statusLines (newResponse cs date old path target ++ crlf) =
      statusLines (newResponse cs date old path target) := by
    rw [(stored_newResponse hold).statusLines_append]
    rfl
  have hnil : ∀ t : Text, statusLines (t ++ []) = statusLines t :=
    fun t => congrArg statusLines (List.append_nil t)
  cases target with
  | directory entries => exact iff_of_true ((hnil _).trans (statusLines_pageHead _)) (by simp)
  | textFile bytes readable =>
      exact iff_of_true (hcrlf.trans (statusLines_pageHead _)) (by simp)
  | image data =>
      exact iff_of_true ((hnil _).trans (statusLines_sentImageLines _)) (by simp)
  | download bytes readable =>
      exact iff_of_true (hcrlf.trans (statusLines_downloadHead _)) (by simp)
  | special =>
      have hnone : statusLines [] ≠ 1 := by decide
      exact iff_of_false hnone fun h => h.1 rfl
  | missing =>
      have hcount : statusLines (newResponse cs date old path .missing) = statusLines old + 1 := by
        rw [newResponse, hold.statusLines_append, statusLines_errorHead]
      rw [headText, sentHead, lineBehind, hcrlf, hcount, Nat.add_eq_right,
        hold.statusLines_eq_zero_iff]
      constructor
      · rintro rfl
        simp
      · intro h
        exact h.2 rfl

end Counting

/-! ## Lines that raise an exception -/

/-- The requests whose handling raises an exception out of the loop, for the `k`-th GET
request. -/
def Request.Throws (w : World) (k : Nat) : Request → Prop
  | .blank => True
  | .get httpRequest => Unanswerable (w.env k) httpRequest
  | .bareUpload => True
  | .upload _ none => True
  | .upload uploadFileName (some message) => message = "valid".toList ∧ AllDots uploadFileName
  | .other => False

/-- What a GET line asks for is a file, a directory, or missing when nothing was answered
before. -/
def AnsweredBy (env : Env) (httpResponse httpRequest : Text) : Prop :=
  ∀ path, requestPath httpRequest = some path →
    env.fs (absolutePath path) ≠ some .special ∧
      (env.fs (absolutePath path) = none → httpResponse = [])

/-- The request raises no exception, and a GET line asks for what is answered once. -/
def Harmless (w : World) (c : Connection) (q : Request) : Prop :=
  ¬q.Throws w c.httpRequestCount ∧ ∀ httpRequest, q = .get httpRequest →
    AnsweredBy (w.env c.httpRequestCount) c.httpResponse httpRequest

/-- The handling of a request raises no exception, and a GET line is answered by one
response. -/
def AnsweredOnce (w : World) (c : Connection) (q : Request) : Prop :=
  (∀ e, serve w c q ≠ .error (.thrown e)) ∧
    ∀ httpRequest, q = .get httpRequest → responses w c httpRequest = 1

section Steps

variable {w : World} {c c' : Connection} {q : Request} {env : Env} {httpRequest path : Text}

/-- The requests that raise an exception, whatever the connection has done before. -/
theorem serve_thrown_iff :
    (∃ e, serve w c q = .error (.thrown e)) ↔ q.Throws w c.httpRequestCount := by
  have hstays : ∀ c', ¬∃ e, (.ok c' : Except Exit Connection) = .error (.thrown e) := by
    rintro c' ⟨e, h⟩
    cases h
  cases q with
  | blank => exact iff_of_true ⟨_, rfl⟩ trivial
  | bareUpload => exact iff_of_true ⟨_, rfl⟩ trivial
  | other => exact iff_of_false (hstays c) id
  | get httpRequest =>
      have hleaves : (∃ e, serve w c (.get httpRequest) = .error e) ↔
          Unanswerable (w.env c.httpRequestCount) httpRequest := serve_error_iff
      rw [Request.Throws, ← hleaves]
      constructor
      · rintro ⟨e, h⟩
        exact ⟨_, h⟩
      · rintro ⟨e, h⟩
        cases e with
        | thrown e => exact ⟨e, h⟩
        | receives path =>
            -- no file is received for a GET
            obtain ⟨uploadFileName, hupload, -⟩ := serve_receives_iff.1 h
            cases hupload
  | upload uploadFileName validMessage =>
      cases validMessage with
      | none => exact iff_of_true ⟨_, rfl⟩ trivial
      | some message =>
          rw [serve, Connection.upload, Request.Throws]
          by_cases hvalid : message = "valid".toList
          · rw [if_pos hvalid, AllDots, ← extension_eq_none_iff]
            cases hext : extension uploadFileName with
            | none => exact iff_of_true ⟨_, rfl⟩ ⟨hvalid, rfl⟩
            | some fileExt =>
                -- a name with an extension is received, refused or left alone
                refine iff_of_false ?_ fun h => Option.some_ne_none fileExt h.2
                simp only
                split
                · split
                  · rintro ⟨e, h⟩
                    cases h
                  · exact hstays c
                · exact hstays _
          · rw [if_neg hvalid]
            exact iff_of_false (hstays c) fun h => hvalid h.1

/-- The target of a path says what exists there. -/
theorem findTarget_kind {target : Target} (h : findTarget env path = .ok target) :
    (target = .special ↔ env.fs (absolutePath path) = some .special) ∧
      (target = .missing ↔ env.fs (absolutePath path) = none) := by
  rw [findTarget] at h
  cases hnode : env.fs (absolutePath path) with
  | none =>
      rw [hnode] at h
      cases h
      simp
  | some node =>
      rw [hnode] at h
      cases node with
      | directory entries =>
          cases entries with
          | none => cases h
          | some entries =>
              cases h
              simp
      | special =>
          cases h
          simp
      | file bytes readable =>
          have hfile : target ≠ .special ∧ target ≠ .missing := by
            simp only at h
            repeat' split at h
            all_goals cases h
            all_goals simp
          simp [hfile]

/-- A GET line that raises no exception is answered once exactly when it asks for a file, a
directory, or something missing when nothing was answered before. -/
theorem responses_eq_one_iff (hstored : Stored c.httpResponse)
    (hquiet : ¬Unanswerable (w.env c.httpRequestCount) httpRequest) :
    responses w c httpRequest = 1 ↔
      AnsweredBy (w.env c.httpRequestCount) c.httpResponse httpRequest := by
  cases htarget : requestTarget (w.env c.httpRequestCount) httpRequest with
  | error e => exact absurd (requestTarget_error_iff.1 ⟨e, htarget⟩) hquiet
  | ok found =>
      obtain ⟨path, target⟩ := found
      obtain ⟨hpath, hfind⟩ := of_requestTarget htarget
      obtain ⟨hspecial, hmissing⟩ := findTarget_kind hfind
      have hcount : responses w c httpRequest =
          statusLines (headText (newResponse w.charset (w.env c.httpRequestCount).date
            c.httpResponse path target) target) := by
        simp only [responses, htarget]
      rw [hcount, statusLines_headText hstored, AnsweredBy, hpath, ne_eq, hspecial, hmissing]
      simp only [Option.some.injEq, forall_eq', ne_eq]

/-- What is stored stays whole lines. -/
theorem stored_serve (hstored : Stored c.httpResponse) (h : serve w c q = .ok c') :
    Stored c'.httpResponse := by
  cases q with
  | blank => cases h
  | bareUpload => cases h
  | other =>
      cases h
      exact hstored
  | upload uploadFileName validMessage =>
      rw [httpResponse_of_upload h]
      exact hstored
  | get line =>
      rw [serve, Connection.get, handleGet] at h
      cases htarget : requestTarget (w.env c.httpRequestCount) line with
      | error e =>
          rw [htarget] at h
          cases h
      | ok found =>
          rw [htarget] at h
          cases h
          exact stored_newResponse hstored

/-- One request does what is asked of it exactly when it is harmless. -/
theorem answeredOnce_step_iff (hstored : Stored c.httpResponse) :
    AnsweredOnce w c q ↔ Harmless w c q := by
  have hthrows : (∀ e, serve w c q ≠ .error (.thrown e)) ↔ ¬q.Throws w c.httpRequestCount := by
    rw [← serve_thrown_iff, not_exists]
  rw [AnsweredOnce, Harmless, hthrows]
  apply and_congr_right
  intro hquiet
  apply forall₂_congr
  rintro httpRequest rfl
  exact responses_eq_one_iff hstored hquiet

end Steps

/-! ## Every stream -/

/-- For every stream of bytes, cut in any way: along the run of the handler no line raises
an exception and each GET line is answered by one response exactly when all the requests
of the stream are harmless. -/
theorem answeredOnce_iff (w : World) (segs : List Segment) :
    Along (serve w) (AnsweredOnce w) Connection.start (requests ((Server.start segs).lines w)) ↔
      Along (serve w) (Harmless w) Connection.start
        (requests ((Server.start segs).lines w)) := by
  apply along_congr fun c => Stored c.httpResponse
  · intro c q c' hstored _ h
    exact stored_serve hstored h
  · intro c q hstored
    exact answeredOnce_step_iff hstored
  · exact stored_nil

/-- When all the requests are harmless, the connection is closed only behind a file that is
received. -/
theorem uploaded_of_closed {w : World} {segs : List Segment} {n : Nat}
    (h : Along (serve w) (Harmless w) Connection.start
      (requests ((Server.start segs).lines w)))
    (hclosed : ((Server.start segs).run w n).closed = true) :
    ∃ upload, ((Server.start segs).run w n).uploaded = some upload := by
  obtain ⟨e, he⟩ := (Server.closes_iff_error rfl).1 ⟨n, hclosed⟩
  rcases runAll_cases (serve w) Connection.start (requests ((Server.start segs).lines w)) with
    ⟨c, hok⟩ | ⟨pre, q, post, c, exit, hsplit, hpre, hq, -⟩
  · cases he.symm.trans hok
  have hleft := Server.run_leaves (s := Server.start segs) rfl hsplit hpre hq
  rw [hsplit] at h
  have hharmless : Harmless w c q := (h.of_append (q :: post) hpre).1
  -- both states are closed, so each is the one after all the iterations
  have hsame : (Server.start segs).run w n = (Server.start segs).run w (pre.length + 1) := by
    have hstays := Server.run_of_closed (w := w) (pre.length + 1) hclosed
    have hstays' := Server.run_of_closed (w := w) n
      (s := (Server.start segs).run w (pre.length + 1))
      (by rw [hleft]; exact Server.closed_finish_error _ exit)
    rw [← Server.run_add] at hstays hstays'
    rw [← hstays, ← hstays', Nat.add_comm]
  rw [hsame, hleft]
  cases exit with
  | thrown e' => exact absurd (serve_thrown_iff.1 ⟨e', hq⟩) hharmless.1
  | receives path => exact ⟨_, rfl⟩

/-- A line with the word GET only raises an exception. -/
theorem bareGet_not_answered :
    ¬∀ (w : World) (segs : List Segment),
      Along (serve w) (AnsweredOnce w) Connection.start
        (requests ((Server.start segs).lines w)) := by
  intro h
  have hall : ∀ w segs qs, requests ((Server.start segs).lines w) = qs →
      Along (serve w) (AnsweredOnce w) Connection.start qs := by
    rintro w segs qs rfl
    exact h w segs
  have hrequests : requests ((Server.start (oneLineSegments "GET".toList)).lines emptyWorld) =
      [.get "GET".toList] := by
    rw [lines_oneLineSegments rfl (by decide)]
    decide +kernel
  have hrun := hall emptyWorld (oneLineSegments "GET".toList) _ hrequests
  -- the line has no second field
  have hpath : requestPath "GET".toList = none := by decide +kernel
  have hthrows : (Request.get "GET".toList).Throws emptyWorld 0 := Or.inr (Or.inl hpath)
  have hthrown : ∃ e, serve emptyWorld Connection.start (.get "GET".toList) =
      .error (.thrown e) := serve_thrown_iff.2 hthrows
  obtain ⟨e, he⟩ := hthrown
  exact hrun.1.1 e he

end ComputerNetworking.FileServer
