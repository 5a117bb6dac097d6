import ComputerNetworking.FileServer.Requests

/-!
# What ends the loop of a connection

At the end of the stream `NetworkUtil.read` returns `null` on every call, and the
loop of `run` does nothing with `null` but read again. So the loop ends only on
account of a request: `Request.Leaves` lists the requests that do this.
-/

set_option autoImplicit false

namespace ComputerNetworking.FileServer

open ComputerNetworking.Foundations

/-- A name of dots only, for which `split("\\.")` returns an empty array. -/
def AllDots (t : Text) : Prop := t ≠ [] ∧ ∀ c ∈ t, c = '.'

/-- The extensions of the image branch. -/
def imageExtensions : List Text := ["jpg".toList, "png".toList, "jpeg".toList]

/-- The targets that make the GET branch throw: a directory whose listing is `null`, a
file whose request path consists of dots, and an image whose length is negative as
an `int`. -/
def Unservable (env : Env) (path : Text) : Prop :=
  match env.fs (absolutePath path) with
  | some (.directory entries) => entries = none
  | some (.file bytes _) =>
      AllDots path ∨
        (∃ fileExt ∈ imageExtensions, extension path = some fileExt) ∧ javaInt bytes.length < 0
  | some .special => False
  | none => False

/-- The GET lines that make the handler throw before it answers. -/
def Unanswerable (env : Env) (httpRequest : Text) : Prop :=
  env.logOpens = false ∨ requestPath httpRequest = none ∨
    ∃ path, requestPath httpRequest = some path ∧ Unservable env path

/-- The uploads the server receives: it knows the extension and can open the file. -/
def Accepts (w : World) (uploadFileName : Text) : Prop :=
  (∃ fileExt ∈ Connection.uploadExtensions, extension uploadFileName = some fileExt) ∧
    w.opens (uploadPath uploadFileName) = true

/-- The requests that leave the loop, for the `k`-th GET request. -/
def Request.Leaves (w : World) (k : Nat) : Request → Prop
  | .blank => True
  | .get httpRequest => Unanswerable (w.env k) httpRequest
  | .bareUpload => True
  | .upload _ none => True
  | .upload uploadFileName (some message) =>
      message = "valid".toList ∧ (AllDots uploadFileName ∨ Accepts w uploadFileName)
  | .other => False

/-! ## Each request -/

theorem imageData_eq_none_iff (bytes : List UInt8) (readable : Bool) :
    imageData bytes readable = none ↔ javaInt bytes.length < 0 := by
  rw [imageData]
  by_cases hneg : javaInt bytes.length < 0
  · exact iff_of_true (if_pos hneg) hneg
  · refine iff_of_false ?_ hneg
    simp only [if_neg hneg]
    split
    · exact Option.some_ne_none _
    · exact Option.some_ne_none _

theorem findTarget_error_iff {env : Env} {path : Text} :
    (∃ e, findTarget env path = .error e) ↔ Unservable env path := by
  rw [findTarget, Unservable]
  cases env.fs (absolutePath path) with
  | none => exact iff_of_false (ok_not_error _) id
  | some node =>
      cases node with
      | special => exact iff_of_false (ok_not_error _) id
      | directory entries =>
          cases entries with
          | none => exact iff_of_true ⟨_, rfl⟩ rfl
          | some entries => exact iff_of_false (ok_not_error _) (fun h => by cases h)
      | file bytes readable =>
          simp only
          cases hext : extension path with
          | none =>
              exact iff_of_true ⟨_, rfl⟩ (Or.inl (extension_eq_none_iff.1 hext))
          | some fileExt =>
              have hdots : ¬AllDots path := by
                intro h
                rw [extension_eq_none_iff.2 h] at hext
                cases hext
              simp only [hdots, false_or, Option.some.injEq]
              -- the branches of `run` by the extension
              by_cases htxt : fileExt = "txt".toList
              · rw [if_pos htxt]
                refine iff_of_false (ok_not_error _) ?_
                rintro ⟨⟨fileExt', hmem, rfl⟩, -⟩
                subst htxt
                exact absurd hmem (by decide)
              rw [if_neg htxt]
              have himage : (fileExt = "jpg".toList ∨ fileExt = "png".toList ∨
                  fileExt = "jpeg".toList) ↔ ∃ fileExt' ∈ imageExtensions, fileExt = fileExt' := by
                simp only [imageExtensions, List.mem_cons, List.not_mem_nil, or_false,
                  exists_eq_or_imp, exists_eq_left]
              by_cases himg :
                  fileExt = "jpg".toList ∨ fileExt = "png".toList ∨ fileExt = "jpeg".toList
              · rw [if_pos himg, ← imageData_eq_none_iff bytes readable]
                simp only [himage.1 himg, true_and]
                cases imageData bytes readable with
                | none => exact iff_of_true ⟨_, rfl⟩ rfl
                | some data => exact iff_of_false (ok_not_error _) (fun h => by cases h)
              · rw [if_neg himg]
                exact iff_of_false (ok_not_error _) fun h => himg (himage.2 h.1)

theorem requestTarget_error_iff {env : Env} {httpRequest : Text} :
    (∃ e, requestTarget env httpRequest = .error e) ↔ Unanswerable env httpRequest := by
  rw [requestTarget, Unanswerable]
  by_cases hlog : env.logOpens = false
  · rw [if_pos hlog]
    exact iff_of_true ⟨_, rfl⟩ (Or.inl hlog)
  rw [if_neg hlog]
  cases hpath : requestPath httpRequest with
  | none => exact iff_of_true ⟨_, rfl⟩ (Or.inr (Or.inl rfl))
  | some path =>
      simp only [hlog, reduceCtorEq, false_or, Option.some.injEq, exists_eq_left']
      rw [← findTarget_error_iff]
      cases findTarget env path with
      | error e => exact iff_of_true ⟨_, rfl⟩ ⟨_, rfl⟩
      | ok target => exact iff_of_false (ok_not_error _) (ok_not_error _)

/-- An upload leaves the loop when the server starts to receive it, or by an exception. -/
theorem upload_error_iff {w : World} {c : Connection} {uploadFileName : Text}
    {validMessage : Option Text} :
    (∃ e, c.upload w uploadFileName validMessage = .error e) ↔
      (Request.upload uploadFileName validMessage).Leaves w c.httpRequestCount := by
  cases validMessage with
  | none => exact iff_of_true ⟨_, rfl⟩ trivial
  | some message =>
      rw [Connection.upload, Request.Leaves]
      by_cases hvalid : message = "valid".toList
      · rw [if_pos hvalid]
        simp only [hvalid, true_and]
        cases hext : extension uploadFileName with
        | none => exact iff_of_true ⟨_, rfl⟩ (Or.inl (extension_eq_none_iff.1 hext))
        | some fileExt =>
            have hdots : ¬AllDots uploadFileName := by
              intro h
              rw [extension_eq_none_iff.2 h] at hext
              cases hext
            simp only [hdots, false_or, Accepts, hext, Option.some.injEq]
            by_cases hmem : fileExt ∈ Connection.uploadExtensions
            · rw [if_pos hmem]
              by_cases hopen : w.opens (uploadPath uploadFileName) = true
              · rw [if_pos hopen]
                exact iff_of_true ⟨_, rfl⟩ ⟨⟨fileExt, hmem, rfl⟩, hopen⟩
              · rw [if_neg hopen]
                exact iff_of_false (ok_not_error _) fun h => hopen h.2
            · rw [if_neg hmem]
              refine iff_of_false (ok_not_error _) ?_
              rintro ⟨⟨fileExt', hmem', rfl⟩, -⟩
              exact hmem hmem'
      · rw [if_neg hvalid]
        exact iff_of_false (ok_not_error _) fun h => hvalid h.1

/-- The requests that leave the loop, whatever the connection has done before. -/
theorem serve_error_iff {w : World} {c : Connection} {q : Request} :
    (∃ e, serve w c q = .error e) ↔ q.Leaves w c.httpRequestCount := by
  cases q with
  | blank => exact iff_of_true ⟨_, rfl⟩ trivial
  | bareUpload => exact iff_of_true ⟨_, rfl⟩ trivial
  | other => exact iff_of_false (ok_not_error _) id
  | upload uploadFileName validMessage => exact upload_error_iff
  | get httpRequest =>
      rw [serve, Connection.get, Request.Leaves, ← requestTarget_error_iff, handleGet]
      cases requestTarget (w.env c.httpRequestCount) httpRequest with
      | error e => exact iff_of_true ⟨_, rfl⟩ ⟨_, rfl⟩
      | ok r => exact iff_of_false (ok_not_error _) (ok_not_error _)

/-- The requests a file is received for. -/
theorem serve_receives_iff {w : World} {c : Connection} {q : Request} {path : Text} :
    serve w c q = .error (.receives path) ↔
      ∃ uploadFileName, q = .upload uploadFileName (some "valid".toList) ∧
        Accepts w uploadFileName ∧ path = uploadPath uploadFileName := by
  constructor
  · intro h
    cases q with
    | blank => cases h
    | bareUpload => cases h
    | other => cases h
    | get httpRequest =>
        rw [serve, Connection.get] at h
        split at h
        · cases h
        · cases h
    | upload uploadFileName validMessage =>
        cases validMessage with
        | none => cases h
        | some message =>
            rw [serve, Connection.upload] at h
            split at h
            · next hvalid =>
                subst hvalid
                refine ⟨uploadFileName, rfl, ?_⟩
                -- of the branches of a valid file only one breaks out of the loop
                cases hext : extension uploadFileName with
                | none =>
                    rw [hext] at h
                    cases h
                | some fileExt =>
                    rw [hext] at h
                    simp only at h
                    split at h
                    · next hmem =>
                        split at h
                        · next hopen =>
                            cases h
                            exact ⟨⟨⟨fileExt, hmem, hext⟩, hopen⟩, rfl⟩
                        · cases h
                    · cases h
            · cases h
  · rintro ⟨uploadFileName, rfl, ⟨⟨fileExt, hmem, hext⟩, hopen⟩, rfl⟩
    rw [serve, Connection.upload, if_pos rfl]
    simp only [hext, if_pos hmem, if_pos hopen]

/-- An upload that goes on leaves what the connection has stored. -/
theorem httpResponse_of_upload {w : World} {c c' : Connection} {uploadFileName : Text}
    {validMessage : Option Text} (h : c.upload w uploadFileName validMessage = .ok c') :
    c'.httpResponse = c.httpResponse := by
  rw [Connection.upload.eq_def] at h
  repeat' split at h
  all_goals cases h
  all_goals rfl

theorem serve_count {w : World} {c c' : Connection} {q : Request} (h : serve w c q = .ok c') :
    c'.httpRequestCount = c.httpRequestCount + gets [q] := by
  cases q with
  | blank => cases h
  | bareUpload => cases h
  | other =>
      cases h
      rfl
  | upload uploadFileName validMessage =>
      have hcount : gets [Request.upload uploadFileName validMessage] = 0 := rfl
      rw [hcount, Nat.add_zero]
      rw [serve, Connection.upload.eq_def] at h
      repeat' split at h
      all_goals cases h
      all_goals rfl
  | get httpRequest =>
      have hcount : gets [Request.get httpRequest] = 1 := rfl
      rw [hcount]
      rw [serve, Connection.get] at h
      split at h
      · cases h
      · cases h
        rfl

/-! ## The whole stream -/

/-- Serving a list of requests fails exactly when one of them leaves the loop. -/
theorem runAll_serve_error_iff {w : World} {c : Connection} {qs : List Request} :
    (∃ e, runAll (serve w) c qs = .error e) ↔
      ∃ pre q post, qs = pre ++ q :: post ∧ q.Leaves w (c.httpRequestCount + gets pre) := by
  -- induction on the requests; the count of GET requests goes along
  induction qs generalizing c with
  | nil => exact iff_of_false (ok_not_error c) not_place_nil
  | cons q qs ih =>
      rw [place_cons_iff]
      cases hq : serve w c q with
      | error e =>
          refine iff_of_true ⟨e, runAll_cons_error hq⟩ (Or.inl ?_)
          exact serve_error_iff.1 ⟨e, hq⟩
      | ok c' =>
          have hstays : ¬q.Leaves w c.httpRequestCount := by
            rw [← serve_error_iff, hq]
            exact ok_not_error c'
          have hfirst : gets [] = 0 := rfl
          rw [runAll_cons_ok hq, ih, serve_count hq, hfirst, Nat.add_zero, or_iff_right hstays]
          apply exists_congr
          intro pre
          rw [gets_cons q pre, Nat.add_assoc]

namespace Server

variable {w : World} {s : Server}

/-- A connection is closed exactly when a request fails. -/
theorem closes_iff_error (hopen : s.closed = false) :
    (∃ n, (s.run w n).closed = true) ↔
      ∃ e, runAll (serve w) s.conn (requests (s.lines w)) = .error e := by
  rcases runAll_cases (serve w) s.conn (requests (s.lines w)) with
    ⟨c, hok⟩ | ⟨pre, q, post, c, e, hsplit, hpre, hq, herr⟩
  · rw [hok]
    refine iff_of_false ?_ (ok_not_error c)
    rintro ⟨n, hclosed⟩
    obtain ⟨hrun, hnone⟩ := run_serves hopen (List.append_nil _).symm hok
    generalize readerBehind s.reader _ = reader at hrun hnone
    -- by then all requests are served, and nothing happens any more
    have hidle : ∃ reader', s.run w ((requests (s.lines w)).length + n) =
        { s with reader := reader', conn := c } := by
      obtain ⟨reader', hreader'⟩ :=
        run_idle (w := w) (s := { s with reader := reader, conn := c }) n hopen hnone
      exact ⟨reader', by rw [run_add, hrun, hreader']⟩
    obtain ⟨reader', heq⟩ := hidle
    rw [Nat.add_comm, run_add, run_of_closed _ hclosed] at heq
    rw [heq] at hclosed
    exact absurd hclosed (by rw [hopen]; exact Bool.false_ne_true)
  · have hrun := run_leaves hopen hsplit hpre hq
    refine iff_of_true ⟨pre.length + 1, ?_⟩ ⟨e, herr⟩
    rw [hrun]
    exact closed_finish_error _ e

end Server

/-- For every stream of bytes, cut in any way: `run` leaves its loop and closes the
connection exactly when one of the requests leaves the loop. -/
theorem closes_iff_leaves (w : World) (segs : List Segment) :
    (∃ n, ((Server.start segs).run w n).closed = true) ↔
      ∃ pre q post, requests ((Server.start segs).lines w) = pre ++ q :: post ∧
        q.Leaves w (gets pre) := by
  rw [Server.closes_iff_error rfl, runAll_serve_error_iff]
  simp only [Server.start, Connection.start, Nat.zero_add]

/-- A disk with nothing on it, at some time. -/
def emptyWorld : World where
  charset := utf8
  env := fun _ => ⟨fun _ => none, newYear, true⟩
  opens := fun _ => true
  room := 0

/-- A peer that connects and closes leaves the server in its loop for good. -/
theorem silentPeer_never_closes :
    ¬∃ n, ((Server.start []).run emptyWorld n).closed = true := by
  rintro ⟨n, hclosed⟩
  obtain ⟨reader, hidle⟩ :=
    Server.run_idle (w := emptyWorld) (s := Server.start []) n rfl rfl
  rw [hidle] at hclosed
  cases hclosed

end ComputerNetworking.FileServer
