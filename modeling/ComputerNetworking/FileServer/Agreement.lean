import ComputerNetworking.FileServer.Upload

/-!
# All or nothing

The outcomes of an upload at both ends. The validity of a file is decided three
times, by its existence and by the client's list of extensions before it is
sent, and by the server's list after the client has said `valid`; and the server
opens its file, which empties it, before the first byte arrives. `Agrees` lists
the cases in which the two ends agree nevertheless. Bytes of a file that the
server cannot open are read as requests; `LeavesTrace` says when these bring
another upload.
-/

set_option autoImplicit false

namespace ComputerNetworking.FileServer

open ComputerNetworking.Foundations

/-! ## Uploads in a list of requests -/

/-- The first request that leaves the loop is an upload that the server receives, behind
the requests `pre`. The reader is at the first of them, and `k` GET requests have been
served before. -/
structure ReceivesBehind (w : World) (k : Nat) (r : Reader) (pre : List Request)
    (uploadFileName : Text) : Prop where
  next : ∃ post, requests (r.lines.map w.charset.decode) =
    pre ++ .upload uploadFileName (some "valid".toList) :: post
  stay : ∀ pre' q' post', pre = pre' ++ q' :: post' → ¬q'.Leaves w (k + gets pre')
  accepts : Accepts w uploadFileName

/-- The server receives an upload, of a file in the directory of the uploads or of bytes
that the disk has room for. -/
def LeavesTrace (w : World) (k : Nat) (r : Reader) : Prop :=
  ∃ pre uploadFileName, ReceivesBehind w k r pre uploadFileName ∧
    (uploadDir.Holds (uploadPath uploadFileName) ∨
      (streamBytes (readerBehind r
        (pre ++ [.upload uploadFileName (some "valid".toList)])).segments).length ≤ w.room)

section Requests

variable {w : World} {k : Nat} {r : Reader} {pre : List Request} {uploadFileName : Text}

/-- An upload behind requests that stay in the loop is received. -/
theorem ReceivesBehind.uploaded {s : Server} {n : Nat} (hopen : s.closed = false)
    (h : ReceivesBehind w s.conn.httpRequestCount s.reader pre uploadFileName)
    (hn : (requests (s.lines w)).length ≤ n) :
    (s.run w n).uploaded = some (readFileFromClient w (uploadPath uploadFileName)
      (readerBehind s.reader
        (pre ++ [.upload uploadFileName (some "valid".toList)])).segments) := by
  obtain ⟨post, hsplit⟩ := h.next
  rcases runAll_cases (serve w) s.conn pre with ⟨c, hok⟩ | ⟨-, -, -, -, e, -, -, -, herr⟩
  · have hq : serve w c (.upload uploadFileName (some "valid".toList)) =
        .error (.receives (uploadPath uploadFileName)) :=
      serve_receives_iff.2 ⟨uploadFileName, rfl, h.accepts, rfl⟩
    have hrun := Server.run_leaves hopen hsplit hok hq
    have hlen := congrArg List.length hsplit
    rw [List.length_append, List.length_cons] at hlen
    rw [Server.lines] at hn
    obtain ⟨m, rfl⟩ : ∃ m, n = pre.length + 1 + m := ⟨n - (pre.length + 1), by omega⟩
    rw [Server.run_add, hrun, Server.run_of_closed m (Server.closed_finish_error _ _)]
    rfl
  · obtain ⟨pre', q', post', hpre', hleaves⟩ := runAll_serve_error_iff.1 ⟨e, herr⟩
    exact absurd hleaves (h.stay pre' q' post' hpre')

/-- Where no upload is received, none is. -/
theorem uploaded_of_not_receives {s : Server} {n : Nat} (hopen : s.closed = false)
    (h : ∀ pre uploadFileName,
      ¬ReceivesBehind w s.conn.httpRequestCount s.reader pre uploadFileName)
    (hn : (requests (s.lines w)).length ≤ n) : (s.run w n).uploaded = s.uploaded := by
  rcases runAll_cases (serve w) s.conn (requests (s.lines w)) with
    ⟨c, hok⟩ | ⟨pre, q, post, c, e, hsplit, hpre, hq, herr⟩
  · obtain ⟨hrun, hnone⟩ := Server.run_serves hopen (List.append_nil _).symm hok
    generalize readerBehind s.reader _ = reader at hrun hnone
    obtain ⟨m, rfl⟩ := Nat.exists_eq_add_of_le hn
    obtain ⟨reader', hidle⟩ := Server.run_idle (w := w)
      (s := { s with reader := reader, conn := c }) m hopen hnone
    rw [Server.run_add, hrun, hidle]
  · have hrun := Server.run_leaves hopen hsplit hpre hq
    have hlen := congrArg List.length hsplit
    rw [List.length_append, List.length_cons] at hlen
    obtain ⟨m, rfl⟩ : ∃ m, n = pre.length + 1 + m := ⟨n - (pre.length + 1), by omega⟩
    rw [Server.run_add, hrun, Server.run_of_closed m (Server.closed_finish_error _ _)]
    cases e with
    | thrown e => rfl
    | receives path =>
        obtain ⟨uploadFileName, rfl, haccepts, -⟩ := serve_receives_iff.1 hq
        refine absurd ⟨⟨post, hsplit⟩, ?_, haccepts⟩ (h pre uploadFileName)
        intro pre' q' post' hpre' hleaves
        obtain ⟨e, he⟩ := runAll_serve_error_iff.2 ⟨pre', q', post', hpre', hleaves⟩
        rw [hpre] at he
        cases he

/-- When the requests are served, nothing is written under the directory of the uploads and
nothing is reported exactly if no upload leaves a trace. -/
theorem uploaded_iff_not_leavesTrace {s : Server} {n : Nat} (hopen : s.closed = false)
    (hnone : s.uploaded = none) (hn : (requests (s.lines w)).length ≤ n) :
    (∀ u ∈ (s.run w n).uploaded, ¬uploadDir.Holds u.path ∧ u.reported = false) ↔
      ¬LeavesTrace w s.conn.httpRequestCount s.reader := by
  by_cases hreceives : ∃ pre uploadFileName,
      ReceivesBehind w s.conn.httpRequestCount s.reader pre uploadFileName
  · constructor
    · rintro hquiet ⟨pre, uploadFileName, hreceives, htrace⟩
      obtain ⟨houtside, hreported⟩ := hquiet _ (hreceives.uploaded hopen hn)
      rcases htrace with hinside | hfits
      · exact houtside hinside
      · exact of_decide_eq_false hreported hfits
    · intro htrace u hu
      obtain ⟨pre, uploadFileName, hreceives⟩ := hreceives
      rw [hreceives.uploaded hopen hn, Option.mem_some_iff] at hu
      subst hu
      refine ⟨fun hinside => htrace ⟨pre, uploadFileName, hreceives, Or.inl hinside⟩, ?_⟩
      exact decide_eq_false fun hfits =>
        htrace ⟨pre, uploadFileName, hreceives, Or.inr hfits⟩
  · have hno : ∀ pre uploadFileName,
        ¬ReceivesBehind w s.conn.httpRequestCount s.reader pre uploadFileName :=
      fun pre uploadFileName h => hreceives ⟨pre, uploadFileName, h⟩
    rw [uploaded_of_not_receives hopen hno hn, hnone]
    refine iff_of_true (fun u hu => by cases hu) ?_
    rintro ⟨pre, uploadFileName, h, -⟩
    exact hno pre uploadFileName h

/-- A first request that stays in the loop is passed over. -/
theorem receivesBehind_cons_iff {q : Request} {qs : List Request}
    (hq : requests (r.lines.map w.charset.decode) = q :: qs) (hstay : ¬q.Leaves w k) :
    ReceivesBehind w k r pre uploadFileName ↔
      ∃ pre', pre = q :: pre' ∧
        ReceivesBehind w (k + gets [q]) (q.readerAfter r) pre' uploadFileName := by
  have hrest : requests ((q.readerAfter r).lines.map w.charset.decode) = qs :=
    (Server.advance_of_requests (s := ⟨r, Connection.start, none, false⟩) rfl hq).2
  constructor
  · rintro ⟨⟨post, hnext⟩, hpre, haccepts⟩
    rw [hq] at hnext
    cases pre with
    | nil =>
        obtain ⟨rfl, -⟩ := List.cons.inj hnext
        exact absurd ⟨rfl, Or.inr haccepts⟩ hstay
    | cons q' pre' =>
        obtain ⟨rfl, htail⟩ := List.cons.inj hnext
        refine ⟨pre', rfl, ⟨post, hrest.trans htail⟩, ?_, haccepts⟩
        intro before q' after heq
        have h := hpre (q :: before) q' after (by rw [heq]; rfl)
        rwa [gets_cons, ← Nat.add_assoc] at h
  · rintro ⟨pre', rfl, ⟨post, hnext⟩, hpre, haccepts⟩
    refine ⟨⟨post, by rw [hq, ← hrest, hnext]; rfl⟩, ?_, haccepts⟩
    intro before q' after heq
    cases before with
    | nil =>
        obtain ⟨rfl, -⟩ := List.cons.inj heq
        exact hstay
    | cons q'' before =>
        obtain ⟨rfl, htail⟩ := List.cons.inj heq
        rw [gets_cons, ← Nat.add_assoc]
        exact hpre before q' after htail

theorem leavesTrace_cons_iff {q : Request} {qs : List Request}
    (hq : requests (r.lines.map w.charset.decode) = q :: qs) (hstay : ¬q.Leaves w k) :
    LeavesTrace w k r ↔ LeavesTrace w (k + gets [q]) (q.readerAfter r) := by
  constructor
  · rintro ⟨pre, uploadFileName, hreceives, htrace⟩
    obtain ⟨pre', rfl, hreceives'⟩ := (receivesBehind_cons_iff hq hstay).1 hreceives
    exact ⟨pre', uploadFileName, hreceives', htrace⟩
  · rintro ⟨pre', uploadFileName, hreceives, htrace⟩
    exact ⟨q :: pre', uploadFileName,
      (receivesBehind_cons_iff hq hstay).2 ⟨pre', rfl, hreceives⟩, htrace⟩

theorem not_leavesTrace_nil (hq : requests (r.lines.map w.charset.decode) = []) :
    ¬LeavesTrace w k r := by
  rintro ⟨pre, uploadFileName, ⟨⟨post, hnext⟩, -, -⟩, -⟩
  rw [hq] at hnext
  exact List.append_ne_nil_of_right_ne_nil pre (List.cons_ne_nil _ post) hnext.symm

end Requests

/-! ## Both ends -/

/-- Nothing in the directory of the uploads is created, emptied or changed, and neither end
reports success. -/
structure NothingDone (client : ClientRun) (s : Server) : Prop where
  streamed : client.streamed = false
  uploaded : ∀ u ∈ s.uploaded, ¬uploadDir.Holds u.path ∧ u.reported = false

/-- Either the client has streamed the file and said so, and the server's copy lies in the
directory of the uploads, has the bytes of the file and is reported; or nothing has
happened. -/
def AllOrNothing (client : ClientRun) (name : FileName) (file : LocalFile) (s : Server) : Prop :=
  (client.streamed = true ∧ uploadDir.Holds (uploadPath name.1) ∧
    s.uploaded = some ⟨uploadPath name.1, file.given, true⟩) ∨ NothingDone client s

/-- The client accepts the name and reads the file to its end. -/
def Streams (name : FileName) (file : LocalFile) : Prop :=
  (∃ fileExt ∈ clientExtensions, extension name.1 = some fileExt) ∧ file = .readable file.given

/-- The reader behind the two lines of the client. -/
def readerBehindHeader (segs : List Segment) : Reader :=
  (Reader.start segs).readLine.2.readLine.2

/-- The cases in which both ends agree: there is no file; the server does not accept the
name; the client does not stream the file, and either the server cannot open its file
and what it was sent of the file brings no other upload, or its file lies elsewhere and
what is left in the socket does not fit on the disk; or both accept the name, the file
lies in the directory of the uploads, is read to its end and fits, and the socket is
read up to the end of the header and no further. -/
def Agrees (w : World) (name : FileName) (file : LocalFile) (segs : List Segment) : Prop :=
  file = .missing ∨
    (¬∃ fileExt ∈ Connection.uploadExtensions, extension name.1 = some fileExt) ∨
    (¬Streams name file ∧ w.opens (uploadPath name.1) = false ∧
      ¬LeavesTrace w 0 (readerBehindHeader segs)) ∨
    (¬Streams name file ∧ w.opens (uploadPath name.1) = true ∧
      ¬uploadDir.Holds (uploadPath name.1) ∧
      w.room < (streamBytes (readerBehindHeader segs).segments).length) ∨
    (Streams name file ∧ w.opens (uploadPath name.1) = true ∧
      uploadDir.Holds (uploadPath name.1) ∧ file.given.length ≤ w.room ∧
      CutBehind segs (header w.charset name "valid".toList))

/-- What the client accepts the server accepts. -/
theorem clientExtensions_subset :
    ∀ fileExt ∈ clientExtensions, fileExt ∈ Connection.uploadExtensions := by
  decide

section Cases

variable {w : World} {name : FileName} {file : LocalFile} {segs : List Segment} {n : Nat}

/-- The client reports success exactly when it has streamed the file. -/
theorem streamed_iff (hexists : file ≠ .missing) :
    (writeFromClient w.charset name file).streamed = true ↔ Streams name file :=
  (writeFromClient_of_exists hexists).2

/-- When the requests are served, nothing has happened exactly if the client has not streamed
the file and no upload leaves a trace. -/
theorem nothingDone_iff (hexists : file ≠ .missing)
    (hn : (requests ((Server.start segs).lines w)).length ≤ n) :
    NothingDone (writeFromClient w.charset name file) ((Server.start segs).run w n) ↔
      ¬Streams name file ∧ ¬LeavesTrace w 0 (Reader.start segs) := by
  have htrace := uploaded_iff_not_leavesTrace (s := Server.start segs) rfl rfl hn
  rw [← streamed_iff (w := w) hexists, Bool.not_eq_true]
  constructor
  · rintro ⟨hstreamed, huploaded⟩
    exact ⟨hstreamed, htrace.1 huploaded⟩
  · rintro ⟨hstreamed, hno⟩
    exact ⟨hstreamed, htrace.2 hno⟩

/-- Without a file the client says so and nothing happens. -/
theorem nothingDone_of_missing (hcs : w.charset.Lossless)
    (hsegs : streamBytes segs = (writeFromClient w.charset name .missing).sent)
    (hn : (requests ((Server.start segs).lines w)).length ≤ n) :
    NothingDone (writeFromClient w.charset name .missing) ((Server.start segs).run w n) := by
  have hsent : streamBytes segs = header w.charset name "invalid".toList ++ [] := by
    rw [hsegs, writeFromClient, if_pos rfl, List.append_nil]
  refine ⟨by rw [writeFromClient, if_pos rfl], ?_⟩
  refine (uploaded_iff_not_leavesTrace (s := Server.start segs) rfl rfl hn).2 ?_
  have hrequests := requests_header hcs (by decide) hsent
  have hstay : ¬(Request.upload name.1 (some "invalid".toList)).Leaves w 0 := by
    rintro ⟨hvalid, -⟩
    exact absurd hvalid (by decide)
  have hrest := (Server.advance_of_requests (s := Server.start segs) rfl hrequests).2
  rw [show (Server.start segs).conn.httpRequestCount = 0 from rfl,
    leavesTrace_cons_iff hrequests hstay]
  exact not_leavesTrace_nil hrest

/-- When the server does not accept the name, nothing happens. -/
theorem nothingDone_of_not_accepted (hcs : w.charset.Lossless) (hexists : file ≠ .missing)
    (hext : ¬∃ fileExt ∈ Connection.uploadExtensions, extension name.1 = some fileExt)
    (hsent : streamBytes segs =
      header w.charset name "valid".toList ++ streamedBytes name file)
    (hn : (requests ((Server.start segs).lines w)).length ≤ n) :
    NothingDone (writeFromClient w.charset name file) ((Server.start segs).run w n) := by
  have hclient : ¬∃ fileExt ∈ clientExtensions, extension name.1 = some fileExt := by
    rintro ⟨fileExt, hmem, heq⟩
    exact hext ⟨fileExt, clientExtensions_subset fileExt hmem, heq⟩
  refine (nothingDone_iff hexists hn).2 ⟨fun h => hclient h.1, ?_⟩
  have hrequests := requests_header hcs (by decide) hsent
  rw [streamedBytes, if_neg hclient] at hrequests
  rintro ⟨pre, uploadFileName, ⟨⟨post, hnext⟩, -, haccepts⟩, -⟩
  have hfirst := hrequests.symm.trans hnext
  cases pre with
  | nil =>
      obtain ⟨hupload, -⟩ := List.cons.inj hfirst
      cases hupload
      exact hext haccepts.1
  | cons q pre =>
      exact List.append_ne_nil_of_right_ne_nil pre (List.cons_ne_nil _ post)
        (List.cons.inj hfirst).2.symm

/-- When the server cannot open its file, what the client streams is read as requests. -/
theorem allOrNothing_of_not_open (hcs : w.charset.Lossless) (hexists : file ≠ .missing)
    (hext : ∃ fileExt ∈ Connection.uploadExtensions, extension name.1 = some fileExt)
    (hopen : w.opens (uploadPath name.1) = false)
    (hsent : streamBytes segs =
      header w.charset name "valid".toList ++ streamedBytes name file)
    (hn : (requests ((Server.start segs).lines w)).length ≤ n) :
    AllOrNothing (writeFromClient w.charset name file) name file ((Server.start segs).run w n) ↔
      ¬Streams name file ∧ ¬LeavesTrace w 0 (readerBehindHeader segs) := by
  have hrequests := requests_header hcs (by decide) hsent
  have hstay : ¬(Request.upload name.1 (some "valid".toList)).Leaves w 0 := by
    have hserve : serve w Connection.start (.upload name.1 (some "valid".toList)) =
        .ok Connection.start := by
      obtain ⟨fileExt, hmem, heq⟩ := hext
      rw [serve, Connection.upload, if_pos rfl]
      simp only [heq, if_pos hmem, hopen, Bool.false_eq_true, if_false]
    intro hleaves
    obtain ⟨e, he⟩ := serve_error_iff (c := Connection.start).2 hleaves
    rw [hserve] at he
    cases he
  have htrace : LeavesTrace w 0 (Reader.start segs) ↔ LeavesTrace w 0 (readerBehindHeader segs) :=
    leavesTrace_cons_iff hrequests hstay
  rw [AllOrNothing, nothingDone_iff hexists hn, htrace]
  refine or_iff_right ?_
  rintro ⟨-, -, hsome⟩
  -- the file that was received is one that opens, so it is another one
  by_cases hreceives : ∃ pre uploadFileName,
      ReceivesBehind w 0 (Reader.start segs) pre uploadFileName
  · obtain ⟨pre, uploadFileName, hreceives⟩ := hreceives
    rw [hreceives.uploaded (s := Server.start segs) rfl hn, Option.some.injEq] at hsome
    have hpath : uploadPath uploadFileName = uploadPath name.1 := congrArg Upload.path hsome
    have hopens := hreceives.accepts.2
    rw [hpath, hopen] at hopens
    cases hopens
  · rw [uploaded_of_not_receives (s := Server.start segs) rfl
      (fun pre uploadFileName h => hreceives ⟨pre, uploadFileName, h⟩) hn] at hsome
    cases hsome

/-- When the server receives the file, both ends agree if it arrives whole in the directory
of the uploads, or fails elsewhere. -/
theorem allOrNothing_of_accepted (hcs : w.charset.Lossless) (haccepts : Accepts w name.1)
    (hexists : file ≠ .missing)
    (hsent : streamBytes segs =
      header w.charset name "valid".toList ++ streamedBytes name file)
    (hn : 1 ≤ n) :
    AllOrNothing (writeFromClient w.charset name file) name file ((Server.start segs).run w n) ↔
      (¬Streams name file ∧ ¬uploadDir.Holds (uploadPath name.1) ∧
        w.room < (streamBytes (readerBehindHeader segs).segments).length) ∨
      (Streams name file ∧ uploadDir.Holds (uploadPath name.1) ∧ file.given.length ≤ w.room ∧
        CutBehind segs (header w.charset name "valid".toList)) := by
  have hrun := run_accepted hcs haccepts hsent hn
  -- the server has opened its file, so only one that lies elsewhere does no harm
  have hnothing : NothingDone (writeFromClient w.charset name file)
      ((Server.start segs).run w n) ↔ ¬Streams name file ∧ ¬uploadDir.Holds (uploadPath name.1) ∧
        w.room < (streamBytes (readerBehindHeader segs).segments).length := by
    rw [← streamed_iff (w := w) hexists, Bool.not_eq_true]
    constructor
    · rintro ⟨hstreamed, huploaded⟩
      obtain ⟨houtside, hreported⟩ := huploaded _ hrun
      exact ⟨hstreamed, houtside, not_le.1 (of_decide_eq_false hreported)⟩
    · rintro ⟨hstreamed, houtside, hlong⟩
      refine ⟨hstreamed, fun u hu => ?_⟩
      rw [hrun, Option.mem_some_iff] at hu
      subst hu
      exact ⟨houtside, decide_eq_false (not_le.2 hlong)⟩
  rw [AllOrNothing, hnothing, or_comm, streamed_iff hexists, hrun, Option.some.injEq]
  refine or_congr_right (and_congr_right fun hstreams => and_congr_right fun _ => ?_)
  have hstreamed : streamedBytes name file = file.given := if_pos hstreams.1
  rw [hstreamed] at hsent
  -- the copy is what is left in the socket, as far as the disk has room
  rw [← (left_in_socket hsent).1]
  simp only [readFileFromClient]
  generalize streamBytes (Reader.start segs).readLine.2.readLine.2.segments = left
  constructor
  · intro h
    rw [Upload.mk.injEq] at h
    obtain ⟨-, hbytes, hreported⟩ := h
    have hfits := of_decide_eq_true hreported
    rw [List.take_of_length_le hfits] at hbytes
    exact ⟨hbytes ▸ hfits, hbytes⟩
  · rintro ⟨hfits, rfl⟩
    rw [List.take_of_length_le hfits, decide_eq_true hfits]

end Cases

/-- For every name and file of the client, every disk of the server and every cutting of the
stream: once the server has handled what it was sent, both ends agree exactly in the
cases listed. -/
theorem all_or_nothing_iff (w : World) (name : FileName) (file : LocalFile) (segs : List Segment)
    (n : Nat) (hcs : w.charset.Lossless)
    (hsegs : streamBytes segs = (writeFromClient w.charset name file).sent)
    (hn : (requests ((Server.start segs).lines w)).length ≤ n) :
    AllOrNothing (writeFromClient w.charset name file) name file ((Server.start segs).run w n) ↔
      Agrees w name file segs := by
  by_cases hmissing : file = .missing
  · subst hmissing
    exact iff_of_true (.inr (nothingDone_of_missing hcs hsegs hn)) (.inl rfl)
  have hsent : streamBytes segs =
      header w.charset name "valid".toList ++ streamedBytes name file :=
    hsegs.trans (writeFromClient_of_exists hmissing).1
  by_cases hext : ∃ fileExt ∈ Connection.uploadExtensions, extension name.1 = some fileExt
  · cases hopen : w.opens (uploadPath name.1) with
    | false =>
        rw [allOrNothing_of_not_open hcs hmissing hext hopen hsent hn]
        simp only [Agrees, hmissing, hext, hopen, not_true_eq_false, Bool.false_eq_true, true_and,
          false_and, and_false, or_false, false_or]
    | true =>
        have hpos : 1 ≤ n := by
          rw [requests_header hcs (by decide) hsent, List.length_cons] at hn
          omega
        rw [allOrNothing_of_accepted hcs ⟨hext, hopen⟩ hmissing hsent hpos]
        simp only [Agrees, hmissing, hext, hopen, not_true_eq_false, Bool.true_eq_false, true_and,
          false_and, and_false, false_or]
  · exact iff_of_true (.inr (nothingDone_of_not_accepted hcs hmissing hext hsent hn))
      (.inr (.inl hext))

/-! ## Two files -/

/-- A text file that arrives behind its header. -/
theorem all_or_nothing_iff_text :
    AllOrNothing (writeFromClient utf8 textName (.readable [104, 105])) textName
      (.readable [104, 105])
      ((Server.start [headerSegment textName, ⟨[104, 105], by decide⟩]).run roomyWorld 2) := by
  refine (all_or_nothing_iff roomyWorld textName (.readable [104, 105]) _ 2 utf8_lossless
    (by decide +kernel) ?_).2 ?_
  · rw [requests_header utf8_lossless (by decide)
      (show streamBytes [headerSegment textName, ⟨[104, 105], by decide⟩] =
        header roomyWorld.charset textName "valid".toList ++ [104, 105] by decide +kernel)]
    decide +kernel
  · refine .inr (.inr (.inr (.inr ⟨⟨⟨"txt".toList, by decide, by decide +kernel⟩, rfl⟩, rfl,
      by decide +kernel, by decide, ?_⟩)))
    refine ⟨[headerSegment textName], [⟨[104, 105], by decide⟩], rfl, List.append_nil _, ?_⟩
    intro last hlast
    cases hlast
    decide +kernel

/-- The name `a.jpeg`. -/
def imageName : FileName := ⟨"a.jpeg".toList, by decide⟩

/-- The client says `valid` and rejects the name; the server accepts it, empties its file and
reports it as received. -/
theorem jpeg_emptied_on_server :
    streamBytes [headerSegment imageName] =
      (writeFromClient roomyWorld.charset imageName (.readable [104, 105])).sent ∧
    (requests ((Server.start [headerSegment imageName]).lines roomyWorld)).length ≤ 1 ∧
    ¬AllOrNothing (writeFromClient roomyWorld.charset imageName (.readable [104, 105])) imageName
      (.readable [104, 105]) ((Server.start [headerSegment imageName]).run roomyWorld 1) := by
  have haccepts : Accepts roomyWorld imageName.1 :=
    ⟨⟨"jpeg".toList, by decide, by decide +kernel⟩, rfl⟩
  have hsent : streamBytes [headerSegment imageName] =
      header roomyWorld.charset imageName "valid".toList ++
        streamedBytes imageName (.readable [104, 105]) := by decide +kernel
  refine ⟨by decide +kernel, ?_, ?_⟩
  · rw [requests_header utf8_lossless (by decide) hsent]
    decide +kernel
  · rw [allOrNothing_of_accepted utf8_lossless haccepts (by decide) hsent (le_refl 1)]
    rintro (⟨-, houtside, -⟩ | ⟨hstreams, -⟩)
    · exact absurd (show uploadDir.Holds (uploadPath imageName.1) by decide +kernel) houtside
    · exact absurd hstreams.1 (by decide +kernel)

end ComputerNetworking.FileServer
