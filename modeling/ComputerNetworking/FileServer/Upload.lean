import ComputerNetworking.FileServer.Leaving

/-!
# An upload, from the client to the disk

`NetworkUtil.writeFromClient` at one end of the connection and the UPLOAD request
of `run` with `readFileFromClient` at the other. The client sends two lines and
the bytes of the file. The server reads the lines through its buffered reader,
which may take bytes of the file along, and the file from the socket. The copy is
the file exactly when the socket is read up to the end of the second line, its
line feed included, and no further (`copy_eq_iff_cut`).
-/

set_option autoImplicit false

namespace ComputerNetworking.FileServer

open ComputerNetworking.Foundations

/-! ## The client -/

/-- A name the user enters: `Scanner.nextLine` returns no line end. -/
abbrev FileName := { t : Text // '\r' ∉ t ∧ '\n' ∉ t }

/-- The file of that name on the client's disk: there is none, or a stream for it does not
open, or breaks off, or gives its bytes. -/
inductive LocalFile where
  | missing
  | unopenable
  | breaking (bytes : List UInt8)
  | readable (bytes : List UInt8)
  deriving DecidableEq, Repr

/-- The bytes the client gets from the file. -/
def LocalFile.given : LocalFile → List UInt8
  | .missing => []
  | .unopenable => []
  | .breaking bytes => bytes
  | .readable bytes => bytes

/-- What the client has done when it closes the connection: the bytes it has sent, and
whether it has streamed the whole file and said so. -/
structure ClientRun where
  sent : List UInt8
  streamed : Bool
  deriving DecidableEq

/-- The extensions the client accepts. -/
def clientExtensions : List Text := ["jpg".toList, "png".toList, "txt".toList, "mp4".toList]

/-- `"UPLOAD " + fileName`. -/
def uploadLine (name : FileName) : Text := "UPLOAD ".toList ++ name.1

/-- The request line and the line for the validity of the file. -/
def header (cs : Charset) (name : FileName) (message : Text) : List UInt8 :=
  cs.encode (uploadLine name ++ crlf) ++ cs.encode (message ++ crlf)

/-- `writeFromClient`. -/
def writeFromClient (cs : Charset) (name : FileName) (file : LocalFile) : ClientRun :=
  if file = .missing then ⟨header cs name "invalid".toList, false⟩
  else
    match extension name.1 with
    | none => ⟨header cs name "valid".toList, false⟩  -- the array is empty: an exception
    | some fileExt =>
        if fileExt ∈ clientExtensions then
          ⟨header cs name "valid".toList ++ file.given, file = .readable file.given⟩
        else ⟨header cs name "valid".toList, false⟩

/-- The part of the file the client sends. -/
def streamedBytes (name : FileName) (file : LocalFile) : List UInt8 :=
  if ∃ fileExt ∈ clientExtensions, extension name.1 = some fileExt then file.given else []

/-- A client that has the file announces it and sends what it gets from it. -/
theorem writeFromClient_of_exists {cs : Charset} {name : FileName} {file : LocalFile}
    (h : file ≠ .missing) :
    (writeFromClient cs name file).sent =
      header cs name "valid".toList ++ streamedBytes name file ∧
    ((writeFromClient cs name file).streamed = true ↔
      (∃ fileExt ∈ clientExtensions, extension name.1 = some fileExt) ∧
        file = .readable file.given) := by
  rw [writeFromClient, if_neg h, streamedBytes]
  cases extension name.1 with
  | none =>
      have hno : ¬∃ fileExt ∈ clientExtensions, (none : Option Text) = some fileExt := by
        rintro ⟨fileExt, -, hext⟩
        cases hext
      rw [if_neg hno, List.append_nil]
      exact ⟨rfl, iff_of_false Bool.false_ne_true fun h => hno h.1⟩
  | some fileExt =>
      by_cases hmem : fileExt ∈ clientExtensions
      · have hyes : ∃ e ∈ clientExtensions, some fileExt = some e := ⟨fileExt, hmem, rfl⟩
        simp only [if_pos hmem, if_pos hyes, decide_eq_true_eq]
        exact ⟨trivial, (and_iff_right hyes).symm⟩
      · have hno : ¬∃ e ∈ clientExtensions, some fileExt = some e := by
          rintro ⟨e, he, heq⟩
          cases heq
          exact hmem he
        simp only [if_neg hmem, if_neg hno, List.append_nil]
        exact ⟨trivial, iff_of_false Bool.false_ne_true fun h => hno h.1⟩

/-! ## The server -/

section Server

variable {w : World} {name : FileName} {segs : List Segment} {rest : List UInt8}

/-- The two lines of the client are one request. -/
theorem requests_uploadLine (name : FileName) (message : Text) (lines : List Text) :
    requests (uploadLine name :: message :: lines) =
      .upload name.1 (some message) :: requests lines := by
  have hword : uploadLine name = "UPLOAD".toList ++ ' ' :: name.1 := rfl
  have hhead : (javaSplit ' ' (uploadLine name)).head? = some "UPLOAD".toList := by
    rw [hword]
    exact javaSplit_head name.1 (by decide) (by decide)
  have hlen : ¬(uploadLine name).length < 7 := by
    have hseven : (uploadLine name).length = name.1.length + 7 := rfl
    omega
  have hdrop : (uploadLine name).drop 7 = name.1 := rfl
  rw [requests.eq_def]
  simp only
  cases hsplit : javaSplit ' ' (uploadLine name) with
  | nil =>
      rw [hsplit] at hhead
      cases hhead
  | cons word words =>
      rw [hsplit, List.head?_cons, Option.some.injEq] at hhead
      subst hhead
      have hget : ¬"UPLOAD".toList = "GET".toList := by decide
      simp only [if_neg hget, if_true, if_neg hlen, hdrop]

theorem uploadLine_oneLine (name : FileName) :
    '\r' ∉ uploadLine name ∧ '\n' ∉ uploadLine name := by
  constructor
  · intro hmem
    rcases List.mem_append.1 hmem with hmem | hmem
    · exact absurd hmem (by decide)
    · exact name.2.1 hmem
  · intro hmem
    rcases List.mem_append.1 hmem with hmem | hmem
    · exact absurd hmem (by decide)
    · exact name.2.2 hmem

/-- The requests of a stream that begins with the client's header. -/
theorem requests_header {message : Text} (hcs : w.charset.Lossless)
    (hmessage : '\r' ∉ message ∧ '\n' ∉ message)
    (h : streamBytes segs = header w.charset name message ++ rest) :
    requests ((Server.start segs).lines w) =
      .upload name.1 (some message) ::
        requests ((linesFrom [] false rest).map w.charset.decode) := by
  have hone : ∀ t ∈ [uploadLine name, message], '\r' ∉ t ∧ '\n' ∉ t := by
    intro t ht
    rcases List.mem_cons.1 ht with rfl | ht
    · exact uploadLine_oneLine name
    · rw [List.mem_singleton.1 ht]
      exact hmessage
  have hstream : streamBytes segs =
      w.charset.encode ([uploadLine name, message].flatMap (· ++ crlf)) ++ rest := by
    rw [h, header, ← Charset.encode_append]
    simp only [List.flatMap_cons, List.flatMap_nil, List.append_nil]
  rw [Server.lines_start _ rest hcs hone hstream]
  exact requests_uploadLine name message _

/-- The reader behind the client's header: it has used all but the last line feed. -/
theorem reader_behind_header (h : streamBytes segs = header w.charset name "valid".toList ++ rest) :
    ∃ pre used, used ++ [lf] = header w.charset name "valid".toList ∧
      Reader.After segs used pre (Reader.start segs).readLine.2.readLine.2 ∧
      (Reader.start segs).readLine.2.readLine.2.stream = lf :: rest := by
  have hcrlf : w.charset.encode crlf = [cr, lf] := w.charset.encode_of_ascii (by decide)
  have hname : '\r' ∉ uploadLine name ∧ '\n' ∉ uploadLine name := uploadLine_oneLine name
  have hvalid : OneLine (w.charset.encode "valid".toList) :=
    w.charset.encode_oneLine_of (by decide) (by decide)
  rw [header, Charset.encode_append, Charset.encode_append, hcrlf] at h ⊢
  simp only [List.append_assoc, List.cons_append, List.nil_append] at h
  obtain ⟨pre, hafter, hstream⟩ := Reader.after_two_lines
    (w.charset.encode_oneLine_of hname.1 hname.2) hvalid h
  refine ⟨pre, _, ?_, hafter, hstream⟩
  simp only [List.append_assoc, List.cons_append, List.nil_append]

/-- An upload the server accepts is received in the first iteration: the copy is what the
reader has left in the socket. -/
theorem run_accepted {n : Nat} (hcs : w.charset.Lossless) (haccepts : Accepts w name.1)
    (h : streamBytes segs = header w.charset name "valid".toList ++ rest) (hn : 1 ≤ n) :
    ((Server.start segs).run w n).uploaded = some (readFileFromClient w (uploadPath name.1)
      (Reader.start segs).readLine.2.readLine.2.segments) := by
  obtain ⟨m, rfl⟩ : ∃ m, n = m + 1 := ⟨n - 1, by omega⟩
  obtain ⟨hadvance, -⟩ := Server.advance_of_requests (w := w) (s := Server.start segs) rfl
    (requests_header hcs (by decide) h)
  have hserve : serve w (Server.start segs).conn (.upload name.1 (some "valid".toList)) =
      .error (.receives (uploadPath name.1)) :=
    serve_receives_iff.2 ⟨name.1, rfl, haccepts, rfl⟩
  rw [hserve] at hadvance
  rw [Server.run, hadvance, Server.run_of_closed m rfl]
  rfl

/-- The bytes left in the socket are those of the file exactly when the stream is cut at
the end of the header; otherwise there is at most a line feed more. -/
theorem left_in_socket (h : streamBytes segs = header w.charset name "valid".toList ++ rest) :
    (streamBytes (Reader.start segs).readLine.2.readLine.2.segments = rest ↔
      CutBehind segs (header w.charset name "valid".toList)) ∧
    (streamBytes (Reader.start segs).readLine.2.readLine.2.segments).length ≤ rest.length + 1 := by
  obtain ⟨pre, used, hused, hafter, hstream⟩ := reader_behind_header h
  constructor
  · rw [← hused]
    exact hafter.left_eq_iff hstream
  · have hlen := congrArg List.length hstream
    rw [Reader.stream, List.length_append, List.length_cons] at hlen
    omega

end Server

/-- For every file, every name whose extension both ends accept and every cutting of the
stream: the bytes on the server's disk are those of the file exactly when one read
of the socket ends with the header and none ends between the last two bytes of the
header. The server can open its file and has room for what may arrive. -/
theorem copy_eq_iff_cut (w : World) (name : FileName) (content : List UInt8) (segs : List Segment)
    (n : Nat) (hcs : w.charset.Lossless)
    (hext : ∃ fileExt ∈ clientExtensions, extension name.1 = some fileExt)
    (haccepts : Accepts w name.1) (hroom : content.length < w.room)
    (hsegs : streamBytes segs = (writeFromClient w.charset name (.readable content)).sent)
    (hn : 1 ≤ n) :
    (∃ u, ((Server.start segs).run w n).uploaded = some u ∧ u.path = uploadPath name.1 ∧
      u.bytes = content) ↔ CutBehind segs (header w.charset name "valid".toList) := by
  have hsent : streamBytes segs = header w.charset name "valid".toList ++ content := by
    rw [hsegs, (writeFromClient_of_exists (by rintro ⟨⟩)).1, streamedBytes, if_pos hext]
    rfl
  obtain ⟨hcut, hlen⟩ := left_in_socket hsent
  rw [run_accepted hcs haccepts hsent hn, ← hcut]
  simp only [Option.some.injEq, exists_eq_left', readFileFromClient, true_and]
  rw [List.take_of_length_le (by omega)]

/-! ## One file, cut in two ways -/

/-- A disk with room that opens every file. -/
def roomyWorld : World where
  charset := utf8
  env := fun _ => ⟨fun _ => none, newYear, true⟩
  opens := fun _ => true
  room := 1000

/-- The name `a.txt`. -/
def textName : FileName := ⟨"a.txt".toList, by decide⟩

/-- The header of its upload as one segment. -/
def headerSegment (name : FileName) : Segment :=
  ⟨header utf8 name "valid".toList, by
    rw [header, ← Charset.encode_append, Ne, Charset.encode_eq_nil_iff]
    exact List.append_ne_nil_of_left_ne_nil (List.append_ne_nil_of_right_ne_nil _ (by decide)) _⟩

theorem accepts_textName : Accepts roomyWorld textName.1 :=
  ⟨⟨"txt".toList, by decide, by decide +kernel⟩, rfl⟩

/-- A read that ends with the header: the copy is the file. -/
theorem copy_eq_iff_cut_at_header :
    ∃ u, ((Server.start [headerSegment textName, ⟨[104, 105], by decide⟩]).run
        roomyWorld 1).uploaded = some u ∧
      u.path = uploadPath textName.1 ∧ u.bytes = [104, 105] := by
  refine (copy_eq_iff_cut roomyWorld textName [104, 105] _ 1 utf8_lossless
    ⟨"txt".toList, by decide, by decide +kernel⟩ accepts_textName (by decide)
    (by decide +kernel) (le_refl 1)).2 ?_
  refine ⟨[headerSegment textName], [⟨[104, 105], by decide⟩], rfl, List.append_nil _, ?_⟩
  intro last hlast
  cases hlast
  decide +kernel

/-- The header and the file in one segment. -/
def coalescedSegment : Segment :=
  ⟨(writeFromClient utf8 textName (.readable [104, 105])).sent, by decide +kernel⟩

/-- The reader takes the file along with the header, and the copy is empty. -/
theorem coalesced_upload_loses_file :
    streamBytes [coalescedSegment] =
      (writeFromClient roomyWorld.charset textName (.readable [104, 105])).sent ∧
    ¬∃ u, ((Server.start [coalescedSegment]).run roomyWorld 1).uploaded = some u ∧
      u.path = uploadPath textName.1 ∧ u.bytes = [104, 105] := by
  have hsent : streamBytes [coalescedSegment] =
      header roomyWorld.charset textName "valid".toList ++ [104, 105] := by decide +kernel
  have hempty : readFileFromClient roomyWorld (uploadPath textName.1)
      (Reader.start [coalescedSegment]).readLine.2.readLine.2.segments =
      ⟨uploadPath textName.1, [], true⟩ := by decide +kernel
  refine ⟨List.append_nil _, ?_⟩
  rintro ⟨u, hu, -, hbytes⟩
  rw [run_accepted utf8_lossless accepts_textName hsent (le_refl 1), hempty] at hu
  cases hu
  cases hbytes

end ComputerNetworking.FileServer
