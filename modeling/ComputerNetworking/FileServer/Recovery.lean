import ComputerNetworking.FileServer.Framing

/-!
# Which answers a client recovers

Requests on one connection that are all GET lines, and a client that takes the
responses from the byte stream one by one. It recovers what the handler meant to
send exactly when every request is one that the handler frames (`Framed`).
-/

set_option autoImplicit false

namespace ComputerNetworking.FileServer

open ComputerNetworking.Foundations

/-! ## Single answers -/

/-- The body the branch of a target means to send. -/
def Target.body (cs : Charset) (path : Text) : Target → Option (List UInt8)
  | .directory entries => some (cs.encode (directoryPage path entries))
  | .textFile bytes readable => some (cs.encode (textPage cs bytes readable))
  | .image data => some data
  | .download bytes _ => some bytes
  | .special => none
  | .missing => some (cs.encode errorPage)

/-- The targets whose answers have a frame: directories whose page has as many bytes as
UTF-16 units, and images. The last case is a coincidence: the line end that is sent
in front of a file counts as the file when the file does not open and is that
line end. -/
def FramedTarget (cs : Charset) (path : Text) : Target → Prop
  | .directory entries =>
      (cs.encode (directoryPage path entries)).length = utf16Length (directoryPage path entries)
  | .textFile _ _ => False
  | .image _ => True
  | .download bytes readable => readable = false ∧ bytes = lineEnd
  | .special => False
  | .missing => False

/-- A text that is sent as a sequence of heads. -/
def Headed (cs : Charset) (t : Text) : Prop :=
  ∃ heads : List ResponseHead, cs.encode t = (heads.map ResponseHead.bytes).flatten

theorem headed_nil (cs : Charset) : Headed cs [] := ⟨[], rfl⟩

theorem Headed.append {cs : Charset} {t u : Text} (ht : Headed cs t) (hu : Headed cs u) :
    Headed cs (t ++ u) := by
  obtain ⟨heads, hheads⟩ := ht
  obtain ⟨heads', hheads'⟩ := hu
  refine ⟨heads ++ heads', ?_⟩
  rw [Charset.encode_append, hheads, hheads', List.map_append, List.flatten_append]

section Heads

variable (cs : Charset) (date : DateText)

theorem exists_pageHead (page : Text) :
    ∃ h : ResponseHead, h.length = utf16Length page ∧ h.bytes = cs.encode (pageHead date page) :=
  exists_responseHead cs date _ (by decide) (by decide)

theorem exists_imageHead (n : Nat) :
    ∃ h : ResponseHead, h.length = n ∧ h.bytes = cs.encode (imageHead date n) :=
  exists_responseHead cs date n (by decide) (by decide)

theorem exists_downloadHead (n : Nat) :
    ∃ h : ResponseHead, h.length = n ∧ h.bytes = cs.encode (downloadHead date n) :=
  exists_responseHead cs date n (by decide) (by decide)

theorem exists_errorHead (page : Text) :
    ∃ h : ResponseHead, h.length = utf16Length page ∧ h.bytes = cs.encode (errorHead date page) :=
  exists_responseHead cs date _ (by decide) (by decide)

/-- The head `writeImageFileOnBrowser` sends. -/
theorem exists_sentImageHead (n : Nat) :
    ∃ h : ResponseHead, h.length = n ∧ h.bytes = cs.encode (renderHead (sentImageLines n)) :=
  exists_head cs ["Content-Type: image/png".toList] n (by decide) (by decide) (by decide)

/-- `httpResponse` is always a sequence of heads. -/
theorem headed_newResponse {old : Text} (hold : Headed cs old) (path : Text) (target : Target) :
    Headed cs (newResponse cs date old path target) := by
  have hone : ∀ {t : Text} {n : Nat},
      (∃ h : ResponseHead, h.length = n ∧ h.bytes = cs.encode t) → Headed cs t := by
    rintro t n ⟨h, -, hbytes⟩
    exact ⟨[h], by rw [← hbytes, List.map_singleton, List.flatten_singleton]⟩
  cases target with
  | directory entries => exact hone (exists_pageHead cs date _)
  | textFile bytes readable => exact hone (exists_pageHead cs date _)
  | image data => exact hone (exists_imageHead cs date _)
  | download bytes readable => exact hone (exists_downloadHead cs date _)
  | special => exact hold
  | missing => exact hold.append (hone (exists_errorHead cs date _))

/-- What a client makes of bytes that a head was sent in front of. -/
theorem read_sent_iff {head : Text} {n : Nat} {sent body rest : List UInt8}
    (hhead : ∃ h : ResponseHead, h.length = n ∧ h.bytes = cs.encode head) :
    readResponse (cs.encode head ++ sent ++ rest) = some (body, rest) ↔
      sent = body ∧ body.length = n := by
  obtain ⟨h, rfl, hbytes⟩ := hhead
  rw [← hbytes, List.append_assoc, readResponse_head_eq_some_iff, List.append_left_inj]

theorem encode_crlf : cs.encode crlf = lineEnd := cs.encode_of_ascii (by decide)

/-- The first byte of a page. -/
theorem encode_head_of_ascii {t : Text} {c : Char} (h : t.head? = some c) (hc : c.val < 128) :
    (cs.encode t).head? = some c.val.toUInt8 := by
  cases t with
  | nil => cases h
  | cons d t =>
      rw [List.head?_cons, Option.some.injEq] at h
      subst h
      rw [Charset.encode_cons, cs.encode_ascii d hc]
      rfl

/-- The answer of a missing target does not read as its page: behind the first head there
is another head or a line end. -/
theorem read_missing {old : Text} (hold : Headed cs old) {rest : List UInt8} :
    readResponse (cs.encode (old ++ errorHead date errorPage ++ crlf) ++ rest) ≠
      some (cs.encode errorPage, rest) := by
  have hpage : (cs.encode errorPage).head? = some 60 :=
    encode_head_of_ascii cs (c := '<') (by decide +kernel) (by decide)
  obtain ⟨h, hlen, hbytes⟩ := exists_errorHead cs date errorPage
  obtain ⟨heads, hheads⟩ := hold
  intro hread
  rw [Charset.encode_append, Charset.encode_append, hheads, ← hbytes, encode_crlf] at hread
  cases heads with
  | nil =>
      rw [List.map_nil, List.flatten_nil, List.nil_append, List.append_assoc,
        readResponse_head_eq_some_iff, List.append_left_inj] at hread
      rw [← hread.1] at hpage
      exact absurd hpage (by decide)
  | cons first heads =>
      rw [List.map_cons, List.flatten_cons] at hread
      simp only [List.append_assoc] at hread
      rw [readResponse_head_eq_some_iff] at hread
      have hne : cs.encode errorPage ≠ [] := by
        intro hnil
        rw [hnil] at hpage
        cases hpage
      have hfirst := congrArg List.head? hread.1
      rw [List.head?_append_of_ne_nil (cs.encode errorPage) hne, hpage] at hfirst
      -- what follows the first head begins as a head does
      cases heads with
      | nil =>
          rw [List.map_nil, List.flatten_nil, List.nil_append, List.head?_append,
            ResponseHead.head_bytes, Option.some_or] at hfirst
          exact absurd hfirst (by decide)
      | cons second heads =>
          rw [List.map_cons, List.flatten_cons, List.append_assoc, List.head?_append,
            ResponseHead.head_bytes, Option.some_or] at hfirst
          exact absurd hfirst (by decide)

/-- A client reads an answer as the body it was meant to carry, and ends where the
answer ends, exactly when the target is framed. -/
theorem read_answer_iff {old : Text} (hold : Headed cs old) (path : Text) (target : Target)
    (rest : List UInt8) :
    (∃ body, target.body cs path = some body ∧
      readResponse (sentBytes cs (newResponse cs date old path target) path target ++ rest) =
        some (body, rest)) ↔ FramedTarget cs path target := by
  -- the extra line end shifts the body
  have hgap : ∀ bytes : List UInt8, lineEnd ++ bytes ≠ bytes := by
    intro bytes h
    have hlen := congrArg List.length h
    rw [List.length_append] at hlen
    exact absurd hlen (by simp [lineEnd])
  cases target with
  | special =>
      refine iff_of_false ?_ id
      rintro ⟨body, hbody, -⟩
      cases hbody
  | missing =>
      refine iff_of_false ?_ id
      rintro ⟨body, hbody, hread⟩
      rw [Target.body, Option.some.injEq] at hbody
      rw [← hbody] at hread
      -- the 404 branch: no body for its length, or another head before it
      exact read_missing cs date hold hread
  | directory entries =>
      simp only [Target.body, Option.some.injEq, exists_eq_left', sentBytes, newResponse,
        FramedTarget]
      rw [read_sent_iff cs (exists_pageHead cs date _)]
      exact and_iff_right rfl
  | textFile bytes readable =>
      simp only [Target.body, Option.some.injEq, exists_eq_left', sentBytes, newResponse,
        FramedTarget, iff_false]
      rw [Charset.encode_append, List.append_assoc (cs.encode _),
        read_sent_iff cs (exists_pageHead cs date _), encode_crlf]
      exact fun h => hgap _ h.1
  | image data =>
      simp only [Target.body, Option.some.injEq, exists_eq_left', sentBytes, FramedTarget, iff_true]
      rw [read_sent_iff cs (exists_sentImageHead cs data.length)]
      exact ⟨rfl, rfl⟩
  | download bytes readable =>
      simp only [Target.body, Option.some.injEq, exists_eq_left', sentBytes, newResponse,
        FramedTarget]
      rw [Charset.encode_append, List.append_assoc (cs.encode _),
        read_sent_iff cs (exists_downloadHead cs date _), encode_crlf]
      cases readable with
      -- the extra line end comes before a file that opens; else it is all that is sent
      | true => exact iff_of_false (fun h => hgap _ h.1) (fun h => absurd h.1 (by decide))
      | false =>
          simp only [Bool.false_eq_true, if_false, List.append_nil, and_true, true_and]
          exact eq_comm

end Heads

/-! ## Sequences of answers -/

/-- A GET line: its first field is `GET`. -/
def IsGet (line : Text) : Prop := (javaSplit ' ' line).head? = some "GET".toList

instance (line : Text) : Decidable (IsGet line) := inferInstanceAs (Decidable (_ = _))

/-- The answers to a sequence of GET lines, from the `k`-th request of a connection on, up
to a line that makes the handler throw. -/
def answers (w : World) (k : Nat) (httpResponse : Text) : List Text → List (List UInt8)
  | [] => []
  | line :: lines =>
      match handleGet w.charset (w.env k) httpResponse line with
      | .error _ => []
      | .ok reply => reply.sent :: answers w (k + 1) reply.httpResponse lines

/-- The body a request line is meant to be answered with. -/
def meantBody (cs : Charset) (env : Env) (httpRequest : Text) : Option (List UInt8) :=
  match requestTarget env httpRequest with
  | .error _ => none
  | .ok (path, target) => target.body cs path

/-- The bodies for a sequence of request lines, if each has one. -/
def meantBodies (w : World) (k : Nat) : List Text → Option (List (List UInt8))
  | [] => some []
  | line :: lines =>
      match meantBody w.charset (w.env k) line, meantBodies w (k + 1) lines with
      | some body, some bodies => some (body :: bodies)
      | _, _ => none

/-- The client recovers one response for each request, in order, each with the body the
handler meant to send, and nothing is left between them. -/
def RecoversMeant (w : World) (lines : List Text) (sent : List (List UInt8)) : Prop :=
  ∃ bodies, meantBodies w 0 lines = some bodies ∧ Recovers sent bodies

/-- A request whose target is framed. -/
def Framed (cs : Charset) (env : Env) (httpRequest : Text) : Prop :=
  ∃ path target, requestTarget env httpRequest = .ok (path, target) ∧ FramedTarget cs path target

section Sequences

variable {w : World}

/-- Over a sequence of requests the client recovers the meant bodies exactly when every
request is framed. -/
theorem recovers_answers_iff {k : Nat} {httpResponse : Text} {lines : List Text}
    (hheaded : Headed w.charset httpResponse) :
    (∃ bodies, meantBodies w k lines = some bodies ∧
      Recovers (answers w k httpResponse lines) bodies) ↔
      ∀ i line, lines[i]? = some line → Framed w.charset (w.env (k + i)) line := by
  -- induction on the lines; the answer of a missing target needs the earlier heads
  induction lines generalizing k httpResponse with
  | nil =>
      refine iff_of_true ⟨[], rfl, trivial⟩ ?_
      intro i line h
      cases h
  | cons line lines ih =>
      have hall : (∀ i l, (line :: lines)[i]? = some l → Framed w.charset (w.env (k + i)) l) ↔
          Framed w.charset (w.env k) line ∧
            ∀ i l, lines[i]? = some l → Framed w.charset (w.env (k + 1 + i)) l := by
        constructor
        · intro h
          refine ⟨h 0 line rfl, ?_⟩
          intro i l hl
          have hnext := h (i + 1) l hl
          rwa [← Nat.add_assoc, Nat.add_right_comm] at hnext
        · rintro ⟨hhead, htail⟩ i l hl
          cases i with
          | zero =>
              rw [List.getElem?_cons_zero, Option.some.injEq] at hl
              rw [← hl]
              exact hhead
          | succ i =>
              have hnext := htail i l hl
              rwa [Nat.add_right_comm, Nat.add_assoc] at hnext
      rw [hall]
      cases htarget : requestTarget (w.env k) line with
      | error e =>
          apply iff_of_false
          · rintro ⟨bodies, hbodies, -⟩
            rw [meantBodies, meantBody, htarget] at hbodies
            cases hbodies
          · rintro ⟨⟨path, target, hok, -⟩, -⟩
            rw [htarget] at hok
            cases hok
      | ok r =>
          obtain ⟨path, target⟩ := r
          have hframed : Framed w.charset (w.env k) line ↔ FramedTarget w.charset path target := by
            constructor
            · rintro ⟨path', target', hok, h⟩
              rw [htarget] at hok
              cases hok
              exact h
            · exact fun h => ⟨path, target, htarget, h⟩
          have hnext := ih (k := k + 1)
            (headed_newResponse w.charset (w.env k).date hheaded path target)
          rw [hframed, ← hnext, answers, handleGet_of_target htarget, meantBodies, meantBody,
            htarget]
          simp only [answer]
          have hread := read_answer_iff w.charset (w.env k).date hheaded path target
            (answers w (k + 1) (newResponse w.charset (w.env k).date httpResponse path target)
              lines).flatten
          rw [← hread]
          cases hbody : target.body w.charset path with
          | none =>
              apply iff_of_false
              · rintro ⟨bodies, h, -⟩
                cases h
              · rintro ⟨⟨body, h, -⟩, -⟩
                cases h
          | some body =>
              cases hbodies : meantBodies w (k + 1) lines with
              | none =>
                  apply iff_of_false
                  · rintro ⟨bodies, h, -⟩
                    cases h
                  · rintro ⟨-, bodies, h, -⟩
                    cases h
              | some bodies =>
                  simp only [Option.some.injEq, exists_eq_left', Recovers]

/-- The connection writes the answers to a sequence of GET requests. -/
theorem run_answers {s : Server} {lines : List Text} {n : Nat} (hopen : s.closed = false)
    (h : requests (s.lines w) = lines.map Request.get) (hn : lines.length ≤ n) :
    (s.run w n).conn.sent =
      s.conn.sent ++ answers w s.conn.httpRequestCount s.conn.httpResponse lines := by
  induction lines generalizing s n with
  | nil =>
      obtain ⟨reader, hrun⟩ := Server.run_idle (w := w) n hopen h
      rw [hrun, answers, List.append_nil]
  | cons line lines ih =>
      obtain ⟨m, rfl⟩ : ∃ m, n = m + 1 := ⟨n - 1, by rw [List.length_cons] at hn; omega⟩
      obtain ⟨hadvance, hnext⟩ := Server.advance_of_requests hopen h
      rw [Server.run, answers]
      rw [serve, Connection.get] at hadvance
      cases hreply :
        handleGet w.charset (w.env s.conn.httpRequestCount) s.conn.httpResponse line with
      | error e =>
          rw [hreply] at hadvance
          rw [hadvance, Server.run_of_closed m rfl]
          exact (List.append_nil _).symm
      | ok reply =>
          rw [hreply] at hadvance
          have hopen' : (s.advance w).closed = false := by
            rw [hadvance]
            exact hopen
          have hnext' : requests ((s.advance w).lines w) = lines.map Request.get := by
            rw [hadvance]
            exact hnext
          have hm : lines.length ≤ m := Nat.le_of_succ_le_succ hn
          rw [ih hopen' hnext' hm, hadvance]
          exact List.append_assoc _ [reply.sent] _

theorem requests_of_gets {lines : List Text} (h : ∀ line ∈ lines, IsGet line) :
    requests lines = lines.map Request.get := by
  induction lines with
  | nil => rfl
  | cons line lines ih =>
      have hget : (javaSplit ' ' line).head? = some "GET".toList := h line List.mem_cons_self
      rw [requests.eq_def, List.map_cons, ← ih fun l hl => h l (List.mem_cons_of_mem line hl)]
      simp only
      cases hsplit : javaSplit ' ' line with
      | nil =>
          rw [hsplit] at hget
          cases hget
      | cons word words =>
          rw [hsplit, List.head?_cons, Option.some.injEq] at hget
          simp only [if_pos hget]

end Sequences

/-- For every stream of GET lines, cut in any way, and all that the requests find: when
the lines are served, the client recovers what the handler meant to send exactly
when every request is framed. -/
theorem recovers_iff_framed (w : World) (segs : List Segment) (n : Nat)
    (hget : ∀ line ∈ (Server.start segs).lines w, IsGet line)
    (hn : ((Server.start segs).lines w).length ≤ n) :
    RecoversMeant w ((Server.start segs).lines w) ((Server.start segs).run w n).conn.sent ↔
      ∀ i line, ((Server.start segs).lines w)[i]? = some line →
        Framed w.charset (w.env i) line := by
  have hsent := run_answers (w := w) (s := Server.start segs) rfl (requests_of_gets hget) hn
  rw [RecoversMeant, hsent]
  show (∃ bodies, _ ∧ Recovers ([] ++ answers w 0 [] _) bodies) ↔ _
  rw [List.nil_append, recovers_answers_iff (headed_nil w.charset)]
  simp only [Nat.zero_add]

/-! ## Two servers -/

/-- A server with one thing on its disk. -/
def oneNodeWorld (path : Text) (node : Node) : World where
  charset := utf8
  env := fun _ => ⟨fun p => if p = absolutePath path then some node else none, newYear, true⟩
  opens := fun _ => true
  room := 0

/-- A line sent in one piece. -/
def lineSegment (line : Text) : Segment :=
  ⟨utf8.encode (line ++ crlf), by
    rw [Charset.encode_append]
    exact List.append_ne_nil_of_right_ne_nil _ (by decide)⟩

theorem streamBytes_lineSegments (lines : List Text) :
    streamBytes (lines.map lineSegment) = utf8.encode (lines.flatMap (· ++ crlf)) := by
  induction lines with
  | nil => rfl
  | cons line lines ih =>
      rw [List.map_cons, streamBytes_cons, ih, List.flatMap_cons, Charset.encode_append]
      rfl

theorem lines_lineSegments {w : World} {lines : List Text} (hw : w.charset = utf8)
    (hlines : ∀ line ∈ lines, '\r' ∉ line ∧ '\n' ∉ line) :
    (Server.start (lines.map lineSegment)).lines w = lines := by
  have hstream : streamBytes (lines.map lineSegment) =
      w.charset.encode (lines.flatMap (· ++ crlf)) ++ [] := by
    rw [hw, streamBytes_lineSegments, List.append_nil]
  rw [Server.lines_start lines [] (by rw [hw]; exact utf8_lossless) hlines hstream]
  exact List.append_nil lines

def oneLineSegments (line : Text) : List Segment := [line].map lineSegment

theorem lines_oneLineSegments {w : World} {line : Text} (hw : w.charset = utf8)
    (hline : '\r' ∉ line ∧ '\n' ∉ line) :
    (Server.start (oneLineSegments line)).lines w = [line] := by
  apply lines_lineSegments hw
  intro t ht
  rw [List.mem_singleton] at ht
  exact ht ▸ hline

/-- A server whose root holds an image and a directory. -/
def galleryWorld : World where
  charset := utf8
  env := fun _ =>
    ⟨fun p =>
      if p = absolutePath "/".toList then
        some (.directory (some [⟨"a.png".toList, .file⟩, ⟨"b".toList, .directory⟩]))
      else if p = absolutePath "/a.png".toList then some (.file [137, 80, 78, 71] true)
      else none, newYear, true⟩
  opens := fun _ => true
  room := 0

/-- A request for the root, and then one for the image. -/
def galleryLines : List Text := ["GET / HTTP/1.1".toList, "GET /a.png HTTP/1.1".toList]

/-- The client recovers the page of the root and the bytes of the image. -/
theorem recovers_iff_framed_gallery :
    (Server.start (galleryLines.map lineSegment)).lines galleryWorld = galleryLines ∧
      RecoversMeant galleryWorld ((Server.start (galleryLines.map lineSegment)).lines galleryWorld)
        ((Server.start (galleryLines.map lineSegment)).run galleryWorld 2).conn.sent := by
  have hlines : (Server.start (galleryLines.map lineSegment)).lines galleryWorld = galleryLines :=
    lines_lineSegments rfl (by decide)
  refine ⟨hlines, (recovers_iff_framed _ _ 2 ?_ ?_).2 ?_⟩
  · rw [hlines]
    decide +kernel
  · rw [hlines]
    exact le_refl 2
  · rw [hlines]
    intro i line hline
    match i with
    | 0 =>
        cases hline
        refine ⟨"/".toList, .directory [⟨"a.png".toList, .file⟩, ⟨"b".toList, .directory⟩],
          by decide +kernel, ?_⟩
        show (utf8.encode _).length = _
        decide +kernel
    | 1 =>
        cases hline
        exact ⟨"/a.png".toList, .image [137, 80, 78, 71], by decide +kernel, trivial⟩
    | i + 2 => cases hline

/-- A text file, and a request for it: the client does not recover the page. -/
theorem textFile_not_recovered :
    (Server.start (oneLineSegments "GET /a.txt HTTP/1.1".toList)).lines
      (oneNodeWorld "/a.txt".toList (.file [104, 105] true)) = ["GET /a.txt HTTP/1.1".toList] ∧
    ¬RecoversMeant (oneNodeWorld "/a.txt".toList (.file [104, 105] true))
      ["GET /a.txt HTTP/1.1".toList]
      ((Server.start (oneLineSegments "GET /a.txt HTTP/1.1".toList)).run
        (oneNodeWorld "/a.txt".toList (.file [104, 105] true)) 1).conn.sent := by
  have hlines : (Server.start (oneLineSegments "GET /a.txt HTTP/1.1".toList)).lines
      (oneNodeWorld "/a.txt".toList (.file [104, 105] true)) = ["GET /a.txt HTTP/1.1".toList] :=
    lines_oneLineSegments rfl (by decide)
  have hget : ∀ line ∈ ["GET /a.txt HTTP/1.1".toList], IsGet line := by decide +kernel
  have hsent := run_answers (w := oneNodeWorld "/a.txt".toList (.file [104, 105] true))
    (s := Server.start (oneLineSegments "GET /a.txt HTTP/1.1".toList)) (n := 1) rfl
    (by rw [hlines]; exact requests_of_gets hget) (le_refl 1)
  refine ⟨hlines, ?_⟩
  rw [RecoversMeant, hsent]
  show ¬∃ bodies, _ ∧ Recovers ([] ++ answers _ 0 [] _) bodies
  rw [List.nil_append, recovers_answers_iff (headed_nil _)]
  intro h
  obtain ⟨path, target, htarget, hframed⟩ := h 0 _ rfl
  have htext : requestTarget ((oneNodeWorld "/a.txt".toList (.file [104, 105] true)).env 0)
      "GET /a.txt HTTP/1.1".toList = .ok ("/a.txt".toList, .textFile [104, 105] true) := by
    decide +kernel
  rw [Nat.zero_add, htext] at htarget
  cases htarget
  exact hframed

end ComputerNetworking.FileServer
