import ComputerNetworking.FileServer.Handler
import ComputerNetworking.Foundations.Runs

/-!
# The loop of a connection

`HttpFileServer.run` on one connection. An iteration reads a line, and another
one for an UPLOAD, through the buffered reader; the bytes of an uploaded file are
read from the socket directly, behind the reader's back. The loop is left by the
`break` after an upload and by the exceptions its `catch` sees; both end in
`closeConnection`.
-/

set_option autoImplicit false

namespace ComputerNetworking.FileServer

open ComputerNetworking.Foundations

/-- What a connection meets outside: the encoding, what each GET finds, the files a
`FileOutputStream` opens, and the number of bytes the disk has room for. -/
structure World where
  charset : Charset
  env : Nat → Env
  opens : Text → Bool
  room : Nat

/-- What the handler keeps of a connection: the field `httpResponse`, the count of its GET
requests, the bytes written to the socket for each request and the log files. -/
structure Connection where
  httpResponse : Text
  httpRequestCount : Nat
  sent : List (List UInt8)
  logs : List Text
  deriving DecidableEq

/-- A new connection. -/
def Connection.start : Connection := ⟨[], 0, [], []⟩

/-- Why the loop is left: an exception, or the `break` behind a received file. -/
inductive Exit where
  | thrown (e : JavaException)
  | receives (path : Text)
  deriving DecidableEq, Repr

namespace Connection

/-- A GET request. -/
def get (w : World) (c : Connection) (httpRequest : Text) : Except Exit Connection :=
  match handleGet w.charset (w.env c.httpRequestCount) c.httpResponse httpRequest with
  | .error e => .error (.thrown e)
  | .ok reply =>
      .ok ⟨reply.httpResponse, c.httpRequestCount + 1, c.sent ++ [reply.sent],
        c.logs ++ [reply.log]⟩

/-- The extensions the server accepts. -/
def uploadExtensions : List Text :=
  ["txt".toList, "jpg".toList, "jpeg".toList, "png".toList, "mp4".toList]

/-- An UPLOAD request and the answer `valid` or `invalid` that follows it; none when the
stream ends before. -/
def upload (w : World) (c : Connection) (uploadFileName : Text) (validMessage : Option Text) :
    Except Exit Connection :=
  match validMessage with
  -- `validMessage.equals` of `null`
  | none => .error (.thrown .nullPointer)
  | some message =>
      if message = "valid".toList then
        match extension uploadFileName with
        | none => .error (.thrown .arrayIndexOutOfBounds)
        | some fileExt =>
            if fileExt ∈ uploadExtensions then
              if w.opens (uploadPath uploadFileName) then
                .error (.receives (uploadPath uploadFileName))
              else
                -- the exception is caught inside the loop
                .ok c
            else
              .ok { c with
                sent := c.sent ++ [w.charset.encode "Invalid file format. Upload failed".toList] }
      else .ok c

end Connection

/-- A file an upload has created or overwritten, and whether the server reports it as
received, on its console: the message to the client goes to a socket that is closed. -/
structure Upload where
  path : Text
  bytes : List UInt8
  reported : Bool
  deriving DecidableEq

/-- `readFileFromClient`: the bytes that are still in the socket are written, as far as the
disk has room; a write that fails ends it before it reports. -/
def readFileFromClient (w : World) (path : Text) (segs : List Segment) : Upload :=
  let bytes := streamBytes segs
  ⟨path, bytes.take w.room, bytes.length ≤ w.room⟩

/-- One connection: its reader, what the handler keeps, the file it has received, and
whether `closeConnection` has been called. -/
structure Server where
  reader : Reader
  conn : Connection
  uploaded : Option Upload
  closed : Bool

namespace Server

/-- The server when a client has connected that sends the given segments. -/
def start (segs : List Segment) : Server := ⟨Reader.start segs, Connection.start, none, false⟩

/-- The connection goes on, or is closed for one of the two reasons. -/
def finish (w : World) (s : Server) (reader : Reader) : Except Exit Connection → Server
  | .ok c => { s with reader := reader, conn := c }
  | .error (.thrown _) => { s with reader := reader, closed := true }
  | .error (.receives path) =>
      { s with
        reader := { reader with segments := [] }
        uploaded := some (readFileFromClient w path reader.segments)
        closed := true }

/-- One iteration of the loop. -/
def advance (w : World) (s : Server) : Server :=
  if s.closed then s
  else
    match s.reader.readLine with
    -- `null` is ignored, and the loop goes round
    | (none, reader) => { s with reader := reader }
    | (some line, reader) =>
        let httpRequest := w.charset.decode line
        match javaSplit ' ' httpRequest with
        -- spaces only: there is no `spaceSplitRequest[0]`
        | [] => s.finish w reader (.error (.thrown .arrayIndexOutOfBounds))
        | word :: _ =>
            if word = "GET".toList then s.finish w reader (s.conn.get w httpRequest)
            else if word = "UPLOAD".toList then
              -- `substring(7)` of a line that is `UPLOAD` alone
              if httpRequest.length < 7 then
                s.finish w reader (.error (.thrown .stringIndexOutOfBounds))
              else
                let uploadFileName := httpRequest.drop 7
                let (answer, reader) := reader.readLine
                s.finish w reader
                  (s.conn.upload w uploadFileName (answer.map w.charset.decode))
            else
              -- `Invalid request`
              { s with reader := reader }

/-- The state after a number of iterations. -/
def run (w : World) : Nat → Server → Server
  | 0, s => s
  | n + 1, s => run w n (advance w s)

/-- The lines the handler has not read yet, as texts. -/
def lines (w : World) (s : Server) : List Text := s.reader.lines.map w.charset.decode

end Server

end ComputerNetworking.FileServer
