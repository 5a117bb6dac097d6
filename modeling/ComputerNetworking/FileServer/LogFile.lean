import ComputerNetworking.FileServer.Handler

/-!
# The log file of a request

Every branch of the GET request appends `httpResponse` to the log file, and most of them
send it. The image branch hands it to `writeImageFileOnBrowser`, which sends three lines of
its own instead, so the log file tells what was sent exactly when the target is no image
(`logAgrees_iff`).
-/

set_option autoImplicit false

namespace ComputerNetworking.FileServer

/-- The bytes that the branch of a target sends behind the status line and the headers. -/
def sentBehind (cs : Charset) (path : Text) (target : Target) : List UInt8 :=
  cs.encode (lineBehind target) ++ bodyBytes cs path target

/-- The log file holds the request line, the separator, and the status line and headers
that were sent. -/
def LogAgrees (cs : Charset) (httpRequest path : Text) (target : Target) (reply : Reply) : Prop :=
  ∃ head, reply.log = logStart httpRequest ++ head ∧
    reply.sent = cs.encode head ++ sentBehind cs path target

section Log

variable {cs : Charset} {env : Env} {old httpRequest path : Text} {target : Target}
  {reply : Reply}

theorem encode_renderHead_cons (cs : Charset) (line : Text) (lines : List Text) :
    cs.encode (renderHead (line :: lines)) =
      cs.encode line ++ (cs.encode crlf ++ cs.encode (renderHead lines)) := by
  rw [renderHead, List.flatMap_cons, List.append_assoc, List.append_assoc, Charset.encode_append,
    Charset.encode_append]
  rfl

/-- Heads differ whose second lines begin with different characters. -/
theorem encode_renderHead_ne (cs : Charset) (first line line' : Text) (lines lines' : List Text)
    {c d : Char} (hc : c.val < 128) (hd : d.val < 128) (hne : c.val.toUInt8 ≠ d.val.toUInt8) :
    cs.encode (renderHead (first :: (c :: line) :: lines)) ≠
      cs.encode (renderHead (first :: (d :: line') :: lines')) := by
  intro heq
  rw [encode_renderHead_cons cs first, encode_renderHead_cons cs first] at heq
  have hsecond := List.append_cancel_left (List.append_cancel_left heq)
  rw [encode_renderHead_cons cs (c :: line), encode_renderHead_cons cs (d :: line'),
    Charset.encode_cons cs c, Charset.encode_cons cs d, cs.encode_ascii c hc,
    cs.encode_ascii d hd] at hsecond
  exact hne (List.cons.inj hsecond).1

/-- The head of an image that is stored is not the one that is sent. -/
theorem encode_imageHead_ne (cs : Charset) (date : DateText) (length : Nat) :
    cs.encode (imageHead date length) ≠ cs.encode (renderHead (sentImageLines length)) := by
  have hserver : "Server: Java HTTP Server: 1.0".toList =
      'S' :: "erver: Java HTTP Server: 1.0".toList := by decide +kernel
  have htype : "Content-Type: image/png".toList = 'C' :: "ontent-Type: image/png".toList := by
    decide +kernel
  rw [imageHead, responseLines, sentImageLines, hserver, htype]
  exact encode_renderHead_ne cs _ _ _ _ _ (by decide) (by decide) (by decide)

/-- A branch that answers logs the head it sends, unless it sends an image. -/
theorem encode_sentHead_eq_iff (hanswered : target ≠ .special) (date : DateText) :
    cs.encode (newResponse cs date old path target) =
        cs.encode (sentHead (newResponse cs date old path target) target) ↔
      ∀ data, target ≠ .image data := by
  cases target with
  | image data => exact iff_of_false (encode_imageHead_ne cs date data.length) fun h => h data rfl
  | special => exact absurd rfl hanswered
  | _ => exact iff_of_true rfl (fun data => by simp)

/-- For every GET request that is answered, whatever the connection has stored before, the log
file tells what was sent exactly when the target is no image. -/
theorem logAgrees_iff (htarget : requestTarget env httpRequest = .ok (path, target))
    (hanswered : target ≠ .special) (hreply : handleGet cs env old httpRequest = .ok reply) :
    LogAgrees cs httpRequest path target reply ↔ ∀ data, target ≠ .image data := by
  rw [handleGet_of_target htarget] at hreply
  obtain rfl := Except.ok.inj hreply
  have hlog : ∀ response,
      logText httpRequest response target = logStart httpRequest ++ response := by
    intro response
    cases target with
    | special => exact absurd rfl hanswered
    | _ => rfl
  rw [← encode_sentHead_eq_iff hanswered env.date, LogAgrees]
  simp only [answer, hlog, sentBytes_eq, sentBehind, Charset.encode_append, List.append_assoc,
    List.append_cancel_left_eq, exists_eq_left', List.append_cancel_right_eq]
  exact eq_comm

end Log

/-- A disk with one image in the directory of the server, at some time. -/
def imageEnv : Env :=
  ⟨fun path => if path = absolutePath "/a.png".toList then some (.file [1, 2] true) else none,
    newYear, true⟩

theorem requestTarget_imageEnv :
    requestTarget imageEnv "GET /a.png HTTP/1.1".toList =
      .ok ("/a.png".toList, .image [1, 2]) := by decide +kernel

theorem requestTarget_missing :
    requestTarget imageEnv "GET /b.png HTTP/1.1".toList = .ok ("/b.png".toList, .missing) := by
  decide +kernel

/-- The request for an image that does not exist is logged as it is answered. -/
theorem logAgrees_iff_missing :
    LogAgrees utf8 "GET /b.png HTTP/1.1".toList "/b.png".toList .missing
      (answer utf8 newYear [] "GET /b.png HTTP/1.1".toList "/b.png".toList .missing) :=
  (logAgrees_iff requestTarget_missing (by decide) (handleGet_of_target requestTarget_missing)).2
    (fun data => by simp)

/-- The log file of an image tells of another head than the one that was sent. -/
theorem image_logged_otherwise :
    ¬∀ (cs : Charset) (env : Env) (old httpRequest path : Text) (target : Target) (reply : Reply),
      requestTarget env httpRequest = .ok (path, target) → target ≠ .special →
        handleGet cs env old httpRequest = .ok reply →
          LogAgrees cs httpRequest path target reply := by
  intro hall
  obtain ⟨head, hlog, hsent⟩ := hall utf8 imageEnv [] _ _ _ _ requestTarget_imageEnv
    (by decide) (handleGet_of_target requestTarget_imageEnv)
  have hhead : imageHead newYear 2 = head := List.append_cancel_left hlog
  have hbytes := List.append_cancel_right hsent
  rw [← hhead] at hbytes
  exact encode_imageHead_ne utf8 newYear 2 hbytes.symm

end ComputerNetworking.FileServer
