import ComputerNetworking.FileServer.Leaving
import ComputerNetworking.FileServer.Recovery

/-!
# What an answer keeps of earlier ones

`httpResponse` lives as long as the connection. Every branch that answers assigns
it, but the one of a missing target appends to it. So the answer to a request
depends on the requests before it exactly when its target is missing and one of
them was answered.
-/

set_option autoImplicit false

namespace ComputerNetworking.FileServer

open ComputerNetworking.Foundations

/-- The bytes sent in answer to a request on a connection with the given `httpResponse`. -/
def sentAnswer (cs : Charset) (env : Env) (httpResponse httpRequest : Text) :
    Option (List UInt8) :=
  match handleGet cs env httpResponse httpRequest with
  | .error _ => none
  | .ok reply => some reply.sent

/-- The request asks for something that does not exist. -/
def Missing (env : Env) (httpRequest : Text) : Prop :=
  ∃ path, requestTarget env httpRequest = .ok (path, .missing)

/-- None of the GET requests was answered, the first of them being the `k`-th of the
connection: each target was neither a file nor a directory. -/
def SilentFrom (w : World) (k : Nat) (qs : List Request) : Prop :=
  ∀ pre httpRequest post, qs = pre ++ .get httpRequest :: post →
    ∃ path, requestTarget (w.env (k + gets pre)) httpRequest = .ok (path, .special)

/-- The requests a connection has handled after `n` iterations that leave it open. -/
def history (w : World) (segs : List Segment) (n : Nat) : List Request :=
  (requests ((Server.start segs).lines w)).take n

section Answers

variable {cs : Charset} {env : Env} {old httpRequest : Text}

/-- The answer is the one of a new connection, unless the target is missing and
something was answered before. -/
theorem sentAnswer_eq_fresh_iff :
    sentAnswer cs env old httpRequest = sentAnswer cs env [] httpRequest ↔
      ¬Missing env httpRequest ∨ old = [] := by
  rw [sentAnswer, sentAnswer, handleGet, handleGet, Missing]
  cases htarget : requestTarget env httpRequest with
  | error e =>
      refine iff_of_true rfl (Or.inl ?_)
      rintro ⟨path, h⟩
      cases h
  | ok r =>
      obtain ⟨path, target⟩ := r
      by_cases hmissing : target = .missing
      · subst hmissing
        have hyes : ∃ p, (Except.ok (path, Target.missing) : Except JavaException _) =
            .ok (p, .missing) := ⟨path, rfl⟩
        simp only [hyes, not_true_eq_false, false_or, Option.some.injEq, answer, sentBytes,
          newResponse, List.append_assoc]
        -- the answer is the old text in front of the answer of a new connection
        rw [Charset.encode_append, List.nil_append, List.append_left_eq_self, cs.encode_eq_nil_iff]
      · refine iff_of_true ?_ (Or.inl ?_)
        · by_cases hspecial : target = .special
          · subst hspecial
            rfl
          · simp only [answer, newResponse_eq_of_ne_missing hmissing hspecial env.date old []]
        · rintro ⟨p, h⟩
          cases h
          exact hmissing rfl

theorem newResponse_eq_nil_iff {date : DateText} {path : Text} {target : Target} :
    newResponse cs date old path target = [] ↔ old = [] ∧ target = .special := by
  have hhead : ∀ {lines : List Text}, renderHead lines ≠ [] := by
    intro lines
    exact List.append_ne_nil_of_right_ne_nil _ (by decide)
  by_cases hspecial : target = .special
  · rw [hspecial]
    exact (and_iff_left rfl).symm
  apply iff_of_false
  · -- every other branch leaves at least one head
    intro hnil
    cases target with
    | directory entries => exact hhead hnil
    | textFile bytes readable => exact hhead hnil
    | image data => exact hhead hnil
    | download bytes readable => exact hhead hnil
    | special => exact hspecial rfl
    | missing => exact hhead (List.append_eq_nil_iff.1 hnil).2
  · rintro ⟨-, heq⟩
    exact hspecial heq

end Answers

section Histories

variable {w : World}

theorem silentFrom_nil (k : Nat) : SilentFrom w k [] := by
  intro pre httpRequest post hsplit
  exact absurd hsplit.symm (List.append_ne_nil_of_right_ne_nil pre (List.cons_ne_nil _ post))

/-- Requests are silent when the first is and those behind it are. -/
theorem silentFrom_cons_iff {k : Nat} {q : Request} {qs : List Request} :
    SilentFrom w k (q :: qs) ↔
      (∀ httpRequest, q = .get httpRequest →
        ∃ path, requestTarget (w.env k) httpRequest = .ok (path, .special)) ∧
      SilentFrom w (k + gets [q]) qs := by
  constructor
  · intro h
    constructor
    · intro httpRequest hget
      exact h [] httpRequest qs (by rw [hget]; rfl)
    · intro pre httpRequest post hsplit
      have hnext := h (q :: pre) httpRequest post (by rw [hsplit]; rfl)
      rwa [gets_cons q pre, ← Nat.add_assoc] at hnext
  · rintro ⟨hfirst, hrest⟩ pre httpRequest post hsplit
    cases pre with
    | nil => exact hfirst httpRequest (List.cons.inj hsplit).1
    | cons p pre =>
        obtain ⟨rfl, htail⟩ := List.cons.inj hsplit
        rw [gets_cons q pre, ← Nat.add_assoc]
        exact hrest pre httpRequest post htail

/-- One request leaves nothing stored exactly when nothing was, and it is no GET request
or one that is not answered. -/
theorem httpResponse_eq_nil_of_serve {c c' : Connection} {q : Request} (h : serve w c q = .ok c') :
    c'.httpResponse = [] ↔ c.httpResponse = [] ∧ ∀ httpRequest, q = .get httpRequest →
      ∃ path, requestTarget (w.env c.httpRequestCount) httpRequest = .ok (path, .special) := by
  cases q with
  | blank => cases h
  | bareUpload => cases h
  | other =>
      cases h
      refine (and_iff_left ?_).symm
      intro httpRequest hget
      cases hget
  | upload uploadFileName validMessage =>
      rw [httpResponse_of_upload h]
      refine (and_iff_left ?_).symm
      intro httpRequest hget
      cases hget
  | get line =>
      rw [serve, Connection.get, handleGet] at h
      cases htarget : requestTarget (w.env c.httpRequestCount) line with
      | error e =>
          rw [htarget] at h
          cases h
      | ok r =>
          obtain ⟨path, target⟩ := r
          rw [htarget] at h
          cases h
          show newResponse _ _ _ path target = [] ↔ _
          rw [newResponse_eq_nil_iff]
          apply and_congr_right'
          -- only a target that is neither file nor directory leaves the response alone
          constructor
          · rintro rfl httpRequest hget
            cases hget
            exact ⟨path, htarget⟩
          · intro hs
            obtain ⟨p, hp⟩ := hs line rfl
            rw [htarget] at hp
            cases hp
            rfl

/-- A connection has stored nothing exactly when it has answered nothing. -/
theorem httpResponse_eq_nil_iff {c c' : Connection} {qs : List Request}
    (h : runAll (serve w) c qs = .ok c') :
    c'.httpResponse = [] ↔ c.httpResponse = [] ∧ SilentFrom w c.httpRequestCount qs := by
  -- induction on the requests; the count of GET requests says what each of them finds
  induction qs generalizing c with
  | nil =>
      rw [runAll_nil, Except.ok.injEq] at h
      rw [h]
      exact (and_iff_left (silentFrom_nil _)).symm
  | cons q qs ih =>
      cases hq : serve w c q with
      | error e =>
          rw [runAll_cons_error hq] at h
          cases h
      | ok t =>
          rw [runAll_cons_ok hq] at h
          rw [ih h, httpResponse_eq_nil_of_serve hq, serve_count hq, silentFrom_cons_iff, and_assoc]

end Histories

/-- Two connections on which any lines were handled, each in a world of its own, and a
request that finds the same on both: it is answered on both as on a new
connection, so equally and without anything of an earlier answer, exactly when
its target is not missing or neither has answered before. -/
theorem answers_independent_iff (w₁ w₂ : World) (segs₁ segs₂ : List Segment) (n₁ n₂ : Nat)
    (hopen₁ : ((Server.start segs₁).run w₁ n₁).closed = false)
    (hopen₂ : ((Server.start segs₂).run w₂ n₂).closed = false)
    (cs : Charset) (env : Env) (httpRequest : Text) :
    (sentAnswer cs env ((Server.start segs₁).run w₁ n₁).conn.httpResponse httpRequest =
        sentAnswer cs env [] httpRequest ∧
      sentAnswer cs env ((Server.start segs₂).run w₂ n₂).conn.httpResponse httpRequest =
        sentAnswer cs env [] httpRequest) ↔
      ¬Missing env httpRequest ∨
        SilentFrom w₁ 0 (history w₁ segs₁ n₁) ∧ SilentFrom w₂ 0 (history w₂ segs₂ n₂) := by
  have hsilent : ∀ {w segs n}, ((Server.start segs).run w n).closed = false →
      (((Server.start segs).run w n).conn.httpResponse = [] ↔
        SilentFrom w 0 (history w segs n)) := by
    intro w segs n hopen
    rw [httpResponse_eq_nil_iff (Server.served_of_open (s := Server.start segs) rfl hopen)]
    exact and_iff_right rfl
  rw [sentAnswer_eq_fresh_iff, sentAnswer_eq_fresh_iff, hsilent hopen₁, hsilent hopen₂,
    ← or_and_left]

/-! ## Two histories -/

/-- A connection on which a missing file was asked for is open and has that history. -/
theorem missing_history :
    ((Server.start (oneLineSegments "GET /x HTTP/1.1".toList)).run emptyWorld 1).closed = false ∧
      history emptyWorld (oneLineSegments "GET /x HTTP/1.1".toList) 1 =
        [.get "GET /x HTTP/1.1".toList] := by
  have hlines : (Server.start (oneLineSegments "GET /x HTTP/1.1".toList)).lines emptyWorld =
      ["GET /x HTTP/1.1".toList] := lines_oneLineSegments rfl (by decide)
  have hrequests : requests ["GET /x HTTP/1.1".toList] = [.get "GET /x HTTP/1.1".toList] := by
    decide +kernel
  constructor
  · have hsplit : requests ((Server.start (oneLineSegments "GET /x HTTP/1.1".toList)).lines
        emptyWorld) = [.get "GET /x HTTP/1.1".toList] ++ [] := by
      rw [hlines, hrequests, List.append_nil]
    rcases runAll_cases (serve emptyWorld) Connection.start [.get "GET /x HTTP/1.1".toList] with
      ⟨c, hok⟩ | ⟨-, -, -, -, e, -, -, -, herr⟩
    · obtain ⟨hrun, -⟩ := Server.run_serves (s := Server.start _) rfl hsplit hok
      exact congrArg Server.closed hrun
    · exfalso
      rcases place_cons_iff.1 (runAll_serve_error_iff.1 ⟨e, herr⟩) with hleaves | hnone
      · obtain ⟨e', he'⟩ := requestTarget_error_iff.2 hleaves
        have htarget : requestTarget (emptyWorld.env 0) "GET /x HTTP/1.1".toList =
            .ok ("/x".toList, .missing) := by decide +kernel
        cases he'.symm.trans htarget
      · exact not_place_nil hnone
  · rw [history, hlines, hrequests]
    rfl

/-- After a request for a missing file, a directory is listed as on a new connection. -/
theorem answers_independent_iff_root :
    ((Server.start (oneLineSegments "GET /x HTTP/1.1".toList)).run emptyWorld 1).closed = false ∧
    (Server.start []).closed = false ∧
    sentAnswer utf8 ((oneNodeWorld "/".toList (.directory (some []))).env 0)
        ((Server.start (oneLineSegments "GET /x HTTP/1.1".toList)).run
          emptyWorld 1).conn.httpResponse
        "GET / HTTP/1.1".toList =
      sentAnswer utf8 ((oneNodeWorld "/".toList (.directory (some []))).env 0) []
        "GET / HTTP/1.1".toList := by
  refine ⟨missing_history.1, rfl, ?_⟩
  refine ((answers_independent_iff emptyWorld emptyWorld _ [] 1 0 missing_history.1 rfl _ _ _).2
    (Or.inl ?_)).1
  rintro ⟨path, hpath⟩
  have htarget : requestTarget ((oneNodeWorld "/".toList (.directory (some []))).env 0)
      "GET / HTTP/1.1".toList = .ok ("/".toList, .directory []) := by decide +kernel
  rw [htarget] at hpath
  cases hpath

/-- After a request for a missing file, another one is answered with both heads. -/
theorem secondMissing_repeats_first :
    sentAnswer utf8 (emptyWorld.env 1)
        ((Server.start (oneLineSegments "GET /x HTTP/1.1".toList)).run
          emptyWorld 1).conn.httpResponse
        "GET /y HTTP/1.1".toList ≠
      sentAnswer utf8 (emptyWorld.env 1)
        ((Server.start []).run emptyWorld 0).conn.httpResponse "GET /y HTTP/1.1".toList := by
  intro heq
  rcases sentAnswer_eq_fresh_iff.1 heq with hexists | hnil
  · apply hexists
    exact ⟨"/y".toList, by decide +kernel⟩
  · have hserved := Server.served_of_open (s := Server.start
      (oneLineSegments "GET /x HTTP/1.1".toList)) rfl missing_history.1
    obtain ⟨-, hsilent⟩ := (httpResponse_eq_nil_iff hserved).1 hnil
    obtain ⟨path, hpath⟩ := hsilent [] _ [] missing_history.2
    have htarget : requestTarget (emptyWorld.env 0) "GET /x HTTP/1.1".toList =
        .ok ("/x".toList, .missing) := by decide +kernel
    cases hpath.symm.trans htarget

end ComputerNetworking.FileServer
