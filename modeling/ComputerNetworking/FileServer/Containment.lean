import ComputerNetworking.FileServer.Leaving

/-!
# The files a request reaches

A GET request looks at one file and an accepted UPLOAD writes one. Nothing in `run`
compares their paths with the directories they are meant for, so whether they
stay there is up to the request: exactly the paths stay that, however many levels
they go up, come back into the directories they have left.
-/

set_option autoImplicit false

namespace ComputerNetworking.FileServer

open ComputerNetworking.Foundations

/-- The file a request reaches: the directory it is meant to be in, the relative path the
request gives, and the path that is opened. -/
structure FileAccess where
  within : Directory
  relative : Text
  file : Text

/-- The file a request makes the server look at, list, send, create or overwrite. -/
def access : Request → Option FileAccess
  | .get httpRequest =>
      (requestPath httpRequest).map fun path => ⟨serverDir, path, absolutePath path⟩
  | .upload uploadFileName (some message) =>
      if message = "valid".toList ∧
          ∃ fileExt ∈ Connection.uploadExtensions, extension uploadFileName = some fileExt then
        some ⟨uploadDir, uploadFileName, uploadPath uploadFileName⟩
      else none
  | _ => none

/-- Two worlds in which a request meets the same, apart from files it does not reach. -/
structure AgreeOn (w w' : World) (k : Nat) (q : Request) : Prop where
  charset : w.charset = w'.charset
  date : (w.env k).date = (w'.env k).date
  logOpens : (w.env k).logOpens = (w'.env k).logOpens
  file : ∀ a ∈ access q,
    (w.env k).fs a.file = (w'.env k).fs a.file ∧ w.opens a.file = w'.opens a.file

/-- A request reaches no other file: what is done with it depends on that file only. -/
theorem serve_congr {w w' : World} {c : Connection} {q : Request}
    (h : AgreeOn w w' c.httpRequestCount q) : serve w c q = serve w' c q := by
  obtain ⟨hcharset, hdate, hlog, hfile⟩ := h
  cases q with
  | blank => rfl
  | bareUpload => rfl
  | other => rfl
  | get httpRequest =>
      have htarget := requestTarget_congr httpRequest hlog fun path hpath =>
        (hfile ⟨serverDir, path, absolutePath path⟩ (by rw [access, hpath]; rfl)).1
      rw [serve, serve, Connection.get, Connection.get, handleGet, handleGet, htarget, hcharset,
        hdate]
  | upload uploadFileName validMessage =>
      cases validMessage with
      | none => rfl
      | some message =>
          rw [serve, serve, Connection.upload, Connection.upload, hcharset]
          by_cases hvalid : message = "valid".toList
          · rw [if_pos hvalid, if_pos hvalid]
            cases hext : extension uploadFileName with
            | none => rfl
            | some fileExt =>
                by_cases hmem : fileExt ∈ Connection.uploadExtensions
                · have hopens := (hfile ⟨uploadDir, uploadFileName, uploadPath uploadFileName⟩
                    (by rw [access, if_pos ⟨hvalid, fileExt, hmem, hext⟩]; rfl)).2
                  simp only [if_pos hmem, hopens]
                · simp only [if_neg hmem]
          · rw [if_neg hvalid, if_neg hvalid]

/-- A file that is received is the one the request reaches. -/
theorem receives_access {w : World} {c : Connection} {q : Request} {path : Text}
    (h : serve w c q = .error (.receives path)) : ∃ a ∈ access q, a.file = path := by
  obtain ⟨uploadFileName, rfl, ⟨hext, -⟩, rfl⟩ := serve_receives_iff.1 h
  refine ⟨⟨uploadDir, uploadFileName, uploadPath uploadFileName⟩, ?_, rfl⟩
  rw [access, if_pos ⟨rfl, hext⟩]
  rfl

/-- For every request, the file it reaches lies in the directory it is meant to be in
exactly when the relative path enters again what it leaves; so it does whenever
the relative path has no part `..`. -/
theorem access_holds_iff (q : Request) (a : FileAccess) (h : access q = some a) :
    (a.within.Holds a.file ↔ a.within.Reenters a.relative) ∧
      ((∀ part ∈ pathParts a.relative, part ≠ ['.', '.']) → a.within.Holds a.file) := by
  have hiff : a.within.Holds a.file ↔ a.within.Reenters a.relative := by
    cases q with
    | blank => cases h
    | bareUpload => cases h
    | other => cases h
    | get httpRequest =>
        rw [access, Option.map_eq_some_iff] at h
        obtain ⟨path, -, rfl⟩ := h
        exact serverDir_holds_iff path
    | upload uploadFileName validMessage =>
        cases validMessage with
        | none => cases h
        | some message =>
            rw [access] at h
            split at h
            · cases h
              exact uploadDir_holds_iff uploadFileName
            · cases h
  exact ⟨hiff, fun hnames => hiff.2 (a.within.reenters_of_no_up hnames)⟩

/-- A path that goes up and comes back. -/
theorem access_holds_iff_back :
    ∃ a, access (.get "GET /../Socket%20Programming/a.txt HTTP/1.1".toList) = some a ∧
      a.within.Holds a.file := by
  refine ⟨⟨serverDir, "/../Socket Programming/a.txt".toList,
    absolutePath "/../Socket Programming/a.txt".toList⟩, rfl, ?_⟩
  refine (access_holds_iff (.get "GET /../Socket%20Programming/a.txt HTTP/1.1".toList) _ rfl).1.2 ?_
  decide +kernel

/-- A GET and an UPLOAD that reach files outside. -/
theorem dotDot_leaves_directory :
    (∃ a, access (.get "GET /../x HTTP/1.1".toList) = some a ∧
        a.within.path = serverDirectory ∧ ¬a.within.Holds a.file) ∧
      ∃ a, access (.upload "..\\..\\x.txt".toList (some "valid".toList)) = some a ∧
        a.within.path = serverDirectory ++ "\\root\\uploaded".toList ∧ ¬a.within.Holds a.file := by
  constructor
  · exact ⟨⟨serverDir, "/../x".toList, absolutePath "/../x".toList⟩, rfl, rfl, by decide +kernel⟩
  · refine ⟨⟨uploadDir, "..\\..\\x.txt".toList, uploadPath "..\\..\\x.txt".toList⟩, ?_, rfl,
      by decide +kernel⟩
    rw [access, if_pos ⟨rfl, "txt".toList, by decide, by decide +kernel⟩]

end ComputerNetworking.FileServer
