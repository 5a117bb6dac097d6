import ComputerNetworking.Foundations.RelativePath
import ComputerNetworking.FileServer.JavaText

/-!
# Paths of the file server

How `HttpFileServer.run` makes the path of a file from a request, and how the
file system resolves it: both separators split a path, empty parts and `.` are
skipped, `..` goes up and stays at the drive.
-/

set_option autoImplicit false

namespace ComputerNetworking.FileServer

open ComputerNetworking.Foundations

/-- `SERVER_DIRECTORY`. -/
def serverDirectory : Text :=
  "D:\\Varsity\\Courses\\3-2\\CSE 322\\Socket Programming".toList

/-- The path of a request line: its second field, with `%20` for a space. -/
def requestPath (httpRequest : Text) : Option Text :=
  (javaSplit ' ' httpRequest)[1]?.map replaceSpaces

/-- `absolutePath` for a request path: the parts between slashes, joined by `\`. -/
def absolutePath (path : Text) : Text :=
  serverDirectory ++ (javaSplit '/' (stripSlash path)).flatMap fun name => '\\' :: name

/-- Where an upload of the given name is written. -/
def uploadPath (uploadFileName : Text) : Text :=
  serverDirectory ++ "\\root\\uploaded\\".toList ++ uploadFileName

/-! ## Resolution -/

/-- Both separators. -/
def isSeparator (c : Char) : Bool := c == '/' || c == '\\'

/-- The parts of a path that mean something. -/
def pathParts (t : Text) : List Text :=
  (t.splitOnP isSeparator).filter fun part => !(part.isEmpty || part == ['.'])

/-- A part as a step. -/
def toStep (part : Text) : PathStep Text := if part = ['.', '.'] then .up else .name part

/-- The steps of a path. -/
def pathSteps (t : Text) : List (PathStep Text) := (pathParts t).map toStep

/-- The drive of an absolute path and the names that lead from it to the file. -/
def resolve (t : Text) : List Text :=
  match pathParts t with
  | [] => []
  | drive :: parts => drive :: walk [] (parts.map toStep)

section Resolution

@[simp] theorem pathParts_nil : pathParts [] = [] := rfl

/-- A separator splits the parts. -/
theorem pathParts_append_cons (t u : Text) {sep : Char} (hsep : isSeparator sep = true) :
    pathParts (t ++ sep :: u) = pathParts t ++ pathParts u := by
  rw [pathParts, List.splitOnP_append_cons t u hsep, List.filter_append]
  rfl

theorem pathParts_cons (u : Text) {sep : Char} (hsep : isSeparator sep = true) :
    pathParts (sep :: u) = pathParts u := by
  have h := pathParts_append_cons [] u hsep
  rwa [List.nil_append, pathParts_nil, List.nil_append] at h

/-- Joined names have the parts of the names. -/
theorem pathParts_join (t : Text) (names : List Text) :
    pathParts (t ++ names.flatMap fun name => '\\' :: name) =
      pathParts t ++ names.flatMap pathParts := by
  induction names generalizing t with
  | nil => rw [List.flatMap_nil, List.append_nil, List.flatMap_nil, List.append_nil]
  | cons name names ih =>
      rw [List.flatMap_cons, List.cons_append, pathParts_append_cons t _ (by decide), ih,
        List.flatMap_cons]

/-- Parts that are empty do not count, so those `split` drops at the end do not. -/
theorem flatMap_rdropWhile (parts : List Text) :
    (parts.rdropWhile List.isEmpty).flatMap pathParts = parts.flatMap pathParts := by
  induction parts using List.reverseRecOn with
  | nil => rfl
  | append_singleton parts part ih =>
      by_cases hpart : part.isEmpty = true
      · rw [List.rdropWhile_concat_pos _ _ _ hpart, ih, List.flatMap_append,
          List.isEmpty_iff.1 hpart]
        exact (List.append_nil _).symm
      · rw [List.rdropWhile_concat_neg _ _ _ hpart]

theorem flatMap_splitOn (t : Text) : (t.splitOn '/').flatMap pathParts = pathParts t := by
  have hinter : ∀ (first : Text) (parts : List Text),
      pathParts (['/'].intercalate (first :: parts)) = (first :: parts).flatMap pathParts := by
    intro first parts
    induction parts generalizing first with
    | nil =>
        rw [List.intercalate_singleton, List.flatMap_cons, List.flatMap_nil, List.append_nil]
    | cons second parts ih =>
        rw [List.intercalate_cons_cons, List.append_assoc, List.singleton_append,
          pathParts_append_cons _ _ (by decide), ih, List.flatMap_cons]
        rfl
  obtain ⟨first, parts, hsplit⟩ := List.exists_cons_of_ne_nil (List.splitOn_ne_nil '/' t)
  rw [hsplit, ← hinter first parts, ← hsplit, List.intercalate_splitOn]

/-- The file of a request path lies at the request path's own parts. -/
theorem pathParts_absolutePath (path : Text) :
    pathParts (absolutePath path) = pathParts serverDirectory ++ pathParts path := by
  have hstrip : pathParts (stripSlash path) = pathParts path := by
    fun_cases stripSlash path with
    | case1 t => exact (pathParts_cons t (by decide)).symm
    | case2 => rfl
  rw [absolutePath, pathParts_join, ← hstrip]
  congr 1
  rcases javaSplit_eq '/' (stripSlash path) with ⟨heq, -⟩ | ⟨heq, -⟩
  · rw [heq, List.flatMap_cons, List.flatMap_nil, List.append_nil]
  · rw [heq, flatMap_rdropWhile, flatMap_splitOn]

end Resolution

/-! ## Directories and what lies below them -/

/-- A directory by its path, which names its drive and then only entries. -/
structure Directory where
  path : Text
  drive : Text
  dirs : List Text
  parts_eq : pathParts path = drive :: dirs
  proper : dirs.map toStep = dirs.map PathStep.name

/-- `SERVER_DIRECTORY` as a directory. -/
def serverDir : Directory where
  path := serverDirectory
  drive := "D:".toList
  dirs := ["Varsity".toList, "Courses".toList, "3-2".toList, "CSE 322".toList,
    "Socket Programming".toList]
  parts_eq := by decide +kernel
  proper := by decide +kernel

/-- The directory uploads are meant for. -/
def uploadDir : Directory where
  path := serverDirectory ++ "\\root\\uploaded".toList
  drive := "D:".toList
  dirs := serverDir.dirs ++ ["root".toList, "uploaded".toList]
  parts_eq := by decide +kernel
  proper := by decide +kernel

/-- A path resolves to a directory or to something below it. -/
def Directory.Holds (d : Directory) (t : Text) : Prop := resolve d.path <+: resolve t

/-- A relative path that leaves some levels of a directory enters their names again. -/
def Directory.Reenters (d : Directory) (rel : Text) : Prop :=
  d.dirs.drop (d.dirs.length - (reach (pathSteps rel)).ups) <+: (reach (pathSteps rel)).names

instance (d : Directory) (t : Text) : Decidable (d.Holds t) :=
  inferInstanceAs (Decidable (resolve d.path <+: resolve t))

instance (d : Directory) (rel : Text) : Decidable (d.Reenters rel) :=
  inferInstanceAs (Decidable (_ <+: _))

theorem walk_names (names : List Text) : walk [] (names.map PathStep.name) = names := by
  rw [walk_eq_apply, reach_of_names]
  rfl

/-- A path made of a directory and further parts is walked from the directory. -/
theorem Directory.resolve_eq (d : Directory) {t : Text} {parts : List Text}
    (h : pathParts t = pathParts d.path ++ parts) :
    resolve t = d.drive :: walk d.dirs (parts.map toStep) := by
  rw [resolve, h, d.parts_eq]
  show d.drive :: walk [] ((d.dirs ++ parts).map toStep) = _
  rw [List.map_append, d.proper, walk_append, walk_names]

/-- A path made of a directory and a relative path stays in the directory exactly
when the relative path enters again what it leaves. -/
theorem Directory.holds_iff (d : Directory) {t rel : Text}
    (h : pathParts t = pathParts d.path ++ pathParts rel) : d.Holds t ↔ d.Reenters rel := by
  have hbase : resolve d.path = d.drive :: d.dirs := d.resolve_eq (List.append_nil _).symm
  have hfile : resolve t = d.drive :: walk d.dirs (pathSteps rel) := d.resolve_eq h
  rw [Holds, hbase, hfile, List.cons_prefix_cons, below_walk_iff]
  exact and_iff_right rfl

/-- Where the file of a GET lies. -/
theorem serverDir_holds_iff (path : Text) :
    serverDir.Holds (absolutePath path) ↔ serverDir.Reenters path :=
  serverDir.holds_iff (pathParts_absolutePath path)

/-- Where the file of an UPLOAD lies. -/
theorem uploadDir_holds_iff (uploadFileName : Text) :
    uploadDir.Holds (uploadPath uploadFileName) ↔ uploadDir.Reenters uploadFileName := by
  apply uploadDir.holds_iff
  have hsplit : uploadPath uploadFileName = uploadDir.path ++ '\\' :: uploadFileName := by
    show serverDirectory ++ "\\root\\uploaded\\".toList ++ uploadFileName =
      serverDirectory ++ "\\root\\uploaded".toList ++ '\\' :: uploadFileName
    rw [List.append_assoc, List.append_assoc]
    rfl
  rw [hsplit, pathParts_append_cons _ _ (by decide)]

/-- A relative path without `..` stays in every directory. -/
theorem Directory.reenters_of_no_up (d : Directory) {rel : Text}
    (h : ∀ part ∈ pathParts rel, part ≠ ['.', '.']) : d.Reenters rel := by
  have hsteps : pathSteps rel = (pathParts rel).map PathStep.name :=
    List.map_congr_left fun part hpart => if_neg (h part hpart)
  rw [Reenters, hsteps, reach_of_names, Nat.sub_zero, List.drop_length]
  exact List.nil_prefix

end ComputerNetworking.FileServer
