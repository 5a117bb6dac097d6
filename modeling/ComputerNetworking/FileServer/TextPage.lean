import ComputerNetworking.Foundations.HtmlText
import ComputerNetworking.FileServer.Handler

/-!
# The page of a text file

The page shows every line that the loop over the scanner reads, in front of a break. The
loop asks for a token and reads a line, so it stops at the blank lines a file ends with,
and the lines are put into the page as they are. Undoing the markup of the page gives the
lines of the file exactly when the last of them is not blank and all of them are plain text
for HTML (`textPage_faithful_iff`).
-/

set_option autoImplicit false

namespace ComputerNetworking.FileServer

open ComputerNetworking.Foundations

/-! ## The lines of a file -/

/-- The lines of a text with the separators that end them; `acc` has been read of the
first. -/
def lineParts (acc : Text) : Text → List (Text × Text)
  | [] => if acc = [] then [] else [(acc, [])]
  | '\r' :: '\n' :: t => (acc, ['\r', '\n']) :: lineParts [] t
  | c :: t =>
      if isLineSeparator c then (acc, [c]) :: lineParts [] t else lineParts (acc ++ [c]) t

/-- The lines of a text file. -/
def fileLines (t : Text) : List Text := (lineParts [] t).map Prod.fst

/-- What stands between the begin and the end of a page. -/
def pageBody (page : Text) : Text := (page.drop pageStart.length).rdrop pageEnd.length

/-- The last line of a text, if there is one, has a character that is no whitespace, or is
ended by one. -/
def EndsWithToken (t : Text) : Prop := ∀ p ∈ (lineParts [] t).getLast?, hasNext (p.1 ++ p.2)

section Lines

variable {acc t : Text}

theorem lineParts_flatten (acc t : Text) :
    (lineParts acc t).flatMap (fun p => p.1 ++ p.2) = acc ++ t := by
  fun_induction lineParts acc t with
  | case1 => rfl
  | case2 acc hacc => exact List.flatMap_singleton _ _
  | case3 acc t ih =>
      rw [List.flatMap_cons, ih, List.append_assoc]
      rfl
  | case4 acc c t hno hsep ih =>
      rw [List.flatMap_cons, ih, List.append_assoc]
      rfl
  | case5 acc c t hno hsep ih =>
      rw [ih, List.append_assoc]
      rfl

theorem lineParts_eq_nil_iff : lineParts acc t = [] ↔ acc ++ t = [] := by
  constructor
  · intro h
    rw [← lineParts_flatten acc t, h]
    rfl
  · intro h
    obtain ⟨rfl, rfl⟩ := List.append_eq_nil_iff.1 h
    rfl

/-- Where no token is left, no line has one. -/
theorem hasNext_part {p : Text × Text} (h : hasNext t = false) (hp : p ∈ lineParts [] t) :
    hasNext (p.1 ++ p.2) = false := by
  rw [hasNext, List.any_eq_false] at h ⊢
  intro c hc
  apply h c
  have hflat := lineParts_flatten [] t
  rw [List.nil_append] at hflat
  rw [← hflat]
  exact List.mem_flatMap.2 ⟨p, hp, hc⟩

/-- A separator ends a line, and what is behind it has lines of its own. -/
theorem getLast?_cons_lineParts (p : Text × Text) (h : t ≠ []) :
    (p :: lineParts [] t).getLast? = (lineParts [] t).getLast? := by
  have hne : lineParts [] t ≠ [] := fun hnil => h (lineParts_eq_nil_iff.1 hnil)
  rw [List.getLast?_cons, List.getLast?_eq_some_getLast hne]
  rfl

/-- The loop reads the first lines; it reads all of them when the last one has a token. -/
theorem scanLines_cases (h : hasNext (acc ++ t) = true) :
    ∃ missed, (lineParts acc t).map Prod.fst = scanLines acc t ++ missed ∧
      (missed = [] ↔ ∀ p ∈ (lineParts acc t).getLast?, hasNext (p.1 ++ p.2)) := by
  -- behind a separator the loop asks whether a token is left
  have hstep : ∀ (acc sep t : Text), hasNext (acc ++ (sep ++ t)) = true →
      (hasNext t = true → ∃ missed, (lineParts [] t).map Prod.fst = scanLines [] t ++ missed ∧
        (missed = [] ↔ ∀ p ∈ (lineParts [] t).getLast?, hasNext (p.1 ++ p.2))) →
      ∃ missed, acc :: (lineParts [] t).map Prod.fst =
          (acc :: if hasNext t then scanLines [] t else []) ++ missed ∧
        (missed = [] ↔ ∀ p ∈ ((acc, sep) :: lineParts [] t).getLast?, hasNext (p.1 ++ p.2)) := by
    intro acc sep t htoken ih
    by_cases hrest : hasNext t = true
    · have hne : t ≠ [] := by
        rintro rfl
        cases hrest
      obtain ⟨missed, hlines, hall⟩ := ih hrest
      rw [if_pos hrest, hlines, getLast?_cons_lineParts _ hne]
      exact ⟨missed, rfl, hall⟩
    · rw [if_neg hrest]
      refine ⟨(lineParts [] t).map Prod.fst, rfl, ?_⟩
      rw [List.map_eq_nil_iff, lineParts_eq_nil_iff, List.nil_append]
      rw [Bool.not_eq_true] at hrest
      constructor
      · rintro rfl p hp
        obtain rfl : (acc, sep) = p := Option.some.inj hp
        rwa [List.append_nil] at htoken
      · intro hall
        by_contra hne
        rw [getLast?_cons_lineParts _ hne] at hall
        have hparts : lineParts [] t ≠ [] := fun hnil => hne (lineParts_eq_nil_iff.1 hnil)
        have hlast := hall _ (List.getLast?_eq_some_getLast hparts)
        rw [hasNext_part hrest (List.getLast_mem hparts)] at hlast
        cases hlast
  fun_induction lineParts acc t with
  | case1 =>
      rw [List.append_nil] at h
      cases h
  | case2 acc hacc =>
      refine ⟨[], rfl, iff_of_true rfl ?_⟩
      rintro p hp
      obtain rfl : (acc, []) = p := Option.some.inj hp
      exact h
  | case3 acc t ih => exact hstep acc ['\r', '\n'] t h fun hrest => ih hrest
  | case4 acc c t hno hsep ih =>
      rw [scanLines, if_pos hsep]
      · exact hstep acc [c] t h fun hrest => ih hrest
      · exact hno
  | case5 acc c t hno hsep ih =>
      rw [scanLines, if_neg hsep]
      · apply ih
        rw [List.append_assoc]
        exact h
      · exact hno

/-- The lines of a file are those that the loop reads, and none more exactly when the last
one has a token. -/
theorem scannerLines_cases (t : Text) :
    ∃ missed, fileLines t = scannerLines t ++ missed ∧ (missed = [] ↔ EndsWithToken t) := by
  rw [scannerLines, fileLines]
  by_cases htoken : hasNext t = true
  · rw [if_pos htoken]
    exact scanLines_cases htoken
  · rw [if_neg htoken]
    rw [Bool.not_eq_true] at htoken
    refine ⟨_, rfl, ?_⟩
    rw [List.map_eq_nil_iff, EndsWithToken]
    constructor
    · intro hnil p hp
      rw [hnil] at hp
      cases hp
    · intro hall
      by_contra hne
      have hlast := hall _ (List.getLast?_eq_some_getLast hne)
      rw [hasNext_part htoken (List.getLast_mem hne)] at hlast
      cases hlast

theorem lf_not_mem_lineParts (hacc : '\n' ∉ acc) : ∀ p ∈ lineParts acc t, '\n' ∉ p.1 := by
  fun_induction lineParts acc t with
  | case1 => exact fun p hp => absurd hp List.not_mem_nil
  | case2 acc hne =>
      intro p hp
      rw [List.mem_singleton.1 hp]
      exact hacc
  | case3 acc t ih =>
      intro p hp
      rcases List.mem_cons.1 hp with rfl | hp
      · exact hacc
      · exact ih List.not_mem_nil p hp
  | case4 acc c t hno hsep ih =>
      intro p hp
      rcases List.mem_cons.1 hp with rfl | hp
      · exact hacc
      · exact ih List.not_mem_nil p hp
  | case5 acc c t hno hsep ih =>
      apply ih
      rw [List.mem_append, List.mem_singleton]
      rintro (hmem | rfl)
      · exact hacc hmem
      · exact hsep rfl

end Lines

/-! ## The page -/

theorem pageBody_page (body : Text) : pageBody (pageStart ++ body ++ pageEnd) = body := by
  rw [pageBody, List.append_assoc, List.drop_left, List.rdrop_eq_reverse_drop_reverse,
    List.reverse_append, ← @List.length_reverse _ pageEnd, List.drop_left, List.reverse_reverse]

/-- The body of the page is made of the lines that the loop reads. -/
theorem pageBody_textPage (cs : Charset) (bytes : List UInt8) (readable : Bool) :
    pageBody (textPage cs bytes readable) =
      renderLines (if readable then scannerLines (cs.decodeScanned bytes) else []) := by
  have hbreak : "<br>\n".toList = lineBreak := by decide
  rw [textPage, pageBody_page, hbreak]
  rfl

/-- For every file, HTML reader and encoding: undoing the markup of the page gives the lines
of the file exactly when the file opens and its last line has a token, or it has no line,
and all its lines are plain text for HTML. -/
theorem textPage_faithful_iff (html : HtmlReader) (cs : Charset) (bytes : List UInt8)
    (readable : Bool) :
    html.readLines (pageBody (textPage cs bytes readable)) = fileLines (cs.decodeScanned bytes) ↔
      (fileLines (cs.decodeScanned bytes) ≠ [] → readable = true) ∧
        EndsWithToken (cs.decodeScanned bytes) ∧
        ∀ line ∈ fileLines (cs.decodeScanned bytes), html.PlainText line := by
  rw [pageBody_textPage]
  generalize cs.decodeScanned bytes = t
  cases readable with
  | false =>
      rw [if_neg (by decide)]
      constructor
      · intro hread
        have hnone : fileLines t = [] := hread.symm
        refine ⟨fun hne => absurd hnone hne, ?_, ?_⟩
        · intro p hp
          rw [List.map_eq_nil_iff.1 hnone] at hp
          cases hp
        · rw [hnone]
          exact fun line hline => absurd hline List.not_mem_nil
      · rintro ⟨hopens, -⟩
        by_contra hne
        exact absurd (hopens (Ne.symm hne)) (by decide)
  | true =>
      -- a file that opens: the lines missed at the end, and those that are read
      obtain ⟨missed, hlines, hmissed⟩ := scannerLines_cases t
      have hlf : ∀ line ∈ scannerLines t, '\n' ∉ line := by
        intro line hline
        have hmem : line ∈ fileLines t := by
          rw [hlines]
          exact List.mem_append_left _ hline
        obtain ⟨p, hp, rfl⟩ := List.mem_map.1 hmem
        exact lf_not_mem_lineParts List.not_mem_nil p hp
      rw [if_pos rfl, ← hmissed, hlines, readLines_render_eq_append_iff html hlf]
      constructor
      · rintro ⟨hplain, rfl⟩
        rw [List.append_nil]
        exact ⟨fun _ => rfl, rfl, hplain⟩
      · rintro ⟨-, rfl, hplain⟩
        rw [List.append_nil] at hplain
        exact ⟨hplain, rfl⟩

/-- HTML with the references that escape its own characters, and tags up to their end. -/
def basicHtml : HtmlReader where
  reference t :=
    ([("lt;", "<"), ("gt;", ">"), ("amp;", "&"), ("quot;", "\"")].find? fun p =>
      p.1.toList.isPrefixOf t).map fun p => (p.2.toList, p.1.toList.length)
  markupLength t := (t.takeWhile (· ≠ '>')).length + 1
  reference_le := by
    intro t chars n h
    obtain ⟨p, hp, heq⟩ := Option.map_eq_some_iff.1 h
    obtain ⟨rfl, rfl⟩ := Prod.mk.inj heq
    have hfound : p.1.toList.isPrefixOf t = true :=
      List.find?_some (p := fun p : String × String => p.1.toList.isPrefixOf t) hp
    have hprefix := List.isPrefixOf_iff_prefix.1 hfound
    refine ⟨?_, hprefix.length_le⟩
    have hmem := List.mem_of_find?_eq_some hp
    simp only [List.mem_cons, List.not_mem_nil, or_false] at hmem
    rcases hmem with rfl | rfl | rfl | rfl <;> decide

/-- The page of a file of a line and a blank line shows one line. -/
theorem blankLine_not_shown : ¬∀ (html : HtmlReader) (cs : Charset) (bytes : List UInt8),
    html.readLines (pageBody (textPage cs bytes true)) = fileLines (cs.decodeScanned bytes) := by
  intro hall
  have htext : utf8.decodeScanned [97, 10, 10] = ['a', '\n', '\n'] := by decide +kernel
  have hread := hall basicHtml utf8 [97, 10, 10]
  rw [pageBody_textPage, htext, if_pos rfl] at hread
  have hshown : scannerLines ['a', '\n', '\n'] = [['a']] := by decide
  have hlines : fileLines ['a', '\n', '\n'] = [['a'], []] := by decide
  rw [hshown, hlines] at hread
  exact absurd hread (by decide)

end ComputerNetworking.FileServer
