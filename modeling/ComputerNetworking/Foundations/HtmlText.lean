import Mathlib.Tactic

/-!
# Lines of text in an HTML page

A page shows lines by putting each in front of a break. `readLines` undoes this: it cuts
the source at the breaks and reads every piece as HTML text, where tags and comments show
nothing and a character reference shows its characters. What HTML itself knows about them
is an `HtmlReader`. A piece is read as it stands exactly when it is `PlainText`, so the
lines come back, with nothing behind them, exactly when all of them are plain
(`readLines_render_eq_append_iff`).
-/

set_option autoImplicit false

namespace ComputerNetworking.Foundations

/-- What HTML knows: the characters and the length of the character reference that begins
behind an ampersand, and how far the markup goes that begins behind a less-than sign. -/
structure HtmlReader where
  reference : List Char → Option (List Char × ℕ)
  markupLength : List Char → ℕ
  reference_le : ∀ t chars n, reference t = some (chars, n) → chars.length ≤ n ∧ n ≤ t.length

/-- Whether a less-than sign in front of these characters opens a tag, a comment or a
declaration. -/
def opensMarkup : List Char → Bool
  | [] => false
  | ['/'] => false
  | c :: _ => c.isAlpha || c == '/' || c == '!' || c == '?'

namespace HtmlReader

variable (html : HtmlReader)

/-- The text of a piece of source, of which the first characters are still markup. -/
def readText : ℕ → List Char → List Char
  | _, [] => []
  | skip + 1, _ :: t => readText skip t
  | 0, c :: t =>
      if c = '<' then
        if opensMarkup t then readText (html.markupLength t) t else c :: readText 0 t
      else if c = '&' then
        match html.reference t with
        | some (chars, n) => chars ++ readText n t
        | none => c :: readText 0 t
      -- the null character is ignored
      else if c = '\x00' then readText 0 t
      else c :: readText 0 t

/-- A text that HTML reads as it stands. -/
def PlainText : List Char → Prop
  | [] => True
  | c :: t => (c = '<' → opensMarkup t = false) ∧ (c = '&' → html.reference t = none) ∧
      c ≠ '\x00' ∧ PlainText t

end HtmlReader

/-- The pieces of a source between its breaks, where a line feed right behind a break
belongs to it; `acc` has been read of the first. -/
def splitBreaks (acc : List Char) : List Char → List (List Char)
  | '<' :: 'b' :: 'r' :: '>' :: '\n' :: t => acc :: splitBreaks [] t
  | '<' :: 'b' :: 'r' :: '>' :: t => acc :: splitBreaks [] t
  | c :: t => splitBreaks (acc ++ [c]) t
  | [] => if acc = [] then [] else [acc]

/-- The lines in front of the breaks of a source, and the text behind the last one. -/
def HtmlReader.readLines (html : HtmlReader) (source : List Char) : List (List Char) :=
  (splitBreaks [] source).map (html.readText 0)

/-- The source of a break and the line feed behind it. -/
def lineBreak : List Char := ['<', 'b', 'r', '>', '\n']

/-- A line feed behind a break behind every line. -/
def renderLines (lines : List (List Char)) : List Char := lines.flatMap (· ++ lineBreak)

/-! ## Reading one piece -/

namespace HtmlReader

variable {html : HtmlReader} {t : List Char}

theorem readText_zero_cons (c : Char) (t : List Char) : html.readText 0 (c :: t) =
    if c = '<' then
      if opensMarkup t then html.readText (html.markupLength t) t else c :: html.readText 0 t
    else if c = '&' then
      match html.reference t with
      | some (chars, n) => chars ++ html.readText n t
      | none => c :: html.readText 0 t
    else if c = '\x00' then html.readText 0 t
    else c :: html.readText 0 t := rfl

/-- What is skipped does not come back. -/
theorem length_readText_le (html : HtmlReader) (skip : ℕ) (t : List Char) :
    (html.readText skip t).length ≤ t.length - skip := by
  induction t generalizing skip with
  | nil => simp [readText]
  | cons c t ih =>
      cases skip with
      | succ skip =>
          rw [readText, List.length_cons, Nat.add_sub_add_right]
          exact ih skip
      | zero =>
          have hkept : (c :: html.readText 0 t).length ≤ (c :: t).length := by
            rw [List.length_cons, List.length_cons]
            have := ih 0
            omega
          have hskipped : ∀ n, (html.readText n t).length ≤ (c :: t).length := by
            intro n
            rw [List.length_cons]
            have := ih n
            omega
          rw [readText_zero_cons, Nat.sub_zero]
          split
          · split
            · exact hskipped _
            · exact hkept
          · split
            · split
              · next chars n href =>
                  -- a reference is not shorter than what it stands for
                  obtain ⟨hchars, hn⟩ := html.reference_le t chars n href
                  have := ih n
                  rw [List.length_append, List.length_cons]
                  omega
              · exact hkept
            · split
              · exact hskipped 0
              · exact hkept

/-- A plain text is read as it stands, and any other is read as a shorter one. -/
theorem readText_cases (html : HtmlReader) (t : List Char) :
    html.PlainText t ∧ html.readText 0 t = t ∨
      ¬html.PlainText t ∧ (html.readText 0 t).length < t.length := by
  induction t with
  | nil => exact Or.inl ⟨trivial, rfl⟩
  | cons c t ih =>
      have hkept : html.readText 0 (c :: t) = c :: html.readText 0 t →
          (html.PlainText (c :: t) ↔ html.PlainText t) →
          html.PlainText (c :: t) ∧ html.readText 0 (c :: t) = c :: t ∨
            ¬html.PlainText (c :: t) ∧ (html.readText 0 (c :: t)).length < (c :: t).length := by
        intro hread hplain
        rw [hread, hplain, List.length_cons, List.length_cons, Nat.add_lt_add_iff_right,
          List.cons_inj_right]
        exact ih
      have hskipped : ∀ n, (html.readText n t).length < (c :: t).length := by
        intro n
        have := length_readText_le html n t
        rw [List.length_cons]
        omega
      by_cases hlt : c = '<'
      · subst hlt
        by_cases hopen : opensMarkup t = true
        · right
          rw [readText_zero_cons, if_pos rfl, if_pos hopen]
          refine ⟨?_, hskipped _⟩
          rintro ⟨hno, -⟩
          rw [hno rfl] at hopen
          cases hopen
        · rw [Bool.not_eq_true] at hopen
          apply hkept
          · rw [readText_zero_cons, if_pos rfl, hopen]
            rfl
          · constructor
            · exact fun h => h.2.2.2
            · exact fun h => ⟨fun _ => hopen, fun hc => absurd hc (by decide), by decide, h⟩
      · by_cases hamp : c = '&'
        · subst hamp
          cases href : html.reference t with
          | some r =>
              obtain ⟨chars, n⟩ := r
              obtain ⟨hchars, hn⟩ := html.reference_le t chars n href
              right
              constructor
              · rintro ⟨-, hno, -⟩
                rw [hno rfl] at href
                cases href
              · have := length_readText_le html n t
                rw [readText_zero_cons, if_neg (by decide), if_pos rfl, href]
                simp only [List.length_append, List.length_cons]
                omega
          | none =>
              apply hkept
              · rw [readText_zero_cons, if_neg (by decide), if_pos rfl, href]
              · constructor
                · exact fun h => h.2.2.2
                · exact fun h => ⟨fun hc => absurd hc (by decide), fun _ => href, by decide, h⟩
        · by_cases hnull : c = '\x00'
          · right
            rw [readText_zero_cons, if_neg hlt, if_neg hamp, if_pos hnull]
            exact ⟨fun h => h.2.2.1 hnull, hskipped 0⟩
          · apply hkept
            · rw [readText_zero_cons, if_neg hlt, if_neg hamp, if_neg hnull]
            · constructor
              · exact fun h => h.2.2.2
              · exact fun h => ⟨fun hc => absurd hc hlt, fun hc => absurd hc hamp, hnull, h⟩

end HtmlReader

/-! ## Cutting at the breaks -/

/-- The pieces of a line that has breaks of its own. -/
def linePieces (acc : List Char) : List Char → List (List Char)
  | '<' :: 'b' :: 'r' :: '>' :: t => acc :: linePieces [] t
  | c :: t => linePieces (acc ++ [c]) t
  | [] => [acc]

/-- The characters of some lines. -/
def totalLength (lines : List (List Char)) : ℕ := (lines.map List.length).sum

section Breaks

variable {html : HtmlReader} {acc line : List Char} {lines : List (List Char)}

@[simp] theorem totalLength_nil : totalLength [] = 0 := rfl

@[simp] theorem totalLength_cons (line : List Char) (lines : List (List Char)) :
    totalLength (line :: lines) = line.length + totalLength lines := rfl

@[simp] theorem totalLength_append (lines more : List (List Char)) :
    totalLength (lines ++ more) = totalLength lines + totalLength more := by
  rw [totalLength, List.map_append, List.sum_append]
  rfl

theorem splitBreaks_lineBreak (acc t : List Char) :
    splitBreaks acc (lineBreak ++ t) = acc :: splitBreaks [] t := rfl

/-- A line is cut on its own, as a break does not overlap with the next. -/
theorem splitBreaks_append (h : '\n' ∉ line) (rest : List Char) :
    splitBreaks acc (line ++ (lineBreak ++ rest)) = linePieces acc line ++ splitBreaks [] rest := by
  fun_induction linePieces acc line with
  | case1 acc t ih =>
      have ht : '\n' ∉ t := fun hmem => h (by simp [hmem])
      rw [List.cons_append, List.cons_append, List.cons_append, List.cons_append, List.cons_append,
        ← ih ht]
      cases t with
      | nil => rfl
      | cons c t =>
          -- no line feed follows, so the break takes nothing of the line
          have hc : c ≠ '\n' := fun hc => ht (hc ▸ List.mem_cons_self)
          simp only [List.cons_append]
          rw [splitBreaks]
          intro t' heq
          exact hc (List.cons.inj heq).1
  | case2 acc c t hno ih =>
      have ht : '\n' ∉ t := fun hmem => h (List.mem_cons_of_mem c hmem)
      rw [List.cons_append, ← ih ht]
      -- the line ends before a break that it would have begun
      have hbreak : ∀ u, c = '<' → t ++ (lineBreak ++ rest) = 'b' :: 'r' :: '>' :: u → False := by
        intro u hc heq
        rcases t with - | ⟨c₁, - | ⟨c₂, - | ⟨c₃, t⟩⟩⟩
        · cases heq
        · cases heq
        · cases heq
        · simp only [List.cons_append, List.cons.injEq] at heq
          obtain ⟨rfl, rfl, rfl, -⟩ := heq
          exact hno t hc rfl
      rw [splitBreaks]
      · exact fun u hc heq => hbreak _ hc heq
      · exact hbreak
  | case3 acc => exact splitBreaks_lineBreak acc rest

/-- A plain line has no break of its own. -/
theorem linePieces_of_plain (h : html.PlainText line) : linePieces acc line = [acc ++ line] := by
  fun_induction linePieces acc line with
  | case1 acc t ih =>
      have hopen : opensMarkup ('b' :: 'r' :: '>' :: t) = true := rfl
      rw [h.1 rfl] at hopen
      cases hopen
  | case2 acc c t hno ih =>
      rw [ih h.2.2.2, List.append_assoc]
      rfl
  | case3 acc => rw [List.append_nil]

/-- Only a line without a break of its own is one piece with all its characters. -/
theorem linePieces_cases (acc line : List Char) :
    linePieces acc line = [acc ++ line] ∨
      totalLength (linePieces acc line) < acc.length + line.length := by
  fun_induction linePieces acc line with
  | case1 acc t ih =>
      right
      have hle : totalLength (linePieces [] t) ≤ t.length := by
        rcases ih with heq | hlt
        · rw [heq, totalLength_cons, List.nil_append]
          exact le_refl _
        · rw [List.length_nil, Nat.zero_add] at hlt
          exact hlt.le
      rw [totalLength_cons]
      simp only [List.length_cons]
      omega
  | case2 acc c t hno ih =>
      rw [List.append_assoc, List.length_append, List.length_singleton] at ih
      rw [List.length_cons, Nat.add_comm t.length, ← Nat.add_assoc]
      exact ih
  | case3 acc => exact Or.inl (by rw [List.append_nil])

theorem totalLength_map_readText_le (html : HtmlReader) (pieces : List (List Char)) :
    totalLength (pieces.map (html.readText 0)) ≤ totalLength pieces := by
  induction pieces with
  | nil => exact le_refl _
  | cons piece pieces ih =>
      have hpiece := HtmlReader.length_readText_le html 0 piece
      rw [List.map_cons, totalLength_cons, totalLength_cons]
      omega

/-- A plain line is read as the line it is, and any other as less than that. -/
theorem read_linePieces_cases (html : HtmlReader) (line : List Char) :
    html.PlainText line ∧ (linePieces [] line).map (html.readText 0) = [line] ∨
      ¬html.PlainText line ∧
        totalLength ((linePieces [] line).map (html.readText 0)) < line.length := by
  rcases linePieces_cases [] line with heq | hlt
  · rw [heq, List.nil_append, List.map_singleton]
    rcases html.readText_cases line with ⟨hplain, hread⟩ | ⟨hplain, hread⟩
    · exact Or.inl ⟨hplain, by rw [hread]⟩
    · refine Or.inr ⟨hplain, ?_⟩
      simpa using hread
  · rw [List.length_nil, Nat.zero_add] at hlt
    refine Or.inr ⟨?_, (totalLength_map_readText_le html _).trans_lt hlt⟩
    intro hplain
    rw [linePieces_of_plain hplain, List.nil_append, totalLength_cons] at hlt
    exact lt_irrefl _ hlt

/-! ## A page of lines -/

theorem readLines_renderLines_cons (h : '\n' ∉ line) (lines : List (List Char)) :
    html.readLines (renderLines (line :: lines)) =
      (linePieces [] line).map (html.readText 0) ++ html.readLines (renderLines lines) := by
  rw [HtmlReader.readLines, renderLines, List.flatMap_cons, List.append_assoc,
    splitBreaks_append h, List.map_append]
  rfl

/-- Plain lines are read back, and others as fewer characters. -/
theorem readLines_renderLines_cases (html : HtmlReader) (h : ∀ line ∈ lines, '\n' ∉ line) :
    (∀ line ∈ lines, html.PlainText line) ∧ html.readLines (renderLines lines) = lines ∨
      (¬∀ line ∈ lines, html.PlainText line) ∧
        totalLength (html.readLines (renderLines lines)) < totalLength lines := by
  induction lines with
  | nil => exact Or.inl ⟨fun line hline => absurd hline List.not_mem_nil, rfl⟩
  | cons line lines ih =>
      have hline := h line List.mem_cons_self
      have hlines := ih fun l hl => h l (List.mem_cons_of_mem line hl)
      rw [readLines_renderLines_cons hline, totalLength_append, totalLength_cons]
      simp only [List.forall_mem_cons]
      rcases read_linePieces_cases html line with ⟨hplain, hread⟩ | ⟨hplain, hread⟩
      · rcases hlines with ⟨hplains, hreads⟩ | ⟨hplains, hreads⟩
        · left
          rw [hread, hreads]
          exact ⟨⟨hplain, hplains⟩, rfl⟩
        · right
          rw [hread, totalLength_cons, totalLength_nil, Nat.add_zero, Nat.add_lt_add_iff_left]
          exact ⟨fun hall => hplains hall.2, hreads⟩
      · right
        refine ⟨fun hall => hplain hall.1, ?_⟩
        rcases hlines with ⟨-, hreads⟩ | ⟨-, hreads⟩
        · rw [hreads]
          omega
        · omega

/-- The lines of a page come back, and none behind them, exactly when all are plain. -/
theorem readLines_render_eq_append_iff (html : HtmlReader) (h : ∀ line ∈ lines, '\n' ∉ line)
    (more : List (List Char)) : html.readLines (renderLines lines) = lines ++ more ↔
      (∀ line ∈ lines, html.PlainText line) ∧ more = [] := by
  rcases readLines_renderLines_cases html h with ⟨hplain, hread⟩ | ⟨hplain, hread⟩
  · rw [hread, List.self_eq_append_right]
    exact (and_iff_right hplain).symm
  · apply iff_of_false
    · intro heq
      rw [heq, totalLength_append] at hread
      omega
    · exact fun hall => hplain hall.1

end Breaks

end ComputerNetworking.Foundations
