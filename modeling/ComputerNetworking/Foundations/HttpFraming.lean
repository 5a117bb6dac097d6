import ComputerNetworking.Foundations.LineReader

/-!
# Framing by Content-Length

A client of a kept-open connection finds the end of a response from its bytes:
header lines up to the blank line, then as many bytes as the `Content-Length`
field says. `ResponseHead` is a head such a client can read, `readResponse` the
client, and `Recovers` says that it reads a stream of answers one by one.
-/

set_option autoImplicit false

namespace ComputerNetworking.Foundations

/-- The bytes of an ascii text. -/
def asciiBytes (t : List Char) : List UInt8 := t.map fun c => c.val.toUInt8

/-- The end of a header line. -/
def lineEnd : List UInt8 := [cr, lf]

/-! ## The client -/

/-- The header lines up to the blank line, the first of which begins with `acc`, and the
bytes behind it. -/
def headerLines (acc : List UInt8) : List UInt8 → Option (List (List UInt8) × List UInt8)
  | [] => none
  | [_] => none
  | b :: c :: rest =>
      if b = cr ∧ c = lf then
        -- a line without bytes is the blank line
        if acc = [] then some ([], rest)
        else (headerLines [] rest).map fun r => (acc :: r.1, r.2)
      else headerLines (acc ++ [b]) (c :: rest)

/-- A decimal number. -/
def parseDecimal (bs : List UInt8) : Option Nat :=
  if bs ≠ [] ∧ bs.all (fun b => 48 ≤ b ∧ b ≤ 57) then
    some (Nat.ofDigitChars 10 (bs.map fun b => Char.ofNat b.toNat) 0)
  else none

/-- What the field for the length of the body begins with. -/
def lengthField : List UInt8 := asciiBytes "Content-Length: ".toList

/-- The length of the body by the first field that gives one. -/
def contentLength : List (List UInt8) → Option Nat
  | [] => none
  | field :: fields =>
      if lengthField <+: field then parseDecimal (field.drop lengthField.length)
      else contentLength fields

/-- A status line. -/
def IsStatusLine (line : List UInt8) : Prop := asciiBytes "HTTP/".toList <+: line

instance (line : List UInt8) : Decidable (IsStatusLine line) :=
  inferInstanceAs (Decidable (_ <+: _))

/-- One response: its body and the bytes behind it. -/
def readResponse (stream : List UInt8) : Option (List UInt8 × List UInt8) :=
  match headerLines [] stream with
  | some (status :: fields, rest) =>
      if IsStatusLine status then
        match contentLength fields with
        | some n => if n ≤ rest.length then some (rest.take n, rest.drop n) else none
        | none => none
      else none
  | _ => none

/-- The client reads each of the answers in turn from the stream they make up, with the
given bodies, and is then exactly where the next answer begins. -/
def Recovers : List (List UInt8) → List (List UInt8) → Prop
  | [], [] => True
  | answer :: answers, body :: bodies =>
      readResponse (answer ++ answers.flatten) = some (body, answers.flatten) ∧
        Recovers answers bodies
  | [], _ :: _ => False
  | _ :: _, [] => False

/-! ## Heads it can read -/

/-- A status line and fields that give the length of the body. -/
structure ResponseHead where
  status : List UInt8
  fields : List (List UInt8)
  length : Nat
  isStatusLine : IsStatusLine status
  oneLine : ∀ line ∈ status :: fields, line ≠ [] ∧ OneLine line
  length_eq : contentLength fields = some length

/-- Header lines and the blank line behind them. -/
def headBytes (lines : List (List UInt8)) : List UInt8 := lines.flatMap (· ++ lineEnd) ++ lineEnd

/-- The bytes of a head. -/
def ResponseHead.bytes (h : ResponseHead) : List UInt8 := headBytes (h.status :: h.fields)

section Client

variable {line rest acc : List UInt8}

theorem headerLines_blank (rest : List UInt8) :
    headerLines [] (lineEnd ++ rest) = some ([], rest) := by
  show (if cr = cr ∧ lf = lf then (if ([] : List UInt8) = [] then _ else _) else _) = _
  rw [if_pos ⟨rfl, rfl⟩, if_pos rfl]
  rfl

theorem headerLines_line (h : OneLine line) (hne : acc ++ line ≠ []) :
    headerLines acc (line ++ (lineEnd ++ rest)) =
      (headerLines [] rest).map fun r => ((acc ++ line) :: r.1, r.2) := by
  induction line generalizing acc with
  | nil =>
      rw [List.append_nil] at hne ⊢
      show (if cr = cr ∧ lf = lf then (if acc = [] then _ else _) else _) = _
      rw [if_pos ⟨rfl, rfl⟩, if_neg hne]
      rfl
  | cons b line ih =>
      -- a byte of the line is no carriage return, so the client does not stop at it
      obtain ⟨hends, hline⟩ := oneLine_cons_iff.1 h
      have hb : b ≠ cr := by
        intro hcr
        rw [hcr] at hends
        exact absurd hends (by decide)
      have hcons : acc ++ [b] ++ line = acc ++ b :: line := by
        rw [List.append_assoc, List.singleton_append]
      have hne' : acc ++ [b] ++ line ≠ [] := by rwa [hcons]
      -- the byte that follows is the line's next one or its end
      cases line with
      | nil =>
          show (if b = cr ∧ cr = lf then _ else headerLines (acc ++ [b]) _) = _
          rw [if_neg fun hcr => hb hcr.1]
          have hstep := ih hline hne'
          rw [hcons] at hstep
          exact hstep
      | cons c line =>
          show (if b = cr ∧ c = lf then _ else headerLines (acc ++ [b]) _) = _
          rw [if_neg fun hcr => hb hcr.1]
          have hstep := ih hline hne'
          rw [hcons] at hstep
          exact hstep

/-- The client reads the header lines that were sent. -/
theorem headerLines_headBytes {lines : List (List UInt8)}
    (h : ∀ line ∈ lines, line ≠ [] ∧ OneLine line) :
    headerLines [] (headBytes lines ++ rest) = some (lines, rest) := by
  induction lines with
  | nil => exact headerLines_blank rest
  | cons line lines ih =>
      obtain ⟨hne, hline⟩ := h line List.mem_cons_self
      have hsplit : headBytes (line :: lines) ++ rest =
          line ++ (lineEnd ++ (headBytes lines ++ rest)) := by
        rw [headBytes, List.flatMap_cons, headBytes]
        simp only [List.append_assoc]
      rw [hsplit, headerLines_line hline (by rwa [List.nil_append]),
        ih fun l hl => h l (List.mem_cons_of_mem line hl)]
      rfl

/-- A head is read, and the body is cut off behind it. -/
theorem readResponse_head (h : ResponseHead) (rest : List UInt8) :
    readResponse (h.bytes ++ rest) =
      if h.length ≤ rest.length then some (rest.take h.length, rest.drop h.length) else none := by
  rw [readResponse, ResponseHead.bytes, headerLines_headBytes h.oneLine]
  simp only [if_pos h.isStatusLine, h.length_eq]

/-- What the client makes of a head and other bytes behind it. -/
theorem readResponse_head_eq_some_iff (h : ResponseHead) {rest body left : List UInt8} :
    readResponse (h.bytes ++ rest) = some (body, left) ↔
      rest = body ++ left ∧ body.length = h.length := by
  rw [readResponse_head]
  constructor
  · intro hread
    split at hread
    · next hle =>
        simp only [Option.some.injEq, Prod.mk.injEq] at hread
        obtain ⟨rfl, rfl⟩ := hread
        exact ⟨(List.take_append_drop _ _).symm, List.length_take_of_le hle⟩
    · cases hread
  · rintro ⟨rfl, hlen⟩
    rw [← hlen, List.length_append, if_pos (Nat.le_add_right _ _), List.take_left, List.drop_left]

/-- The first byte of a head. -/
theorem ResponseHead.head_bytes (h : ResponseHead) : h.bytes.head? = some 72 := by
  obtain ⟨rest, hrest⟩ := h.isStatusLine
  rw [bytes, headBytes, List.flatMap_cons, ← hrest]
  rfl

theorem parseDecimal_toDigits (n : Nat) :
    parseDecimal (asciiBytes (Nat.toDigits 10 n)) = some n := by
  have hdigit : ∀ c ∈ Nat.toDigits 10 n, 48 ≤ c.val ∧ c.val ≤ 57 := by
    intro c hc
    have h := Nat.isDigit_of_mem_toDigits (by decide) (by decide) hc
    rwa [Char.isDigit, Bool.and_eq_true, decide_eq_true_eq, decide_eq_true_eq] at h
  have hbyte : ∀ c : Char, 48 ≤ c.val ∧ c.val ≤ 57 → c.val.toUInt8.toNat = c.toNat := by
    intro c hc
    have hle : c.val.toNat ≤ 57 := hc.2
    rw [UInt32.toNat_toUInt8]
    exact Nat.mod_eq_of_lt (by omega)
  rw [parseDecimal, if_pos]
  · congr 1
    rw [asciiBytes, List.map_map]
    -- each digit survives the way into a byte and back
    have hid : (Nat.toDigits 10 n).map
        ((fun b : UInt8 => Char.ofNat b.toNat) ∘ fun c => c.val.toUInt8) = Nat.toDigits 10 n := by
      conv_rhs => rw [← List.map_id (Nat.toDigits 10 n)]
      apply List.map_congr_left
      intro c hc
      show Char.ofNat c.val.toUInt8.toNat = c
      rw [hbyte c (hdigit c hc), Char.ofNat_toNat]
    rw [hid, Nat.ofDigitChars_ten_toDigits]
  · constructor
    · intro hnil
      exact Nat.toDigits_ne_nil (List.map_eq_nil_iff.1 hnil)
    · rw [List.all_eq_true]
      intro b hb
      obtain ⟨c, hc, rfl⟩ := List.mem_map.1 hb
      have hcode := hbyte c (hdigit c hc)
      have hlo : 48 ≤ c.val.toNat := (hdigit c hc).1
      have hhi : c.val.toNat ≤ 57 := (hdigit c hc).2
      rw [decide_eq_true_eq]
      constructor
      · rw [UInt8.le_iff_toNat_le, hcode]
        exact hlo
      · rw [UInt8.le_iff_toNat_le, hcode]
        exact hhi

/-- A length field gives the number it was written with. -/
theorem contentLength_cons (n : Nat) (fields : List (List UInt8)) :
    contentLength ((lengthField ++ asciiBytes (Nat.toDigits 10 n)) :: fields) = some n := by
  rw [contentLength, if_pos (List.prefix_append _ _), List.drop_left, parseDecimal_toDigits]

theorem contentLength_cons_of_not {field : List UInt8} {fields : List (List UInt8)}
    (h : ¬lengthField <+: field) : contentLength (field :: fields) = contentLength fields := by
  rw [contentLength, if_neg h]

end Client

end ComputerNetworking.Foundations
