import ComputerNetworking.FileServer.Requests
import ComputerNetworking.Foundations.HttpFraming

/-!
# The answers as a stream of responses

Which answers of the GET branch a client can take from the byte stream by their
heads and Content-Length fields. The directory and the image branch send a head
and then the body; the other branches send one more line end behind the head,
and the branch of a missing target appends its head to the last one and sends no
body.
-/

set_option autoImplicit false

namespace ComputerNetworking.FileServer

open ComputerNetworking.Foundations

/-! ## Heads -/

theorem Printable.append {t u : Text} (ht : Printable t) (hu : Printable u) :
    Printable (t ++ u) := by
  intro c hc
  rcases List.mem_append.1 hc with h | h
  · exact ht c h
  · exact hu c h

theorem Printable.ascii {t : Text} (h : Printable t) : IsAscii t :=
  fun c hc => UInt32.lt_trans (h c hc).2 (by decide : (0x7F : UInt32) < 128)

theorem Printable.encode {t : Text} (h : Printable t) (cs : Charset) :
    cs.encode t = asciiBytes t := cs.encode_of_ascii h.ascii

theorem Printable.oneLine {t : Text} (h : Printable t) : OneLine (asciiBytes t) := by
  rw [← h.encode utf8]
  apply utf8.encode_oneLine_of
  · intro hcr
    exact absurd (h _ hcr).1 (by decide)
  · intro hlf
    exact absurd (h _ hlf).1 (by decide)

theorem printable_toDigits (n : Nat) : Printable (Nat.toDigits 10 n) := by
  intro c hc
  have h := Nat.isDigit_of_mem_toDigits (by decide) (by decide) hc
  rw [Char.isDigit, Bool.and_eq_true, decide_eq_true_eq, decide_eq_true_eq] at h
  exact ⟨UInt32.le_trans (by decide : (0x20 : UInt32) ≤ 48) h.1,
    UInt32.lt_of_le_of_lt h.2 (by decide : (57 : UInt32) < 0x7F)⟩

theorem printable_lengthLine (n : Nat) : Printable (lengthLine n) :=
  Printable.append (by decide) (printable_toDigits n)

theorem asciiBytes_lengthLine (n : Nat) :
    asciiBytes (lengthLine n) = lengthField ++ asciiBytes (Nat.toDigits 10 n) :=
  List.map_append

/-- Printable lines are sent as the bytes of a head. -/
theorem encode_renderHead (cs : Charset) {lines : List Text} (h : ∀ line ∈ lines, Printable line) :
    cs.encode (renderHead lines) = headBytes (lines.map asciiBytes) := by
  have hcrlf : cs.encode crlf = lineEnd := cs.encode_of_ascii (by decide)
  rw [renderHead, headBytes, Charset.encode_append, hcrlf]
  congr 1
  induction lines with
  | nil => rfl
  | cons line lines ih =>
      rw [List.flatMap_cons, Charset.encode_append, Charset.encode_append, hcrlf,
        (h line List.mem_cons_self).encode,
        ih fun l hl => h l (List.mem_cons_of_mem line hl), List.map_cons, List.flatMap_cons]

/-- Printable lines with a status line and a length field are a head a client can read. -/
theorem exists_head (cs : Charset) {status : Text} (before : List Text) {after : List Text}
    (n : Nat) (hstatus : IsStatusLine (asciiBytes status))
    (hbefore : ∀ line ∈ before, ¬lengthField <+: asciiBytes line)
    (hprint : ∀ line ∈ status :: (before ++ after), line ≠ [] ∧ Printable line) :
    ∃ h : ResponseHead, h.length = n ∧
      h.bytes = cs.encode (renderHead (status :: (before ++ lengthLine n :: after))) := by
  have hall : ∀ line ∈ status :: (before ++ lengthLine n :: after),
      line ≠ [] ∧ Printable line := by
    intro line hline
    simp only [List.mem_cons, List.mem_append] at hline hprint
    rcases hline with rfl | hb | rfl | ha
    · exact hprint _ (Or.inl rfl)
    · exact hprint _ (Or.inr (Or.inl hb))
    · exact ⟨List.append_ne_nil_of_left_ne_nil (by decide) _, printable_lengthLine n⟩
    · exact hprint _ (Or.inr (Or.inr ha))
  refine ⟨⟨asciiBytes status, (before ++ lengthLine n :: after).map asciiBytes, n, hstatus, ?_, ?_⟩,
    rfl, ?_⟩
  · intro bytes hbytes
    rw [← List.map_cons] at hbytes
    obtain ⟨line, hline, rfl⟩ := List.mem_map.1 hbytes
    obtain ⟨hne, hp⟩ := hall line hline
    exact ⟨fun h => hne (List.map_eq_nil_iff.1 h), hp.oneLine⟩
  · -- the fields before the length do not give one
    rw [List.map_append, List.map_cons]
    clear hprint hall
    induction before with
    | nil =>
        rw [List.map_nil, List.nil_append, asciiBytes_lengthLine]
        exact contentLength_cons n _
    | cons field before ih =>
        rw [List.map_cons, List.cons_append,
          contentLength_cons_of_not (hbefore field List.mem_cons_self)]
        exact ih fun line hline => hbefore line (List.mem_cons_of_mem field hline)
  · rw [encode_renderHead cs fun line hline => (hall line hline).2]
    rfl

/-- The heads the handler builds. -/
theorem exists_responseHead (cs : Charset) {status contentType : String} (date : DateText) (n : Nat)
    {more : List Text} (hstatus : IsStatusLine (asciiBytes status.toList))
    (hprint : ∀ line ∈ [status.toList, contentType.toList] ++ more, line ≠ [] ∧ Printable line) :
    ∃ h : ResponseHead, h.length = n ∧
      h.bytes = cs.encode (renderHead (responseLines status contentType date n more)) := by
  have hdate : Printable ("Date: ".toList ++ date.1) := Printable.append (by decide) date.2
  have htype : Printable ("Content-Type: ".toList ++ contentType.toList) :=
    Printable.append (by decide) (hprint _ (by simp)).2
  apply exists_head cs ["Server: Java HTTP Server: 1.0".toList, "Date: ".toList ++ date.1,
    "Content-Type: ".toList ++ contentType.toList] n hstatus
  · intro line hline
    simp only [List.mem_cons, List.not_mem_nil, or_false] at hline
    rcases hline with rfl | rfl | rfl
    · decide
    · rintro ⟨rest, hrest⟩
      exact absurd (List.cons.inj hrest).1 (by decide)
    · rintro ⟨rest, hrest⟩
      -- the two fields part at their ninth byte
      have hlength : (lengthField ++ rest)[8]? = some 76 := rfl
      have hkind : (asciiBytes ("Content-Type: ".toList ++ contentType.toList))[8]? = some 84 := rfl
      rw [hrest, hkind] at hlength
      exact absurd hlength (by decide)
  · intro line hline
    simp only [List.cons_append, List.nil_append, List.mem_cons] at hline hprint
    rcases hline with rfl | rfl | rfl | rfl | hmore
    · exact hprint _ (Or.inl rfl)
    · exact ⟨by decide, by decide⟩
    · exact ⟨List.append_ne_nil_of_left_ne_nil (by decide) _, hdate⟩
    · exact ⟨List.append_ne_nil_of_left_ne_nil (by decide) _, htype⟩
    · exact hprint _ (Or.inr (Or.inr hmore))

end ComputerNetworking.FileServer
