import Mathlib.Tactic
import Mathlib.Data.List.DropRight
import ComputerNetworking.Foundations.LineReader

/-!
# Texts of the file server

The string operations of the Java library that the file server uses, on texts as
lists of characters: `split` on one character, `replaceAll` and `replaceFirst` at
the one place each is used, `length` in UTF-16 units, the reading loop of
`Scanner`, the narrowing of a `long`, and the character encoding of the two ends
of a connection.
-/

set_option autoImplicit false

namespace ComputerNetworking.FileServer

open ComputerNetworking.Foundations

/-- A Java string, by code points. -/
abbrev Text := List Char

-- one instance for all lists of extensions
instance (t : Text) (ts : List Text) : Decidable (t ∈ ts) := inferInstance

/-- `String.length`: a character outside the basic plane counts twice. -/
def utf16Length : Text → Nat
  | [] => 0
  | c :: t => (if c.val < 0x10000 then 1 else 2) + utf16Length t

/-- Characters of ascii. -/
def IsAscii (t : Text) : Prop := ∀ c ∈ t, c.val < 128

/-- Printable characters of ascii. -/
def Printable (t : Text) : Prop := ∀ c ∈ t, 0x20 ≤ c.val ∧ c.val < 0x7F

-- the instances go over the text, not over all characters
instance (t : Text) : Decidable (IsAscii t) := List.decidableBAll _ t

instance (t : Text) : Decidable (Printable t) := List.decidableBAll _ t

/-- `(int) n` for a `long` n. -/
def javaInt (n : Nat) : Int := Int.bmod n (2 ^ 32)

/-! ## Splitting and replacing -/

/-- `t.split(sep)` for a single character: empty strings at the end are dropped, and a
text without the character is returned whole. -/
def javaSplit (sep : Char) (t : Text) : List Text :=
  match t.splitOn sep with
  | [whole] => [whole]
  | parts => parts.rdropWhile List.isEmpty

/-- `parts[parts.length-1]` of `t.split("\\.")`; there is none when the array is empty. -/
def extension (t : Text) : Option Text := (javaSplit '.' t).getLast?

/-- `path.replaceAll("%20", " ")`. -/
def replaceSpaces : Text → Text
  | '%' :: '2' :: '0' :: t => ' ' :: replaceSpaces t
  | c :: t => c :: replaceSpaces t
  | [] => []

/-- `path.replaceFirst("^/", "")`. -/
def stripSlash : Text → Text
  | '/' :: t => t
  | t => t

section Split

variable {sep : Char} {t : Text}

theorem splitOn_length_pos (sep : Char) (t : Text) : 0 < (t.splitOn sep).length :=
  List.length_pos_iff.2 (List.splitOn_ne_nil sep t)

theorem javaSplit_eq (sep : Char) (t : Text) :
    javaSplit sep t = [t] ∧ sep ∉ t ∨
      javaSplit sep t = (t.splitOn sep).rdropWhile List.isEmpty ∧ sep ∈ t := by
  by_cases hmem : sep ∈ t
  · right
    obtain ⟨a, b, rfl⟩ := List.append_of_mem hmem
    have hsplit : (a ++ sep :: b).splitOn sep = a.splitOn sep ++ b.splitOn sep :=
      List.splitOn_append_cons_self a b
    have ha := splitOn_length_pos sep a
    have hb := splitOn_length_pos sep b
    refine ⟨?_, hmem⟩
    rw [javaSplit]
    split
    · next whole heq =>
        -- two parts at least, so the text is not returned whole
        have hlen := congrArg List.length (hsplit.symm.trans heq)
        rw [List.length_append, List.length_singleton] at hlen
        omega
    · rfl
  · left
    rw [javaSplit, List.splitOn_eq_singleton hmem]
    exact ⟨rfl, hmem⟩

/-- The first part of a text that begins with a word and the separator. -/
theorem javaSplit_head {word : Text} (rest : Text) (hword : word ≠ []) (hsep : sep ∉ word) :
    (javaSplit sep (word ++ sep :: rest)).head? = some word := by
  rcases javaSplit_eq sep (word ++ sep :: rest) with ⟨-, hno⟩ | ⟨heq, -⟩
  · exact absurd (List.mem_append_right word List.mem_cons_self) hno
  · rw [heq, List.splitOn_append_cons_self_of_not_mem hsep]
    -- what is dropped at the end is empty, and the word is not
    have hfirst := List.rdropWhile_prefix List.isEmpty (word :: rest.splitOn sep)
    cases hdrop : (word :: rest.splitOn sep).rdropWhile List.isEmpty with
    | nil =>
        rw [List.rdropWhile_eq_nil_iff] at hdrop
        exact absurd (List.isEmpty_iff.1 (hdrop word List.mem_cons_self)) hword
    | cons a l =>
        rw [hdrop, List.cons_prefix_cons] at hfirst
        rw [hfirst.1, List.head?_cons]

/-- The array is empty exactly for a text that consists of separators. -/
theorem javaSplit_eq_nil_iff : javaSplit sep t = [] ↔ t ≠ [] ∧ ∀ c ∈ t, c = sep := by
  rcases javaSplit_eq sep t with ⟨heq, hno⟩ | ⟨heq, hmem⟩
  · rw [heq]
    refine iff_of_false (List.cons_ne_nil t []) ?_
    rintro ⟨hne, hall⟩
    obtain ⟨c, hc⟩ := List.exists_mem_of_ne_nil t hne
    exact hno (hall c hc ▸ hc)
  · rw [heq, List.rdropWhile_eq_nil_iff]
    have hne : t ≠ [] := List.ne_nil_of_mem hmem
    constructor
    · intro hall
      refine ⟨hne, ?_⟩
      have hparts : ∀ p ∈ t.splitOn sep, p = [] := fun p hp => List.isEmpty_iff.1 (hall p hp)
      clear hall heq hmem hne
      -- all parts are empty, so every character is the separator between two of them
      induction t with
      | nil =>
          intro c hc
          exact absurd hc List.not_mem_nil
      | cons c t ih =>
          rw [List.splitOn_cons_eq_if_modifyHead] at hparts
          by_cases hc : (c == sep) = true
          · rw [if_pos hc] at hparts
            have htail := ih fun p hp => hparts p (List.mem_cons_of_mem _ hp)
            intro d hd
            rcases List.mem_cons.1 hd with rfl | hd
            · exact eq_of_beq hc
            · exact htail d hd
          · rw [if_neg hc] at hparts
            cases hsplit : t.splitOn sep with
            | nil => exact absurd hsplit (List.splitOn_ne_nil sep t)
            | cons p ps =>
                rw [hsplit, List.modifyHead_cons] at hparts
                exact absurd (hparts (c :: p) List.mem_cons_self) (List.cons_ne_nil c p)
    · rintro ⟨-, hall⟩ p hp
      clear heq hmem hne
      induction t with
      | nil =>
          rw [List.splitOn_nil, List.mem_singleton] at hp
          exact List.isEmpty_iff.2 hp
      | cons c t ih =>
          have hc : (c == sep) = true := beq_iff_eq.2 (hall c List.mem_cons_self)
          rw [List.splitOn_cons_eq_if_modifyHead, if_pos hc] at hp
          rcases List.mem_cons.1 hp with rfl | hp
          · rfl
          · exact ih (fun d hd => hall d (List.mem_cons_of_mem c hd)) hp

end Split

/-- There is no last part exactly for a text that consists of dots. -/
theorem extension_eq_none_iff {t : Text} : extension t = none ↔ t ≠ [] ∧ ∀ c ∈ t, c = '.' := by
  rw [extension, List.getLast?_eq_none_iff]
  exact javaSplit_eq_nil_iff

/-! ## Scanning a text file -/

/-- `Character.isWhitespace`. -/
def isWhitespace (c : Char) : Bool :=
  (0x09 ≤ c.val && c.val ≤ 0x0D) || (0x1C ≤ c.val && c.val ≤ 0x20) || c.val == 0x1680 ||
    (0x2000 ≤ c.val && c.val ≤ 0x2006) || (0x2008 ≤ c.val && c.val ≤ 0x200A) ||
    c.val == 0x2028 || c.val == 0x2029 || c.val == 0x205F || c.val == 0x3000

/-- A line separator of `Scanner`, the pair of carriage return and line feed apart. -/
def isLineSeparator (c : Char) : Bool :=
  c == '\n' || c == '\r' || c.val == 0x2028 || c.val == 0x2029 || c.val == 0x85

/-- `scanner.hasNext()`: a token remains. -/
def hasNext (t : Text) : Bool := t.any fun c => !isWhitespace c

/-- The line `acc` has begun and those after it that `while (scanner.hasNext())` reads
with `nextLine`. -/
def scanLines (acc : Text) : Text → List Text
  | [] => [acc]
  -- `nextLine` takes the pair as one separator
  | '\r' :: '\n' :: t => acc :: (if hasNext t then scanLines [] t else [])
  | c :: t =>
      if isLineSeparator c then acc :: (if hasNext t then scanLines [] t else [])
      else scanLines (acc ++ [c]) t

/-- The lines the loop reads from a file. -/
def scannerLines (t : Text) : List Text := if hasNext t then scanLines [] t else []

/-! ## Character encoding -/

/-- The character encoding both ends use: a byte sequence for each character, the
reading of bytes by a reader, which replaces what is no text, and by a scanner,
which stops there. No character is lost, ascii characters are themselves, and no
other character's bytes end a line. -/
structure Charset where
  encodeChar : Char → List UInt8
  decode : List UInt8 → Text
  decodeScanned : List UInt8 → Text
  encode_ne_nil : ∀ c : Char, encodeChar c ≠ []
  encode_ascii : ∀ c : Char, c.val < 128 → encodeChar c = [c.val.toUInt8]
  encode_oneLine : ∀ c : Char, ¬c.val < 128 → OneLine (encodeChar c)

namespace Charset

variable (cs : Charset)

/-- The bytes a writer sends for a text. -/
def encode (t : Text) : List UInt8 := t.flatMap cs.encodeChar

/-- Every text is read back from its bytes, as in UTF-8. -/
def Lossless : Prop := ∀ t, cs.decode (cs.encode t) = t

@[simp] theorem encode_append (t u : Text) : cs.encode (t ++ u) = cs.encode t ++ cs.encode u :=
  List.flatMap_append

theorem encode_cons (c : Char) (t : Text) : cs.encode (c :: t) = cs.encodeChar c ++ cs.encode t :=
  List.flatMap_cons

theorem encode_eq_nil_iff {t : Text} : cs.encode t = [] ↔ t = [] := by
  cases t with
  | nil => exact iff_of_true rfl rfl
  | cons c t =>
      apply iff_of_false
      · intro h
        rw [encode_cons] at h
        exact cs.encode_ne_nil c (List.append_eq_nil_iff.1 h).1
      · exact List.cons_ne_nil c t

/-- An ascii text has one byte for each character. -/
theorem encode_of_ascii {t : Text} (h : IsAscii t) :
    cs.encode t = t.map fun c => c.val.toUInt8 := by
  induction t with
  | nil => rfl
  | cons c t ih =>
      rw [encode_cons, cs.encode_ascii c (h c List.mem_cons_self),
        ih fun d hd => h d (List.mem_cons_of_mem c hd)]
      rfl

theorem encodeChar_oneLine {c : Char} (hcr : c ≠ '\r') (hlf : c ≠ '\n') :
    OneLine (cs.encodeChar c) := by
  by_cases hc : c.val < 128
  · rw [cs.encode_ascii c hc]
    intro b hb
    rw [List.mem_singleton] at hb
    subst hb
    have hval : c.val.toUInt8.toNat = c.val.toNat := by
      rw [UInt32.toNat_toUInt8]
      have hlt : c.val.toNat < 128 := hc
      omega
    -- the byte is the character's code, which is neither of the two
    have hne : ∀ d : Char, d.val < 128 → c ≠ d → c.val.toUInt8 ≠ d.val.toUInt8 := by
      intro d hd hcd heq
      have hnat := congrArg UInt8.toNat heq
      rw [hval, UInt32.toNat_toUInt8] at hnat
      have hlt : d.val.toNat < 128 := hd
      apply hcd
      apply Char.ext
      apply UInt32.toNat_inj.1
      omega
    have h1 : c.val.toUInt8 ≠ cr := hne '\r' (by decide) hcr
    have h2 : c.val.toUInt8 ≠ lf := hne '\n' (by decide) hlf
    rw [endsLine, beq_eq_false_iff_ne.2 h1, beq_eq_false_iff_ne.2 h2, Bool.or_false]
  · exact cs.encode_oneLine c hc

/-- A text without line ends is sent as one line. -/
theorem encode_oneLine_of {t : Text} (hcr : '\r' ∉ t) (hlf : '\n' ∉ t) : OneLine (cs.encode t) := by
  intro b hb
  obtain ⟨c, hc, hbc⟩ := List.mem_flatMap.1 hb
  have h1 : c ≠ '\r' := by
    rintro rfl
    exact hcr hc
  have h2 : c ≠ '\n' := by
    rintro rfl
    exact hlf hc
  exact cs.encodeChar_oneLine h1 h2 b hbc

end Charset

/-- A byte with its high bit set ends no line. -/
theorem endsLine_or_high (b k : UInt8) (hk : 0x80 ≤ k) : endsLine (b ||| k) = false := by
  have hle : k.toNat ≤ (b ||| k).toNat := by
    rw [UInt8.toNat_or]
    exact Nat.right_le_or
  have h80 : 0x80 ≤ k.toNat := hk
  have hcr : (b ||| k) ≠ cr := by
    intro h
    rw [h] at hle
    exact absurd (h80.trans hle) (by decide)
  have hlf : (b ||| k) ≠ lf := by
    intro h
    rw [h] at hle
    exact absurd (h80.trans hle) (by decide)
  rw [endsLine, beq_eq_false_iff_ne.2 hcr, beq_eq_false_iff_ne.2 hlf, Bool.or_false]

/-- UTF-8, for bytes that are UTF-8; others are read as one replacement character, or
not at all by a scanner. -/
def utf8 : Charset where
  encodeChar := String.utf8EncodeChar
  decode bs := (bs.toByteArray.utf8Decode?.map Array.toList).getD [Char.ofNat 0xFFFD]
  decodeScanned bs := (bs.toByteArray.utf8Decode?.map Array.toList).getD []
  encode_ne_nil _ := String.utf8EncodeChar_ne_nil
  encode_ascii c hc := by
    have hle : c.val ≤ 0x7f := UInt32.le_iff_toNat_le.2 (Nat.le_of_lt_succ hc)
    rw [String.utf8EncodeChar_eq_utf8EncodeCharFast, String.utf8EncodeCharFast]
    exact if_pos hle
  encode_oneLine c hc := by
    have hle : ¬c.val ≤ 0x7f := fun h => hc (Nat.lt_succ_of_le (UInt32.le_iff_toNat_le.1 h))
    rw [String.utf8EncodeChar_eq_utf8EncodeCharFast, String.utf8EncodeCharFast]
    simp only [if_neg hle]
    split
    · intro b hb
      simp only [List.mem_cons, List.not_mem_nil, or_false] at hb
      rcases hb with rfl | rfl <;> exact endsLine_or_high _ _ (by decide)
    · split
      · intro b hb
        simp only [List.mem_cons, List.not_mem_nil, or_false] at hb
        rcases hb with rfl | rfl | rfl <;> exact endsLine_or_high _ _ (by decide)
      · intro b hb
        simp only [List.mem_cons, List.not_mem_nil, or_false] at hb
        rcases hb with rfl | rfl | rfl | rfl <;> exact endsLine_or_high _ _ (by decide)

theorem utf8_lossless : utf8.Lossless := by
  intro t
  have h : ((t.flatMap String.utf8EncodeChar).toByteArray).utf8Decode? = some t.toArray :=
    List.utf8Decode?_utf8Encode
  show (((t.flatMap String.utf8EncodeChar).toByteArray).utf8Decode?.map Array.toList).getD _ = t
  rw [h]
  rfl

end ComputerNetworking.FileServer
