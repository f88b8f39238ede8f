import Mathlib.Data.List.Basic
import Mathlib.Data.List.TakeWhile
import Mathlib.Data.UInt

/-!
# File URLs and their descriptions

What Foundation makes of the URL list of a document picker: the textual
description of the list, the percent encoding in it and the last component of a
path.  The encoding of a path determines the path, and the component that the
app cuts out of the description is the encoded name of the picked file.
-/

namespace QuickNote.Foundation

abbrev Data := List UInt8

/-- The URL of a file, given by its absolute path.  The path of a file, unlike that
of a directory, does not end in a slash. -/
structure FileURL where
  path : String
  absolute : path.toList.head? = some '/'
  file : path.toList.getLast? ≠ some '/'
deriving DecidableEq

/-- The characters that a URL path carries unencoded
(`CharacterSet.urlPathAllowed`). -/
def urlPathAllowed (c : Char) : Bool :=
  c.isAlphanum || c ∈ ['!', '$', '&', '\'', '(', ')', '*', '+', ',', '-', '.', '/', ':', '=', '@',
    '_', '~']

def hexDigit (n : Nat) : Char :=
  ['0', '1', '2', '3', '4', '5', '6', '7', '8', '9', 'A', 'B', 'C', 'D', 'E', 'F'].getD n '0'

def percentEncodeByte (b : UInt8) : List Char :=
  ['%', hexDigit (b.toNat / 16), hexDigit (b.toNat % 16)]

def percentEncodeChar (c : Char) : List Char :=
  if urlPathAllowed c then [c] else (String.utf8EncodeChar c).flatMap percentEncodeByte

def percentEncode (path : List Char) : List Char := path.flatMap percentEncodeChar

/-- The text after the last slash. -/
def lastPathComponent (path : List Char) : List Char :=
  (path.reverse.takeWhile (· ≠ '/')).reverse

/-- The file's own name. -/
def FileURL.lastPathComponent (url : FileURL) : String :=
  String.ofList (Foundation.lastPathComponent url.path.toList)

/-- What follows the last dot of the file's name, unless the name begins there. -/
def FileURL.pathExtension (url : FileURL) : String :=
  let name := url.lastPathComponent.toList
  let back := (name.reverse.takeWhile (· ≠ '.')).reverse
  if back.length + 1 < name.length then String.ofList back else ""

/-- `lowercased()` for the letters that extensions are made of. -/
def lowercased (text : String) : String := String.ofList (text.toList.map Char.toLower)

def FileURL.absoluteString (url : FileURL) : String :=
  "file://" ++ String.ofList (percentEncode url.path.toList)

/-- `String(describing: urls)`. -/
def describe (urls : List FileURL) : String :=
  "[" ++ ", ".intercalate (urls.map FileURL.absoluteString) ++ "]"

/-! ## Last components -/

theorem slash_not_mem_lastPathComponent (path : List Char) : '/' ∉ lastPathComponent path := by
  intro member
  have kept := List.mem_takeWhile_imp (List.mem_reverse.mp member)
  simp at kept

theorem lastPathComponent_of_noSlash {path : List Char} (clean : '/' ∉ path) :
    lastPathComponent path = path := by
  unfold lastPathComponent
  rw [List.takeWhile_eq_self_iff.mpr, List.reverse_reverse]
  intro c member
  simpa using fun equal : c = '/' => clean (equal ▸ List.mem_reverse.mp member)

theorem lastPathComponent_append (path : List Char) {back : List Char} (clean : '/' ∉ back) :
    lastPathComponent (path ++ back) = lastPathComponent path ++ back := by
  have whole : ∀ c ∈ back.reverse, decide (c ≠ '/') = true := by
    intro c member
    simpa using fun equal : c = '/' => clean (equal ▸ List.mem_reverse.mp member)
  unfold lastPathComponent
  rw [List.reverse_append, List.takeWhile_append_of_pos whole]
  simp

theorem lastPathComponent_append_slash (front : List Char) {back : List Char}
    (clean : '/' ∉ back) : lastPathComponent (front ++ '/' :: back) = back := by
  have ends : lastPathComponent (front ++ ['/']) = [] := by
    simp [lastPathComponent]
  rw [show front ++ '/' :: back = (front ++ ['/']) ++ back by simp,
    lastPathComponent_append _ clean, ends, List.nil_append]

/-- A path is its last component, or a prefix that ends in a slash and its last
component. -/
theorem split_lastPathComponent (path : List Char) :
    lastPathComponent path = path ∨ ∃ front, path = front ++ '/' :: lastPathComponent path := by
  by_cases member : '/' ∈ path
  · right
    obtain ⟨back, front, shape, clean⟩ :=
      List.eq_append_cons_of_mem (List.mem_reverse.mpr member)
    have whole : path = front.reverse ++ '/' :: back.reverse := by
      have reversed := congrArg List.reverse shape
      simpa using reversed
    refine ⟨front.reverse, ?_⟩
    conv_rhs => rw [whole, lastPathComponent_append_slash _ (by simpa using clean)]
    exact whole
  · exact Or.inl (lastPathComponent_of_noSlash member)

/-- A file has a name. -/
theorem lastPathComponent_ne_nil (url : FileURL) : lastPathComponent url.path.toList ≠ [] := by
  rcases List.eq_nil_or_concat url.path.toList with empty | ⟨front, c, shape⟩
  · have absolute := url.absolute
    rw [empty] at absolute
    cases absolute
  · rw [List.concat_eq_append] at shape
    have file := url.file
    rw [shape, List.getLast?_concat] at file
    have plain : '/' ∉ [c] := by simpa using fun equal : '/' = c => file (congrArg some equal.symm)
    rw [shape, lastPathComponent_append front plain]
    simp

/-! ## Percent encoding -/

private def hexValue (c : Char) : Nat :=
  ['0', '1', '2', '3', '4', '5', '6', '7', '8', '9', 'A', 'B', 'C', 'D', 'E', 'F'].idxOf c

private def percentDecode : List Char → List UInt8
  | '%' :: high :: low :: rest =>
      UInt8.ofNat (hexValue high * 16 + hexValue low) :: percentDecode rest
  | c :: rest => c.val.toUInt8 :: percentDecode rest
  | [] => []

private theorem hexValue_hexDigit : ∀ n < 16, hexValue (hexDigit n) = n := by
  decide

private theorem percentDecode_byte (b : UInt8) (rest : List Char) :
    percentDecode (percentEncodeByte b ++ rest) = b :: percentDecode rest := by
  have bound : b.toNat < 256 := b.toNat_lt
  have high : hexValue (hexDigit (b.toNat / 16)) = b.toNat / 16 :=
    hexValue_hexDigit _ (by omega)
  have low : hexValue (hexDigit (b.toNat % 16)) = b.toNat % 16 :=
    hexValue_hexDigit _ (by omega)
  have whole : b.toNat / 16 * 16 + b.toNat % 16 = b.toNat := by omega
  simp [percentEncodeByte, percentDecode, high, low, whole]

private theorem percentDecode_bytes (bytes : List UInt8) (rest : List Char) :
    percentDecode (bytes.flatMap percentEncodeByte ++ rest) = bytes ++ percentDecode rest := by
  induction bytes with
  | nil => rfl
  | cons b bytes ih =>
    rw [List.flatMap_cons, List.append_assoc, percentDecode_byte, ih]
    rfl

/-- An unencoded character is one byte, and it is not the escape character. -/
theorem ascii_of_urlPathAllowed {c : Char} (allowed : urlPathAllowed c = true) :
    c.utf8Size = 1 ∧ c ≠ '%' := by
  have small : c.val ≤ 127 ∧ c ≠ '%' := by
    simp only [urlPathAllowed, Bool.or_eq_true, decide_eq_true_eq, List.mem_cons,
      List.not_mem_nil, or_false] at allowed
    rcases allowed with letter | listed
    · unfold Char.isAlphanum Char.isAlpha Char.isUpper Char.isLower Char.isDigit at letter
      simp only [Bool.or_eq_true, Bool.and_eq_true, decide_eq_true_eq] at letter
      constructor
      · simp only [UInt32.le_iff_toNat_le] at letter ⊢
        simp at letter ⊢
        omega
      · rintro rfl
        revert letter
        decide
    · rcases listed with rfl | rfl | rfl | rfl | rfl | rfl | rfl | rfl | rfl | rfl | rfl | rfl |
        rfl | rfl | rfl | rfl | rfl
      all_goals decide
  exact ⟨by simp [Char.utf8Size, small.1], small.2⟩

private theorem percentDecode_char (c : Char) (rest : List Char) :
    percentDecode (percentEncodeChar c ++ rest) =
      String.utf8EncodeChar c ++ percentDecode rest := by
  unfold percentEncodeChar
  split
  · rename_i allowed
    obtain ⟨single, plain⟩ := ascii_of_urlPathAllowed allowed
    rw [String.utf8EncodeChar_eq_singleton single]
    simp [percentDecode, plain]
  · exact percentDecode_bytes _ rest

private theorem percentDecode_percentEncode (path : List Char) :
    percentDecode (percentEncode path) = path.flatMap String.utf8EncodeChar := by
  induction path with
  | nil => rfl
  | cons c path ih =>
    have shape : percentEncode (c :: path) = percentEncodeChar c ++ percentEncode path := rfl
    rw [shape, percentDecode_char, ih, List.flatMap_cons]

/-- The encoding determines the path. -/
theorem percentEncode_injective {a b : List Char} (same : percentEncode a = percentEncode b) :
    a = b := by
  have bytes : a.flatMap String.utf8EncodeChar = b.flatMap String.utf8EncodeChar := by
    rw [← percentDecode_percentEncode, same, percentDecode_percentEncode]
  have encoded : a.utf8Encode = b.utf8Encode := by
    simp only [List.utf8Encode, bytes]
  apply String.ofList_injective
  exact String.toByteArray_inj.mp encoded

theorem length_le_percentEncode (path : List Char) :
    path.length ≤ (percentEncode path).length := by
  induction path with
  | nil => exact Nat.le_refl 0
  | cons c path ih =>
    have one : 1 ≤ (percentEncodeChar c).length := by
      unfold percentEncodeChar
      split
      · exact Nat.le_refl 1
      · have bytes := List.length_pos_iff.mpr (String.utf8EncodeChar_ne_nil (c := c))
        simp only [List.length_flatMap, percentEncodeByte, List.length_cons, List.length_nil,
          List.map_const', List.sum_replicate_nat]
        omega
    have shape : percentEncode (c :: path) = percentEncodeChar c ++ percentEncode path := rfl
    rw [shape, List.length_append, List.length_cons]
    omega

/-- A path is its own encoding exactly when a URL carries all of its characters
unencoded. -/
theorem percentEncode_eq_self_iff {path : List Char} :
    percentEncode path = path ↔ ∀ c ∈ path, urlPathAllowed c = true := by
  induction path with
  | nil => simp [percentEncode]
  | cons c path ih =>
    have shape : percentEncode (c :: path) = percentEncodeChar c ++ percentEncode path := rfl
    rw [shape, List.forall_mem_cons]
    by_cases allowed : urlPathAllowed c = true
    · simp [percentEncodeChar, allowed, ih]
    · refine iff_of_false ?_ (fun both => allowed both.1)
      intro same
      have lengths := congrArg List.length same
      have rest := length_le_percentEncode path
      have bytes := List.length_pos_iff.mpr (String.utf8EncodeChar_ne_nil (c := c))
      simp only [percentEncodeChar, if_neg allowed, List.length_append, List.length_cons,
        List.length_flatMap, percentEncodeByte, List.length_nil, List.map_const',
        List.sum_replicate_nat] at lengths
      omega

theorem slash_not_mem_percentEncode {path : List Char} (clean : '/' ∉ path) :
    '/' ∉ percentEncode path := by
  intro member
  obtain ⟨c, inside, member⟩ := List.mem_flatMap.mp member
  unfold percentEncodeChar at member
  split at member
  · exact clean (List.mem_singleton.mp member ▸ inside)
  · obtain ⟨b, _, member⟩ := List.mem_flatMap.mp member
    have digits : ∀ n < 16, '/' ≠ hexDigit n := by decide
    have bound : b.toNat < 256 := b.toNat_lt
    simp only [percentEncodeByte, List.mem_cons, List.not_mem_nil, or_false] at member
    rcases member with percent | high | low
    · exact absurd percent (by decide)
    · exact digits _ (by omega) high
    · exact digits _ (by omega) low

/-- Encoding leaves slashes alone, so it commutes with taking the last
component. -/
theorem lastPathComponent_percentEncode (front : List Char) (path : List Char) :
    lastPathComponent (front ++ '/' :: percentEncode path) =
      percentEncode (lastPathComponent path) := by
  have clean := slash_not_mem_percentEncode (slash_not_mem_lastPathComponent path)
  rcases split_lastPathComponent path with whole | ⟨start, shape⟩
  · rw [whole] at clean ⊢
    exact lastPathComponent_append_slash front clean
  · have encoded : percentEncode path =
        percentEncode start ++ '/' :: percentEncode (lastPathComponent path) := by
      conv_lhs => rw [shape]
      simp [percentEncode, percentEncodeChar, urlPathAllowed]
    rw [encoded, show front ++ '/' :: (percentEncode start ++ '/' ::
      percentEncode (lastPathComponent path)) = (front ++ '/' :: percentEncode start) ++ '/' ::
      percentEncode (lastPathComponent path) by simp]
    exact lastPathComponent_append_slash _ clean

/-- The last component of the description of a picked file is the encoded name of
the file and the closing bracket. -/
theorem lastPathComponent_describe (url : FileURL) :
    lastPathComponent (describe [url]).toList =
      percentEncode (lastPathComponent url.path.toList) ++ [']'] := by
  have shape : (describe [url]).toList =
      ("[file:/".toList ++ '/' :: percentEncode url.path.toList) ++ [']'] := by
    simp [describe, FileURL.absoluteString]
  rw [shape, lastPathComponent_append _ (by decide), lastPathComponent_percentEncode]

/-! ## Suffixes -/

/-- A character that is not allowed is encoded as something that ends in a digit. -/
theorem percentEncodeChar_of_not_allowed {c : Char} (escaped : ¬ urlPathAllowed c = true) :
    ∃ front, ∃ n < 16, percentEncodeChar c = front ++ [hexDigit n] := by
  rw [percentEncodeChar, if_neg escaped]
  rcases List.eq_nil_or_concat (String.utf8EncodeChar c) with none | ⟨bytes, b, shape⟩
  · exact absurd none String.utf8EncodeChar_ne_nil
  · refine ⟨bytes.flatMap percentEncodeByte ++ ['%', hexDigit (b.toNat / 16)], b.toNat % 16,
      Nat.mod_lt _ (by decide), ?_⟩
    simp [shape, percentEncodeByte]

/-- A suffix whose characters are allowed and are no hexadecimal digits is one of the
encoding exactly when it is one of the path. -/
theorem suffix_percentEncode_iff {suffix path : List Char}
    (plain : ∀ c ∈ suffix, urlPathAllowed c = true ∧ ∀ n < 16, c ≠ hexDigit n) :
    suffix <:+ percentEncode path ↔ suffix <:+ path := by
  induction path using List.reverseRecOn generalizing suffix with
  | nil => rfl
  | append_singleton path c ih =>
    have shape : percentEncode (path ++ [c]) = percentEncode path ++ percentEncodeChar c := by
      simp [percentEncode]
    rcases List.eq_nil_or_concat suffix with rfl | ⟨front, x, rfl⟩
    · simp
    rw [List.concat_eq_append] at plain ⊢
    have last := plain x (by simp)
    by_cases allowed : urlPathAllowed c = true
    · have rest := ih (fun d member => plain d (List.mem_append_left _ member))
      rw [shape, percentEncodeChar, if_pos allowed, List.suffix_concat_iff, List.suffix_concat_iff]
      simp [rest]
    · obtain ⟨digits, n, bound, ends⟩ := percentEncodeChar_of_not_allowed allowed
      refine iff_of_false ?_ ?_
      · intro encoded
        rw [shape, ends, ← List.append_assoc, List.suffix_concat_iff] at encoded
        rcases encoded with none | ⟨t, same, _⟩
        · simp at none
        · exact last.2 n bound (by simpa using (List.append_inj' same rfl).2)
      · intro own
        rw [List.suffix_concat_iff] at own
        rcases own with none | ⟨t, same, _⟩
        · simp at none
        · have equal : x = c := by simpa using (List.append_inj' same rfl).2
          exact allowed (equal ▸ last.1)

/-- A suffix without slashes is one of the last component. -/
theorem suffix_append_slash_iff {suffix front back : List Char} (clean : '/' ∉ suffix) :
    suffix <:+ front ++ '/' :: back ↔ suffix <:+ back := by
  constructor
  · intro whole
    have tail : '/' :: back <:+ front ++ '/' :: back := List.suffix_append front _
    rcases List.suffix_or_suffix_of_suffix whole tail with short | long
    · rcases List.suffix_cons_iff.mp short with rfl | inside
      · exact absurd List.mem_cons_self clean
      · exact inside
    · exact absurd (long.subset List.mem_cons_self) clean
  · intro inside
    exact inside.trans ((List.suffix_cons '/' back).trans (List.suffix_append front _))

end QuickNote.Foundation
