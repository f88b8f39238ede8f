import QuickNote.Firestore.ObjectValue
import QuickNote.Library.Segments

/-!
# Field paths as text

`FieldPath` of the Firestore client (`core/src/model/field_path.cc`).  Masks and
fields are stored and sent as canonical strings, in which a name that is no
identifier is quoted; `FromServerFormat` reads them back.
-/

namespace QuickNote.Firestore

namespace FieldPath

def backslash : Char := '\x5c'

def backtick : Char := '\x60'

/-- The character that ends a string of C. -/
def null : Char := '\x00'

def isIdentifierStart (c : Char) : Bool :=
  c = '_' || ('a' ≤ c && c ≤ 'z') || ('A' ≤ c && c ≤ 'Z')

def isIdentifierPart (c : Char) : Bool := isIdentifierStart c || ('0' ≤ c && c ≤ '9')

/-- `IsValidIdentifier` (`field_path.cc:46`). -/
def isValidIdentifier : List Char → Bool
  | [] => false
  | first :: rest => isIdentifierStart first && rest.all isIdentifierPart

/-- The two replacements of `absl::StrReplaceAll`. -/
def escape (c : Char) : List Char :=
  if c = backslash ∨ c = backtick then [backslash, c] else [c]

/-- `JoinEscaped::escaped_segment` (`field_path.cc:73`). -/
def escapedSegment (segment : List Char) : List Char :=
  let escaped := segment.flatMap escape
  if isValidIdentifier escaped then escaped else backtick :: escaped ++ [backtick]

/-- `absl::StrJoin` with a dot. -/
def join : List (List Char) → List Char
  | [] => []
  | [segment] => segment
  | segment :: rest => segment ++ '.' :: join rest

/-- `CanonicalString` (`field_path.cc:217`). -/
def canonicalString (path : FieldPath String) : String :=
  String.ofList (join (path.map fun segment => escapedSegment segment.toList))

/-- `finish_segment` (`field_path.cc:130`). -/
def finishSegment (path : String) (segments : FieldPath String) (segment : List Char) :
    Except String (FieldPath String) :=
  if segment = [] then
    .error ("Invalid field path (" ++ path ++ "). Paths must not be empty, begin with " ++
      "'.', end with '.', or contain '..'")
  else .ok (segments ++ [String.ofList segment])

/-- What follows the loop of `FromServerFormatView`. -/
def finishPath (path : String) (segments : FieldPath String) (segment : List Char)
    (insideBackticks : Bool) : Except String (FieldPath String) := do
  let segments ← finishSegment path segments segment
  if insideBackticks then .error ("Unterminated ` in path " ++ path) else .ok segments

/-- The loop of `FromServerFormatView` (`field_path.cc:148`) on the rest of the text. -/
def fromServerFormatLoop (path : String) :
    List Char → FieldPath String → List Char → Bool → Except String (FieldPath String)
  | [], segments, segment, insideBackticks => finishPath path segments segment insideBackticks
  | c :: rest, segments, segment, insideBackticks =>
      if c = null then finishPath path segments segment insideBackticks
      else if c = '.' then
        if insideBackticks then fromServerFormatLoop path rest segments (segment ++ [c]) true
        else do
          let segments ← finishSegment path segments segment
          fromServerFormatLoop path rest segments [] false
      else if c = backtick then fromServerFormatLoop path rest segments segment !insideBackticks
      else if c = backslash then
        match rest with
        | [] => .error ("Trailing escape characters not allowed in " ++ path)
        | next :: rest => fromServerFormatLoop path rest segments (segment ++ [next]) insideBackticks
      else fromServerFormatLoop path rest segments (segment ++ [c]) insideBackticks

/-- `FromServerFormatView` (`field_path.cc:123`). -/
def fromServerFormat (path : String) : Except String (FieldPath String) :=
  fromServerFormatLoop path path.toList [] [] false

/-- `FromDotSeparatedStringView` (`field_path.cc:97`). -/
def fromDotSeparatedString (path : String) : Except String (FieldPath String) :=
  if path.toList.any (· ∈ ['~', '*', '/', '[', ']']) then
    .error ("Invalid field path (" ++ path ++ "). Paths must not contain '~', '*', '/', '[', " ++
      "or ']'")
  else if [] ∈ path.toList.splitOn '.' then
    .error ("Invalid field path (" ++ path ++ "). Paths must not be empty, begin with " ++
      "'.', end with '.', or contain '..'")
  else .ok ((path.toList.splitOn '.').map String.ofList)

section Loop

variable {path : String} {segments : FieldPath String} {segment rest : List Char}

theorem not_isIdentifierPart {c : Char} (special : c = null ∨ c = '.' ∨ c = backtick ∨ c = backslash) :
    isIdentifierPart c = false := by
  rcases special with rfl | rfl | rfl | rfl <;> decide

/-- A character that means nothing to the loop. -/
theorem loop_cons {c : Char} (plain : c ≠ null ∧ c ≠ backtick ∧ c ≠ backslash)
    {insideBackticks : Bool} (dot : c = '.' → insideBackticks = true) :
    fromServerFormatLoop path (c :: rest) segments segment insideBackticks =
      fromServerFormatLoop path rest segments (segment ++ [c]) insideBackticks := by
  rw [fromServerFormatLoop.eq_def]
  by_cases here : c = '.'
  · subst here
    simp [plain, dot rfl]
  · simp [plain, here]

theorem loop_identifier {name : List Char} (parts : ∀ c ∈ name, isIdentifierPart c = true)
    (insideBackticks : Bool) :
    fromServerFormatLoop path (name ++ rest) segments segment insideBackticks =
      fromServerFormatLoop path rest segments (segment ++ name) insideBackticks := by
  induction name generalizing segment with
  | nil => simp
  | cons c name ih =>
    have part := parts c (by simp)
    have apart : ∀ special, (special = null ∨ special = '.' ∨ special = backtick ∨
        special = backslash) → c ≠ special := by
      rintro special known rfl
      rw [not_isIdentifierPart known] at part
      simp at part
    rw [List.cons_append, loop_cons ⟨apart _ (by simp), apart _ (by simp), apart _ (by simp)⟩
      fun here => absurd here (apart _ (by simp)), ih fun c member => parts c (by simp [member])]
    simp

/-- Inside backticks the escaped characters are read back. -/
theorem loop_escaped {name : List Char} (terminated : null ∉ name) :
    fromServerFormatLoop path (name.flatMap escape ++ rest) segments segment true =
      fromServerFormatLoop path rest segments (segment ++ name) true := by
  induction name generalizing segment with
  | nil => simp
  | cons c name ih =>
    have later : null ∉ name := fun member => terminated (List.mem_cons_of_mem c member)
    rw [List.flatMap_cons, escape]
    by_cases special : c = backslash ∨ c = backtick
    · rw [if_pos special]
      show fromServerFormatLoop path (backslash :: c :: (name.flatMap escape ++ rest)) segments
        segment true = _
      rw [fromServerFormatLoop.eq_def]
      have unlike : backslash ≠ null ∧ backslash ≠ '.' ∧ backslash ≠ backtick := by decide
      simp only [unlike, if_false, if_true, ih later]
      simp
    · rw [not_or] at special
      have nonzero : c ≠ null := fun same => terminated (same ▸ List.mem_cons_self)
      rw [if_neg (not_or.mpr special)]
      show fromServerFormatLoop path (c :: (name.flatMap escape ++ rest)) segments segment true = _
      rw [loop_cons ⟨nonzero, special.2, special.1⟩ fun _ => rfl, ih later]
      simp

theorem finishPath_open (path : String) (segments : FieldPath String) (segment : List Char) :
    ∃ message, finishPath path segments segment true = .error message := by
  rw [finishPath, finishSegment]
  by_cases nothing : segment = []
  · rw [if_pos nothing]
    exact ⟨_, rfl⟩
  · rw [if_neg nothing]
    exact ⟨_, rfl⟩

/-- A name with a null in it ends the text inside the backticks. -/
theorem loop_escaped_null {name : List Char} (cut : null ∈ name) :
    ∃ message, fromServerFormatLoop path (name.flatMap escape ++ rest) segments segment true =
      .error message := by
  obtain ⟨before, after, rfl, terminated⟩ := List.eq_append_cons_of_mem cut
  have literal : escape null = [null] := by decide
  rw [List.flatMap_append, List.flatMap_cons, literal, List.append_assoc, loop_escaped terminated]
  show ∃ message, fromServerFormatLoop path (null :: (after.flatMap escape ++ rest)) segments
    (segment ++ before) true = .error message
  rw [fromServerFormatLoop.eq_def]
  simp only [if_true]
  exact finishPath_open path segments (segment ++ before)

theorem loop_backtick (insideBackticks : Bool) :
    fromServerFormatLoop path (backtick :: rest) segments segment insideBackticks =
      fromServerFormatLoop path rest segments segment !insideBackticks := by
  rw [fromServerFormatLoop.eq_def]
  have unlike : backtick ≠ null ∧ backtick ≠ '.' := by decide
  simp only [unlike, if_false, if_true]

/-- A name that is written without quotes is written as it is. -/
theorem escapedSegment_identifier {name : List Char}
    (identifier : isValidIdentifier (name.flatMap escape) = true) :
    name.flatMap escape = name ∧ name ≠ [] ∧ ∀ c ∈ name, isIdentifierPart c = true := by
  have parts : ∀ c ∈ name.flatMap escape, isIdentifierPart c = true := by
    intro c member
    cases shape : name.flatMap escape with
    | nil => simp [shape] at member
    | cons first others =>
      rw [shape, isValidIdentifier, Bool.and_eq_true, List.all_eq_true] at identifier
      rw [shape] at member
      rcases List.mem_cons.mp member with rfl | later
      · rw [isIdentifierPart, identifier.1, Bool.true_or]
      · exact identifier.2 c later
  have literal : ∀ c ∈ name, escape c = [c] := by
    intro c member
    rw [escape, if_neg]
    intro special
    have escaped : backslash ∈ name.flatMap escape :=
      List.mem_flatMap.mpr ⟨c, member, by rw [escape, if_pos special]; simp⟩
    exact absurd (parts backslash escaped) (by decide)
  have same : name.flatMap escape = name := by
    clear identifier parts
    induction name with
    | nil => rfl
    | cons c name ih =>
      rw [List.flatMap_cons, literal c (by simp), ih fun c member => literal c (by simp [member])]
      rfl
  refine ⟨same, fun empty => ?_, same ▸ parts⟩
  subst empty
  simp [isValidIdentifier] at identifier

/-- The loop reads an escaped name back. -/
theorem loop_escapedSegment {name : List Char} (terminated : null ∉ name) :
    fromServerFormatLoop path (escapedSegment name ++ rest) segments [] false =
      fromServerFormatLoop path rest segments name false := by
  rw [escapedSegment]
  by_cases identifier : isValidIdentifier (name.flatMap escape) = true
  · obtain ⟨same, _, parts⟩ := escapedSegment_identifier identifier
    rw [same] at identifier
    simp only [same, if_pos identifier]
    rw [loop_identifier parts, List.nil_append]
  · simp only [if_neg identifier]
    rw [List.append_assoc, List.cons_append, loop_backtick, Bool.not_false, loop_escaped terminated]
    show fromServerFormatLoop path (backtick :: rest) segments ([] ++ name) true = _
    rw [loop_backtick, Bool.not_true, List.nil_append]

/-- A name with a null in it cannot be read back. -/
theorem loop_escapedSegment_null {name : List Char} (cut : null ∈ name) :
    ∃ message, fromServerFormatLoop path (escapedSegment name ++ rest) segments [] false =
      .error message := by
  have quoted : ¬ isValidIdentifier (name.flatMap escape) = true := by
    intro identifier
    have part := (escapedSegment_identifier identifier).2.2 null cut
    exact absurd part (by decide)
  rw [escapedSegment]
  simp only [if_neg quoted]
  rw [List.append_assoc, List.cons_append, loop_backtick, Bool.not_false]
  exact loop_escaped_null cut

/-- A name that can be read back. -/
def Readable (name : List Char) : Prop := name ≠ [] ∧ null ∉ name

theorem loop_dot (segment : List Char) :
    fromServerFormatLoop path ('.' :: rest) segments segment false =
      (finishSegment path segments segment).bind fun segments =>
        fromServerFormatLoop path rest segments [] false := by
  rw [fromServerFormatLoop.eq_def]
  have unlike : ('.' : Char) ≠ null := by decide
  simp only [unlike, if_false, if_true]
  rfl

theorem finishSegment_of_ne {name : List Char} (named : name ≠ []) (path : String)
    (segments : FieldPath String) :
    finishSegment path segments name = .ok (segments ++ [String.ofList name]) := if_neg named

/-- The loop reads joined names back if it can read each of them, and fails else. -/
theorem loop_join {names : List (List Char)} (some_name : names ≠ []) :
    (∀ name ∈ names, Readable name) ∧
        fromServerFormatLoop path (join (names.map escapedSegment)) segments [] false =
          .ok (segments ++ names.map String.ofList) ∨
      ¬ (∀ name ∈ names, Readable name) ∧
        ∃ message, fromServerFormatLoop path (join (names.map escapedSegment)) segments [] false =
          .error message := by
  induction names generalizing segments with
  | nil => exact absurd rfl some_name
  | cons name more ih =>
    have cut (bad : null ∈ name) : ¬ ∀ other ∈ name :: more, Readable other := fun all =>
      (all name (by simp)).2 bad
    have unnamed (bad : name = []) : ¬ ∀ other ∈ name :: more, Readable other := fun all =>
      (all name (by simp)).1 bad
    cases more with
    | nil =>
      have whole : join ([name].map escapedSegment) = escapedSegment name ++ [] := by simp [join]
      rw [whole]
      by_cases terminated : null ∈ name
      · exact Or.inr ⟨cut terminated, loop_escapedSegment_null terminated⟩
      · rw [loop_escapedSegment terminated, fromServerFormatLoop.eq_def]
        simp only [finishPath]
        by_cases named : name = []
        · subst named
          exact Or.inr ⟨unnamed rfl, _, rfl⟩
        · rw [finishSegment_of_ne named]
          exact Or.inl ⟨by simpa using ⟨named, terminated⟩, rfl⟩
    | cons next others =>
      have whole : join ((name :: next :: others).map escapedSegment) =
          escapedSegment name ++ '.' :: join ((next :: others).map escapedSegment) := rfl
      rw [whole]
      by_cases terminated : null ∈ name
      · exact Or.inr ⟨cut terminated, loop_escapedSegment_null terminated⟩
      · rw [loop_escapedSegment terminated, loop_dot]
        by_cases named : name = []
        · subst named
          exact Or.inr ⟨unnamed rfl, _, rfl⟩
        · rw [finishSegment_of_ne named]
          have readable : Readable name := ⟨named, terminated⟩
          rcases @ih (segments ++ [String.ofList name]) (by simp) with
            ⟨all, read⟩ | ⟨not_all, message, failed⟩
          · refine Or.inl ⟨?_, ?_⟩
            · rintro other (_ | ⟨_, member⟩)
              · exact readable
              · exact all other member
            · show fromServerFormatLoop path (join ((next :: others).map escapedSegment))
                (segments ++ [String.ofList name]) [] false = _
              rw [read]
              simp
          · refine Or.inr ⟨fun every => not_all fun other member =>
              every other (List.mem_cons_of_mem name member), message, failed⟩

end Loop

/-- A field path is read back from its canonical string exactly if it has a name and none
of its names is empty or has a null in it. -/
theorem fromServerFormat_canonicalString_iff (path : FieldPath String) :
    fromServerFormat (canonicalString path) = .ok path ↔
      path ≠ [] ∧ ∀ segment ∈ path, segment ≠ "" ∧ null ∉ segment.toList := by
  have text : (canonicalString path).toList =
      join ((path.map String.toList).map escapedSegment) := by
    rw [canonicalString, String.toList_ofList, List.map_map]
    rfl
  have back : (path.map String.toList).map String.ofList = path := by
    rw [List.map_map]
    exact (List.map_congr_left fun segment _ => String.ofList_toList).trans (List.map_id path)
  have readable : (∀ name ∈ path.map String.toList, Readable name) ↔
      ∀ segment ∈ path, segment ≠ "" ∧ null ∉ segment.toList := by
    simp [Readable]
  rw [fromServerFormat, text]
  by_cases empty : path = []
  · subst empty
    refine iff_of_false (fun read => ?_) (by simp)
    have failed : fromServerFormatLoop (canonicalString []) [] [] [] false =
        .error ("Invalid field path (" ++ canonicalString [] ++ "). Paths must not be empty, " ++
          "begin with '.', end with '.', or contain '..'") := rfl
    exact absurd (failed.symm.trans read) (by simp)
  · rcases @loop_join (canonicalString path) [] (path.map String.toList) (by simpa using empty)
      with ⟨all, read⟩ | ⟨not_all, message, failed⟩
    · rw [read, back, List.nil_append]
      exact iff_of_true rfl ⟨empty, readable.mp all⟩
    · rw [failed]
      exact iff_of_false (by simp) fun both => not_all (readable.mpr both.2)

/-- Text without quotes and escapes is cut at its dots. -/
theorem loop_splitOn {path : String} {text : List Char}
    (plain : ∀ c ∈ text, c ≠ null ∧ c ≠ backtick ∧ c ≠ backslash) (segments : FieldPath String)
    (segment : List Char) :
    let pieces := (text.splitOn '.').modifyHead (segment ++ ·)
    ([] ∉ pieces ∧ fromServerFormatLoop path text segments segment false =
        .ok (segments ++ pieces.map String.ofList)) ∨
      ([] ∈ pieces ∧ ∃ message,
        fromServerFormatLoop path text segments segment false = .error message) := by
  induction text generalizing segments segment with
  | nil =>
    rw [fromServerFormatLoop.eq_def]
    simp only [List.splitOn_nil, List.modifyHead_cons, List.append_nil, finishPath]
    by_cases named : segment = []
    · subst named
      exact Or.inr ⟨by simp, _, rfl⟩
    · rw [finishSegment_of_ne named]
      exact Or.inl ⟨by simpa using Ne.symm named, rfl⟩
  | cons c text ih =>
    have rest : ∀ d ∈ text, d ≠ null ∧ d ≠ backtick ∧ d ≠ backslash := fun d member =>
      plain d (List.mem_cons_of_mem c member)
    rw [List.splitOn_cons_eq_if_modifyHead]
    by_cases dot : c = '.'
    · subst dot
      have next := ih rest (segments ++ [String.ofList segment]) []
      have unchanged : (text.splitOn '.').modifyHead ([] ++ ·) = text.splitOn '.' := by
        cases text.splitOn '.' <;> rfl
      simp only [unchanged] at next
      rw [loop_dot]
      simp only [beq_self_eq_true, if_true, List.modifyHead_cons, List.append_nil, List.mem_cons,
        List.map_cons]
      by_cases named : segment = []
      · subst named
        exact Or.inr ⟨Or.inl rfl, _, rfl⟩
      · rw [finishSegment_of_ne named]
        rcases next with ⟨all, read⟩ | ⟨some_empty, message, failed⟩
        · refine Or.inl ⟨not_or.mpr ⟨Ne.symm named, all⟩, ?_⟩
          show fromServerFormatLoop path text (segments ++ [String.ofList segment]) [] false = _
          rw [read]
          simp
        · exact Or.inr ⟨Or.inr some_empty, message, failed⟩
    · have literal : (c == '.') = false := by simpa using dot
      rw [loop_cons (plain c (by simp)) fun same => absurd same dot]
      have next := ih rest segments (segment ++ [c])
      have same : (List.modifyHead (List.cons c) (text.splitOn '.')).modifyHead (segment ++ ·) =
          (text.splitOn '.').modifyHead (segment ++ [c] ++ ·) := by
        cases text.splitOn '.' <;> simp
      simp only [literal, Bool.false_eq_true, if_false, same]
      exact next

/-- The path that is given with dots is the one that the server's format reads from the
same text, but names with some of the reserved characters are refused. -/
theorem fromDotSeparatedString_eq_ok_iff {text : String}
    (plain : ∀ c ∈ text.toList, c ≠ null ∧ c ≠ backtick ∧ c ≠ backslash)
    (path : FieldPath String) :
    fromDotSeparatedString text = .ok path ↔
      (∀ c ∈ text.toList, c ∉ ['~', '*', '/', '[', ']']) ∧ fromServerFormat text = .ok path := by
  have unchanged : (text.toList.splitOn '.').modifyHead ([] ++ ·) = text.toList.splitOn '.' := by
    cases text.toList.splitOn '.' <;> rfl
  have read := @loop_splitOn text text.toList plain [] []
  dsimp only at read
  rw [unchanged] at read
  rw [fromDotSeparatedString, fromServerFormat]
  by_cases reserved : ∃ c ∈ text.toList, c ∈ ['~', '*', '/', '[', ']']
  · rw [if_pos (by simpa using reserved)]
    refine iff_of_false (by simp) fun both => ?_
    obtain ⟨c, member, bad⟩ := reserved
    exact both.1 c member bad
  · have free : ∀ c ∈ text.toList, c ∉ ['~', '*', '/', '[', ']'] := fun c member bad =>
      reserved ⟨c, member, bad⟩
    rw [if_neg (by simpa using free), and_iff_right free]
    rcases read with ⟨all, ok⟩ | ⟨some_empty, message, failed⟩
    · rw [if_neg all, ok, List.nil_append]
    · rw [if_pos some_empty, failed]
      exact iff_of_false (by simp) (by simp)

theorem fromDotSeparatedString_eq_ok_nested : fromDotSeparatedString "a.b" = .ok ["a", "b"] := by
  refine (fromDotSeparatedString_eq_ok_iff ?_ _).mpr ⟨?_, ?_⟩
  · simp [null, backtick, backslash]
  · simp
  · simp [fromServerFormat, fromServerFormatLoop, null, backtick, backslash, finishSegment,
      finishPath]
    rfl

end FieldPath

end QuickNote.Firestore
