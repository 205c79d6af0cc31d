import ClassSketch.Proofs.Doc.PropertyEscapes
import ClassSketch.Proofs.Doc.PropertyLines
import ClassSketch.Proofs.Entries
import ClassSketch.Proofs.Parsing

/-!
# Reading property files back

A reader joins lines, cuts a logical line at its separator and takes the escapes out. The three have
to agree on what is escaped. They do because each of them passes over a piece as a whole: no piece
ends a line or continues it, no piece of a key is a separator, and the pieces that spell a character
are read as that character and leave no surrogate waiting.

## Main results

* `Properties.splitEntry_encoded` — the key of an encoded line
* `Properties.unescape?_spelled` — the text that spelled pieces stand for
* `Properties.forall₂_written` — the entries on the logical lines of a file
* `Properties.parse_written` — entries with different keys are read back, however they are written
-/

namespace ClassSketch

namespace Properties

open Text

/-! ### Cutting at the separator -/

theorem splitEntry_raw {c : Char} (h : mustEscape true c = false) (s : List Char) :
    splitEntry false (c :: s) = (c :: (splitEntry false s).1, (splitEntry false s).2) := by
  have hEquals : (c == '=') = false := beq_eq_false_iff_ne.mpr (ne_of_mustEscape h rfl)
  have hColon : (c == ':') = false := beq_eq_false_iff_ne.mpr (ne_of_mustEscape h rfl)
  have hSlash : (c == '\\') = false := beq_eq_false_iff_ne.mpr (ne_of_mustEscape h rfl)
  rw [splitEntry, hEquals, hColon, isGap_of_mustEscape h, hSlash]
  rfl

theorem splitEntry_escape (c : Char) (s : List Char) :
    splitEntry false ('\\' :: c :: s) =
      ('\\' :: c :: (splitEntry false s).1, (splitEntry false s).2) := by
  rw [splitEntry, splitEntry]
  rfl

/-- A piece of a key stays in the key. -/
theorem Piece.Fits.splitEntry {p : Piece} (hp : p.Fits true) (s : List Char) :
    splitEntry false (p.text ++ s) =
      (p.text ++ (splitEntry false s).1, (splitEntry false s).2) := by
  cases hp with
  | raw h => exact splitEntry_raw h s
  | escape h => exact splitEntry_escape _ s
  | @unit a b c d u h =>
    have hDigit : ∀ e ∈ [a, b, c, d], mustEscape true e = false := fun e he =>
      mustEscape_digit h he
    simp only [List.forall_mem_cons] at hDigit
    obtain ⟨ha, hb, hc, hd, -⟩ := hDigit
    simp only [Piece.text, List.cons_append, List.nil_append]
    rw [splitEntry_escape, splitEntry_raw ha, splitEntry_raw hb, splitEntry_raw hc,
      splitEntry_raw hd]

theorem splitEntry_encoded {ps : List Piece} (hFits : ∀ p ∈ ps, p.Fits true) (s : List Char) :
    splitEntry false (encoded ps ++ s) =
      (encoded ps ++ (splitEntry false s).1, (splitEntry false s).2) := by
  induction ps with
  | nil => rfl
  | cons p ps ih =>
    rw [List.forall_mem_cons] at hFits
    rw [encoded_cons, List.append_assoc, hFits.1.splitEntry, ih hFits.2, List.append_assoc]

/-! ### Taking the escapes out -/

theorem unescapeFrom_denotes {p : Piece} {u : UInt16} (h : p.Denotes u) (waiting : Option UInt16)
    (s : List Char) :
    unescapeFrom waiting (p.text ++ s) =
      (unescapeFrom (addUnit waiting u).2 s).map ((addUnit waiting u).1 ++ ·) := by
  cases h with
  | unit h => exact unescapeFrom_unit (unit?_eq_some_iff.mpr (.inl h)) waiting s

theorem escapedChar_escapeLetter {space : Bool} {c : Char} (h : mustEscape space c = true) :
    escapedChar (escapeLetter c) = c := by
  have hAll : (' ' :: marks).all (fun c => decide (escapedChar (escapeLetter c) = c)) = true := by
    decide
  exact of_decide_eq_true (List.all_eq_true.mp hAll c (mem_of_mustEscape h))

/-- The pieces that spell a character are read as it, and no surrogate is left waiting. -/
theorem unescapeFrom_spells {space : Bool} {c : Char} {ps : List Piece} (h : Spells space c ps)
    (s : List Char) :
    unescapeFrom none (encoded ps ++ s) = (unescapeFrom none s).map (c :: ·) := by
  cases h with
  | raw h => exact unescapeFrom_raw (ne_of_mustEscape h rfl) none s
  | escape h =>
    have hRead := unescapeFrom_escape (escapeLetter_ne h).2.2 none s
    rwa [escapedChar_escapeLetter h] at hRead
  | units _ h =>
    rcases units_cases c with ⟨u, hu, hHigh, hLow, hc⟩ | ⟨high, low, hu, hHigh, hLow, hc⟩
    · rw [hu] at h
      obtain ⟨p, qs, hp, hqs, rfl⟩ := List.forall₂_cons_right_iff.mp h
      rw [List.forall₂_nil_right_iff] at hqs
      have hAdd : addUnit none u = ([c], none) := by simp [addUnit, hHigh, hLow, hc]
      rw [hqs, encoded_cons, encoded_nil, List.append_nil, unescapeFrom_denotes hp, hAdd]
      rfl
    · rw [hu] at h
      obtain ⟨p, qs, hp, hqs, rfl⟩ := List.forall₂_cons_right_iff.mp h
      obtain ⟨q, rs, hq, hrs, rfl⟩ := List.forall₂_cons_right_iff.mp hqs
      rw [List.forall₂_nil_right_iff] at hrs
      have hAdd : addUnit none high = ([], some high) := by simp [addUnit, hHigh]
      have hAdd' : addUnit (some high) low = ([c], none) := by simp [addUnit, hLow, hc]
      rw [hrs, encoded_cons, encoded_cons, encoded_nil, List.append_nil, List.append_assoc,
        unescapeFrom_denotes hp, hAdd, unescapeFrom_denotes hq, hAdd', Option.map_map]
      rfl

/-- Spelled pieces stand for the text that they spell. -/
theorem unescape?_spelled {first later : Bool} {s : List Char} {ps : List Piece}
    (h : Spelled first later s ps) : unescape? (encoded ps) = some s := by
  induction h with
  | nil => rfl
  | cons hc _ ih =>
    rw [unescape?] at ih ⊢
    rw [encoded_append, unescapeFrom_spells hc, ih, Option.map_some]

/-! ### One entry -/

theorem Spells.ne_nil {space : Bool} {c : Char} {ps : List Piece} (h : Spells space c ps) :
    ps ≠ [] := by
  cases h with
  | raw => exact List.cons_ne_nil _ _
  | escape => exact List.cons_ne_nil _ _
  | units _ h =>
    rintro rfl
    have hUnits : Text.units c = [] := List.forall₂_nil_left_iff.mp h
    rcases units_cases c with ⟨u, hu, -⟩ | ⟨high, low, hu, -⟩
    · rw [hUnits] at hu
      cases hu
    · rw [hUnits] at hu
      cases hu

/-- No blank at the start of an encoded value is taken for one that follows the separator. -/
theorem skipGap_value {later : Bool} {s : List Char} {ps : List Piece}
    (h : Spelled true later s ps) : skipGap (encoded ps) = encoded ps := by
  cases h with
  | nil => rfl
  | @cons _ _ c s ps qs hc h =>
    obtain ⟨p, rs, rfl⟩ := List.exists_cons_of_ne_nil hc.ne_nil
    exact skipGap_laid (hc.fits (Bool.le_refl _) p List.mem_cons_self).opens (laid_encoded _)

theorem parseLine_entry {key value : String} {ks vs : List Piece}
    (hKey : Spelled true true key.toList ks) (hValue : Spelled true false value.toList vs)
    (m : ℕ) : parseLine ⟨m, encoded ks ++ '=' :: encoded vs⟩ = .ok (key, value) := by
  have hSplit : splitEntry false (encoded ks ++ '=' :: encoded vs) = (encoded ks, encoded vs) := by
    rw [splitEntry_encoded (hKey.fits (Bool.le_refl _))]
    change (encoded ks ++ [], skipGap (encoded vs)) = _
    rw [List.append_nil, skipGap_value hValue]
  rw [parseLine]
  simp only [hSplit, unescape?_spelled hKey, unescape?_spelled hValue, String.ofList_toList]

/-! ### Whole files -/

/-- A line of a file gives logical lines with its entries, and the lines after it are read on. -/
theorem joinLines_line {entries : List (String × String)} {s tail rest : List Char}
    (h : Line entries s) (hEnds : Ends tail rest) (n : ℕ) :
    ∃ ls k, joinLines none n (lines (s ++ tail)) = ls ++ joinLines none k (lines rest) ∧
      List.Forall₂ (fun l e => parseLine l = .ok e) ls entries := by
  cases h with
  | blank h => exact ⟨[], n + 1, joinLines_blank n h hEnds, .nil⟩
  | comment hIndent hSign hs =>
    exact ⟨[], n + 1, joinLines_comment n hIndent hSign hs hEnds, .nil⟩
  | entry hKey hValue h =>
    obtain ⟨m, k, hLine⟩ := joinLines_entry n (hKey.fits (Bool.le_refl _))
      (hValue.fits (Bool.false_le _)) h hEnds
    exact ⟨_, k, hLine, .cons (parseLine_entry hKey hValue m) .nil⟩

/-- The logical lines of a file hold its entries. -/
theorem forall₂_written {entries : List (String × String)} {s : List Char}
    (h : Written entries s) : ∀ n,
      List.Forall₂ (fun l e => parseLine l = .ok e) (joinLines none n (lines s)) entries := by
  induction h with
  | @last entries s h =>
    intro n
    obtain ⟨ls, k, hLines, hRead⟩ := joinLines_line h .last n
    have hEnd : joinLines none k (lines []) = [] := rfl
    rw [List.append_nil, hEnd, List.append_nil] at hLines
    rwa [hLines]
  | cons h hEnd _ ih =>
    intro n
    obtain ⟨ls, k, hLines, hRead⟩ := joinLines_line h (.lineEnd hEnd) n
    rw [hLines]
    exact List.rel_append hRead (ih k)

/-- **Entries with different keys are read back in their order**, whichever characters are escaped
as units, however the lines end and wherever they are broken, and whatever comments stand between
them. -/
theorem parse_written {entries : List (String × String)} {text : String}
    (hKeys : (entries.map Prod.fst).Nodup) (h : Written entries text.toList) :
    parse text = .ok ⟨entries⟩ := by
  have hRead : (logicalLines text.toList).mapM parseLine = .ok entries :=
    Except.mapM_eq_ok_of_forall₂ (forall₂_written h 1)
  have hTable : entries.foldl _ [] = entries := foldl_putEntry (by simpa using hKeys)
  rw [parse, hRead]
  exact congrArg (fun entries => Except.ok (Properties.mk entries)) hTable

/-- A file with comments, a blank line, both line ends, and breaks before a word and between the two
units of a character. -/
theorem parse_written_scattered :
    parse "! seasons\r\n\r\na\\ b=\\u00e9 \\\r\n  x\\\\\n# end\nk\\uD83D\\\n\\ude00=\\  y" =
      .ok ⟨[("a b", "é x\\"), ("k😀", "  y")]⟩ := by
  have hAccent : Spells true 'é' [.unit '0' '0' 'e' '9'] :=
    .units (by decide) (.cons (.unit rfl) .nil)
  have hFace : Spells true '😀' [.unit 'D' '8' '3' 'D', .unit 'd' 'e' '0' '0'] :=
    .units (by decide) (.cons (.unit rfl) (.cons (.unit rfl) .nil))
  have hNone : skipGap [] = [] := rfl
  have hIndent : skipGap [' ', ' '] = [] := rfl
  have hComment : Line [] "! seasons".toList := .comment hNone (.inr rfl) (by decide)
  have hComment' : Line [] "# end".toList := .comment hNone (.inl rfl) (by decide)
  have hKey : Spelled true true "a b".toList [.raw 'a', .escape ' ', .raw 'b'] :=
    .cons (.raw rfl) (.cons (.escape rfl) (.cons (.raw rfl) .nil))
  have hValue : Spelled true false "é x\\".toList
      [.unit '0' '0' 'e' '9', .raw ' ', .raw 'x', .escape '\\'] :=
    .cons hAccent (.cons (.raw rfl) (.cons (.raw rfl) (.cons (.escape rfl) .nil)))
  have hKey' : Spelled true true "k😀".toList
      [.raw 'k', .unit 'D' '8' '3' 'D', .unit 'd' 'e' '0' '0'] :=
    .cons (.raw rfl) (.cons hFace .nil)
  have hValue' : Spelled true false "  y".toList [.escape ' ', .raw ' ', .raw 'y'] :=
    .cons (.escape rfl) (.cons (.raw rfl) (.cons (.raw rfl) .nil))
  have hFirst : Line [("a b", "é x\\")] "a\\ b=\\u00e9 \\\r\n  x\\\\".toList :=
    .entry hKey hValue (.piece _ (.piece _ (.piece _ (.piece _ (.piece _ (.piece _
      (.broken (.inr rfl) hIndent rfl (.piece _ (.piece _ .nil)))))))))
  have hSecond : Line [("k😀", "  y")] "k\\uD83D\\\n\\ude00=\\  y".toList :=
    .entry hKey' hValue' (.piece _ (.piece _ (.broken (.inl rfl) hNone rfl
      (.piece _ (.piece _ (.piece _ (.piece _ (.piece _ .nil))))))))
  exact parse_written (by decide) (.cons hComment (.inr rfl) (.cons (.blank hNone) (.inr rfl)
    (.cons hFirst (.inl rfl) (.cons hComment' (.inl rfl) (.last hSecond)))))

end Properties

end ClassSketch
