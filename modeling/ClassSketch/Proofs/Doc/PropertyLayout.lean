import ClassSketch.Doc.Properties
import Mathlib.Data.List.Forall2

/-!
# Layouts of property files

The same entries can be written down in many ways. A character outside ASCII stands as it is or as
the escapes of its UTF-16 units, an encoded line is broken at any number of places, blank lines and
comments stand between the entries, and every line has its own line end. `Written` relates entries
to all of these texts.

## The places for a break

An encoded line is a list of pieces, and a break stands between two of them, before the first or
after the last, so never inside an escape. A reader drops the blanks at the start of a continuing
line, which is why what follows a break must not start with a blank of its own.

## Main definitions

* `Properties.Piece` — a raw character, an escaped one, or the escape of a UTF-16 unit
* `Properties.Spelled` — the pieces that spell a text
* `Properties.Laid` — an encoded line with breaks in it
* `Properties.Line`, `Properties.Written` — one line of a file, and the whole file

## Main results

* `Properties.exists_written` — every list of entries can be written
-/

namespace ClassSketch

namespace Properties

/-! ### Pieces -/

/-- What an encoded line is made of: a character, a character after a backslash, or the escape of a
UTF-16 unit with its four digits. -/
inductive Piece where
  | raw (c : Char)
  | escape (c : Char)
  | unit (a b c d : Char)
  deriving Repr, DecidableEq

/-- The characters of a piece. -/
def Piece.text : Piece → List Char
  | raw c => [c]
  | escape c => ['\\', c]
  | unit a b c d => ['\\', 'u', a, b, c, d]

/-- A piece is the escape of a unit. The digits may be of either case. -/
inductive Piece.Denotes : Piece → UInt16 → Prop
  | unit {a b c d : Char} {u : UInt16} (h : Text.hexUnit? a b c d = some u) :
      Denotes (.unit a b c d) u

/-- The characters of an encoded line. -/
def encoded (pieces : List Piece) : List Char := pieces.flatMap Piece.text

@[simp] theorem encoded_nil : encoded [] = [] := rfl

@[simp] theorem encoded_cons (p : Piece) (ps : List Piece) :
    encoded (p :: ps) = p.text ++ encoded ps := List.flatMap_cons

@[simp] theorem encoded_append (ps qs : List Piece) :
    encoded (ps ++ qs) = encoded ps ++ encoded qs := List.flatMap_append

/-! ### Spelling a text -/

/-- The characters that are escaped wherever they stand. -/
def marks : List Char := ['\\', '\t', '\n', '\r', '\x0c', '=', ':', '#', '!']

/-- Whether a character is escaped, where `space` says whether a space is. -/
def mustEscape (space : Bool) (c : Char) : Bool := marks.contains c || (space && c == ' ')

/-- The character after the backslash in the escape of a character. -/
def escapeLetter (c : Char) : Char :=
  if c = '\t' then 't'
  else if c = '\n' then 'n'
  else if c = '\r' then 'r'
  else if c = '\x0c' then 'f'
  else c

/-- The pieces that spell a character, where `space` says whether a space is escaped. -/
inductive Spells (space : Bool) (c : Char) : List Piece → Prop
  | raw (h : mustEscape space c = false) : Spells space c [.raw c]
  | escape (h : mustEscape space c = true) : Spells space c [.escape (escapeLetter c)]
  | units {ps : List Piece} (hc : 128 ≤ c.toNat)
      (h : List.Forall₂ Piece.Denotes ps (Text.units c)) : Spells space c ps

/-- The pieces that spell a text, where `first` and `later` say whether a space is escaped as its
first character and as a later one. -/
inductive Spelled : Bool → Bool → List Char → List Piece → Prop
  | nil {first later : Bool} : Spelled first later [] []
  | cons {first later : Bool} {c : Char} {s : List Char} {ps qs : List Piece}
      (hc : Spells first c ps) (h : Spelled later later s qs) :
      Spelled first later (c :: s) (ps ++ qs)

/-- Every text can be spelled, with an escape for every character that needs one. -/
theorem exists_spelled (s : List Char) : ∀ first later : Bool, ∃ ps, Spelled first later s ps := by
  induction s with
  | nil => exact fun _ _ => ⟨[], .nil⟩
  | cons c s ih =>
    intro first later
    obtain ⟨qs, h⟩ := ih later later
    by_cases hc : mustEscape first c = true
    · exact ⟨_, .cons (.escape hc) h⟩
    · exact ⟨_, .cons (.raw (by simpa using hc)) h⟩

/-! ### What pieces hold

The readers look at pieces one at a time, so all they need to know of a spelled text is what each of
its pieces may be. -/

/-- What a piece of a spelled text may be, where `space` says whether a space is escaped. -/
inductive Piece.Fits (space : Bool) : Piece → Prop
  | raw {c : Char} (h : mustEscape space c = false) : Fits space (.raw c)
  | escape {c : Char} (h : c ≠ '\n' ∧ c ≠ '\r' ∧ c ≠ 'u') : Fits space (.escape c)
  | unit {a b c d : Char} {u : UInt16} (h : Text.hexUnit? a b c d = some u) :
      Fits space (.unit a b c d)

theorem mem_of_mustEscape {space : Bool} {c : Char} (h : mustEscape space c = true) :
    c ∈ ' ' :: marks := by
  rw [mustEscape, Bool.or_eq_true, Bool.and_eq_true, List.contains_iff_mem, beq_iff_eq] at h
  rcases h with h | ⟨-, rfl⟩
  · exact List.mem_cons_of_mem ' ' h
  · exact List.mem_cons_self

theorem ne_of_mustEscape {space : Bool} {c d : Char} (h : mustEscape space c = false)
    (hd : mustEscape space d = true) : c ≠ d := by
  rintro rfl
  rw [h] at hd
  cases hd

/-- What needs no escape where blanks need one needs none elsewhere. -/
theorem mustEscape_of_le {space space' : Bool} {c : Char} (h : mustEscape space c = false)
    (hle : space' ≤ space) : mustEscape space' c = false := by
  rw [mustEscape, Bool.or_eq_false_iff] at h ⊢
  refine ⟨h.1, ?_⟩
  cases space'
  · rfl
  · rw [hle rfl] at h
    exact h.2

theorem isGap_of_mustEscape {c : Char} (h : mustEscape true c = false) : isGap c = false := by
  have hSpace : c ≠ ' ' := ne_of_mustEscape h rfl
  have hTab : c ≠ '\t' := ne_of_mustEscape h rfl
  have hFeed : c ≠ '\x0c' := ne_of_mustEscape h rfl
  simp [isGap, hSpace, hTab, hFeed]

/-- The letter of an escape ends no line and starts no escape by digits. -/
theorem escapeLetter_ne {space : Bool} {c : Char} (h : mustEscape space c = true) :
    escapeLetter c ≠ '\n' ∧ escapeLetter c ≠ '\r' ∧ escapeLetter c ≠ 'u' := by
  have hAll : (' ' :: marks).all (fun c =>
      decide (escapeLetter c ≠ '\n' ∧ escapeLetter c ≠ '\r' ∧ escapeLetter c ≠ 'u')) = true := by
    decide
  exact of_decide_eq_true (List.all_eq_true.mp hAll c (mem_of_mustEscape h))

/-- No character that may have to be escaped is a digit. -/
theorem hexValue?_eq_none {space : Bool} {c : Char} (h : mustEscape space c = true) :
    Text.hexValue? c = none := by
  have hAll : (' ' :: marks).all (fun c => decide (Text.hexValue? c = none)) = true := by decide
  exact of_decide_eq_true (List.all_eq_true.mp hAll c (mem_of_mustEscape h))

theorem exists_hexValue? {a b c d e : Char} {u : UInt16} (h : Text.hexUnit? a b c d = some u)
    (he : e ∈ [a, b, c, d]) : ∃ n, Text.hexValue? e = some n := by
  simp only [Text.hexUnit?, bind, Option.bind_eq_some_iff] at h
  obtain ⟨k, ha, l, hb, m, hc, n, hd, -⟩ := h
  simp only [List.mem_cons, List.not_mem_nil, or_false] at he
  rcases he with rfl | rfl | rfl | rfl
  · exact ⟨k, ha⟩
  · exact ⟨l, hb⟩
  · exact ⟨m, hc⟩
  · exact ⟨n, hd⟩

/-- Hexadecimal digits need no escape. -/
theorem mustEscape_digit {space : Bool} {a b c d e : Char} {u : UInt16}
    (h : Text.hexUnit? a b c d = some u) (he : e ∈ [a, b, c, d]) : mustEscape space e = false := by
  by_contra hne
  obtain ⟨n, hn⟩ := exists_hexValue? h he
  rw [hexValue?_eq_none (by simpa using hne)] at hn
  cases hn

theorem Spells.fits {space space' : Bool} {c : Char} {ps : List Piece} (h : Spells space c ps)
    (hle : space' ≤ space) : ∀ p ∈ ps, p.Fits space' := by
  cases h with
  | raw h => simpa using Piece.Fits.raw (mustEscape_of_le h hle)
  | escape h => simpa using Piece.Fits.escape (escapeLetter_ne h)
  | units _ h =>
    intro p hp
    obtain ⟨u, hDenotes⟩ : ∃ u, p.Denotes u := by
      obtain ⟨i, hi, rfl⟩ := List.getElem_of_mem hp
      exact ⟨_, h.get hi (h.length_eq ▸ hi)⟩
    cases hDenotes with
    | unit h => exact .unit h

/-- The pieces that spell a text fit where they stand. -/
theorem Spelled.fits {first later : Bool} {s : List Char} {ps : List Piece}
    (h : Spelled first later s ps) (hle : later ≤ first) : ∀ p ∈ ps, p.Fits later := by
  induction h with
  | nil => simp
  | cons hc _ ih =>
    intro p hp
    rcases List.mem_append.mp hp with hp | hp
    · exact hc.fits hle p hp
    · exact ih (Bool.le_refl _) p hp

/-! ### Lines -/

/-- A line end. -/
def IsLineEnd (s : List Char) : Prop := s = ['\n'] ∨ s = ['\r', '\n']

/-- The texts that an encoded line is laid out as. A break is a backslash, a line end and the
indentation of the next line, and no blank of the encoded line follows it. -/
inductive Laid : List Piece → List Char → Prop
  | nil : Laid [] []
  | piece (p : Piece) {ps : List Piece} {s : List Char} (h : Laid ps s) :
      Laid (p :: ps) (p.text ++ s)
  | broken {ps : List Piece} {lineEnd indent s : List Char} (hEnd : IsLineEnd lineEnd)
      (hIndent : skipGap indent = []) (hs : skipGap s = s) (h : Laid ps s) :
      Laid ps ('\\' :: (lineEnd ++ (indent ++ s)))

/-- Pieces without breaks between them are a layout. -/
theorem laid_encoded : ∀ ps : List Piece, Laid ps (encoded ps)
  | [] => .nil
  | p :: ps => .piece p (laid_encoded ps)

/-- A blank line, a comment or a logical line, without its line end, and the entry on it. -/
inductive Line : List (String × String) → List Char → Prop
  | blank {s : List Char} (h : skipGap s = []) : Line [] s
  | comment {indent s : List Char} {sign : Char} (hIndent : skipGap indent = [])
      (hSign : sign = '#' ∨ sign = '!') (hs : '\n' ∉ s) : Line [] (indent ++ sign :: s)
  | entry {key value : String} {ks vs : List Piece} {s : List Char}
      (hKey : Spelled true true key.toList ks) (hValue : Spelled true false value.toList vs)
      (h : Laid (ks ++ .raw '=' :: vs) s) : Line [(key, value)] s

/-- The texts that entries are written as: lines, each with its line end, of which the last one has
none. -/
inductive Written : List (String × String) → List Char → Prop
  | last {entries : List (String × String)} {s : List Char} (h : Line entries s) :
      Written entries s
  | cons {entries later : List (String × String)} {s lineEnd t : List Char}
      (h : Line entries s) (hEnd : IsLineEnd lineEnd) (ht : Written later t) :
      Written (entries ++ later) (s ++ (lineEnd ++ t))

/-- Every list of entries can be written. -/
theorem exists_written (entries : List (String × String)) : ∃ s, Written entries s := by
  induction entries with
  | nil => exact ⟨[], .last (.blank rfl)⟩
  | cons e entries ih =>
    obtain ⟨t, ht⟩ := ih
    obtain ⟨ks, hKey⟩ := exists_spelled e.1.toList true true
    obtain ⟨vs, hValue⟩ := exists_spelled e.2.toList true false
    exact ⟨_, .cons (.entry hKey hValue (laid_encoded _)) (.inl rfl) ht⟩

end Properties

end ClassSketch
