import ClassSketch.Files.Path
import ClassSketch.Proofs.Text.Utf8
import ClassSketch.Proofs.Text.Words

/-!
# Paths that are texts

Paths are bytes, and a program that is given a text has no other paths than those of texts. The path
of a text is shown as this text again. Slashes and points are bytes of their own in it, so that it
is cut into names where the text is.

## Main definitions

* `Path.IsText` — a path that a text names

## Main results

* `Path.display_ofText` — the path of a text is shown as the text
* `Path.display_eq_iff`, `Path.mem_display_iff` — what is shown for paths that need not be texts
* `Path.slash_mem_ofText`, `Path.point_mem_ofText` — the bytes that separate names
* `Path.ofText_intercalate` — names that are joined
-/

namespace ClassSketch

namespace Path

variable {text other : String}

/-- The path is the one that some text names. -/
def IsText (path : Path) : Prop := ∃ text, path = ofText text

@[simp] theorem display_ofText (text : String) : display (ofText text) = text := by
  rw [display, ofText, Text.decodeUtf8Lossy_encodeUtf8, String.ofList_toList]

/-- Different texts have different paths. -/
theorem ofText_inj : ofText text = ofText other ↔ text = other := by
  rw [ofText, ofText, Text.encodeUtf8_inj, String.toList_inj]

theorem ofText_append (text other : String) :
    ofText (text ++ other) = ofText text ++ ofText other := by
  rw [ofText, String.toList_append, Text.encodeUtf8_append, ofText, ofText]

theorem slash_mem_ofText : slash ∈ ofText text ↔ '/' ∈ text.toList :=
  Text.mem_encodeUtf8_iff (by decide)

theorem point_mem_ofText : point ∈ ofText text ↔ '.' ∈ text.toList :=
  Text.mem_encodeUtf8_iff (by decide)

/-- A text of characters of one byte is shown for its own path only. -/
theorem display_eq_iff {path : Path} (hText : ∀ c ∈ text.toList, c.toNat < 0x80) :
    display path = text ↔ path = ofText text := by
  constructor
  · intro h
    refine Text.eq_encodeUtf8_of_decodeUtf8Lossy hText ?_
    rw [← h, display, String.toList_ofList]
  · rintro rfl
    exact display_ofText text

/-- A character of one byte is shown where this byte is. -/
theorem mem_display_iff {path : Path} {b : UInt8} (h : b.toNat < 0x80) :
    Text.byteChar b ∈ (display path).toList ↔ b ∈ path := by
  rw [display, String.toList_ofList, Text.mem_decodeUtf8Lossy_iff h]

/-- Names that are texts are the paths of these. -/
theorem exists_texts {names : List Path} (h : ∀ name ∈ names, IsText name) :
    ∃ texts : List String, names = texts.map ofText := by
  induction names with
  | nil => exact ⟨[], rfl⟩
  | cons name names ih =>
    obtain ⟨⟨text, rfl⟩, hNames⟩ := List.forall_mem_cons.mp h
    obtain ⟨texts, rfl⟩ := ih hNames
    exact ⟨text :: texts, rfl⟩

/-- What is before a text of characters of one byte is a text, if the whole is one. -/
theorem isText_of_append {front : Path} (hText : ∀ c ∈ text.toList, c.toNat < 0x80)
    (h : IsText (front ++ ofText text)) : IsText front := by
  obtain ⟨whole, hWhole⟩ := h
  obtain ⟨chars, hFront⟩ := Text.exists_encodeUtf8_of_append hText hWhole
  exact ⟨String.ofList chars, by rw [hFront, ofText, String.toList_ofList]⟩

/-- The path of joined texts leads through the names that they are. -/
theorem ofText_intercalate (texts : List String) :
    ofText ("/".intercalate texts) = ofNames (texts.map ofText) := by
  have hText : ("/".intercalate texts).toList = ['/'].intercalate (texts.map String.toList) := by
    simp
  rw [ofText, hText, ofNames]
  clear hText
  induction texts with
  | nil => rfl
  | cons text texts ih =>
    cases texts with
    | nil => simp [ofText]
    | cons next texts =>
      simp only [List.map_cons, List.intercalate_cons_cons, Text.encodeUtf8_append] at ih ⊢
      rw [ih]
      rfl

end Path

end ClassSketch
