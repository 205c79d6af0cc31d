import ClassSketch.Files.Tree
import ClassSketch.Sketch.Settings
import ClassSketch.Toml.Document

/-!
# Files of settings

A file of settings is a TOML document that holds those that differ from the defaults. Keys that are
no setting are left out; a setting of the wrong kind is refused.

## Main definitions

* `Settings.ofToml?`: the settings that the entries of a document stand for
* `Settings.parse?`: the settings that a text stands for
* `Settings.load`: the settings in a file
-/

namespace ClassSketch

namespace Toml

/-- Reads the entry of a key; without one the value is the given default. -/
def entryOr? {α : Type} (entries : List (String × Toml)) (key : String) (default : α)
    (read : Toml → Option α) : Option α :=
  match valueOf? key entries with
  | none => some default
  | some value => read value

/-- The key under which a date or time stands where entries are expected. -/
def datetimeKey : String := "$__toml_private_datetime"

/-- The entries of a table of strings. -/
def asStringEntries? : Toml → Option (List (String × String))
  | table entries => entries.mapM fun (key, value) => (asString? value).map (key, ·)
  | datetime text => some [(datetimeKey, text)]
  | _ => none

end Toml

open Toml

/-- Settings of templates: a table, or an array of the two settings in order. A date or time has
none of the two entries. -/
def TemplateSettings.ofToml? : Toml → Option TemplateSettings
  | table entries => do
    return ⟨← entryOr? entries "enabled" false asBool?,
      ← entryOr? entries "values" [] asStringEntries?⟩
  | array [] => some {}
  | array [enabled] => do return ⟨← asBool? enabled, []⟩
  | array (enabled :: values :: _) => do return ⟨← asBool? enabled, ← asStringEntries? values⟩
  | datetime _ => some {}
  | _ => none

namespace Settings

/-- The settings that the entries of a document stand for. -/
def ofToml? (entries : List (String × Toml)) : Option Settings := do
  let d : Settings := {}
  return {
    docAnnotation := ← entryOr? entries "doc_annotation" d.docAnnotation asString?
    internalAnnotations :=
      ← entryOr? entries "internal_annotations" d.internalAnnotations asStrings?
    markerInterfaces := ← entryOr? entries "marker_interfaces" d.markerInterfaces asStrings?
    excludedMethods := ← entryOr? entries "excluded_methods" d.excludedMethods asStrings?
    excludedNestedSuffixes :=
      ← entryOr? entries "excluded_nested_suffixes" d.excludedNestedSuffixes asStrings?
    documentationSuffix :=
      ← entryOr? entries "documentation_suffix" d.documentationSuffix asString?
    validateParamTags := ← entryOr? entries "validate_param_tags" d.validateParamTags asBool?
    templates := ← entryOr? entries "templates" d.templates TemplateSettings.ofToml? }

/-- The settings that a text stands for. -/
def parse? (text : String) : Option Settings := do ofToml? (← Toml.parse? text)

end Settings

/-- Why a file of settings cannot be used. -/
inductive SettingsError where
  | file (path : Path) (fault : FileFault)
  | malformed (path : Path)
  deriving Repr, DecidableEq, BEq

/-- The settings in a file. -/
def Settings.load (files : FileTree) (path : Path) : Except SettingsError Settings := do
  match Settings.parse? (← (files.readText path).mapError (.file path)) with
  | some settings => return settings
  | none => throw (.malformed path)

end ClassSketch
