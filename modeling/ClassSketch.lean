import ClassSketch.ClassFile.Access
import ClassSketch.ClassFile.Attribute
import ClassSketch.ClassFile.Basic
import ClassSketch.ClassFile.ConstantPool
import ClassSketch.ClassFile.Descriptor
import ClassSketch.ClassFile.Element
import ClassSketch.ClassFile.Error
import ClassSketch.ClassFile.ModifiedUtf8
import ClassSketch.ClassFile.ParameterNames
import ClassSketch.ClassFile.Parse
import ClassSketch.ClassFile.Reader
import ClassSketch.ClassFile.Signature
import ClassSketch.Command.Arguments
import ClassSketch.Command.Run
import ClassSketch.Command.Scan
import ClassSketch.Decimal.Binary
import ClassSketch.Decimal.Layout
import ClassSketch.Decimal.Shortest
import ClassSketch.Decl.Basic
import ClassSketch.Decl.ClassName
import ClassSketch.Decl.Codec
import ClassSketch.Decl.Literal
import ClassSketch.Decl.Modifiers
import ClassSketch.Decl.Rules
import ClassSketch.Decl.TypeRef
import ClassSketch.Doc.DocText
import ClassSketch.Doc.MemberKey
import ClassSketch.Doc.ParamTags
import ClassSketch.Doc.Properties
import ClassSketch.Doc.Sentence
import ClassSketch.Doc.Store
import ClassSketch.Doc.Template
import ClassSketch.Entries
import ClassSketch.Files.Path
import ClassSketch.Files.Tree
import ClassSketch.Json.Basic
import ClassSketch.Json.Number
import ClassSketch.Json.Printer
import ClassSketch.Json.Reader
import ClassSketch.Locate.Error
import ClassSketch.Locate.Locator
import ClassSketch.Locate.SearchPath
import ClassSketch.Main
import ClassSketch.Sketch.Batch
import ClassSketch.Sketch.Documentation
import ClassSketch.Sketch.Error
import ClassSketch.Sketch.Members
import ClassSketch.Sketch.Nesting
import ClassSketch.Sketch.Settings
import ClassSketch.Sketch.SettingsFile
import ClassSketch.Sketch.Skeleton
import ClassSketch.Sketch.Values
import ClassSketch.Text.Blank
import ClassSketch.Text.Hex
import ClassSketch.Text.Lines
import ClassSketch.Text.Lowercase
import ClassSketch.Text.Utf16
import ClassSketch.Text.Utf8
import ClassSketch.Text.Word
import ClassSketch.Toml.Document
import ClassSketch.Toml.Scalar
import ClassSketch.Toml.Value
import ClassSketch.Proofs.Parsing
import ClassSketch.Proofs.Signature.Derivation
import ClassSketch.Proofs.Signature.Reading
import ClassSketch.Proofs.Signature.Forms
import ClassSketch.Proofs.Signature.Unambiguous
import ClassSketch.Proofs.Signature.Faults
import ClassSketch.Proofs.ClassFile.Layout
import ClassSketch.Proofs.ClassFile.LocalVariables
import ClassSketch.Proofs.ClassFile.Encoding
import ClassSketch.Proofs.ClassFile.RoundTrip
import ClassSketch.Proofs.Doc.ParamNames
import ClassSketch.Proofs.Doc.StaleTags
import ClassSketch.Proofs.Sketch.Skeleton
import ClassSketch.Proofs.Sketch.ParamNames
import ClassSketch.Proofs.Locate.Filing
import ClassSketch.Proofs.Sketch.Nesting
import ClassSketch.Proofs.Sketch.Recursion
import ClassSketch.Proofs.Sketch.MemberTree
import ClassSketch.Proofs.Sketch.Members
import ClassSketch.Proofs.Sketch.Rules
import ClassSketch.Proofs.Sketch.Noise
import ClassSketch.Proofs.ClassFile.Synthetic
import ClassSketch.Proofs.Sketch.Inclusion
import ClassSketch.Proofs.Sketch.Reuse
import ClassSketch.Proofs.Sketch.Structure
import ClassSketch.Proofs.Sketch.Dropped
import ClassSketch.Proofs.Sketch.Lost
import ClassSketch.Proofs.Doc.PropertyLayout
import ClassSketch.Proofs.Doc.PropertyLines
import ClassSketch.Proofs.Doc.PropertyEscapes
import ClassSketch.Proofs.Doc.PropertyRoundTrip
import ClassSketch.Proofs.Doc.PropertyFaults
import ClassSketch.Proofs.ClassFile.Truncation
import ClassSketch.Proofs.ClassFile.Stored
import ClassSketch.Proofs.ClassFile.AttributeOrder
import ClassSketch.Proofs.ClassFile.Rearranged
import ClassSketch.Proofs.Doc.TemplateSegments
import ClassSketch.Proofs.Signature.CommonLanguage
import ClassSketch.Proofs.Signature.Spelling
import ClassSketch.Proofs.Doc.Asking
import ClassSketch.Proofs.Doc.SharedStore
import ClassSketch.Proofs.Sketch.Batch
import ClassSketch.Proofs.Sketch.DocumentationKeys
import ClassSketch.Proofs.Doc.FrozenStore
import ClassSketch.Proofs.Doc.MemberKeys
import ClassSketch.Proofs.Locate.Composition
import ClassSketch.Proofs.Decl.RoundTrip
import ClassSketch.Proofs.Sketch.Parameters
import ClassSketch.Proofs.Doc.TagBlocks
import ClassSketch.Proofs.Sketch.AnnotationValues
import ClassSketch.Proofs.Text.Solid
import ClassSketch.Proofs.Doc.Division
import ClassSketch.Proofs.Signature.Pinpoint
import ClassSketch.Proofs.Doc.SentenceEnds
import ClassSketch.Proofs.Doc.TagNormalForm
import ClassSketch.Proofs.Doc.DroppedChoices
import ClassSketch.Proofs.ClassFile.Groups
import ClassSketch.Proofs.ClassFile.Constants
import ClassSketch.Proofs.Files.Following
import ClassSketch.Proofs.Decl.NameForms
import ClassSketch.Proofs.Files.Scanning
import ClassSketch.Proofs.Doc.TitlePlace
import ClassSketch.Proofs.Sketch.ConstantLiterals
