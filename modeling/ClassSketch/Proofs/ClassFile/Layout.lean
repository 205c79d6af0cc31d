import ClassSketch.ClassFile.Attribute
import ClassSketch.ClassFile.Element
import ClassSketch.Proofs.ClassFile.Pool

/-!
# Layouts

A class file is written in two passes, as an assembler works. The first gives its layout: the bytes
in order, where a constant stands for itself and has no number yet. The second collects the
constants into a pool, numbers them, and turns the layout into bytes. What a reader makes of the
bytes of a layout is then a statement about layouts, and these compose.

## Main definitions

* `Piece`, `Layout` — a class file before its constants have numbers
* `Reads` — a reader takes a layout for a value, whatever comes after it

## Main results

* `Reads.bind`, `Reads.times`, `Reads.table_u2` — readers compose as layouts do
* `Reads.u2`, `Reads.index_bind` — numbers and constants are read as they were written
* `Adds.reads` — attributes are read one after another
-/

namespace ClassSketch

/-! ### Layouts -/

/-- A piece of a class file: a number of some bytes, the number of a constant, or a constant of an
annotation behind its tag. -/
inductive Piece where
  | number (width value : ℕ)
  | index (entry : PoolEntry)
  | constant (tag : UInt8) (value : Constant)

/-- The pieces of a class file in order. -/
abbrev Layout := List Piece

namespace Piece

/-- How many bytes a piece takes. -/
def size : Piece → ℕ
  | number width _ => width
  | index _ => 2
  | constant _ _ => 3

/-- The constants that a piece needs in the pool. -/
def mentions : Piece → List PoolEntry
  | number _ _ => []
  | index entry => entry :: entry.parts
  | constant _ value => value.elementEntry :: value.elementEntry.parts

/-- With a constant a piece needs those it refers to. -/
theorem mentions_closed {piece : Piece} {e : PoolEntry} (h : e ∈ piece.mentions) :
    e.parts ⊆ piece.mentions := by
  have hParts : ∀ d : PoolEntry, e ∈ d :: d.parts → e.parts ⊆ d :: d.parts := by
    intro d hd
    rcases List.mem_cons.mp hd with rfl | hd
    · exact List.subset_cons_self _ _
    · cases d <;> simp [PoolEntry.parts] at hd <;> subst hd <;> simp [PoolEntry.parts]
  cases piece with
  | number width value => cases h
  | index entry => exact hParts entry h
  | constant tag value => exact hParts value.elementEntry h

/-- Whether a piece can be written: a number fits its bytes, and a constant its tag. -/
def Fits : Piece → Prop
  | number width value => value < 256 ^ width
  | index _ => True
  | constant tag value =>
    Element.isConstantTag (Text.byteChar tag) = true ∧
      (value.isString = true ↔ Text.byteChar tag = 's')

instance : DecidablePred Fits
  | number width value => inferInstanceAs (Decidable (value < 256 ^ width))
  | index _ => .isTrue trivial
  | constant tag value => inferInstanceAs (Decidable
      (Element.isConstantTag (Text.byteChar tag) = true ∧
        (value.isString = true ↔ Text.byteChar tag = 's')))

/-- The bytes of a piece, where constants have the numbers of the given list. -/
def bytes (entries : List PoolEntry) : Piece → List UInt8
  | number width value => Reader.toBigEndian width value
  | index entry => Reader.toBigEndian 2 (entry.number entries)
  | constant tag value =>
    Reader.toBigEndian 1 tag.toNat ++ Reader.toBigEndian 2 (value.elementEntry.number entries)

/-- The tag of an annotation element. -/
def letter (c : Char) : Piece := number 1 c.toNat

/-- The number of a constant that may be missing. -/
def optional : Option PoolEntry → Piece
  | none => number 2 0
  | some entry => index entry

end Piece

namespace Layout

/-- How many bytes a layout takes. -/
def size (s : Layout) : ℕ := (s.map Piece.size).sum

/-- The constants that a layout needs in the pool. -/
def mentions (s : Layout) : List PoolEntry := s.flatMap Piece.mentions

/-- The bytes of a layout, where constants have the numbers of the given list. -/
def bytes (entries : List PoolEntry) (s : Layout) : List UInt8 := s.flatMap (Piece.bytes entries)

/-- A table: the number of its rows, and the rows. -/
def table {α : Type} (width : ℕ) (row : α → Layout) (xs : List α) : Layout :=
  .number width xs.length :: xs.flatMap row

/-- Whether each piece can be written and has its constants in the list. -/
def FitsIn (entries : List PoolEntry) (s : Layout) : Prop :=
  ∀ piece ∈ s, piece.Fits ∧ piece.mentions ⊆ entries

/-- Layouts are written one after the other. -/
theorem bytes_append (entries : List PoolEntry) (s t : Layout) :
    bytes entries (s ++ t) = bytes entries s ++ bytes entries t :=
  List.flatMap_append

theorem bytes_cons (entries : List PoolEntry) (piece : Piece) (s : Layout) :
    bytes entries (piece :: s) = piece.bytes entries ++ bytes entries s :=
  List.flatMap_cons

/-- What is written has the length that the layout says. -/
theorem length_bytes (entries : List PoolEntry) (s : Layout) :
    (bytes entries s).length = s.size := by
  induction s with
  | nil => rfl
  | cons piece s ih =>
    have hPiece : (piece.bytes entries).length = piece.size := by
      cases piece <;> simp [Piece.bytes, Piece.size]
    rw [bytes_cons, List.length_append, hPiece, ih, size, size, List.map_cons, List.sum_cons]

theorem size_cons (piece : Piece) (s : Layout) : size (piece :: s) = piece.size + size s :=
  List.sum_cons

theorem size_append (s t : Layout) : size (s ++ t) = size s + size t := by
  rw [size, List.map_append, List.sum_append, size, size]

/-- A row of a table is not longer than the table. -/
theorem size_le_flatMap {α : Type} {row : α → Layout} {xs : List α} {x : α} (h : x ∈ xs) :
    (row x).size ≤ size (xs.flatMap row) := by
  induction xs with
  | nil => cases h
  | cons z xs ih =>
    rw [List.flatMap_cons, size_append]
    rcases List.mem_cons.mp h with rfl | h
    · omega
    · have := ih h
      omega

/-- Two layouts fit one after the other if each of them fits. -/
theorem fitsIn_append {entries : List PoolEntry} {s t : Layout} :
    FitsIn entries (s ++ t) ↔ FitsIn entries s ∧ FitsIn entries t :=
  List.forall_mem_append

namespace FitsIn

variable {entries : List PoolEntry}

theorem mem {e : PoolEntry} (h : FitsIn entries [.index e]) : e ∈ entries :=
  (h _ (List.mem_singleton_self _)).2 List.mem_cons_self

theorem lt {width n : ℕ} (h : FitsIn entries [.number width n]) : n < 256 ^ width :=
  (h _ (List.mem_singleton_self _)).1

theorem toNat_u1 {n : ℕ} (h : FitsIn entries [.number 1 n]) : n.toUInt8.toNat = n := by
  simpa using h.lt

theorem toNat_u2 {n : ℕ} (h : FitsIn entries [.number 2 n]) : n.toUInt16.toNat = n := by
  simpa using h.lt

theorem toNat_u4 {n : ℕ} (h : FitsIn entries [.number 4 n]) : n.toUInt32.toNat = n := by
  simpa using h.lt

end FitsIn

end Layout

/-! ### Reading a layout -/

/-- The reader takes the layout for the value, whatever comes after it. -/
def Reads {α : Type} (p : Pool) (r : Reader α) (s : Layout) (x : α) : Prop :=
  s.FitsIn p.entries → ∀ rest, r (s.bytes p.entries ++ rest) = .ok (x, rest)

namespace Reads

variable {α β : Type} {p : Pool} {r : Reader α} {s t : Layout} {x : α} {y : β}

theorem pure (x : α) : Reads p (Pure.pure x) [] x := fun _ _ => rfl

/-- What is read by two readers is laid out in two parts. The second one may rely on it that the
first part fits. -/
theorem bind {f : α → Reader β} (h : Reads p r s x)
    (h' : s.FitsIn p.entries → Reads p (f x) t y) : Reads p (r >>= f) (s ++ t) y := by
  intro hFits rest
  obtain ⟨hs, ht⟩ := Layout.fitsIn_append.mp hFits
  rw [Layout.bytes_append, List.append_assoc, Parsing.bind_of_ok (h hs _)]
  exact h' hs ht rest

/-- After the last piece there may be things to look up. -/
theorem bind_nil {f : α → Reader β} (h : Reads p r s x)
    (h' : s.FitsIn p.entries → Reads p (f x) [] y) : Reads p (r >>= f) s y := by
  rw [← List.append_nil s]
  exact h.bind h'

theorem bind_pure {f : α → β} (h : Reads p r s x) :
    Reads p (r >>= fun x => Pure.pure (f x)) s (f x) :=
  h.bind_nil fun _ => pure _

/-- What is looked up takes no bytes. -/
theorem lookup_bind {e : Except ClassFile.Error α} {f : α → Reader β} (he : e = .ok x)
    (h : Reads p (f x) s y) : Reads p (liftM e >>= f) s y := by
  subst he
  exact h

theorem lookup {e : Except ClassFile.Error α} (he : e = .ok x) : Reads p (liftM e) [] x := by
  subst he
  exact pure x

/-! ### Numbers -/

theorem u1 {n : ℕ} : Reads p Reader.u1 [.number 1 n] n.toUInt8 := by
  intro hFits rest
  rw [Layout.bytes, List.flatMap_singleton]
  exact Reader.u1_toBigEndian hFits.lt rest

theorem u2 {n : ℕ} : Reads p Reader.u2 [.number 2 n] n.toUInt16 := by
  intro hFits rest
  rw [Layout.bytes, List.flatMap_singleton]
  exact Reader.u2_toBigEndian hFits.lt rest

theorem u4 {n : ℕ} : Reads p Reader.u4 [.number 4 n] n.toUInt32 := by
  intro hFits rest
  rw [Layout.bytes, List.flatMap_singleton]
  exact Reader.u4_toBigEndian hFits.lt rest

/-- As many bytes as a layout takes are the bytes of this layout. -/
theorem bytes : Reads p (Reader.bytes s.size) s (s.bytes p.entries) := by
  intro _ rest
  rw [← Layout.length_bytes p.entries s]
  exact Reader.bytes_append _ rest

/-! ### Tables -/

/-- A table of as many rows as are asked for is read row by row. -/
theorem times {row : α → Layout} {xs : List α} (h : ∀ x ∈ xs, Reads p r (row x) x) :
    Reads p (Reader.times r xs.length) (xs.flatMap row) xs := by
  induction xs with
  | nil => exact pure []
  | cons x xs ih =>
    rw [List.length_cons, List.flatMap_cons, Reader.times]
    have hOthers := ih fun z hz => h z (List.mem_cons_of_mem x hz)
    exact (h x List.mem_cons_self).bind fun _ => hOthers.bind_pure

theorem table_u1 {row : α → Layout} {xs : List α} (h : ∀ x ∈ xs, Reads p r (row x) x) :
    Reads p (Reader.u1 >>= fun count => Reader.times r count.toNat) (Layout.table 1 row xs) xs := by
  refine bind (s := [.number 1 xs.length]) u1 fun hFits => ?_
  rw [hFits.toNat_u1]
  exact times h

/-- A table that starts with the number of its rows, in two bytes. -/
theorem table_u2 {row : α → Layout} {xs : List α} (h : ∀ x ∈ xs, Reads p r (row x) x) :
    Reads p (Reader.u2 >>= fun count => Reader.times r count.toNat) (Layout.table 2 row xs) xs := by
  refine bind (s := [.number 2 xs.length]) u2 fun hFits => ?_
  rw [hFits.toNat_u2]
  exact times h

/-! ### Constants -/

/-- An index is read as the number of its entry. -/
theorem index {e : PoolEntry} :
    Reads p Reader.u2 [.index e] (e.number p.entries).toUInt16 := by
  intro hFits rest
  rw [Layout.bytes, List.flatMap_singleton]
  exact Reader.u2_toBigEndian (Pool.number_lt hFits.mem) rest

/-- A constant is read by what is looked up under its number. -/
theorem index_bind {e : PoolEntry} {look : UInt16 → Except ClassFile.Error α} {f : α → Reader β}
    (h : e ∈ p.entries → look (e.number p.entries).toUInt16 = .ok x) (h' : Reads p (f x) s y) :
    Reads p (Reader.u2 >>= fun i => liftM (look i) >>= f) (.index e :: s) y :=
  bind (s := [.index e]) index fun hFits => lookup_bind (h hFits.mem) h'

/-- What is looked up under an index is what its entry says. -/
theorem index_lookup {e : PoolEntry} {look : UInt16 → Except ClassFile.Error α}
    (h : e ∈ p.entries → look (e.number p.entries).toUInt16 = .ok x) :
    Reads p (Reader.u2 >>= fun i => liftM (look i)) [.index e] x :=
  index.bind_nil fun hFits => lookup (h hFits.mem)

/-- A constant that may be missing is read where zero stands for none. -/
theorem optional_lookup {entry : α → PoolEntry} {o : Option α}
    {look : UInt16 → Except ClassFile.Error α}
    (h : ∀ v, entry v ∈ p.entries → look ((entry v).number p.entries).toUInt16 = .ok v) :
    Reads p (Reader.u2 >>= fun i => liftM (if i = 0 then .ok none else (look i).map some))
      [.optional (o.map entry)] o := by
  cases o with
  | none => exact u2.bind_nil fun _ => lookup rfl
  | some v =>
    refine index_lookup fun he => ?_
    rw [if_neg (Pool.number_ne_zero he), h v he]
    rfl

end Reads

/-! ### Attributes -/

/-- An attribute: its name and what it holds. -/
structure Attribute where
  name : String
  body : Layout

/-- An attribute as it stands in a class file. -/
def Attribute.layout (a : Attribute) : Layout :=
  .index (.utf8 a.name) :: .number 4 a.body.size :: a.body

/-- The attributes are understood, and one after the other they turn `x` into `y`. -/
inductive Adds {α : Type} (p : Pool) (meaning : Attributes.Meaning α) :
    List Attribute → α → α → Prop
  | nil {x : α} : Adds p meaning [] x x
  | cons {a : Attribute} {attributes : List Attribute} {step : α → Reader α} {x y z : α} :
      meaning a.name = some step → Reads p (step x) a.body y → Adds p meaning attributes y z →
        Adds p meaning (a :: attributes) x z

namespace Adds

variable {α : Type} {p : Pool} {meaning : Attributes.Meaning α} {x y z : α}

theorem single {a : Attribute} {step : α → Reader α} (hName : meaning a.name = some step)
    (hBody : Reads p (step x) a.body y) : Adds p meaning [a] x y :=
  .cons hName hBody .nil

/-- Attributes add up, one list after the other. -/
theorem append {as bs : List Attribute} (h : Adds p meaning as x y)
    (h' : Adds p meaning bs y z) : Adds p meaning (as ++ bs) x z := by
  induction h with
  | nil => exact h'
  | cons hName hBody _ ih => exact .cons hName hBody (ih h')

/-- An attribute that is understood is read by its own step, and nothing of its body is left. -/
theorem readOne {a : Attribute} {step : α → Reader α} (hName : meaning a.name = some step)
    (hBody : Reads p (step x) a.body y) :
    Reads p (Attributes.readOne p.numbered meaning x) a.layout y := by
  refine .index_bind Pool.utf8_number ?_
  refine .bind (s := [.number 4 a.body.size]) .u4 fun hFits => ?_
  rw [hFits.toNat_u4]
  refine .bind_nil .bytes fun hFits _ rest => ?_
  have hRun := hBody hFits []
  rw [List.append_nil] at hRun
  simp only [hName]
  rw [Parsing.bind_of_ok (show Reader.within _ (step x) _ = .ok ((y, []), rest) from ?_)]
  · rfl
  · rw [Reader.within, StateT.run, hRun]
    rfl

theorem readMany {as : List Attribute} (h : Adds p meaning as x y) :
    Reads p (Attributes.readMany p.numbered meaning as.length x) (as.flatMap Attribute.layout)
      y := by
  induction h with
  | nil => exact .pure _
  | cons hName hBody _ ih =>
    rw [List.length_cons, List.flatMap_cons, Attributes.readMany]
    exact (readOne hName hBody).bind fun _ => ih

/-- A table of attributes that are understood is read to what they add. -/
theorem reads {as : List Attribute} (h : Adds p meaning as x y) :
    Reads p (Attributes.read p.numbered meaning x) (Layout.table 2 Attribute.layout as) y := by
  refine .bind (s := [.number 2 as.length]) .u2 fun hFits => ?_
  rw [hFits.toNat_u2]
  exact readMany h

end Adds

end ClassSketch
