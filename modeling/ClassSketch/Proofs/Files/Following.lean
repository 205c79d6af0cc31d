import ClassSketch.Files.Tree
import ClassSketch.Proofs.Parsing
import ClassSketch.Proofs.Text.Words

/-!
# Following paths

A path is followed piece by piece, and each piece but the last has to lead to a directory. So the
path of something inside a directory is followed from where the path of the directory leads, however
that path is spelled: with slashes at its end, through the directory itself or upwards.

## Main definitions

* `Path.asDirectory`, `Path.leading` — a path in front of another one
* `FileTree.IsName` — the names that files can have
* `FileTree.Proper` — the trees of a file system: each place once, named, and in a directory

## Main results

* `Path.pieces_join` — the pieces of a path inside another
* `FileTree.getLast?_of_locate_join` — a name inside a directory leads to a place of that name
* `FileTree.locate_join` — a path inside a directory is followed from the directory
* `FileTree.Proper.follow` — the names of a place lead to it
-/

namespace ClassSketch

namespace Path

variable {base path : Path}

/-- A path with a slash at its end, unless it is empty. -/
def asDirectory (base : Path) : Path :=
  if base.isEmpty || base.getLast? == some slash then base else base ++ [slash]

/-- The pieces of a path that come before those of a path inside it. -/
def leading (base : Path) : List Path := (Text.splitOn slash (asDirectory base)).dropLast

theorem pieces_ne_nil (path : Path) : pieces path ≠ [] := Text.splitOn_ne_nil slash path

theorem pieces_of_no_slash (h : slash ∉ path) : pieces path = [path] := Text.splitOn_of_not_mem h

theorem isAbsolute_of_no_slash (h : slash ∉ path) : isAbsolute path = false := by
  rw [isAbsolute, beq_eq_false_iff_ne]
  exact fun hFirst => h (List.mem_of_head? hFirst)

theorem join_eq (h : isAbsolute path = false) : join base path = asDirectory base ++ path := by
  rw [join, asDirectory, h, if_neg Bool.false_ne_true]
  split <;> simp

theorem mem_asDirectory {c : UInt8} (h : c ∈ asDirectory base) : c ∈ base ∨ c = slash := by
  rw [asDirectory] at h
  split at h
  · exact .inl h
  · simpa using h

/-- A path in front of another one is as it was, or it gets a slash. -/
theorem asDirectory_cases (h : base ≠ []) :
    (∃ front, base = front ++ [slash] ∧ asDirectory base = front ++ [slash]) ∨
      asDirectory base = base ++ [slash] := by
  rw [asDirectory]
  split
  · next hSlash =>
    have hLast : base.getLast? = some slash := by simpa [h] using hSlash
    obtain ⟨front, hFront⟩ := List.getLast?_eq_some_iff.mp hLast
    exact .inl ⟨front, hFront, hFront⟩
  · exact .inr rfl

theorem leading_of_eq_append {front : Path} (h : asDirectory base = front ++ [slash]) :
    leading base = Text.splitOn slash front := by
  rw [leading, h, Text.splitOn_append_self, List.dropLast_concat]

/-- The pieces of a path inside another one come after those of the other one. -/
theorem pieces_join (h : isAbsolute path = false) :
    pieces (join base path) = leading base ++ pieces path := by
  by_cases hEmpty : base = []
  · subst hEmpty
    rw [pieces, join_eq h]
    rfl
  obtain ⟨front, hFront⟩ : ∃ front, asDirectory base = front ++ [slash] := by
    rcases asDirectory_cases hEmpty with ⟨front, -, hFront⟩ | hFront
    · exact ⟨front, hFront⟩
    · exact ⟨base, hFront⟩
  rw [pieces, join_eq h, hFront, leading_of_eq_append hFront, List.append_assoc,
    List.singleton_append, Text.splitOn_append_cons, pieces]

/-- The pieces of a path are those in front of another path, perhaps with one for a slash at the
end. -/
theorem pieces_cases (h : base ≠ []) :
    pieces base = leading base ++ [[]] ∨ pieces base = leading base := by
  rcases asDirectory_cases h with ⟨front, hBase, hFront⟩ | hFront
  · left
    rw [leading_of_eq_append hFront, pieces, hBase, Text.splitOn_append_self]
  · right
    rw [pieces, leading_of_eq_append hFront]

theorem asDirectory_ne_nil (h : base ≠ []) : asDirectory base ≠ [] := by
  rcases asDirectory_cases h with ⟨front, -, hFront⟩ | hFront <;> simp [hFront]

theorem join_ne_nil (hBase : base ≠ []) (h : isAbsolute path = false) : join base path ≠ [] := by
  rw [join_eq h]
  simp [asDirectory_ne_nil hBase]

theorem isAbsolute_join (hBase : base ≠ []) (h : isAbsolute path = false) :
    isAbsolute (join base path) = isAbsolute base := by
  obtain ⟨c, s, rfl⟩ := List.exists_cons_of_ne_nil hBase
  rw [isAbsolute, isAbsolute, join_eq h, asDirectory]
  split <;> rfl

end Path

namespace FileTree

variable {t : FileTree} {start location : List Path} {pieces others : List Path}
  {base path piece : Path}

/-! ### Piece by piece -/

theorem requireDirectory_eq_ok_iff :
    t.requireDirectory location = .ok () ↔ t.at? location = some .directory := by
  rw [requireDirectory]
  split <;> simp_all

theorem follow_cons (h : others ≠ []) : t.follow start (piece :: others) =
    if piece = [] then t.follow start others
    else t.step start piece >>= fun location => t.follow location others := by
  obtain ⟨next, others, rfl⟩ := List.exists_cons_of_ne_nil h
  rw [follow]
  exact h

/-- What comes after a directory is followed from it. -/
theorem follow_append (h : t.follow start (pieces ++ [[]]) = .ok location) (hNext : others ≠ []) :
    t.follow start (pieces ++ others) = t.follow location others := by
  induction pieces generalizing start with
  | nil =>
    rw [List.nil_append, follow, if_pos rfl] at h
    cases hDirectory : t.requireDirectory start with
    | error fault => simp [hDirectory, Except.map] at h
    | ok =>
      rw [hDirectory] at h
      cases h
      rfl
  | cons piece pieces ih =>
    rw [List.cons_append, follow_cons (by simp)] at h
    rw [List.cons_append, follow_cons (by simp [hNext])]
    split at h
    · next hEmpty => rw [if_pos hEmpty, ih h]
    · next hEmpty =>
      obtain ⟨next, hStep, h⟩ := Except.bind_eq_ok.mp h
      rw [if_neg hEmpty, hStep]
      exact ih h

/-- A path to a directory may have a slash at its end. -/
theorem follow_slash (h : t.follow start pieces = .ok location) (hNext : pieces ≠ [])
    (hDirectory : t.at? location = some .directory) :
    t.follow start (pieces ++ [[]]) = .ok location := by
  induction pieces generalizing start with
  | nil => exact absurd rfl hNext
  | cons piece pieces ih =>
    rw [List.cons_append, follow_cons (by simp)]
    cases pieces with
    | nil =>
      rw [follow] at h
      split
      · next hEmpty =>
        rw [if_pos hEmpty] at h
        rw [List.nil_append, follow, if_pos rfl]
        exact h
      · next hEmpty =>
        rw [if_neg hEmpty] at h
        rw [h]
        simp [follow, bind, Except.bind, requireDirectory_eq_ok_iff.mpr hDirectory, Except.map]
    | cons next pieces =>
      rw [follow_cons (by simp)] at h
      split at h
      · next hEmpty => rw [if_pos hEmpty, ih h (by simp)]
      · next hEmpty =>
        obtain ⟨place, hStep, h⟩ := Except.bind_eq_ok.mp h
        rw [if_neg hEmpty, hStep]
        exact ih h (by simp)

/-- A piece that is a name leads to a place of that name. -/
theorem getLast?_of_follow (hEmpty : piece ≠ []) (hStay : piece ≠ Path.stay)
    (hUp : piece ≠ Path.up)
    (h : t.follow start (pieces ++ [piece]) = .ok location) : location.getLast? = some piece := by
  induction pieces generalizing start with
  | nil =>
    rw [List.nil_append, follow, if_neg hEmpty, step, if_neg hStay, if_neg hUp] at h
    obtain ⟨-, -, h⟩ := Except.bind_eq_ok.mp h
    split at h
    · cases h
    · cases h
      exact List.getLast?_concat
  | cons first pieces ih =>
    rw [List.cons_append, follow_cons (by simp)] at h
    split at h
    · exact ih h
    · obtain ⟨place, -, h⟩ := Except.bind_eq_ok.mp h
      exact ih h

/-! ### Paths inside a directory -/

/-- Where the pieces of a path are followed from. -/
def origin (t : FileTree) (path : Path) : List Path :=
  if Path.isAbsolute path then [] else t.start

theorem locate_eq_ok_iff : t.locate path = .ok location ↔
    path ≠ [] ∧ 0 ∉ path ∧ path.length ≤ pathLimit ∧
      t.follow (t.origin path) (Path.pieces path) = .ok location := by
  rw [locate, origin]
  by_cases hEmpty : path = []
  · simp [hEmpty]
  by_cases hNul : 0 ∈ path
  · simp [hEmpty, hNul]
  by_cases hLong : pathLimit < path.length
  · simp [hEmpty, hNul, hLong, Nat.not_le.mpr hLong]
  · simp [hEmpty, hNul, hLong, Nat.not_lt.mp hLong]

/-- A name inside a directory leads to a place of that name. -/
theorem getLast?_of_locate_join {name : Path} (hSlash : Path.slash ∉ name) (hEmpty : name ≠ [])
    (hStay : name ≠ Path.stay) (hUp : name ≠ Path.up)
    (h : t.locate (Path.join base name) = .ok location) : location.getLast? = some name := by
  obtain ⟨-, -, -, hFollow⟩ := locate_eq_ok_iff.mp h
  rw [Path.pieces_join (Path.isAbsolute_of_no_slash hSlash), Path.pieces_of_no_slash hSlash]
    at hFollow
  exact getLast?_of_follow hEmpty hStay hUp hFollow

theorem follow_leading (h : t.locate base = .ok location)
    (hDirectory : t.at? location = some .directory) :
    t.follow (t.origin base) (Path.leading base ++ [[]]) = .ok location := by
  obtain ⟨hEmpty, -, -, hFollow⟩ := locate_eq_ok_iff.mp h
  rcases Path.pieces_cases hEmpty with hPieces | hPieces
  · rwa [hPieces] at hFollow
  · rw [← hPieces]
    exact follow_slash hFollow (Path.pieces_ne_nil base) hDirectory

/-- A path inside a directory is followed from the directory, if it is not too long. -/
theorem locate_join (h : t.locate base = .ok location)
    (hDirectory : t.at? location = some .directory) (hAbsolute : Path.isAbsolute path = false)
    (hNul : 0 ∉ path) : t.locate (Path.join base path) =
      if pathLimit < (Path.join base path).length then .error .nameTooLong
      else t.follow location (Path.pieces path) := by
  obtain ⟨hEmpty, hBaseNul, -, -⟩ := locate_eq_ok_iff.mp h
  have hJoined : (Path.join base path).isEmpty = false := by
    simpa using Path.join_ne_nil hEmpty hAbsolute
  have hNoNul : (Path.join base path).contains 0 = false := by
    rw [Path.join_eq hAbsolute, List.contains_eq_mem, decide_eq_false_iff_not, List.mem_append]
    rintro (hBase | hPath)
    · rcases Path.mem_asDirectory hBase with hBase | hSlash
      · exact hBaseNul hBase
      · exact absurd hSlash (by decide)
    · exact hNul hPath
  have hFollow : t.follow (t.origin (Path.join base path)) (Path.pieces (Path.join base path)) =
      t.follow location (Path.pieces path) := by
    rw [origin, Path.isAbsolute_join hEmpty hAbsolute, Path.pieces_join hAbsolute]
    exact follow_append (follow_leading h hDirectory) (Path.pieces_ne_nil path)
  rw [locate, hJoined, hNoNul, ← hFollow]
  rfl

theorem read_eq_ok {bytes : List UInt8} {archive : Option (List ArchiveEntry)}
    (h : t.locate path = .ok location) (hFile : t.at? location = some (.file bytes archive)) :
    t.read path = .ok bytes := by
  have hNode : t.node path = .ok (.file bytes archive) :=
    Except.bind_eq_ok.mpr ⟨location, h, by rw [hFile]; rfl⟩
  exact Except.bind_eq_ok.mpr ⟨_, hNode, rfl⟩

theorem read_eq_error {fault : FileFault} (h : t.locate path = .error fault) :
    t.read path = .error fault :=
  Except.bind_eq_error.mpr (.inl (Except.bind_eq_error.mpr (.inl h)))

/-! ### Trees of a file system -/

/-- The names that files can have. -/
structure IsName (name : Path) : Prop where
  ne_nil : name ≠ []
  ne_stay : name ≠ Path.stay
  ne_up : name ≠ Path.up
  no_slash : Path.slash ∉ name
  no_nul : 0 ∉ name
  fits : name.length ≤ nameLimit

/-- A tree in which every place is listed once, by names, and in a directory. -/
structure Proper (t : FileTree) : Prop where
  once : (t.nodes.map Prod.fst).Nodup
  named : ∀ node ∈ t.nodes, ∀ name ∈ node.1, IsName name
  inside : ∀ node ∈ t.nodes, ∀ n < node.1.length, t.at? (node.1.take n) = some .directory

instance : DecidablePred IsName := fun name =>
  decidable_of_iff (name ≠ [] ∧ name ≠ Path.stay ∧ name ≠ Path.up ∧ Path.slash ∉ name ∧
      0 ∉ name ∧ name.length ≤ nameLimit)
    ⟨fun ⟨h₁, h₂, h₃, h₄, h₅, h₆⟩ => ⟨h₁, h₂, h₃, h₄, h₅, h₆⟩,
      fun h => ⟨h.1, h.2, h.3, h.4, h.5, h.6⟩⟩

instance : DecidablePred Proper := fun t =>
  decidable_of_iff ((t.nodes.map Prod.fst).Nodup ∧
      (∀ node ∈ t.nodes, ∀ name ∈ node.1, IsName name) ∧
      ∀ node ∈ t.nodes, ∀ n < node.1.length, t.at? (node.1.take n) = some .directory)
    ⟨fun ⟨h₁, h₂, h₃⟩ => ⟨h₁, h₂, h₃⟩, fun h => ⟨h.1, h.2, h.3⟩⟩

theorem step_eq_ok (hName : IsName piece) (h : t.at? location = some .directory) :
    t.step location piece = .ok (location ++ [piece]) := by
  have hFits : ¬nameLimit < piece.length := Nat.not_lt.mpr hName.fits
  rw [step, requireDirectory_eq_ok_iff.mpr h, if_neg hName.ne_stay, if_neg hName.ne_up,
    if_neg hFits]
  rfl

/-- A key that occurs once is found with its value. -/
theorem find?_key {nodes : List (List Path × FileNode)} {node : FileNode}
    (h : (nodes.map Prod.fst).Nodup) (hNode : (location, node) ∈ nodes) :
    (nodes.find? fun other => other.1 == location).map Prod.snd = some node := by
  induction nodes with
  | nil => cases hNode
  | cons other nodes ih =>
    obtain ⟨hOther, hNodes⟩ := List.nodup_cons.mp h
    rcases List.mem_cons.mp hNode with rfl | hNode
    · simp
    · have hne : other.1 ≠ location := by
        rintro rfl
        exact hOther (List.mem_map.mpr ⟨_, hNode, rfl⟩)
      rw [List.find?_cons_of_neg (by simpa using hne)]
      exact ih hNodes hNode

namespace Proper

variable {place : List Path} {node : FileNode}

theorem at?_eq_some (h : t.Proper) (hNode : (location, node) ∈ t.nodes) (hRoot : location ≠ []) :
    t.at? location = some node := by
  rw [at?, if_neg (by simpa using hRoot)]
  exact find?_key h.once hNode

/-- The names of a place lead to it. -/
theorem follow (h : t.Proper) (hNode : (location ++ place, node) ∈ t.nodes) (hNext : place ≠ []) :
    t.follow location place = .ok (location ++ place) := by
  induction place generalizing location with
  | nil => exact absurd rfl hNext
  | cons name place ih =>
    have hName : IsName name := h.named _ hNode name (by simp)
    have hDirectory : t.at? location = some .directory := by
      have hInside := h.inside _ hNode location.length (by simp)
      rwa [List.take_left] at hInside
    have hStep := step_eq_ok hName hDirectory
    have hSplit : location ++ name :: place = location ++ [name] ++ place := by simp
    rw [hSplit] at hNode ⊢
    by_cases hLast : place = []
    · subst hLast
      rw [FileTree.follow, if_neg hName.ne_nil, hStep, List.append_nil]
    · rw [follow_cons hLast, if_neg hName.ne_nil, hStep]
      exact ih hNode hLast

end Proper

end FileTree

end ClassSketch
