import NixSource.Layout
import NixSource.Expr.Printer

/-! Documents: texts whose layout is still open. A document fixes the characters of each line and how
deep the line is. A layout adds the white space in front of the lines and what ends them. -/

namespace NixSource

/-- A part of a document: characters, or a new line at a depth, directly or after a blank one. -/
inductive Fragment where
  | chars (cs : List Char)
  | newLine (depth : Nat)
  | paragraph (depth : Nat)

abbrev Document := List Fragment

namespace Fragment

def text (layout : Layout) (level : Nat) : Fragment → List Char
  | chars cs => cs
  | newLine depth => layout.newline.text ++ layout.indent (level + depth)
  | paragraph depth => NixSource.paragraph layout (level + depth)

/-- The fragment inside a text that is one level deeper. -/
def nest : Fragment → Fragment
  | chars cs => chars cs
  | newLine depth => newLine (depth + 1)
  | paragraph depth => paragraph (depth + 1)

def isInline : Fragment → Bool
  | chars cs => !cs.contains '\n'
  | newLine _ | paragraph _ => false

theorem text_nest (layout : Layout) (level : Nat) (f : Fragment) :
    f.nest.text layout level = f.text layout (level + 1) := by
  cases f <;> simp [nest, text, Nat.add_assoc, Nat.add_comm 1]

theorem contains_text (layout : Layout) (level : Nat) (f : Fragment) :
    (f.text layout level).contains '\n' = !f.isInline := by
  have hnewline : layout.newline.text.contains '\n' = true := by
    cases layout.newline <;> rfl
  have happend : ∀ cs : List Char, (layout.newline.text ++ cs).contains '\n' = true := by
    simpa using fun _ => Or.inl (by simpa using hnewline)
  cases f with
  | chars cs => simp [text, isInline]
  | newLine depth => exact happend _
  | paragraph depth =>
    simp only [text, NixSource.paragraph, List.append_assoc]
    exact happend _

end Fragment

namespace Document

def text (layout : Layout) (level : Nat) (d : Document) : List Char :=
  d.flatMap (Fragment.text layout level)

def nest (d : Document) : Document :=
  d.map Fragment.nest

def isInline (d : Document) : Bool :=
  d.all Fragment.isInline

section

variable (layout : Layout) (level : Nat)

@[simp] theorem text_nil : text layout level [] = [] := rfl

@[simp] theorem text_cons (f : Fragment) (d : Document) :
    text layout level (f :: d) = f.text layout level ++ text layout level d := rfl

@[simp] theorem text_append (d d' : Document) :
    text layout level (d ++ d') = text layout level d ++ text layout level d' :=
  List.flatMap_append

@[simp] theorem text_nest (d : Document) : text layout level d.nest = text layout (level + 1) d := by
  induction d with
  | nil => rfl
  | cons f d ih =>
    rw [nest, List.map_cons, text_cons, text_cons, Fragment.text_nest]
    exact congrArg _ ih

theorem text_intercalate (sep : Document) (ds : List Document) :
    text layout level (sep.intercalate ds) =
      (text layout level sep).intercalate (ds.map (text layout level)) := by
  induction ds with
  | nil => rfl
  | cons d ds ih => cases ds <;> simp_all

/-- Whether a text has a line end is the same in every layout. -/
theorem contains_text (d : Document) : (text layout level d).contains '\n' = !d.isInline := by
  induction d with
  | nil => rfl
  | cons f d ih =>
    rw [text_cons, List.contains_append, Fragment.contains_text, ih, ← Bool.not_and]
    rfl

end

end Document

/-- A line before it is laid out. -/
inductive Line where
  | blank
  | indented (depth : Nat) (content : List Char)

namespace Line

def content : Line → List Char
  | blank => []
  | indented _ content => content

/-- A line below the first one of a text that starts at `level`. -/
def text (layout : Layout) (level : Nat) : Line → List Char
  | blank => []
  | indented depth content => layout.indent (level + depth) ++ content

@[simp] theorem text_blank (layout : Layout) (level : Nat) : blank.text layout level = [] := rfl

@[simp] theorem text_indented (layout : Layout) (level depth : Nat) (content : List Char) :
    (indented depth content).text layout level = layout.indent (level + depth) ++ content := rfl

end Line

/-- The text of some lines. The first one continues a line that is there already, so it is not
indented. -/
def joinLines (layout : Layout) (level : Nat) : List Line → List Char
  | [] => []
  | first :: rest => layout.newline.text.intercalate (first.content :: rest.map (·.text layout level))

namespace Document

/-- The lines of a document after a line at `depth` that starts with `content`. -/
def linesFrom (depth : Nat) (content : List Char) : Document → List Line
  | [] => [.indented depth content]
  | .chars cs :: d => linesFrom depth (content ++ cs) d
  | .newLine next :: d => .indented depth content :: linesFrom next [] d
  | .paragraph next :: d => .indented depth content :: .blank :: linesFrom next [] d

theorem linesFrom_eq_cons (depth : Nat) (content : List Char) (d : Document) :
    ∃ first rest, d.linesFrom depth content = .indented depth first :: rest := by
  induction d generalizing content with
  | nil => exact ⟨_, _, rfl⟩
  | cons f d ih =>
    cases f with
    | chars cs => exact ih (content ++ cs)
    | newLine next => exact ⟨_, _, rfl⟩
    | paragraph next => exact ⟨_, _, rfl⟩

variable (layout : Layout) (level : Nat)

theorem map_linesFrom_ne_nil (depth : Nat) (content : List Char) (d : Document) :
    (d.linesFrom depth content).map (·.text layout level) ≠ [] := by
  obtain ⟨first, rest, h⟩ := linesFrom_eq_cons depth content d
  simp [h]

theorem intercalate_linesFrom (depth : Nat) (content : List Char) (d : Document) :
    layout.newline.text.intercalate ((d.linesFrom depth content).map (·.text layout level)) =
      layout.indent (level + depth) ++ content ++ d.text layout level := by
  induction d generalizing depth content with
  | nil => simp [linesFrom]
  | cons f d ih =>
    cases f with
    | chars cs => simp [linesFrom, ih, Fragment.text]
    | newLine next =>
      rw [linesFrom, List.map_cons,
        List.intercalate_cons_of_ne_nil (map_linesFrom_ne_nil layout level next [] d), ih]
      simp [Fragment.text]
    | paragraph next =>
      rw [linesFrom, List.map_cons, List.map_cons, List.intercalate_cons_cons,
        List.intercalate_cons_of_ne_nil (map_linesFrom_ne_nil layout level next [] d), ih]
      simp [Fragment.text, NixSource.paragraph]

/-- A document is its lines, laid out and joined. -/
theorem joinLines_linesFrom (depth : Nat) (content : List Char) (d : Document) :
    joinLines layout level (d.linesFrom depth content) = content ++ d.text layout level := by
  induction d generalizing content with
  | nil => simp [linesFrom, joinLines, Line.content]
  | cons f d ih =>
    cases f with
    | chars cs => simp [linesFrom, ih, Fragment.text]
    | newLine next =>
      rw [linesFrom, joinLines,
        List.intercalate_cons_of_ne_nil (map_linesFrom_ne_nil layout level next [] d),
        intercalate_linesFrom]
      simp [Line.content, Fragment.text]
    | paragraph next =>
      rw [linesFrom, joinLines, List.map_cons, List.intercalate_cons_cons,
        List.intercalate_cons_of_ne_nil (map_linesFrom_ne_nil layout level next [] d),
        intercalate_linesFrom]
      simp [Line.content, Fragment.text, NixSource.paragraph]

end Document

end NixSource
