import Joinability.Proofs.Report.Layout
import Joinability.Proofs.Report.Lexeme

/-!
# Reading a drawing

A drawing is a text for other programs, and what they know of the graph they have from it. The
reader of this file is such a program. From the lexical units of a text it reads statements, each of
them a subject with a list of attributes; from the subjects and the attributes it reads vertices and
edges. It knows the words of the language and nothing of the exploration.
**`Exploration.dot_read_back`** says that it gets back what was drawn: every vertex with its text,
its side and whether it is a root, and every edge with its ends, its rule and whether the sides meet
at it, in the order of their ids. The texts and the names of the rules may be any bytes.

What a semicolon or a bracket means is settled once the text is taken apart into units, because
those inside a label are no units of their own. So the statements can be told apart by their
semicolons, and the attributes by their commas.
-/

namespace Joinability

namespace Dot

/-! ## Statements -/

/-- The name and the value of an attribute. -/
abbrev Attribute := Text × Text

/-- A statement of a drawing. -/
inductive Statement where
  /-- Describes a node. -/
  | node (name : Text) (attributes : List Attribute)
  /-- Describes an edge from one node to another. -/
  | edge (source target : Text) (attributes : List Attribute)
deriving DecidableEq, Repr

/-- Reads an attribute. The value may be a word or a string. -/
def Attribute.read? : List Lexeme → Option Attribute
  | [.word name, equals, .word value] | [.word name, equals, .quoted value] =>
    if equals = .mark '=' then some (name, value) else none
  | _ => none

/-- Reads the attributes between brackets. -/
def readAttributes? (lexemes : List Lexeme) : Option (List Attribute) := do
  let inside ← lexemes.dropPrefix? [.mark '[']
  let inside ← inside.dropSuffix? [.mark ']']
  (inside.splitOn (.mark ',')).mapM Attribute.read?

/-- Reads a statement. -/
def Statement.read? : List Lexeme → Option Statement
  | .word name :: rest =>
    match rest.dropPrefix? [.mark '-', .mark '>'] with
    | none => (readAttributes? rest).map (node name)
    | some (.word target :: rest) => (readAttributes? rest).map (edge name target)
    | some _ => none
  | _ => none

/-- Reads statements, each with a semicolon at its end. -/
def readStatements? (lexemes : List Lexeme) : Option (List Statement) := do
  let lexemes ← lexemes.dropSuffix? [.mark ';']
  (lexemes.splitOn (.mark ';')).mapM Statement.read?

/-! ## Vertices and edges -/

/-- A vertex as it is drawn. -/
structure DrawnVertex where
  /-- The id. -/
  id : Nat
  /-- The text that stands in it. -/
  label : Text
  /-- The side of which it has the colour. -/
  side : Side
  /-- Whether it has the double border of a root. -/
  isRoot : Bool
deriving DecidableEq, Repr

/-- An edge as it is drawn. -/
structure DrawnEdge where
  /-- The id of the vertex at which it starts. -/
  source : Nat
  /-- The id of the vertex to which it leads. -/
  target : Nat
  /-- The text that stands beside it. -/
  label : Text
  /-- Whether it is drawn like the edge at which the sides meet. -/
  isMeeting : Bool
deriving DecidableEq, Repr

/-- The vertices and the edges of a drawing, in the order in which they are described. -/
structure Drawing where
  /-- The vertices. -/
  vertices : List DrawnVertex := []
  /-- The edges. -/
  edges : List DrawnEdge := []
deriving DecidableEq, Repr

/-- Reads the id from the name of a node. -/
def readId? (name : Text) : Option Nat := (name.dropPrefix? (utf8 "V")).bind numeral?

/-- Reads a side from the name of its colour. -/
def readSide? (name : Text) : Option Side :=
  if name = utf8 "blue" then some .left else if name = utf8 "red" then some .right else none

/-- Reads a vertex from the name and the attributes of a node. -/
def DrawnVertex.read? (name : Text) (attributes : List Attribute) : Option DrawnVertex := do
  let id ← readId? name
  let label ← attributes.lookup (utf8 "label")
  let side ← (attributes.lookup (utf8 "color")).bind readSide?
  return { id, label, side, isRoot := attributes.lookup (utf8 "peripheries") = some (utf8 "2") }

/-- Reads an edge from the names of its ends and its attributes. -/
def DrawnEdge.read? (source target : Text) (attributes : List Attribute) : Option DrawnEdge := do
  let source ← readId? source
  let target ← readId? target
  let label ← attributes.lookup (utf8 "label")
  let isBold : Bool := attributes.lookup (utf8 "style") = some (utf8 "bold")
  let isGreen : Bool := attributes.lookup (utf8 "color") = some (utf8 "green")
  return { source, target, label, isMeeting := isBold && isGreen }

namespace Drawing

/-- Puts together what the statements describe. What is said of all nodes describes none of them. -/
def ofStatements? : List Statement → Option Drawing
  | [] => some {}
  | .node name attributes :: rest => do
    let drawing ← ofStatements? rest
    if name = utf8 "node" then
      return drawing
    let v ← DrawnVertex.read? name attributes
    return { drawing with vertices := v :: drawing.vertices }
  | .edge source target attributes :: rest => do
    let drawing ← ofStatements? rest
    let e ← DrawnEdge.read? source target attributes
    return { drawing with edges := e :: drawing.edges }

/-- Reads a drawing. -/
def read? (t : Text) : Option Drawing := do
  let lexemes ← lexemes? t
  let body ← lexemes.dropPrefix? [.keyword "digraph", .keyword "RewriteSearch", .mark '\x7b']
  let body ← body.dropSuffix? [.mark '\x7d']
  ofStatements? (← readStatements? body)

end Drawing

example : Drawing.read?
      (utf8 "digraph RewriteSearch \x7bV0 [color=blue, label=\"\\\"];\\\\\"];" ++
        utf8 " V0->V7[label=\" V1 \",peripheries=2] ;\x7d") =
    some
      { vertices := [⟨0, utf8 "\"];\\", .left, false⟩]
        edges := [⟨0, 7, utf8 " V1 ", false⟩] } := by
  decide +kernel

section Lines

variable {α : Type}

/-! ## Scanning the lines of a drawing -/

/-- The units that mark a root. -/
def rootUnits (isRoot : Bool) : List Lexeme :=
  if isRoot then [.mark ',', .keyword "peripheries", .mark '=', .keyword "2"] else []

/-- The units that mark the edge at which the sides meet. -/
def meetingUnits (isMeeting : Bool) : List Lexeme :=
  if isMeeting then
    [.mark ',', .keyword "style", .mark '=', .keyword "bold", .mark ',', .keyword "color",
      .mark '=', .keyword "green"]
  else []

/-- The units of the line of a vertex, without the semicolon. -/
def vertexUnits (v : Vertex α) : List Lexeme :=
  [.word (utf8 "V" ++ decimal v.id), .mark '[', .keyword "label", .mark '=', .quoted v.pretty,
    .mark ',', .keyword "color", .mark '=', .word (colour v.side)] ++
    rootUnits v.isRoot ++ [.mark ']']

/-- The units of the line of an edge, without the semicolon. -/
def edgeUnits (a : Arc) (isMeeting : Bool) : List Lexeme :=
  [.word (utf8 "V" ++ decimal a.source), .mark '-', .mark '>', .word (utf8 "V" ++ decimal a.target),
    .mark '[', .keyword "label", .mark '=', .quoted a.use.reference] ++
    meetingUnits isMeeting ++ [.mark ']']

theorem scan_vertexLine (v : Vertex α) :
    Mode.between.scan (vertexLine v) = (vertexUnits v ++ [.mark ';'], .between) := by
  have hstart : Mode.between.scan (utf8 "  V") = ([], .inWord (utf8 "V")) := rfl
  have hname := Mode.scan_append hstart (Mode.scan_decimal _ v.id)
  have hopen : (Mode.inWord (utf8 "V" ++ decimal v.id)).scan (utf8 " [label=\"") =
    ([.word (utf8 "V" ++ decimal v.id), .mark '[', .keyword "label", .mark '='],
      .inString []) := rfl
  have hlabel := Mode.scan_append (Mode.scan_append hname hopen) (Mode.scan_escape [] v.pretty)
  have hclose : (Mode.inString v.pretty).scan (utf8 "\", color=") =
    ([.quoted v.pretty, .mark ',', .keyword "color", .mark '='], .between) := rfl
  have hcolour : Mode.between.scan (colour v.side) = ([], .inWord (colour v.side)) := by
    rcases v.side <;> rfl
  have hend (c : Text) :
      (Mode.inWord c).scan (utf8 (if v.isRoot then ", peripheries=2" else "") ++ utf8 "];\n") =
      (.word c :: rootUnits v.isRoot ++ [.mark ']', .mark ';'], .between) := by
    rcases v.isRoot <;> rfl
  have hline := Mode.scan_append (Mode.scan_append (Mode.scan_append hlabel hclose) hcolour)
      (hend (colour v.side))
  simp only [List.append_assoc] at hline
  simp only [vertexLine, List.append_assoc, hline]
  simp [vertexUnits]

theorem scan_edgeLine (a : Arc) (isMeeting : Bool) :
    Mode.between.scan (edgeLine a isMeeting) =
      (edgeUnits a isMeeting ++ [.mark ';'], .between) := by
  have hstart : Mode.between.scan (utf8 "  V") = ([], .inWord (utf8 "V")) := rfl
  have hsource := Mode.scan_append hstart (Mode.scan_decimal _ a.source)
  have harrow : (Mode.inWord (utf8 "V" ++ decimal a.source)).scan (utf8 " -> V") =
    ([.word (utf8 "V" ++ decimal a.source), .mark '-', .mark '>'], .inWord (utf8 "V")) := rfl
  have htarget := Mode.scan_append (Mode.scan_append hsource harrow) (Mode.scan_decimal _ a.target)
  have hopen : (Mode.inWord (utf8 "V" ++ decimal a.target)).scan (utf8 " [label=\"") =
    ([.word (utf8 "V" ++ decimal a.target), .mark '[', .keyword "label", .mark '='],
      .inString []) := rfl
  have hlabel :=
    Mode.scan_append (Mode.scan_append htarget hopen) (Mode.scan_escape [] a.use.reference)
  have hend (w : Text) : (Mode.inString w).scan
      (utf8 "\"" ++ utf8 (if isMeeting then ", style=bold, color=green" else "") ++ utf8 "];\n") =
      (.quoted w :: meetingUnits isMeeting ++ [.mark ']', .mark ';'], .between) := by
    rcases isMeeting <;> rfl
  have hline := Mode.scan_append hlabel (hend a.use.reference)
  simp only [List.append_assoc] at hline
  simp only [edgeLine, List.append_assoc, hline]
  simp [edgeUnits]

/-! ## Reading the lines of a drawing -/

theorem readStatements?_flatMap {lines : List (List Lexeme)} (hne : lines ≠ [])
    (hsemicolon : ∀ line ∈ lines, .mark ';' ∉ line) :
    readStatements? (lines.flatMap (· ++ [.mark ';'])) = lines.mapM Statement.read? := by
  have hlines :
      lines.flatMap (· ++ [.mark ';']) = [Lexeme.mark ';'].intercalate lines ++ [.mark ';'] := by
    induction lines with
    | nil => exact absurd rfl hne
    | cons line lines ih =>
      rcases lines with _ | ⟨next, lines⟩
      · simp
      · have hrest := ih (by simp) fun l hl ↦ hsemicolon l (List.mem_cons_of_mem line hl)
        rw [List.flatMap_cons, hrest, List.intercalate_cons_cons]
        simp only [List.append_assoc]
  rw [readStatements?, hlines, List.dropSuffix?_eq_some_iff.mpr ⟨_, rfl, by simp⟩]
  exact congrArg (List.mapM Statement.read?) (List.splitOn_intercalate _ hsemicolon hne)

theorem semicolon_notMem_vertexUnits (v : Vertex α) : .mark ';' ∉ vertexUnits v := by
  have hnot : (vertexUnits v).contains (.mark ';') = false := by
    rw [vertexUnits]
    rcases v.isRoot <;> rfl
  simpa using hnot

theorem semicolon_notMem_edgeUnits (a : Arc) (isMeeting : Bool) :
    .mark ';' ∉ edgeUnits a isMeeting := by
  have hnot : (edgeUnits a isMeeting).contains (.mark ';') = false := by
    rw [edgeUnits]
    rcases isMeeting <;> rfl
  simpa using hnot

theorem readId?_append (n : Nat) : readId? (utf8 "V" ++ decimal n) = some n := by
  rw [readId?, List.dropPrefix?_append_of_beq _ (by simp), Option.bind_some, numeral?_decimal]

/-- The statement that describes a vertex. -/
def vertexStatement (v : Vertex α) : Statement :=
  .node (utf8 "V" ++ decimal v.id) ([(utf8 "label", v.pretty), (utf8 "color", colour v.side)] ++
    if v.isRoot then [(utf8 "peripheries", utf8 "2")] else [])

/-- The statement that describes an edge. -/
def edgeStatement (a : Arc) (isMeeting : Bool) : Statement :=
  .edge (utf8 "V" ++ decimal a.source) (utf8 "V" ++ decimal a.target)
    ((utf8 "label", a.use.reference) ::
    if isMeeting then [(utf8 "style", utf8 "bold"), (utf8 "color", utf8 "green")] else [])

theorem read?_vertexUnits (v : Vertex α) :
    Statement.read? (vertexUnits v) = some (vertexStatement v) := by
  rw [vertexUnits, vertexStatement]
  rcases v.isRoot <;> rfl

theorem read?_edgeUnits (a : Arc) (isMeeting : Bool) :
    Statement.read? (edgeUnits a isMeeting) = some (edgeStatement a isMeeting) := by
  rw [edgeUnits, edgeStatement]
  rcases isMeeting <;> rfl

theorem read?_vertexStatement (v : Vertex α) : DrawnVertex.read? (utf8 "V" ++ decimal v.id)
    ([(utf8 "label", v.pretty), (utf8 "color", colour v.side)] ++
      if v.isRoot then [(utf8 "peripheries", utf8 "2")] else []) =
        some ⟨v.id, v.pretty, v.side, v.isRoot⟩ := by
  rw [DrawnVertex.read?, readId?_append]
  rcases v.isRoot <;> rcases v.side <;> rfl

theorem read?_edgeStatement (a : Arc) (isMeeting : Bool) :
    DrawnEdge.read? (utf8 "V" ++ decimal a.source) (utf8 "V" ++ decimal a.target)
      ((utf8 "label", a.use.reference) ::
        if isMeeting then [(utf8 "style", utf8 "bold"), (utf8 "color", utf8 "green")] else []) =
      some ⟨a.source, a.target, a.use.reference, isMeeting⟩ := by
  rw [DrawnEdge.read?, readId?_append, readId?_append]
  rcases isMeeting <;> rfl

theorem ofStatements?_vertices (vs : List (Vertex α)) {rest : List Statement} {drawing : Drawing}
    (h : Drawing.ofStatements? rest = some drawing) :
    Drawing.ofStatements? (vs.map vertexStatement ++ rest) = some
      { drawing with
        vertices := vs.map (fun v ↦ ⟨v.id, v.pretty, v.side, v.isRoot⟩) ++ drawing.vertices } := by
  induction vs with
  | nil => exact h
  | cons v vs ih =>
    have hname : utf8 "V" ++ decimal v.id ≠ utf8 "node" :=
      fun heq ↦ absurd (List.cons.inj heq).1 (by decide)
    rw [List.map_cons, List.cons_append, vertexStatement, Drawing.ofStatements?, ih]
    simp only [Option.bind_eq_bind, Option.bind_some, if_neg hname, read?_vertexStatement]
    rfl

theorem ofStatements?_edges {β : Type} (arc : β → Arc) (isMeeting : β → Bool) (as : List β) :
    Drawing.ofStatements? (as.map fun a ↦ edgeStatement (arc a) (isMeeting a)) = some
      { edges := as.map fun a ↦
        ⟨(arc a).source, (arc a).target, (arc a).use.reference, isMeeting a⟩ } := by
  induction as with
  | nil => rfl
  | cons a as ih =>
    rw [List.map_cons, edgeStatement, Drawing.ofStatements?, ih]
    simp only [Option.bind_eq_bind, Option.bind_some, read?_edgeStatement]
    rfl

end Lines

end Dot

/-! ## Reading a drawing -/

namespace Exploration

open Dot

variable {α τ π : Type}

/-- The units of the lines of a drawing, without the semicolons. The first line is about all
vertices. -/
def dotLines (x : Exploration α τ π) : List (List Lexeme) :=
  [.keyword "node", .mark '[', .keyword "shape", .mark '=', .keyword "box", .mark ']'] ::
    (x.vertices.items.toList.map vertexUnits ++
      x.edges.items.toList.map fun e ↦ edgeUnits e.toArc (x.isMeeting e.id))

/-- The statements of a drawing. -/
def dotStatements (x : Exploration α τ π) : List Statement :=
  .node (utf8 "node") [(utf8 "shape", utf8 "box")] ::
    (x.vertices.items.toList.map vertexStatement ++
      x.edges.items.toList.map fun e ↦ edgeStatement e.toArc (x.isMeeting e.id))

theorem lexemes?_dot (x : Exploration α τ π) : lexemes? x.dot =
    some ([.keyword "digraph", .keyword "RewriteSearch", .mark '\x7b'] ++
      (x.dotLines.flatMap (· ++ [.mark ';']) ++ [.mark '\x7d'])) := by
  have hhead : Mode.between.scan (utf8 "digraph RewriteSearch \x7b\n  node [shape=box];\n") =
      ([.keyword "digraph", .keyword "RewriteSearch", .mark '\x7b', .keyword "node", .mark '[',
        .keyword "shape", .mark '=', .keyword "box", .mark ']', .mark ';'], .between) := by
    decide
  have hvertices := Mode.scan_flatMap scan_vertexLine x.vertices.items.toList
  have hedges := Mode.scan_flatMap
    (fun e : Edge τ π ↦ scan_edgeLine e.toArc (x.isMeeting e.id)) x.edges.items.toList
  have hend : Mode.between.scan (utf8 "\x7d\n") = ([.mark '\x7d'], .between) := by decide
  rw [lexemes?, dot,
    Mode.scan_append (Mode.scan_append (Mode.scan_append hhead hvertices) hedges) hend]
  simp [Mode.finish?, dotLines, List.flatMap_map]

theorem read?_dotLines (x : Exploration α τ π) :
    x.dotLines.mapM Statement.read? = some x.dotStatements := by
  have hvertices := mapM_map_eq_some fun v (_ : v ∈ x.vertices.items.toList) ↦ read?_vertexUnits v
  have hedges := mapM_map_eq_some fun e (_ : e ∈ x.edges.items.toList) ↦
    read?_edgeUnits e.toArc (x.isMeeting e.id)
  rw [dotLines, List.mapM_cons, List.mapM_append, hvertices, hedges]
  rfl

theorem semicolon_notMem_dotLines (x : Exploration α τ π) :
    ∀ line ∈ x.dotLines, Lexeme.mark ';' ∉ line := by
  intro line hline
  rw [dotLines, List.mem_cons, List.mem_append, List.mem_map, List.mem_map] at hline
  obtain rfl | ⟨v, -, rfl⟩ | ⟨e, -, rfl⟩ := hline
  · decide
  · exact semicolon_notMem_vertexUnits v
  · exact semicolon_notMem_edgeUnits e.toArc _

theorem ofStatements?_dotStatements (x : Exploration α τ π) :
    Drawing.ofStatements? x.dotStatements = some
    { vertices := x.vertices.items.toList.map fun v ↦ ⟨v.id, v.pretty, v.side, v.isRoot⟩
      edges := x.edges.items.toList.map fun e ↦
        ⟨e.source, e.target, e.use.reference, x.isMeeting e.id⟩ } := by
  have hedges := ofStatements?_edges Edge.toArc (fun e ↦ x.isMeeting e.id) x.edges.items.toList
  rw [dotStatements, Drawing.ofStatements?, ofStatements?_vertices _ hedges, List.append_nil]
  rfl

/-- **A drawing can be read back.** The printed terms and the names of the rules may be any bytes. A
reader for which a label ends at its first quotation mark without an escaping backslash gets exactly
the vertices and edges of the graph, in the order in which they stand in their tables. -/
theorem dot_read_back (x : Exploration α τ π) : Drawing.read? x.dot = some
    { vertices := x.vertices.items.toList.map fun v ↦
        { id := v.id, label := v.pretty, side := v.side, isRoot := v.isRoot }
      edges := x.edges.items.toList.map fun e ↦
        { source := e.source, target := e.target, label := e.use.reference,
          isMeeting := x.meeting == some e.id } } := by
  have hlines : x.dotLines ≠ [] := List.cons_ne_nil _ _
  have hbody := readStatements?_flatMap hlines x.semicolon_notMem_dotLines
  rw [Drawing.read?, lexemes?_dot]
  simp only [Option.bind_eq_bind, Option.bind_some]
  rw [List.dropPrefix?_append_of_beq _ (by simp), Option.bind_some,
    List.dropSuffix?_eq_some_iff.mpr ⟨_, rfl, by simp⟩, Option.bind_some, hbody, read?_dotLines,
    Option.bind_some, ofStatements?_dotStatements]
  rfl

end Exploration

end Joinability
