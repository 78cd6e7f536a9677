import QueryPlanner.Cost
import QueryPlanner.Node
import QueryPlanner.Text.Table

/-!
# Plan graphs

A plan graph holds a plan as vertices, each with one expression whose inputs are placeholders of
other vertices, and an edge from every vertex to each vertex that its expression refers to. A
vertex keeps its identity and its placeholder while its expression is replaced. Digest entries
lead from the key of an expression to a vertex that holds it.

Ids of removed vertices are used again, the one removed last first. Edges are listed with the most
recently added one first, and adding an edge that is there changes nothing; this fixes the order
in which traversals meet the inputs and the parents of a vertex.

What was found out about the row counts and the costs of vertices is kept in two maps beside the
vertices. Adding, changing and removing vertices leaves these maps alone: whoever removes a vertex
or changes what is below it has to drop the entries, or a later vertex of the same id inherits them.
-/

namespace QueryPlanner

/-- A slot of a plan graph. -/
structure Vertex where
  /-- The expression that the vertex stands for. -/
  current : Node
  /-- What expressions over the vertex have as their input. -/
  placeholder : Node
  /-- The key under which `current` was registered. -/
  key : DigestKey

structure Graph where
  slots : Array (Option Vertex)
  /-- Ids without a vertex, the one to be used next first. -/
  free : List VertexId
  edges : List (VertexId × VertexId)
  root : Option VertexId
  digests : List (DigestKey × VertexId)
  /-- The row counts of vertices that were found out and not forgotten. -/
  knownRowCounts : List (VertexId × Float)
  /-- The costs of vertices that were found out and not forgotten. -/
  knownCosts : List (VertexId × Cost)

namespace Graph

def empty : Graph := ⟨#[], [], [], none, [], [], []⟩

def vertex? (g : Graph) (id : VertexId) : Option Vertex := (g.slots[id]?).join

def contains (g : Graph) (id : VertexId) : Bool := (g.vertex? id).isSome

def current? (g : Graph) (id : VertexId) : Option Node := (g.vertex? id).map Vertex.current

def placeholder? (g : Graph) (id : VertexId) : Option Node := (g.vertex? id).map Vertex.placeholder

def key? (g : Graph) (id : VertexId) : Option DigestKey := (g.vertex? id).map Vertex.key

/-- The ids that have a vertex, in ascending order. -/
def vertexIds (g : Graph) : List VertexId := (List.range g.slots.size).filter g.contains

def vertexCount (g : Graph) : Nat := g.vertexIds.length

/-! ## Edges -/

/-- The vertices that edges lead to, the latest edge first. -/
def successors (g : Graph) (id : VertexId) : List VertexId :=
  (g.edges.filter (·.1 = id)).map (·.2)

/-- The vertices that edges come from, the latest edge first. -/
def predecessors (g : Graph) (id : VertexId) : List VertexId :=
  (g.edges.filter (·.2 = id)).map (·.1)

/-- The vertices whose expressions have this one as an input, in ascending order. -/
def parents (g : Graph) (id : VertexId) : List VertexId := (g.predecessors id).mergeSort (· ≤ ·)

/-- The vertices that the expression refers to, in ascending order. -/
def inputs (g : Graph) (id : VertexId) : List VertexId := (g.successors id).mergeSort (· ≤ ·)

def addEdge (g : Graph) (parent input : VertexId) : Graph :=
  if (parent, input) ∈ g.edges then g else { g with edges := (parent, input) :: g.edges }

def removeEdge (g : Graph) (parent input : VertexId) : Graph :=
  { g with edges := g.edges.filter (· ≠ (parent, input)) }

/-! ## Vertices -/

/-- Puts a vertex into a slot that exists. -/
def setVertex (g : Graph) (id : VertexId) (v : Vertex) : Graph :=
  { g with slots := g.slots.setIfInBounds id (some v) }

/-- The id of the next vertex. -/
def nextId (g : Graph) : VertexId := g.free.headD g.slots.size

/-- Adds a vertex for an expression, without edges and without a digest entry. -/
def addVertex (g : Graph) (node : Node) (key : DigestKey) : VertexId × Graph :=
  let id := g.nextId
  let vertex : Vertex := ⟨node, .placeholder id node.traits node.rowType, key⟩
  match g.free with
  | [] => (id, { g with slots := g.slots.push (some vertex) })
  | _ :: free => (id, { g.setVertex id vertex with free })

/-- Replaces the expression of a vertex and its key; its placeholder stays. -/
def setCurrent (g : Graph) (id : VertexId) (node : Node) (key : DigestKey) : Graph :=
  match g.vertex? id with
  | some v => g.setVertex id { v with current := node, key }
  | none => g

/-- Removes a vertex with all its edges. -/
def removeVertex (g : Graph) (id : VertexId) : Graph :=
  if g.contains id then
    { g with
      slots := g.slots.setIfInBounds id none
      free := id :: g.free
      edges := g.edges.filter fun e => e.1 ≠ id ∧ e.2 ≠ id }
  else g

/-! ## Digest entries -/

def lookup (g : Graph) (key : DigestKey) : Option VertexId := g.digests.lookup key

/-- The key leads to this vertex from now on. -/
def register (g : Graph) (key : DigestKey) (id : VertexId) : Graph :=
  { g with digests := (key, id) :: g.digests.filter (·.1 ≠ key) }

/-- Drops the key if it leads to this vertex. -/
def unregister (g : Graph) (key : DigestKey) (id : VertexId) : Graph :=
  { g with digests := g.digests.filter (· ≠ (key, id)) }

/-- Drops the entries of removed vertices. -/
def purge (g : Graph) (removed : List VertexId) : Graph :=
  { g with digests := g.digests.filter (·.2 ∉ removed) }

/-! ## Adding and replacing expressions -/

/-- Adds a vertex for an expression over placeholders, with an edge to each of its inputs and with a
digest entry. -/
def insert (g : Graph) (node : Node) (key : DigestKey) : VertexId × Graph :=
  let (id, g) := g.addVertex node key
  (id, node.references.foldl (fun g input => g.addEdge id input) (g.register key id))

/-- Makes an expression the current one of a vertex, registered in place of the old one. -/
def replace (g : Graph) (id : VertexId) (node : Node) (key : DigestKey) : Graph :=
  match g.vertex? id with
  | some old => ((g.setCurrent id node key).unregister old.key id).register key id
  | none => g

/-! ## Placeholders -/

/-- The expression behind a placeholder, any other node itself. -/
def resolve (g : Graph) (node : Node) : Node :=
  ((node.vertexId?).bind g.current?).getD node

/-! ## Text -/

/-- The graph as a table, the root marked by a star. -/
def dump (g : Graph) : String :=
  let row (id : VertexId) : List String :=
    [(if g.root = some id then "*" else "") ++ toString id,
      ((g.current? id).map (Node.digest .full)).getD "",
      ", ".intercalate ((g.parents id).map toString)]
  Text.Table.text ⟨["Vertex", "Expression", "Parents"], g.vertexIds.map row⟩

end Graph

end QueryPlanner
