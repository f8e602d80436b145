import MetadataProjection.Closure.Traversal
import MetadataProjection.Semantics.Render
import MetadataProjection.Traits

/-!
# MetadataProjection.Closure.Interfaces

The closure of a type: what it leads to through the interfaces that interfaces require. The
arguments of a node are put into the interfaces it requires, so each is reached with the arguments
composed along its path; the first path to an interface wins.

* `Resolver.walk`: visits the closure in pre-order.
* `Resolver.enumerate`: the closure of a single definition.
* `Resolver.enumerateRequired`: what a type must implement. `Resolver.requiredInterfaces`: this as a
  list of interfaces, with rendered arguments.
-/

namespace MetadataProjection

structure InterfaceInfo where
  type : TypeDef
  arguments : List String
deriving DecidableEq, Repr

/-- Adds an interface at the end, unless it is listed already. Was it added? -/
def addInterface (infos : List InterfaceInfo) (info : InterfaceInfo) : Bool × List InterfaceInfo :=
  if infos.any (·.type == info.type) then (false, infos) else (true, infos ++ [info])

namespace Resolver

/-- The interfaces that a node of the closure requires, in the order of declaration. They are
looked up from the last to the first. -/
def requiredBy (r : Resolver) (node : Semantics) (row : TypeRow) : Query (List Semantics) := do
  let fromEnd ← row.interfaces.reverse.mapM r.resolveReference
  return (fromEnd.map (·.substitute node.args)).reverse

/-- Visits the nodes and, before the next, everything they require. Only interfaces lead on. -/
def walk {σ : Type} (r : Resolver) (visit : σ → Semantics → TypeRow → Except Error σ)
    (tour : Tour σ) (nodes : List Semantics) : Query (Tour σ) :=
  r.view.traverse Semantics.definitionOf
    (fun state node row => do
      let state ← visit state node row
      if (← r.view.categoryOf row) = .interface then
        return .next state (← r.requiredBy node row)
      else return .next state [])
    tour nodes

def enumerate {σ : Type} (r : Resolver) (visit : σ → Semantics → TypeRow → Except Error σ)
    (state : σ) (d : TypeDef) : Query σ := do
  return (← r.walk visit { state } [.definition d]).state

/-- The descriptors of a node's arguments, against the parameters of the root. A generic definition
stands for itself with the names of its own parameters. -/
def describeArguments (r : Resolver) (params : List String) (node : Semantics) (row : TypeRow) :
    Except Error (List String) :=
  match node with
  | .definition _ => .ok row.genericParams
  | _ => node.args.mapM (·.render r.view params)

def recordInterface (r : Resolver) (params : List String) (infos : List InterfaceInfo)
    (node : Semantics) (row : TypeRow) : Except Error (List InterfaceInfo) := do
  let arguments ← r.describeArguments params node row
  return (addInterface infos ⟨row.handle, arguments⟩).2

def walkDeclared {σ : Type} (r : Resolver) (visit : σ → Semantics → TypeRow → Except Error σ)
    (tour : Tour σ) : List TypeDefOrRef → Query (Tour σ)
  | [] => return tour
  | ref :: refs => do
    let node ← r.resolveReference ref
    let tour ← r.walk visit tour [node]
    r.walkDeclared visit tour refs

/-- Visits the closure of an interface, and of any other type the closures of the interfaces it
declares. -/
def enumerateRequired {σ : Type} (r : Resolver) (visit : σ → Semantics → TypeRow → Except Error σ)
    (state : σ) (d : TypeDef) (row : TypeRow) : Query σ := do
  let tour ←
    if (← r.view.categoryOf row) = .interface then r.walk visit { state } [.definition d]
    else r.walkDeclared visit { state } row.interfaces
  return tour.state

def requiredInterfaces (r : Resolver) (d : TypeDef) : Query (List InterfaceInfo) := do
  let row : TypeRow ← r.view.row d
  r.enumerateRequired (r.recordInterface row.genericParams) [] d row

end Resolver

end MetadataProjection
