import MetadataProjection.Config
import MetadataProjection.Query
import MetadataProjection.Store.View

/-!
# MetadataProjection.Resolver

What a signature or a reference means. Resolution looks up names, follows instantiations and
remembers the meaning of every reference it completes. How deep it nests is bounded: a query that
starts with `n` levels fails where it would need level `n`.

* `Resolver.signature`, `Resolver.reference`, `Resolver.instantiation`: resolution with a number of
  levels left. Each answers with the meaning and with its height, the number of levels below it.
* `Resolver.resolve`, `Resolver.resolveReference`: resolution with all levels of the configuration.
-/

namespace MetadataProjection

structure Resolver where
  view : View
  config : Config := {}

namespace Resolver

def limitReached (r : Resolver) : Error := .recursionLimit r.config.maxDepth

def remembered? (r : Resolver) (ref : TypeDefOrRef) : Query (Option Memo) := do
  if r.config.remember then return (← get)[ref]? else return none

/-- Remembers the meaning of a reference, unless one is remembered already. -/
def commit (r : Resolver) (ref : TypeDefOrRef) (m : Memo) : Query Unit := do
  if r.config.remember then modify (·.insertIfNew ref m)

def named (r : Resolver) (h : TypeRef) : Except Error TypeDef := do
  let row ← r.view.row h
  r.view.findRequired row.space row.name

/-- The meaning of a named reference. The identifier type is a value type that metadata spells as a
reference; it needs no definition. -/
def namedMeaning (r : Resolver) (h : TypeRef) : Except Error Semantics := do
  let row ← r.view.row h
  if row.isNamed Platform.systemNamespace "Guid" then return .guid
  else return .definition (← r.view.findRequired row.space row.name)

def genericBase (r : Resolver) : Signature → Except Error TypeDef
  | .classType k | .valueType k => do
    match ← TypeDefOrRef.ofToken k with
    | .typeDef d => return d
    | .typeRef h => r.named h
    | .typeSpec _ => throw (.invalidMetadata (.instanceOfInstance k))
  | base => throw (.invalidMetadata (.instanceOfNonType base))

/-- Looks up a reference. An instantiation is left to `apply`. -/
def lookUp (r : Resolver) (apply : Signature → List Signature → Query Memo) :
    TypeDefOrRef → Query Memo
  | .typeDef d => return ⟨.definition d, 0⟩
  | .typeRef h => do return ⟨← r.namedMeaning h, 0⟩
  | .typeSpec h => do
    let row : TypeSpecRow ← r.view.row h
    match row.signature with
    | .genericInst base args => return (← apply base args).raise
    | other => throw (.invalidMetadata (.specNotInstance row.token other))

def instanceHeight (args : List Memo) : Nat := args.foldl (fun n m => max n (m.height + 1)) 0

mutual

/-- The meaning of a signature. That something is an array is said by the category of a parameter,
not by its type. -/
def signature (r : Resolver) : Nat → Signature → Query Memo
  | 0, _ => throw r.limitReached
  | _ + 1, .fundamental k => return ⟨.fundamental k, 0⟩
  | _ + 1, .object => return ⟨.object, 0⟩
  | n + 1, .classType k | n + 1, .valueType k => do
    return (← reference r n (← TypeDefOrRef.ofToken k)).raise
  | _ + 1, .genericParamType i => return ⟨.index i, 0⟩
  | n + 1, .genericInst base args => do
    return (← instantiation r n base args).raise
  | n + 1, .szArray element => do
    return (← signature r n element).raise
  | _ + 1, s => throw (.unsupportedElementType s.describe)

/-- The meaning of a reference. A remembered meaning counts as deep as when it was found. -/
def reference (r : Resolver) : Nat → TypeDefOrRef → Query Memo
  | 0, _ => throw r.limitReached
  | n + 1, ref => do
    match ← r.remembered? ref with
    | some m => if m.height ≤ n then return m else throw r.limitReached
    | none =>
      let m ← r.lookUp (instantiation r n) ref
      r.commit ref m
      return m

def instantiation (r : Resolver) : Nat → Signature → List Signature → Query Memo
  | 0, _, _ => throw r.limitReached
  | n + 1, base, args => do
    let d ← r.genericBase base
    let memos ← args.mapM (signature r n)
    return ⟨.inst d (memos.map (·.meaning)), instanceHeight memos⟩

end

/-! ## Queries -/

def resolve (r : Resolver) (s : Signature) : Query Semantics := do
  return (← r.signature r.config.maxDepth s).meaning

def resolveReference (r : Resolver) (ref : TypeDefOrRef) : Query Semantics := do
  return (← r.reference r.config.maxDepth ref).meaning

def resolveToken (r : Resolver) (k : Token) : Query Semantics := do
  r.resolveReference (← TypeDefOrRef.ofToken k)

def definitionOf (r : Resolver) (ref : TypeDefOrRef) : Query TypeDef := do
  (← r.resolveReference ref).definitionOf

end Resolver

end MetadataProjection
