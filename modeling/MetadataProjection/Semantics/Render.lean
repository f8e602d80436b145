import MetadataProjection.Semantics
import MetadataProjection.Store.View

/-!
# MetadataProjection.Semantics.Render

Descriptors: the names of types with their arguments in angle brackets.

* `Semantics.render`: the descriptor of a meaning, against the names of the generic parameters of
  the enclosing definition.
-/

namespace MetadataProjection

namespace Semantics

/-- An open position is written as the name of the parameter it stands for, or by its number. -/
def renderIndex (params : List String) (i : UInt32) : String :=
  params[i.toNat]?.getD ("T" ++ toString i.toNat)

def renderDefinition (v : View) (d : TypeDef) : Except Error String := do
  let row : TypeRow ← v.row d
  return row.fullName

mutual

def render (v : View) (params : List String) : Semantics → Except Error String
  | fundamental k => return k.name
  | object => return "Object"
  | guid => return "Guid"
  | definition d => renderDefinition v d
  | inst d as => do
    let name ← renderDefinition v d
    let args ← renderArgs v params as
    return name ++ "<" ++ String.intercalate ", " args ++ ">"
  | index i => return renderIndex params i

def renderArgs (v : View) (params : List String) : List Semantics → Except Error (List String)
  | [] => return []
  | a :: as => do
    let text ← render v params a
    let texts ← renderArgs v params as
    return text :: texts

end

theorem renderArgs_eq_mapM (v : View) (params : List String) (as : List Semantics) :
    renderArgs v params as = as.mapM (render v params) := by
  induction as with
  | nil => rfl
  | cons a as ih => rw [renderArgs, ih, List.mapM_cons]

end Semantics

end MetadataProjection
