import MetadataProjection.Store.Basic

/-!
# MetadataProjection.Store.View

Reading a store. A view withholds the rows of some tokens: to a reader they are not there. Names,
the list of definitions and their number are not withheld.

* `View.row`: the row of a handle, or the failure that there is none.
* `View.findRequired`, `View.findFullName`: look-ups that must succeed.
* `View.hide`, `View.unhide`: change what is withheld.
-/

namespace MetadataProjection

structure View where
  store : Store := .empty
  /-- The tokens whose rows are withheld, each once. -/
  hidden : List Token := []
deriving Inhabited

def Store.view (s : Store) : View := { store := s }

namespace View

def row (v : View) {t : Table} (h : Handle t) : Except Error (Row t) :=
  if h.token ∈ v.hidden then .error (.rowNotFound h.token)
  else
    match v.store.row? h with
    | some r => .ok r
    | none => .error (.rowNotFound h.token)

def findType? (v : View) (space name : String) : Option TypeDef := v.store.findType? space name

def findRequired (v : View) (space name : String) : Except Error TypeDef :=
  match v.findType? space name with
  | some d => .ok d
  | none => .error (.unresolvedTypeReference (qualifiedName space name))

/-- The definition of a full name that must be known. The name is cut at its last dot. -/
def findFullName (v : View) (fullName : String) : Except Error TypeDef :=
  let (space, name) := splitFullName fullName
  v.findRequired space name

/-- All definitions, by rising row number. -/
def definitions (v : View) : List TypeDef := v.store.definitions

/-- Withholds a row. Was it visible before? -/
def hide (v : View) (k : Token) : Bool × View :=
  if k ∈ v.hidden then (false, v) else (true, { v with hidden := k :: v.hidden })

def unhide (v : View) (k : Token) : Bool × View :=
  if k ∈ v.hidden then (true, { v with hidden := v.hidden.erase k }) else (false, v)

theorem row_eq_ok_iff {v : View} {t : Table} {h : Handle t} {r : Row t} :
    v.row h = .ok r ↔ h.token ∉ v.hidden ∧ v.store.row? h = some r := by
  unfold row
  split
  · simp_all
  · split <;> simp_all

theorem row_eq_error {v : View} {t : Table} {h : Handle t} {e : Error}
    (he : v.row h = .error e) : e = .rowNotFound h.token := by
  unfold row at he
  split at he
  · cases he; rfl
  · split at he
    · cases he
    · cases he; rfl

end View

end MetadataProjection
