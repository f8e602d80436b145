import Std.Data.TreeMap
import MetadataProjection.Error

/-!
# MetadataProjection.Store.Basic

The store of metadata rows. Row numbers are handed out by one counter per table and cut to 24 bits;
a row is written once its number is known. Two indexes find types and named references by their
namespace-qualified names.

* `Rows`: the rows of one table and its counter.
* `Store`: all tables and both indexes; `Store.rows`, `Store.setRows` reach one table.
* `Store.reserve`, `Store.put`: hand out a row number, write a row.
* `Store.addTypeRef`, `Store.addTypeSpec`: the rows that stand for types used elsewhere.
-/

namespace MetadataProjection

/-- The rows of one table by row number, and how many row numbers were handed out. -/
structure Rows (ρ : Type) where
  issued : Nat := 0
  byNumber : Std.TreeMap RowNumber ρ := ∅

namespace Rows

variable {ρ : Type}

def nextNumber (r : Rows ρ) : RowNumber := RowNumber.ofNat (r.issued + 1)

def put (r : Rows ρ) (n : RowNumber) (row : ρ) : Rows ρ :=
  { r with byNumber := r.byNumber.insert n row }

def get? (r : Rows ρ) (n : RowNumber) : Option ρ := r.byNumber[n]?

theorem get?_put (r : Rows ρ) (n m : RowNumber) (row : ρ) :
    (r.put n row).get? m = if n = m then some row else r.get? m := by
  simp only [put, get?, Std.TreeMap.getElem?_insert, Std.compare_eq_iff_eq]

end Rows

structure Store where
  typeDefs : Rows TypeRow := {}
  typeRefs : Rows TypeRefRow := {}
  typeSpecs : Rows TypeSpecRow := {}
  methods : Rows MethodRow := {}
  fields : Rows FieldRow := {}
  properties : Rows PropertyRow := {}
  events : Rows EventRow := {}
  params : Rows ParamRow := {}
  attributes : Rows AttributeRow := {}
  typeNames : Std.TreeMap String TypeDef := ∅
  refNames : Std.TreeMap String TypeRef := ∅

namespace Store

def empty : Store := {}

instance : Inhabited Store := ⟨empty⟩

def rows (s : Store) : (t : Table) → Rows (Row t)
  | .typeDef => s.typeDefs
  | .typeRef => s.typeRefs
  | .typeSpec => s.typeSpecs
  | .methodDef => s.methods
  | .field => s.fields
  | .property => s.properties
  | .event => s.events
  | .param => s.params
  | .customAttribute => s.attributes

def setRows (s : Store) : (t : Table) → Rows (Row t) → Store
  | .typeDef, r => { s with typeDefs := r }
  | .typeRef, r => { s with typeRefs := r }
  | .typeSpec, r => { s with typeSpecs := r }
  | .methodDef, r => { s with methods := r }
  | .field, r => { s with fields := r }
  | .property, r => { s with properties := r }
  | .event, r => { s with events := r }
  | .param, r => { s with params := r }
  | .customAttribute, r => { s with attributes := r }

@[simp] theorem rows_setRows_self (s : Store) (t : Table) (r : Rows (Row t)) :
    (s.setRows t r).rows t = r := by
  cases t <;> rfl

theorem rows_setRows_of_ne (s : Store) {t u : Table} (r : Rows (Row t)) (h : t ≠ u) :
    (s.setRows t r).rows u = s.rows u := by
  cases t <;> cases u <;> first | rfl | exact absurd rfl h

@[simp] theorem typeNames_setRows (s : Store) (t : Table) (r : Rows (Row t)) :
    (s.setRows t r).typeNames = s.typeNames := by
  cases t <;> rfl

@[simp] theorem refNames_setRows (s : Store) (t : Table) (r : Rows (Row t)) :
    (s.setRows t r).refNames = s.refNames := by
  cases t <;> rfl

def reserve (s : Store) (t : Table) : Handle t × Store :=
  let r := s.rows t
  (⟨r.nextNumber⟩, s.setRows t { r with issued := r.issued + 1 })

def put (s : Store) {t : Table} (h : Handle t) (row : Row t) : Store :=
  s.setRows t ((s.rows t).put h.row row)

/-- The row of a handle, if there is one. -/
def row? (s : Store) {t : Table} (h : Handle t) : Option (Row t) := (s.rows t).get? h.row

def findType? (s : Store) (space name : String) : Option TypeDef :=
  s.typeNames[qualifiedName space name]?

/-- The definitions that have a row, by rising row number. -/
def definitions (s : Store) : List TypeDef := s.typeDefs.byNumber.keys.map Handle.mk

def definitionCount (s : Store) : Nat := s.typeDefs.byNumber.size

/-- The reference of this full name: the one the store already has, or a new one. The first pair of
namespace and name that makes up a full name is kept. -/
def addTypeRef (s : Store) (space name : String) : TypeRef × Store :=
  let fullName := qualifiedName space name
  match s.refNames[fullName]? with
  | some h => (h, s)
  | none =>
    let (h, s) := s.reserve .typeRef
    let s := s.put h (t := .typeRef) { token := h.token, space, name }
    (h, { s with refNames := s.refNames.insert fullName h })

def addTypeSpec (s : Store) (signature : Signature) : TypeSpec × Store :=
  let (h, s) := s.reserve .typeSpec
  (h, s.put h (t := .typeSpec) { token := h.token, signature })

end Store

end MetadataProjection
