/-!
# MetadataProjection.Name

Namespace-qualified names.

* `qualifiedName`: a namespace and a name joined by a dot; the global namespace adds none.
* `splitFullName`: the cut at the last dot.
* `namespaceSegments`: the parts of a namespace between its dots.
* `startsWith`: the test for accessor names.
-/

namespace MetadataProjection

/-- A namespace and a name as one text. Names of the global namespace stand alone. -/
def qualifiedName (space name : String) : String :=
  if space.isEmpty then name else space ++ "." ++ name

/-- Cuts at the last dot; a name without a dot belongs to the global namespace. -/
def splitFullName (fullName : String) : String × String :=
  let fromEnd := fullName.toList.reverse
  match fromEnd.dropWhile (· != '.') with
  | [] => ("", fullName)
  | _ :: space =>
    (String.ofList space.reverse, String.ofList (fromEnd.takeWhile (· != '.')).reverse)

/-- The parts between the dots. The global namespace is one empty part. -/
def namespaceSegments (space : String) : List String := space.splitOn "."

def startsWith (start text : String) : Bool := start.toList.isPrefixOf text.toList

theorem ne_dot_of_not_mem {name : String} (h : '.' ∉ name.toList) :
    ∀ c ∈ name.toList.reverse, (c != '.') = true := by
  intro c hc
  simp only [bne_iff_ne, ne_eq]
  rintro rfl
  exact h (List.mem_reverse.mp hc)

theorem splitFullName_of_not_mem {name : String} (h : '.' ∉ name.toList) :
    splitFullName name = ("", name) := by
  have e : (name.toList.reverse ++ []).dropWhile (· != '.') = [] := by
    rw [List.dropWhile_append_of_pos (ne_dot_of_not_mem h)]; rfl
  rw [List.append_nil] at e
  simp only [splitFullName, e]

theorem splitFullName_append {space name : String} (h : '.' ∉ name.toList) :
    splitFullName (space ++ "." ++ name) = (space, name) := by
  have hall := ne_dot_of_not_mem h
  have e : (space ++ "." ++ name).toList.reverse =
      name.toList.reverse ++ '.' :: space.toList.reverse := by
    simp
  simp only [splitFullName, e]
  rw [List.dropWhile_append_of_pos hall, List.takeWhile_append_of_pos hall]
  simp

end MetadataProjection
