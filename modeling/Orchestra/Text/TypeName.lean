/-!
# Short type names

The readable name of a type drops its parameters and the path before its last component.
-/

namespace Orchestra.Text

/-- The characters after the last double colon, if there is one. -/
def afterLastPath? : List Char → Option (List Char)
  | [] => none
  | c :: rest =>
    match afterLastPath? rest with
    | some tail => some tail
    | none => if c = ':' && rest.head? = some ':' then some (rest.drop 1) else none

/-- The readable name of a type given its full one. -/
def shortTypeName (full : String) : String :=
  let base := full.toList.takeWhile (· != '<')
  String.ofList ((afterLastPath? base).getD base)

end Orchestra.Text
