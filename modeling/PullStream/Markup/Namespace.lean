import PullStream.Markup.Node

/-!
# Namespaces

Which namespace the qualifier of a name stands for. A declaration holds for its element and what is
inside it. Two qualifiers are bound from the start and keep their meaning.
-/

set_option autoImplicit false

namespace PullStream.Markup

def xmlNamespace : String := "http://www.w3.org/XML/1998/namespace"

def xmlnsNamespace : String := "http://www.w3.org/2000/xmlns/"

/-- The innermost binding of a qualifier comes first; the empty qualifier has the default one. -/
abbrev Scope := List (String × String)

namespace Scope

def outermost : Scope := [("xml", xmlNamespace)]

def namespace? (scope : Scope) (qualifier : String) : Option String := scope.lookup qualifier

end Scope

namespace Attribute

/-- The qualifier that an attribute declares; for the default namespace the empty one. -/
def declares? (a : Attribute) : Option String :=
  if a.name.qualifier = "xmlns" then some a.name.localName
  else if a.name = ⟨"", "xmlns"⟩ then some ""
  else none

/-- A reserved namespace has its own qualifier and no other, and a qualifier cannot be unbound. -/
def declaresWell (a : Attribute) (qualifier : String) : Bool :=
  if qualifier = "xml" then a.value = xmlNamespace
  else qualifier ≠ "xmlns" && a.value ≠ xmlNamespace && a.value ≠ xmlnsNamespace &&
    (qualifier = "" || a.value ≠ "")

/-- An attribute's name with its namespace for the qualifier; without a qualifier it has none. -/
def expandedName? (scope : Scope) (a : Attribute) : Option (String × String) :=
  if a.name.qualifier = "" then some ("", a.name.localName)
  else if a.name.qualifier = "xmlns" then some (xmlnsNamespace, a.name.localName)
  else (scope.namespace? a.name.qualifier).map (·, a.name.localName)

end Attribute

/-- The scope inside an element, or nothing if its declarations, its name or its attributes break
the rules: every qualifier is bound, and no two attributes have one expanded name. -/
def enterElement (scope : Scope) (name : QName) (attributes : List Attribute) : Option Scope := do
  let declared := attributes.filterMap fun a => a.declares?.map fun q => (q, a)
  if !declared.all (fun (q, a) => a.declaresWell q) then none
  else
    let inner := declared.map (fun (q, a) => (q, a.value)) ++ scope
    if name.qualifier ≠ "" && (inner.namespace? name.qualifier).isNone then none
    else
      let expanded ← attributes.mapM (·.expandedName? inner)
      if expanded.eraseDups.length = expanded.length then some inner else none

end PullStream.Markup
