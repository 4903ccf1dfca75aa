import PullStream.Markup.Namespace
import PullStream.Markup.Token

/-!
# Documents

Reads a text as a document: an optional declaration, exactly one outermost element whose tags all
match, and around it nothing but white space, comments and processing instructions. There is no
notation for document types.
-/

set_option autoImplicit false

namespace PullStream.Markup

/-- An element whose end was not met yet, with what it holds so far, backwards. -/
structure OpenElement where
  name : QName
  attributes : List Attribute
  content : List Node
  scope : Scope

structure Assembly where
  path : List OpenElement
  root : Option Node

namespace Assembly

def fresh : Assembly := ⟨[], none⟩

def scope (a : Assembly) : Scope :=
  match a.path with
  | e :: _ => e.scope
  | [] => .outermost

/-- Adds a node inside the innermost open element, or as the outermost element. -/
def add (a : Assembly) (n : Node) : Option Assembly :=
  match a.path with
  | e :: rest => some { a with path := { e with content := n :: e.content } :: rest }
  | [] => if n.isElement && a.root.isNone then some { a with root := some n } else none

def token (a : Assembly) : Token → Option Assembly
  | .startTag name attributes closed =>
    if a.path.isEmpty && a.root.isSome then none
    else do
      let scope ← enterElement a.scope name attributes
      if closed then a.add (.element name attributes [])
      else return { a with path := ⟨name, attributes, [], scope⟩ :: a.path }
  | .endTag name =>
    match a.path with
    | e :: rest =>
      if e.name = name then
        { a with path := rest }.add (.element e.name e.attributes e.content.reverse)
      else none
    | [] => none
  | .text content special =>
    if a.path.isEmpty then
      if !special && content.toList.all isSpace then some a else none
    else a.add (.text content)
  | .comment content => if a.path.isEmpty then some a else a.add (.comment content)
  | .instruction target content =>
    if a.path.isEmpty then some a else a.add (.instruction target content)

def finish (a : Assembly) : Option Node := if a.path.isEmpty then a.root else none

end Assembly

/-! ## The declaration -/

def isVersion : List Char → Bool
  | '1' :: '.' :: digits => !digits.isEmpty && digits.all Char.isDigit
  | _ => false

def isEncoding : List Char → Bool
  | c :: rest => c.isAlpha && rest.all fun c => c.isAlphanum || c = '.' || c = '_' || c = '-'
  | [] => false

/-- What a declaration assigns, up to its end. Space must stand before each name. A value is taken
as it is written: a reference has no meaning here. -/
def assignments? : Nat → List Char → Option (List (List Char × List Char))
  | 0, _ => none
  | fuel+1, cs =>
    match skipSpace cs with
    | [] => some []
    | next =>
      if cs.head?.any isSpace then do
        let (a, rest) ← assignment? next
        return a :: (← assignments? fuel rest)
      else none

/-- The version, then perhaps the encoding, then perhaps whether the document stands alone. -/
def declares (assigned : List (List Char × List Char)) : Bool :=
  let field (name : String) (holds : List Char → Bool) (a : List Char × List Char) : Bool :=
    a.1 = name.toList && holds a.2
  let version := field "version" isVersion
  let encoding := field "encoding" isEncoding
  let alone := field "standalone" fun v => v = ['y', 'e', 's'] || v = ['n', 'o']
  match assigned with
  | [a] => version a
  | [a, b] => version a && (encoding b || alone b)
  | [a, b, c] => version a && encoding b && alone c
  | _ => false

/-- What follows the declaration, if the text begins with one. -/
def skipDeclaration (cs : List Char) : Option (List Char) :=
  match cs with
  | '<' :: '?' :: 'x' :: 'm' :: 'l' :: c :: rest =>
    if isSpace c then do
      let (content, behind) ← breakOn ['?', '>'] (c :: rest)
      if declares (← assignments? (content.length + 1) content) then return behind else none
    else some cs
  | _ => some cs

/-- The text behind a byte order mark. -/
def skipMark : List Char → List Char
  | c :: rest => if c.toNat = 0xFEFF then rest else c :: rest
  | [] => []

/-- The outermost element of a well-formed document. -/
def read (xml : String) : Option Node := do
  let cs ← skipDeclaration (skipMark xml.toList)
  if cs.all isAllowed then
    let a ← (← Token.scan cs).foldlM Assembly.token .fresh
    a.finish
  else none

end PullStream.Markup
