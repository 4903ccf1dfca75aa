import PullStream.Markup.Character
import PullStream.Markup.Node

/-!
# Tokens of markup

The lexical layer of a document: tags with their attributes, text with its references resolved,
comments and processing instructions. `Token.scan` refuses what no token can begin with and what
breaks a rule inside one; whether tags match is not its concern. Text is `special` if it was written
with references or in a literal section, which have no place outside the outermost element.
-/

set_option autoImplicit false

namespace PullStream.Markup

inductive Token where
  | startTag (name : QName) (attributes : List Attribute) (closed : Bool)
  | endTag (name : QName)
  | text (content : String) (special : Bool)
  | comment (content : String)
  | instruction (target content : String)

/-- What lies before and behind the first occurrence of `mark`. -/
def breakOn (mark : List Char) : List Char → Option (List Char × List Char)
  | [] => if mark.isEmpty then some ([], []) else none
  | c :: cs =>
    if mark.isPrefixOf (c :: cs) then some ([], (c :: cs).drop mark.length)
    else (breakOn mark cs).map fun (before, behind) => (c :: before, behind)

def skipSpace (cs : List Char) : List Char := cs.dropWhile isSpace

def name? (cs : List Char) : Option (List Char × List Char) :=
  let name := cs.takeWhile isNameChar
  if isName name then some (name, cs.dropWhile isNameChar) else none

/-- At most one colon, with a name on either side of it. -/
def QName.ofChars? (cs : List Char) : Option QName :=
  match breakOn [':'] cs with
  | none => some ⟨"", String.ofList cs⟩
  | some (qualifier, localName) =>
    if isName qualifier && isName localName && !localName.contains ':' then
      some ⟨String.ofList qualifier, String.ofList localName⟩
    else none

def qname? (cs : List Char) : Option (QName × List Char) := do
  let (name, rest) ← name? cs
  return (← QName.ofChars? name, rest)

/-! ## References -/

def digit? (base : Nat) (c : Char) : Option Nat :=
  let d :=
    if '0' ≤ c && c ≤ '9' then c.toNat - 48
    else if 'a' ≤ c && c ≤ 'f' then c.toNat - 87
    else if 'A' ≤ c && c ≤ 'F' then c.toNat - 55
    else base
  if d < base then some d else none

def number? (base : Nat) (cs : List Char) : Option Nat :=
  if cs.isEmpty then none
  else cs.foldlM (fun n c => (digit? base c).map (base * n + ·)) 0

def charOf? (code : Nat) : Option Char :=
  if code.isValidChar && isAllowed (Char.ofNat code) then some (Char.ofNat code) else none

/-- What stands between the ampersand and the semicolon. -/
def reference? : List Char → Option Char
  | '#' :: 'x' :: cs => (number? 16 cs).bind charOf?
  | '#' :: cs => (number? 10 cs).bind charOf?
  | ['l', 't'] => some '<'
  | ['g', 't'] => some '>'
  | ['a', 'm', 'p'] => some '&'
  | ['a', 'p', 'o', 's'] => some '\''
  | ['q', 'u', 'o', 't'] => some '"'
  | _ => none

/-- Replaces the references; `pending` is what was read of one that has not ended, backwards. -/
def resolve (pending : Option (List Char)) : List Char → Option (List Char)
  | [] => if pending.isNone then some [] else none
  | c :: cs =>
    match pending with
    | none =>
      if c = '&' then resolve (some []) cs else (resolve none cs).map (c :: ·)
    | some name =>
      if c = ';' then do return (← reference? name.reverse) :: (← resolve none cs)
      else resolve (some (c :: name)) cs

/-! ## Tags -/

/-- White space in an attribute counts as a blank, unless it is written as a reference. -/
def blanked (c : Char) : Char := if isSpace c then ' ' else c

def quoted? : List Char → Option (List Char × List Char)
  | quote :: cs => if quote = '"' || quote = '\'' then breakOn [quote] cs else none
  | [] => none

/-- A name and the quoted text assigned to it, both as they are written. -/
def assignment? (cs : List Char) : Option ((List Char × List Char) × List Char) := do
  let (name, rest) ← name? cs
  match skipSpace rest with
  | '=' :: rest =>
    let (raw, rest) ← quoted? (skipSpace rest)
    return ((name, raw), rest)
  | _ => none

def Attribute.ofChars? (name raw : List Char) : Option Attribute := do
  let name ← QName.ofChars? name
  if raw.contains '<' then none
  else return ⟨name, String.ofList (← resolve none (raw.map blanked))⟩

def attribute? (cs : List Char) : Option (Attribute × List Char) := do
  let ((name, raw), rest) ← assignment? cs
  return (← Attribute.ofChars? name raw, rest)

/-- The attributes up to the end of the tag, and whether the tag closes its element. Space must
stand before each of them. -/
def attributes? : Nat → List Char → Option (List Attribute × Bool × List Char)
  | 0, _ => none
  | fuel+1, cs =>
    match skipSpace cs with
    | '>' :: rest => some ([], false, rest)
    | '/' :: '>' :: rest => some ([], true, rest)
    | next =>
      if cs.head?.any isSpace then do
        let (a, rest) ← attribute? next
        let (more, closed, rest) ← attributes? fuel rest
        return (a :: more, closed, rest)
      else none

def startTag? (fuel : Nat) (cs : List Char) : Option (Token × List Char) := do
  let (name, rest) ← qname? cs
  let (attributes, closed, rest) ← attributes? fuel rest
  return (.startTag name attributes closed, rest)

def endTag? (cs : List Char) : Option (Token × List Char) := do
  let (name, rest) ← qname? cs
  match skipSpace rest with
  | '>' :: rest => return (.endTag name, rest)
  | _ => none

/-! ## Other tokens -/

/-- Two hyphens end a comment, so they must be followed by the end of it. -/
def comment? (cs : List Char) : Option (Token × List Char) :=
  match breakOn ['-', '-'] cs with
  | some (content, '>' :: rest) => some (.comment (String.ofList content), rest)
  | _ => none

def isReserved (target : List Char) : Bool := target.map Char.toLower == ['x', 'm', 'l']

def instruction? (cs : List Char) : Option (Token × List Char) := do
  let (target, rest) ← name? cs
  if isReserved target || target.contains ':' then none
  else
    let (content, behind) ← breakOn ['?', '>'] rest
    if content.isEmpty || content.head?.any isSpace then
      return (.instruction (String.ofList target) (String.ofList (skipSpace content)), behind)
    else none

def literal? (cs : List Char) : Option (Token × List Char) := do
  let (content, rest) ← breakOn [']', ']', '>'] cs
  return (.text (String.ofList content) true, rest)

def text? (cs : List Char) : Option (Token × List Char) := do
  let raw := cs.takeWhile (· ≠ '<')
  if (breakOn [']', ']', '>'] raw).isSome then none
  else
    let content ← resolve none raw
    return (.text (String.ofList content) (raw.contains '&'), cs.dropWhile (· ≠ '<'))

/-- The first token of a text that is no longer than `fuel`. -/
def token? (fuel : Nat) : List Char → Option (Token × List Char)
  | '<' :: '/' :: cs => endTag? cs
  | '<' :: '!' :: '-' :: '-' :: cs => comment? cs
  | '<' :: '!' :: '[' :: 'C' :: 'D' :: 'A' :: 'T' :: 'A' :: '[' :: cs => literal? cs
  | '<' :: '?' :: cs => instruction? cs
  | '<' :: cs => startTag? fuel cs
  | cs => text? cs

namespace Token

def scanAll : Nat → List Char → Option (List Token)
  | _, [] => some []
  | 0, _ => none
  | fuel+1, cs => do
    let (t, rest) ← token? (fuel + 1) cs
    return t :: (← scanAll fuel rest)

/-- The tokens of a text. Each takes at least one character. -/
def scan (cs : List Char) : Option (List Token) := scanAll cs.length cs

end Token

end PullStream.Markup
