import PullStream.Text

/-!
# Values

The elements that a script works on. Equality is structural, so `1` and `"1"` differ, and the order
is total: by kind first, then by content, lists lexicographically.
-/

set_option autoImplicit false

namespace PullStream.Script

inductive Value where
  | null
  | truth (b : Bool)
  | int (n : Int64)
  | text (s : String)
  | list (xs : List Value)
  | formless

namespace Value

mutual

def same : Value → Value → Bool
  | null, null => true
  | truth a, truth b => a == b
  | int a, int b => a == b
  | text a, text b => a == b
  | list xs, list ys => sameList xs ys
  | formless, formless => true
  | _, _ => false

def sameList : List Value → List Value → Bool
  | [], [] => true
  | x :: xs, y :: ys => same x y && sameList xs ys
  | _, _ => false

end

mutual

theorem same_self : (a : Value) → same a a = true
  | null | truth _ | int _ | text _ | formless => by simp [same]
  | list xs => by simpa [same] using sameList_self xs

theorem sameList_self : (xs : List Value) → sameList xs xs = true
  | [] => rfl
  | x :: xs => by simp [sameList, same_self x, sameList_self xs]

end

mutual

theorem eq_of_same : (a b : Value) → same a b = true → a = b
  | a, b, h => by
    cases a <;> cases b <;> simp_all only [same, Bool.false_eq_true, beq_iff_eq]
    exact congrArg list (eq_of_sameList _ _ h)

theorem eq_of_sameList : (xs ys : List Value) → sameList xs ys = true → xs = ys
  | [], [], _ => rfl
  | [], _ :: _, h => by simp [sameList] at h
  | _ :: _, [], h => by simp [sameList] at h
  | x :: xs, y :: ys, h => by
    simp only [sameList, Bool.and_eq_true] at h
    rw [eq_of_same x y h.1, eq_of_sameList xs ys h.2]

end

instance : DecidableEq Value := fun a b =>
  if h : same a b then isTrue (eq_of_same a b h)
  else isFalse fun e => h (e ▸ same_self a)

def rank : Value → Nat
  | null => 0
  | truth _ => 1
  | int _ => 2
  | text _ => 3
  | list _ => 4
  | formless => 5

mutual

def order : Value → Value → Ordering
  | truth a, truth b => compare a b
  | int a, int b => compare a b
  | text a, text b => compare a b
  | list xs, list ys => orderList xs ys
  | a, b => compare a.rank b.rank

def orderList : List Value → List Value → Ordering
  | [], [] => .eq
  | [], _ :: _ => .lt
  | _ :: _, [] => .gt
  | x :: xs, y :: ys => (order x y).then (orderList xs ys)

end

mutual

def write : Value → String
  | null => absentText
  | truth b => if b then "true" else "false"
  | int n => toString n.toInt
  | text s => s
  | list xs => writeList xs
  | formless => formlessText

def writeList : List Value → String
  | [] => ""
  | [x] => write x
  | x :: y :: rest => write x ++ "," ++ writeList (y :: rest)

end

/-- `0, …, n - 1` -/
def upTo (n : Int64) : List Value := (List.range n.toInt.toNat).map fun i => int (.ofNat i)

/-- The integers that a list made of the value itself would range over. -/
def range : Value → List Value
  | int n => upTo n
  | _ => []

/-- The elements of a list, and anything else as the only element. -/
def spread : Value → List Value
  | list xs => xs
  | x => [x]

end Value

end PullStream.Script
