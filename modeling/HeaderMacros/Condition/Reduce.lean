import HeaderMacros.Condition.Integer
import HeaderMacros.Token.Basic

/-!
# The value of an expression

An expression without names and parentheses is reduced step by step. Each step applies one
operator whose operands are words and puts the decimal text of the result in its place. The
operators are tried in a fixed order, which stands in for their precedence: negation first, then
the shift, the comparisons one by one, the bit operations and the logical operations; of one
operator the leftmost occurrence is applied.

A negative result is not a word, so it can be no operand again.

Every step leaves fewer tokens (`length_step_lt`), so reduction ends.
-/

namespace HeaderMacros.Condition

/-- The operators with two operands. -/
inductive BinaryOp where
  /-- The arithmetic shift to the right, by the lowest five bits of the second operand. -/
  | shiftRight
  /-- Less than. -/
  | less
  /-- Greater than. -/
  | greater
  /-- Less than or equal. -/
  | lessEqual
  /-- Greater than or equal. -/
  | greaterEqual
  /-- Equal. -/
  | equal
  /-- Not equal. -/
  | notEqual
  /-- Bitwise and. -/
  | bitAnd
  /-- Bitwise or. -/
  | bitOr
  /-- Logical and. -/
  | logicalAnd
  /-- Logical or. -/
  | logicalOr
  deriving DecidableEq, Repr

namespace BinaryOp

/-- The operators in the order in which they are tried. -/
def all : List BinaryOp :=
  [.shiftRight, .less, .greater, .lessEqual, .greaterEqual, .equal, .notEqual, .bitAnd, .bitOr,
    .logicalAnd, .logicalOr]

/-- The spelling of an operator. -/
def symbol : BinaryOp → Text
  | .shiftRight => ascii ">>"
  | .less => ascii "<"
  | .greater => ascii ">"
  | .lessEqual => ascii "<="
  | .greaterEqual => ascii ">="
  | .equal => ascii "=="
  | .notEqual => ascii "!="
  | .bitAnd => ascii "&"
  | .bitOr => ascii "|"
  | .logicalAnd => ascii "&&"
  | .logicalOr => ascii "||"

end BinaryOp

/-- One for true and zero for false. -/
def truth (b : Bool) : Int32 := if b then 1 else 0

/-- The result of an operator. -/
def BinaryOp.apply (op : BinaryOp) (x y : Int32) : Int32 :=
  match op with
  | .shiftRight => x >>> (y &&& 31)
  | .less => truth (x < y)
  | .greater => truth (y < x)
  | .lessEqual => truth (x ≤ y)
  | .greaterEqual => truth (y ≤ x)
  | .equal => truth (x == y)
  | .notEqual => truth (x != y)
  | .bitAnd => x &&& y
  | .bitOr => x ||| y
  | .logicalAnd => truth (x != 0 && y != 0)
  | .logicalOr => truth (x != 0 || y != 0)

/-- The spelling of negation. -/
def notSymbol : Text := ascii "!"

/-- The result of negation. -/
def applyNot (x : Int32) : Int32 := truth (x == 0)

/-- The token of a result. -/
def resultToken (n : Int32) : Token := Token.classify (Text.ofInt n.toInt)

/-- An operator with its operands. -/
inductive Operation where
  /-- A negation. -/
  | negation (x : Token)
  /-- An operator between two operands. -/
  | binary (op : BinaryOp) (x y : Token)
  deriving DecidableEq, Repr

/-- The value of an operation. Of two operands that are no numbers the second one is reported. -/
def Operation.value : Operation → Except Cause Int32
  | .negation x => (integer x.text).map applyNot
  | .binary op x y => do
    let b ← integer y.text
    let a ← integer x.text
    return op.apply a b

/-- An operation among tokens. -/
structure Redex where
  /-- The tokens before the operation. -/
  before : List Token
  /-- The operation. -/
  operation : Operation
  /-- The tokens after the operation. -/
  after : List Token
  deriving DecidableEq, Repr

/-- An operation with one more token before it. -/
def Redex.cons (t : Token) (r : Redex) : Redex := { r with before := t :: r.before }

/-- The leftmost negation of a word. -/
def negation? : List Token → Option Redex
  | sign :: x :: rest =>
    if sign.is notSymbol && x.isWord then some ⟨[], .negation x, rest⟩
    else (negation? (x :: rest)).map (Redex.cons sign)
  | _ => none

/-- The leftmost occurrence of an operator between two words. -/
def application? (op : BinaryOp) : List Token → Option Redex
  | x :: sign :: y :: rest =>
    if sign.is op.symbol && y.isWord && x.isWord then some ⟨[], .binary op x y, rest⟩
    else (application? op (sign :: y :: rest)).map (Redex.cons x)
  | _ => none

/-- The operation that is carried out first. -/
def redex? (ts : List Token) : Option Redex :=
  (negation? ts).or (BinaryOp.all.findSome? fun op => application? op ts)

/-- One step of reduction, or nothing if no operator applies. -/
def step (ts : List Token) : Except Cause (Option (List Token)) :=
  match redex? ts with
  | none => .ok none
  | some r => r.operation.value.map fun n => some (r.before ++ resultToken n :: r.after)

/-- A negation takes two tokens. -/
theorem length_negation? {ts : List Token} {r : Redex} (h : negation? ts = some r) :
    r.before.length + r.after.length + 2 = ts.length := by
  fun_induction negation? ts generalizing r with
  | case1 sign x rest hsign =>
    simp only [Option.some.injEq] at h
    subst h
    simp
  | case2 sign x rest hsign ih =>
    obtain ⟨r', hr', rfl⟩ := Option.map_eq_some_iff.1 h
    have := ih hr'
    simp only [Redex.cons, List.length_cons] at this ⊢
    omega
  | case3 => simp at h

/-- An operator with two operands takes three tokens. -/
theorem length_application? {op : BinaryOp} {ts : List Token} {r : Redex}
    (h : application? op ts = some r) : r.before.length + r.after.length + 3 = ts.length := by
  fun_induction application? op ts generalizing r with
  | case1 x sign y rest hsign =>
    simp only [Option.some.injEq] at h
    subst h
    simp
  | case2 x sign y rest hsign ih =>
    obtain ⟨r', hr', rfl⟩ := Option.map_eq_some_iff.1 h
    have := ih hr'
    simp only [Redex.cons, List.length_cons] at this ⊢
    omega
  | case3 => simp at h

/-- An operation takes at least two tokens. -/
theorem length_redex? {ts : List Token} {r : Redex} (h : redex? ts = some r) :
    r.before.length + r.after.length + 2 ≤ ts.length := by
  rcases Option.or_eq_some_iff.1 h with hneg | ⟨_, hsome⟩
  · exact Nat.le_of_eq (length_negation? hneg)
  · obtain ⟨op, _, hop⟩ := List.exists_of_findSome?_eq_some hsome
    have := length_application? hop
    omega

/-- A step leaves fewer tokens. -/
theorem length_step_lt {ts next : List Token} (h : step ts = .ok (some next)) :
    next.length < ts.length := by
  unfold step at h
  split at h
  · simp at h
  · rename_i r hr
    have hlen := length_redex? hr
    cases hv : r.operation.value with
    | error c => simp [hv, Except.map] at h
    | ok n =>
      simp only [hv, Except.map, Except.ok.injEq, Option.some.injEq] at h
      subst h
      simp only [List.length_append, List.length_cons]
      omega

/-- Reduces tokens without white space to a number. -/
def reduceSolid : List Token → Except Cause Int32
  | [] => .error (.valueless .empty [])
  | [t] => integer t.text
  | a :: b :: rest =>
    match _h : step (a :: b :: rest) with
    | .error c => .error c
    | .ok none => .error (.valueless .irreducible (Tokens.text (a :: b :: rest)))
    | .ok (some next) => reduceSolid next
termination_by ts => ts.length
decreasing_by exact length_step_lt ‹_›

/-- The value of an expression without names and parentheses. -/
def reduce (ts : List Token) : Except Cause Int32 := reduceSolid (Tokens.withoutSpace ts)

end HeaderMacros.Condition
