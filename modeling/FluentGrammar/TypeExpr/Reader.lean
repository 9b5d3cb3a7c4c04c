import FluentGrammar.TypeExpr.Basic
import FluentGrammar.TypeExpr.Token

/-!
# Reading type expressions

The grammar of type expressions over tokens is

    Type ::= word [ "<" Arg { "," Arg } ">" ] { "[" "]" }
    Arg  ::= Type | "?" | "?" "extends" Type | "?" "super" Type

A word that a dot follows at once belongs to a qualified name and is refused. Every step of the
reader returns the tokens it leaves together with a proof that they are fewer, which is why the
recursion ends.

* `TypeExpr.read`: the type a text denotes, or what is wrong with the text and where.
-/

namespace FluentGrammar

/-- What can be wrong with a type expression. -/
inductive TypeExpr.Problem where
  | noName
  | qualifiedName
  | noSeparator
  | noBracket
  | noKeyword
  | trailing
deriving DecidableEq

/-- The wording of a problem. -/
def TypeExpr.Problem.text : TypeExpr.Problem → String
  | .noName => "expected a name"
  | .qualifiedName => "qualified names are not supported"
  | .noSeparator => "expected `,` or `>`"
  | .noBracket => "expected `]`"
  | .noKeyword => "expected `extends` or `super`"
  | .trailing => "unexpected trailing input"

/-- A problem and the offset of the character where it shows. -/
structure TypeExpr.ReadFault where
  offset : Nat
  problem : TypeExpr.Problem
deriving DecidableEq

namespace TypeExpr.Reader

/-- A value read and the tokens left, fewer than `bound`. -/
structure Result (α : Type) (bound : Nat) where
  value : α
  rest : List Token
  shorter : rest.length < bound

/-- The offset at which `ts` begin in a text of `length` characters. -/
def offsetOf (length : Nat) : List Token → Nat
  | [] => length
  | t :: _ => t.start

/-- A dot stands right at the offset `stop`. -/
def dotAt (stop : Nat) : List Token → Bool
  | ⟨.mark '.', start, _⟩ :: _ => start == stop
  | _ => false

/-- A simple name. -/
def readName (length : Nat) :
    (ts : List Token) → Except ReadFault (Result String ts.length)
  | ⟨.word name, _, stop⟩ :: ts =>
    if dotAt stop ts then .error ⟨stop, .qualifiedName⟩
    else .ok ⟨name, ts, by simp⟩
  | ts => .error ⟨offsetOf length ts, .noName⟩

/-- The number of bracket pairs at the front. -/
def readDims (length : Nat) :
    (ts : List Token) → Except ReadFault (Result Nat (ts.length + 1))
  | ⟨.mark '[', _, _⟩ :: ⟨.mark ']', _, _⟩ :: ts =>
    (readDims length ts).map fun r => ⟨r.value + 1, r.rest, by have := r.shorter; simp; omega⟩
  | ⟨.mark '[', _, _⟩ :: ts => .error ⟨offsetOf length ts, .noBracket⟩
  | ts => .ok ⟨0, ts, by simp⟩

/-- The bound of a wildcard, if the tokens after its question mark give one. -/
inductive Keyword (ts : List Token) where
  | none
  | bound (make : TypeExpr → TypeArg) (rest : List Token) (shorter : rest.length < ts.length)
  | unknown (stop : Nat)

/-- The keyword after the question mark of a wildcard. A qualified name there is left alone. -/
def keyword : (ts : List Token) → Keyword ts
  | ⟨.word name, _, stop⟩ :: ts =>
    if dotAt stop ts then .none
    else if name = "extends" then .bound .upper ts (by simp)
    else if name = "super" then .bound .lower ts (by simp)
    else .unknown stop
  | _ => .none

mutual

/-- A type. -/
def readType (length : Nat) (ts : List Token) : Except ReadFault (Result TypeExpr ts.length) :=
  match readName length ts with
  | .error e => .error e
  | .ok name =>
    have h₁ := name.shorter
    match h₂ : name.rest with
    | ⟨.mark '<', _, _⟩ :: ts₂ =>
      match readArgs length ts₂ with
      | .error e => .error e
      | .ok ⟨args, ts₃, h₃⟩ =>
        match readDims length ts₃ with
        | .error e => .error e
        | .ok ⟨dims, ts₄, h₄⟩ => .ok ⟨⟨name.value, args, dims⟩, ts₄, by simp [h₂] at h₁; omega⟩
    | ts₂ =>
      match readDims length ts₂ with
      | .error e => .error e
      | .ok ⟨dims, ts₃, h₃⟩ => .ok ⟨⟨name.value, [], dims⟩, ts₃, by rw [h₂] at h₁; omega⟩
termination_by 3 * ts.length
decreasing_by
  simp [h₂] at h₁
  omega

/-- An argument. -/
def readArg (length : Nat) (ts : List Token) : Except ReadFault (Result TypeArg ts.length) :=
  match ts with
  | ⟨.mark '?', _, _⟩ :: ts₁ =>
    match keyword ts₁ with
    | .none => .ok ⟨.any, ts₁, by simp⟩
    | .unknown stop => .error ⟨stop, .noKeyword⟩
    | .bound make ts₂ h₂ =>
      match readType length ts₂ with
      | .error e => .error e
      | .ok ⟨t, ts₃, h₃⟩ => .ok ⟨make t, ts₃, by simp; omega⟩
  | ts =>
    match readType length ts with
    | .error e => .error e
    | .ok ⟨t, ts₁, h₁⟩ => .ok ⟨.plain t, ts₁, h₁⟩
termination_by 3 * ts.length + 1
decreasing_by
  · simp
    omega
  · omega

/-- Arguments up to the closing angle bracket. -/
def readArgs (length : Nat) (ts : List Token) :
    Except ReadFault (Result (List TypeArg) ts.length) :=
  match readArg length ts with
  | .error e => .error e
  | .ok arg =>
    have h₁ := arg.shorter
    match h₂ : arg.rest with
    | ⟨.mark ',', _, _⟩ :: ts₂ =>
      match readArgs length ts₂ with
      | .error e => .error e
      | .ok ⟨args, ts₃, h₃⟩ => .ok ⟨arg.value :: args, ts₃, by simp [h₂] at h₁; omega⟩
    | ⟨.mark '>', _, _⟩ :: ts₂ => .ok ⟨[arg.value], ts₂, by simp [h₂] at h₁; omega⟩
    | ts₂ => .error ⟨offsetOf length ts₂, .noSeparator⟩
termination_by 3 * ts.length + 2
decreasing_by
  · omega
  · simp [h₂] at h₁
    omega

end

/-- A type and nothing after it. -/
def readAll (length : Nat) (ts : List Token) : Except ReadFault TypeExpr :=
  match readType length ts with
  | .error e => .error e
  | .ok ⟨t, [], _⟩ => .ok t
  | .ok ⟨_, rest, _⟩ => .error ⟨offsetOf length rest, .trailing⟩

end TypeExpr.Reader

/-- The type that a text denotes. -/
def TypeExpr.read (text : String) : Except TypeExpr.ReadFault TypeExpr :=
  Reader.readAll text.length (tokens text)

end FluentGrammar
