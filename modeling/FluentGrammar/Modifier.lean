import FluentGrammar.OrderedSet

/-!
# Modifiers

The words in front of a declaration. Some of them give its *access*, the others form a set that is
printed in a fixed order.

* `Access`: who may use a declared part.
* `Modifiers`: the words other than those of access.
* `accessOf`, `modifiersOf`: the two readings of a list of words.
-/

namespace FluentGrammar

/-- Who may use a declared part; without a word it is the package. -/
inductive Access where
  | publicAccess
  | protectedAccess
  | privateAccess
  | packageAccess
deriving DecidableEq, Inhabited

namespace Access

/-- The access that a word gives. -/
def ofWord? : String → Option Access
  | "public" => some publicAccess
  | "protected" => some protectedAccess
  | "private" => some privateAccess
  | _ => none

/-- The word for an access. -/
def word? : Access → Option String
  | publicAccess => some "public"
  | protectedAccess => some "protected"
  | privateAccess => some "private"
  | packageAccess => none

end Access

/-- The words in front of a declaration, except those of access. -/
abbrev Modifiers := OrderedSet String

/-- The access that the last word of access in a list gives. -/
def accessOf (words : List String) : Access :=
  ((words.filterMap Access.ofWord?).getLast?).getD .packageAccess

/-- The words of a list that are not words of access. -/
def modifiersOf (words : List String) : Modifiers :=
  .ofList (words.filter fun word => (Access.ofWord? word).isNone)

namespace Modifiers

/-- The words that are printed first, in their order. -/
def leading : List String :=
  ["abstract", "static", "final", "transient", "volatile", "synchronized", "native", "strictfp",
    "default"]

/-- The words in the order of printing: the leading ones, then the others in ascending order. -/
def printed (ms : Modifiers) : List String :=
  leading.filter (· ∈ ms) ++ ms.toList.filter (· ∉ leading)

end Modifiers

end FluentGrammar
