import CurlyTemplate.Component.Invocation

/-!
# Attributes as arguments

The attributes of an element that invokes a component become named arguments of the
call. Those whose name starts with `@` are passed one by one. All others are gathered
in one argument more, together with the attributes of the caller where these are
forwarded: `__ANGLE_ATTRS__=(-merge-refs invocation=(hash …) splat=__ANGLE_ATTRS__)`.
-/

namespace CurlyTemplate

namespace Component

/-- The path and the argument under which the attributes of the caller are known. -/
def attributesName : String := "__ANGLE_ATTRS__"

def mergeHelper : String := "-merge-refs"

/-- The helper that makes one value of named arguments. -/
def hashHelper : String := "hash"

def concatHelper : String := "concat"

/-- A call in curlies as an expression. A bare path stays a path, even though it might
name a helper. -/
def mustacheExpression (m : Mustache) : Expression :=
  if m.call.isBare then m.call.path else .sub m.call m.loc

/-- A piece of a quoted attribute value as an expression. -/
def partExpression : ConcatPart → Expression
  | .text t => Build.string t.chars
  | .mustache m => mustacheExpression m

/-- The value of an attribute as an expression. -/
def valueExpression : AttributeValue → Expression
  | .text t => Build.string t.chars
  | .mustache m => mustacheExpression m
  | .concat parts _ =>
      Build.sub (Build.path concatHelper) (parts.map partExpression) (Build.hash [])

/-- The name of the argument that an attribute is, without its `@`. -/
def argumentName? (a : Attribute) : Option String :=
  match a.name.toList with
  | '@' :: rest => some (String.ofList rest)
  | _ => none

def attributePair (name : String) (a : Attribute) : HashPair :=
  ⟨name, valueExpression a.value, a.loc⟩

/-- The attributes that are passed one by one, in order. -/
def argumentPairs (attributes : List Attribute) : List HashPair :=
  attributes.filterMap fun a => (argumentName? a).map (attributePair · a)

/-- The gathered attributes; each entry is there only if it carries something. -/
def mergedAttributes (attributes : List Attribute) (hasSplat : Bool) : Expression :=
  let invocation :=
    if attributes.isEmpty then []
    else
      [Build.pair "invocation" (Build.sub (Build.path hashHelper) []
        (Build.hash (attributes.map fun a => attributePair a.name a)))]
  let splat := if hasSplat then [Build.pair "splat" (Build.path attributesName)] else []
  Build.sub (Build.path mergeHelper) [] (Build.hash (invocation ++ splat))

/-- The named arguments of the call that stands for an element. -/
def invocationHash (attributes : List Attribute) (hasSplat : Bool) : Hash :=
  let own := attributes.filter (·.name != splatName)
  let plain := own.filter fun a => (argumentName? a).isNone
  let gathered :=
    if hasSplat || !plain.isEmpty then
      [Build.pair attributesName (mergedAttributes plain hasSplat)]
    else []
  Build.hash (argumentPairs own ++ gathered)

end Component

end CurlyTemplate
