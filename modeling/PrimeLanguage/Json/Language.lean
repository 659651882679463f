import PrimeLanguage.Json.Basic
import PrimeLanguage.Semantics
import PrimeLanguage.Typing.Infer
import PrimeLanguage.Triad.Basic

/-!
# The language as JSON

Terms, types, steps, traces, expressions and outcomes as documents: a variant is an object with
one field, named after it; primes are numbers.  The operators of a chain are listed in written
order.
-/

namespace PrimeLanguage

/-- A variant with its content. -/
def Json.variant (name : String) (content : Json) : Json := .object [(name, content)]

/-- Null for nothing. -/
def Json.optional {α : Type} (f : α → Json) : Option α → Json
  | some a => f a
  | none => .null

def Prime.toJson (p : Prime) : Json := .number p.val

def Connective.termVariant : Connective → String
  | .seq => "Seq"
  | .imp => "Impl"

def Connective.tyVariant : Connective → String
  | .seq => "Product"
  | .imp => "Function"

def Connective.exprVariant : Connective → String
  | .seq => "Pair"
  | .imp => "Impl"

/-- The components of a fusion or triad as fields. -/
def Json.components (p q r : Prime) : Json :=
  .object [("p", p.toJson), ("q", q.toJson), ("r", r.toJson)]

def Fusion.toJson (f : Fusion) : Json := .components f.p f.q f.r

def Triad.toJson (t : Triad) : Json := .components t.p t.q t.r

mutual

/-- A term as a document. -/
def Term.toJson : Term → Json
  | .noun p => .variant "Noun" p.toJson
  | .adj p => .variant "Adj" p.toJson
  | .chain o os e =>
    .variant "Chain" (.object
      [("operators", .array (operatorsToJson os [o.toJson])), ("noun", e.toJson)])
  | .fusion f => .variant "Fusion" f.toJson
  | .sentence e => .variant "NounSentence" e.toJson
  | .join c l r => .variant c.termVariant (.array [l.toJson, r.toJson])

/-- Operators in the order in which they apply as documents in written order, before `rest`. -/
def operatorsToJson : List Term → (rest : List Json) → List Json
  | [], rest => rest
  | o :: os, rest => operatorsToJson os (o.toJson :: rest)

end

def SentenceTy.toJson : SentenceTy → Json
  | .atomic => .text "Atomic"
  | .join c l r => .variant c.tyVariant (.array [l.toJson, r.toJson])

def Ty.toJson : Ty → Json
  | .noun index => .variant "Noun" (.optional Prime.toJson index)
  | .adj p => .variant "Adj" p.toJson
  | .sentence s => .variant "Sentence" s.toJson

/-- A rule as the name of a variant. -/
def Rule.variant : Rule → String
  | .fuse => "Fuse"
  | .apply => "Apply"

def Combination.toJson (c : Combination) : Json :=
  .object [("result", c.result.toJson), ("orientation", .text c.orientation.name)]

def StepDetails.toJson : StepDetails → Json
  | .fuse f sum =>
    .variant "Fuse" (.object
      [("components", .array [f.p.toJson, f.q.toJson, f.r.toJson]), ("sum", sum.toJson)])
  | .apply operator operand combination =>
    .variant "Apply" (.object
      [("operator", operator.toJson), ("operand", operand.toJson),
        ("combination", combination.toJson)])

def Step.pathJson (s : Step) : Json := .array (s.path.map (.text ·.name))

def Step.toJson (s : Step) : Json :=
  .object
    [("rule", .text s.rule.variant), ("before", s.before.toJson), ("after", s.after.toJson),
      ("path", s.pathJson), ("details", s.details.toJson)]

def Trace.toJson (t : Trace) : Json :=
  .object [("initial", t.initial.toJson), ("steps", .array (t.steps.map Step.toJson))]

def Expr.toJson : Expr → Json
  | .var x => .variant "Var" (.text x)
  | .const p => .variant "Const" p.toJson
  | .lam x b => .variant "Lam" (.array [.text x, b.toJson])
  | .app f a => .variant "App" (.array [f.toJson, a.toJson])
  | .join c l r => .variant c.exprVariant (.array [l.toJson, r.toJson])
  | .prim o l r =>
    .variant "PrimOp" (.object [("op", .text o), ("left", l.toJson), ("right", r.toJson)])

def Outcome.toJson (o : Outcome) : Json :=
  .object
    [("result", o.result.toJson), ("steps", .number o.steps), ("is_value", .boolean o.isValue)]

end PrimeLanguage
