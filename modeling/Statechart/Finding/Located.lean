import Statechart.Finding.Basic
import Statechart.Locator

/-! A cause of a finding together with the element that it was found on. Causes are kept as data
while a model is examined; their wording is added at the end. -/

namespace Statechart

/-- What a finding says of its cause. The wording may name the type of the element. -/
class Cause (α : Type) where
  kind : α → FindingKind
  field : α → String
  message : EntityType → α → String

structure Located (α : Type) where
  type : EntityType
  place : Locator
  cause : α
deriving DecidableEq, Repr

namespace Located

variable {α : Type} [Cause α]

def finding (l : Located α) : Finding where
  kind := Cause.kind l.cause
  type := l.type
  field := Cause.field l.cause
  message := Cause.message l.type l.cause
  path := l.place.text

end Located

end Statechart
