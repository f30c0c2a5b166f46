import Statechart.Graph.Basic
import Statechart.Integrity.Defect
import Statechart.Integrity.Encounter

/-! The survey of a model: one walk over everything that can be reached from an element. It records
which ID belongs to which element and which edges lead between IDs, and notes the elements that
have no ID or one that is taken. An element that was recorded before, or that only repeats one, is
not walked again; all other checks read the finished survey. -/

namespace Statechart

/-- A place in a model for the ID of another element. -/
structure Reference where
  /-- The type of the element that has the place. -/
  type : EntityType
  field : String
  /-- The ID, or `none` where the place is empty. -/
  target : Option String
  place : Locator
deriving DecidableEq, Repr

structure Survey where
  /-- The first encounter with each ID, in order. -/
  entries : List Encounter := []
  /-- The IDs of the states whose entry among the vertices of their region was met. -/
  listed : List String := []
  /-- The owners and shapes of states refused as duplicates whose entry among the vertices of their
  region is still to come. -/
  refused : List (Option String × Vertex) := []
  references : List Reference := []
  containment : Digraph := {}
  /-- From states to the machines that they stand for. -/
  standIn : Digraph := {}
  /-- Between the ends of transitions, and between connection point references and their points. -/
  association : Digraph := {}
  defects : Defects := []

/-- How an encounter relates to the first one with its ID. -/
inductive Recurrence where
  | sameElement
  | samePoint
  /-- A state and its own entry among the vertices of its region, met for the first time. -/
  | listing
  /-- The entry of a state that was refused as a duplicate. -/
  | refusedListing (shape : Vertex)
  | duplicate
deriving DecidableEq, Repr

namespace Survey

def entry? (s : Survey) (id : String) : Option Encounter := s.entries.find? (·.id = id)

/-- A vertex stands for a refused state once, so that no state is reported twice. -/
def refusal (s : Survey) (x : Encounter) : Recurrence :=
  match x.element with
  | .vertex v => if (x.owner, v) ∈ s.refused then .refusedListing v else .duplicate
  | _ => .duplicate

/-- Only one vertex can be the entry of a state, so a second one with its shape is a duplicate. -/
def recurrence (s : Survey) (first x : Encounter) : Recurrence :=
  if first.origin = x.origin then .sameElement
  else if first.isSamePoint x then .samePoint
  else if first.isListing x ∧ x.id ∉ s.listed then .listing
  else s.refusal x

def report (s : Survey) (x : Encounter) (cause : Defect) : Survey :=
  { s with defects := s.defects ++ [⟨x.type, x.place, cause⟩] }

/-- A refused state leaves its shape behind, for its entry among the vertices. -/
def refuse (s : Survey) (x : Encounter) : Survey :=
  match x.element with
  | .state state => { s with refused := s.refused ++ [(x.owner, state.toVertex)] }
  | _ => s

def repeated (s : Survey) (first x : Encounter) : Survey :=
  match s.recurrence first x with
  | .sameElement | .samePoint => s
  | .listing => { s with listed := x.id :: s.listed }
  | .refusedListing shape => { s with refused := s.refused.erase (x.owner, shape) }
  | .duplicate => (s.refuse x).report x (.duplicateId x.id first.type first.place)

/-- Whether the parts of an element are to be walked. An element without an ID is walked each time
it is met, any other element the first time that its ID is met. -/
def enters (s : Survey) (x : Encounter) : Bool := x.knownId?.all fun id => (s.entry? id).isNone

/-- Takes note of an encounter. -/
def meet (s : Survey) (x : Encounter) : Survey :=
  match x.knownId? with
  | none => s.report x .noId
  | some id =>
    match s.entry? id with
    | none => { s with entries := s.entries ++ [x] }
    | some first => s.repeated first x

def refer (s : Survey) (x : Encounter) (field : String) (target : Option String) : Survey :=
  { s with references := s.references ++ [⟨x.type, field, target, x.place⟩] }

/-- Records the edge from an element to one of its parts. Both need an ID for that. -/
def link (s : Survey) (x : Encounter) (p : Part) : Survey :=
  match x.knownId?, (x.part p).knownId? with
  | some id, some target =>
    let s := s.refer x p.step.text (some target)
    match p.role with
    | .submachine => { s with standIn := s.standIn.insert id target }
    | .referencePoint =>
      { s with
        containment := s.containment.insert id target
        association := s.association.insertBoth id target }
    | .member | .machinePoint => { s with containment := s.containment.insert id target }
  | _, _ => s

/-- A blank ID in an end of a transition leads nowhere and is left to the rules. -/
def referEnd (s : Survey) (x : Encounter) (t : Transition) (side : TransitionEnd) : Survey :=
  match t.atEnd side with
  | none => s.refer x side.field none
  | some v => if Text.isBlank v.id then s else s.refer x side.field (some v.id)

/-- Records what an element refers to apart from its parts. -/
def settle (s : Survey) (x : Encounter) : Survey :=
  match x.element with
  | .transition t =>
    let s := (s.referEnd x t .source).referEnd x t .target
    match t.source, t.target with
    | some a, some b =>
      if Text.isBlank a.id || Text.isBlank b.id then s
      else { s with association := s.association.insertBoth a.id b.id }
    | _, _ => s
  | .state state =>
    if state.isSubmachineState ∧ state.submachine.isNone then s.refer x "Submachine" none else s
  | _ => s

/-- Walks over an element and all that can be reached from it. -/
def visit (s : Survey) (x : Encounter) : Survey :=
  if s.enters x then
    (x.element.parts.attach.foldl (fun s p => (s.link x p.1).visit (x.part p.1)) (s.meet x)).settle x
  else s.meet x
termination_by sizeOf x.element
decreasing_by exact Element.sizeOf_of_mem_parts p.2

theorem visit_eq (s : Survey) (x : Encounter) :
    s.visit x =
      if s.enters x then
        (x.element.parts.foldl (fun s p => (s.link x p).visit (x.part p)) (s.meet x)).settle x
      else s.meet x := by
  rw [visit, List.foldl_attach (f := fun (s : Survey) p => (s.link x p).visit (x.part p))]

end Survey

/-- The survey of all that can be reached from an element, which itself stands at `place`. -/
def Element.survey (e : Element) (place : Locator) : Survey := Survey.visit {} (.ofRoot e place)

end Statechart
