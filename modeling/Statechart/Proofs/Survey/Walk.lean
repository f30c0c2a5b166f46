import Mathlib.Logic.Relation
import Statechart.Proofs.Survey.Frame

/-! The walk of a survey as a machine. The agenda lists what is still to do, the next task first:
visit an element, follow an element to one of its parts, or settle an element whose parts are done.
The recursion of a survey is a run of this machine (`visit_trace`), so what every step keeps holds
of the finished survey. The trace of a run is the list of its arrivals: the encounters in order,
each with the survey as it was then. -/

namespace Statechart

/-- The coming of a walk to an element, with the survey at that moment. -/
structure Arrival where
  encounter : Encounter
  survey : Survey

namespace Survey

/-- The arrivals at an element and at all that is reached from it, in order. -/
def arrivals (s : Survey) (x : Encounter) : List Arrival :=
  ⟨x, s⟩ ::
    if s.enters x then
      (x.element.parts.attach.foldl (fun log p =>
        (log.1 ++ (log.2.link x p.1).arrivals (x.part p.1),
          (log.2.link x p.1).visit (x.part p.1))) ([], s.meet x)).1
    else []
termination_by sizeOf x.element
decreasing_by exact Element.sizeOf_of_mem_parts p.2

/-- Goes on to a part, with the arrivals so far. -/
def logPart (x : Encounter) (log : List Arrival × Survey) (p : Part) : List Arrival × Survey :=
  (log.1 ++ (log.2.link x p).arrivals (x.part p), (log.2.link x p).visit (x.part p))

theorem arrivals_eq (s : Survey) (x : Encounter) :
    s.arrivals x =
      ⟨x, s⟩ ::
        if s.enters x then (x.element.parts.foldl (logPart x) ([], s.meet x)).1 else [] := by
  rw [arrivals, ← List.foldl_attach (f := logPart x)]
  rfl

theorem snd_foldl_logPart (x : Encounter) (parts : List Part) (log : List Arrival × Survey) :
    (parts.foldl (logPart x) log).2 =
      parts.foldl (fun s p => (s.link x p).visit (x.part p)) log.2 :=
  (List.foldl_hom Prod.snd fun _ _ => rfl).symm

end Survey

/-- The arrivals of the survey of an element, which itself stands at `place`. -/
def Element.arrivals (e : Element) (place : Locator) : List Arrival :=
  Survey.arrivals {} (.ofRoot e place)

/-- What the survey of an element meets, in order. -/
def Element.encounters (e : Element) (place : Locator) : List Encounter :=
  (e.arrivals place).map (·.encounter)

inductive Task where
  | visit (x : Encounter)
  | follow (x : Encounter) (p : Part)
  | settle (x : Encounter)

/-- What the task comes to if the walk never stops short. -/
def Task.tree : Task → List Encounter
  | visit x => x.tree
  | follow x p => (x.part p).tree
  | settle _ => []

/-- What is to be done for an element that is entered. -/
def Encounter.tasks (x : Encounter) : List Task := x.element.parts.map (.follow x) ++ [.settle x]

theorem Encounter.flatMap_tasks (x : Encounter) :
    x.tasks.flatMap Task.tree = x.element.parts.flatMap fun p => (x.part p).tree := by
  simp [tasks, List.flatMap_append, List.flatMap_map, Task.tree]

structure Walk where
  agenda : List Task
  /-- The encounters so far, in order. -/
  met : List Encounter := []
  survey : Survey := {}

namespace Walk

inductive Step : Walk → Walk → Prop where
  | pass {x : Encounter} {rest : List Task} {met : List Encounter} {s : Survey}
    (h : s.enters x = false) : Step ⟨.visit x :: rest, met, s⟩ ⟨rest, met ++ [x], s.meet x⟩
  | enter {x : Encounter} {rest : List Task} {met : List Encounter} {s : Survey}
    (h : s.enters x = true) :
    Step ⟨.visit x :: rest, met, s⟩ ⟨x.tasks ++ rest, met ++ [x], s.meet x⟩
  | follow {x : Encounter} {p : Part} {rest : List Task} {met : List Encounter} {s : Survey} :
    Step ⟨.follow x p :: rest, met, s⟩ ⟨.visit (x.part p) :: rest, met, s.link x p⟩
  | settle {x : Encounter} {rest : List Task} {met : List Encounter} {s : Survey} :
    Step ⟨.settle x :: rest, met, s⟩ ⟨rest, met, s.settle x⟩

theorem Step.unique {u v v' : Walk} (h : Step u v) (h' : Step u v') : v' = v := by
  cases h <;> cases h' <;> first | rfl | simp_all

abbrev Run : Walk → Walk → Prop := Relation.ReflTransGen Step

/-- The walk before its first step. -/
def start (e : Element) (place : Locator) : Walk := { agenda := [.visit (.ofRoot e place)] }

def Reachable (e : Element) (place : Locator) (w : Walk) : Prop := Run (start e place) w

/-- The arrival at the element that the walk is about to visit. -/
def arrival? : Walk → Option Arrival
  | ⟨.visit x :: _, _, s⟩ => some ⟨x, s⟩
  | _ => none

/-- A run together with the arrivals on it. -/
inductive Trace : Walk → List Arrival → Walk → Prop where
  | refl {v : Walk} : Trace v [] v
  | head {u v w : Walk} {log : List Arrival} (hstep : Step u v) (hrest : Trace v log w) :
    Trace u (u.arrival?.toList ++ log) w

namespace Trace

variable {u v w : Walk} {log log' : List Arrival} {a : Arrival}

theorem trans (h : Trace u log v) (h' : Trace v log' w) : Trace u (log ++ log') w := by
  induction h with
  | refl => exact h'
  | head hstep _ ih =>
    rw [List.append_assoc]
    exact .head hstep (ih h')

theorem single (h : Step u v) : Trace u u.arrival?.toList v := by
  simpa using head h refl

theorem run (h : Trace u log v) : Run u v := by
  induction h with
  | refl => exact .refl
  | head hstep _ ih => exact .head hstep ih

/-- A trace can be cut at each arrival on it. -/
theorem split (h : Trace u (log ++ a :: log') w) :
    ∃ v v', Trace u log v ∧ v.arrival? = some a ∧ Step v v' ∧ Trace v' log' w := by
  generalize hlog : log ++ a :: log' = l at h
  induction h generalizing log with
  | refl => simp at hlog
  | @head u v w l hstep hrest ih =>
    cases hu : u.arrival? with
    | none =>
      rw [hu] at hlog
      obtain ⟨x, x', hx, hxa, hxx', hx'⟩ := ih hlog
      have hhead := head hstep hx
      rw [hu] at hhead
      exact ⟨x, x', hhead, hxa, hxx', hx'⟩
    | some b =>
      rw [hu] at hlog
      cases log with
      | nil =>
        obtain ⟨rfl, rfl⟩ := List.cons.inj hlog
        exact ⟨u, v, refl, hu, hstep, hrest⟩
      | cons c log =>
        obtain ⟨rfl, htail⟩ := List.cons.inj hlog
        obtain ⟨x, x', hx, hxa, hxx', hx'⟩ := ih htail
        have hhead := head hstep hx
        rw [hu] at hhead
        exact ⟨x, x', hhead, hxa, hxx', hx'⟩

theorem unique (h : Trace u log v) (hv : v.agenda = []) (h' : Trace u log' w)
    (hw : w.agenda = []) : log' = log ∧ w = v := by
  induction h generalizing log' w with
  | refl =>
    cases h' with
    | refl => exact ⟨rfl, rfl⟩
    | head hstep _ => cases hstep <;> cases hv
  | head hstep _ ih =>
    cases h' with
    | refl => cases hstep <;> cases hw
    | head hstep' hrest =>
      obtain rfl := hstep.unique hstep'
      obtain ⟨rfl, rfl⟩ := ih hv hrest hw
      exact ⟨rfl, rfl⟩

theorem met (h : Trace u log v) : v.met = u.met ++ log.map (·.encounter) := by
  induction h with
  | refl => simp
  | head hstep _ ih =>
    rw [ih]
    cases hstep <;> simp [arrival?]

end Trace

theorem follow_trace {x : Encounter} (rest : List Task) (parts : List Part)
    (hvisit : ∀ p ∈ parts, ∀ met s rest', ∃ met',
      Trace ⟨.visit (x.part p) :: rest', met, s⟩ (s.arrivals (x.part p))
        ⟨rest', met', s.visit (x.part p)⟩)
    {u : Walk} {log : List Arrival} {met : List Encounter} {s : Survey}
    (h : Trace u log ⟨parts.map (.follow x) ++ rest, met, s⟩) :
    ∃ met', Trace u (parts.foldl (Survey.logPart x) (log, s)).1
      ⟨rest, met', (parts.foldl (Survey.logPart x) (log, s)).2⟩ := by
  induction parts generalizing log met s with
  | nil => exact ⟨met, h⟩
  | cons p parts ih =>
    obtain ⟨met', hpart⟩ :=
      hvisit p (.head _) met (s.link x p) (parts.map (.follow x) ++ rest)
    have hnext : Trace u (log ++ (s.link x p).arrivals (x.part p))
        ⟨parts.map (.follow x) ++ rest, met', (s.link x p).visit (x.part p)⟩ :=
      h.trans (.head .follow hpart)
    exact ih (fun q hq => hvisit q (.tail _ hq)) hnext

/-- The recursive walk over an element has a trace that does the visit and leaves the rest. -/
theorem visit_trace (s : Survey) (x : Encounter) (rest : List Task) (met : List Encounter) :
    ∃ met', Trace ⟨.visit x :: rest, met, s⟩ (s.arrivals x) ⟨rest, met', s.visit x⟩ := by
  -- on the size of the element, in any surroundings, as its parts are visited amid other tasks
  induction hn : sizeOf x.element using Nat.strongRecOn generalizing s x rest met with
  | ind n ih =>
    rw [Survey.visit_eq, Survey.arrivals_eq]
    cases henters : s.enters x with
    | false => exact ⟨_, .single (.pass henters)⟩
    | true =>
      have hvisit : ∀ p ∈ x.element.parts, ∀ met s rest', ∃ met',
          Trace ⟨.visit (x.part p) :: rest', met, s⟩ (s.arrivals (x.part p))
            ⟨rest', met', s.visit (x.part p)⟩ :=
        fun p hp met s rest' =>
          ih _ (hn ▸ Element.sizeOf_of_mem_parts hp) s (x.part p) rest' met rfl
      have hstart : Trace ⟨x.tasks ++ rest, met ++ [x], s.meet x⟩ []
          ⟨x.element.parts.map (.follow x) ++ (.settle x :: rest), met ++ [x], s.meet x⟩ := by
        rw [Encounter.tasks, List.append_assoc]
        exact .refl
      obtain ⟨met', hparts⟩ := follow_trace (.settle x :: rest) x.element.parts hvisit hstart
      rw [Survey.snd_foldl_logPart] at hparts
      have hall := Trace.head (.enter henters) (hparts.trans (.single .settle))
      exact ⟨met', by simpa [arrival?] using hall⟩

/-- The walk comes to an end by the arrivals of the survey. -/
theorem survey_trace (e : Element) (place : Locator) :
    Trace (start e place) (e.arrivals place) ⟨[], e.encounters place, e.survey place⟩ := by
  obtain ⟨met, htrace⟩ := visit_trace {} (.ofRoot e place) [] []
  have hmet : met = e.encounters place := htrace.met
  rw [← hmet]
  exact htrace

/-- The walk comes to an end, and then its survey is the survey of the element. -/
theorem survey_reachable (e : Element) (place : Locator) :
    ∃ met, Reachable e place ⟨[], met, e.survey place⟩ :=
  ⟨_, (survey_trace e place).run⟩

variable {e : Element} {place : Locator} {w : Walk}

/-- What holds of the empty survey and is kept by the operations of the walk holds throughout. -/
theorem Reachable.survey_induction {P : Survey → Prop} (h : Reachable e place w) (init : P {})
    (meet : ∀ {x rest met s}, Reachable e place ⟨.visit x :: rest, met, s⟩ → P s → P (s.meet x))
    (link : ∀ {x p rest met s}, Reachable e place ⟨.follow x p :: rest, met, s⟩ → P s →
      P (s.link x p))
    (settle : ∀ {x rest met s}, Reachable e place ⟨.settle x :: rest, met, s⟩ → P s →
      P (s.settle x)) : P w.survey := by
  induction h with
  | refl => exact init
  | tail hreach hstep ih =>
    cases hstep with
    | pass h => exact meet hreach ih
    | enter h => exact meet hreach ih
    | follow => exact link hreach ih
    | settle => exact settle hreach ih

end Walk

end Statechart
