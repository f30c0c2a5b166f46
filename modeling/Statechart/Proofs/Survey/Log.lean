import Mathlib.Data.List.Perm.Basic
import Statechart.Proofs.Survey.Arrival
import Statechart.Proofs.Survey.Kinds

/-! The log of a walk: the tasks that it did, in order. The finished survey is what these tasks make
of the empty one. Every element that was entered is followed to each of its parts and settled, and
nothing else is done, so all that a survey records apart from its entries can be read off the
elements that were entered. They are settled after their parts. -/

namespace Statechart

deriving instance DecidableEq for Encounter

namespace Encounter

variable {x y : Encounter} {p : Part} {t : Task} {a b : String}

/-- All that can be met from an encounter on, each element after its parts. -/
def postorder (x : Encounter) : List Encounter :=
  x.element.parts.attach.flatMap (fun p => (x.part p.1).postorder) ++ [x]
termination_by sizeOf x.element
decreasing_by exact Element.sizeOf_of_mem_parts p.2

theorem postorder_eq (x : Encounter) :
    x.postorder = x.element.parts.flatMap (fun p => (x.part p).postorder) ++ [x] := by
  rw [postorder]
  simp [List.flatMap_subtype]

theorem postorder_perm (x : Encounter) : x.postorder.Perm x.tree := by
  induction hs : sizeOf x.element using Nat.strongRecOn generalizing x with
  | ind n ih =>
    rw [postorder_eq, tree_eq]
    refine List.perm_append_comm.trans (.cons x (List.Perm.flatMap_left _ ?_))
    exact fun p hp => ih _ (hs ▸ Element.sizeOf_of_mem_parts hp) _ rfl

theorem nodup_postorder (x : Encounter) : x.postorder.Nodup :=
  x.postorder_perm.nodup_iff.2 x.nodup_tree

theorem mem_postorder : y ∈ x.postorder ↔ y ∈ x.tree := x.postorder_perm.mem_iff

theorem follow_mem_tasks : .follow x p ∈ y.tasks ↔ x = y ∧ p ∈ x.element.parts := by
  simp only [tasks, List.mem_append, List.mem_map, Task.follow.injEq, List.mem_singleton,
    reduceCtorEq, or_false]
  constructor
  · rintro ⟨q, hq, rfl, rfl⟩
    exact ⟨rfl, hq⟩
  · rintro ⟨rfl, hp⟩
    exact ⟨p, hp, rfl, rfl⟩

theorem settle_mem_tasks : .settle x ∈ y.tasks ↔ x = y := by simp [tasks]

/-- The element associates two IDs, neither of them blank: those of the ends of a transition, or
those of a connection point reference and of one of its points. -/
def Associates (x : Encounter) (a b : String) : Prop :=
  Text.isBlank a = false ∧ Text.isBlank b = false ∧
    match x.element with
    | .transition t => t.sourceId? = some a ∧ t.targetId? = some b
    | .connectionPointReference c => c.id = a ∧ ∃ q ∈ c.entry ++ c.exit, q.id = b
    | _ => False

theorem associates_transition {t : Transition} (h : x.element = .transition t) :
    x.Associates a b ↔ ∃ u v, t.atEnd .source = some u ∧ t.atEnd .target = some v ∧
      Text.isBlank u.id = false ∧ Text.isBlank v.id = false ∧ a = u.id ∧ b = v.id := by
  simp only [Associates, h, Transition.sourceId?, Transition.targetId?, Option.map_eq_some_iff,
    Transition.atEnd]
  constructor
  · rintro ⟨ha, hb, ⟨u, hu, rfl⟩, v, hv, rfl⟩
    exact ⟨u, v, hu, hv, ha, hb, rfl, rfl⟩
  · rintro ⟨u, v, hu, hv, ha, hb, rfl, rfl⟩
    exact ⟨ha, hb, ⟨u, hu, rfl⟩, v, hv, rfl⟩

end Encounter

namespace Task

variable {a b : String}

/-- The elements that a task settles if the walk never stops short. -/
def postorder : Task → List Encounter
  | visit x => x.postorder
  | follow x p => (x.part p).postorder
  | settle x => [x]

def settled? : Task → Option Encounter
  | settle x => some x
  | _ => none

/-- The references that a task adds. -/
def references : Task → List Reference
  | visit _ => []
  | follow x p =>
    if x.element.HasId ∧ p.element.HasId then
      [⟨x.type, p.step.text, some p.element.id, x.place⟩]
    else []
  | settle x => x.ownReferences

/-- The task associates two IDs. -/
def Associates : Task → String → String → Prop
  | visit _, _, _ => False
  | follow x p, a, b =>
    p.role = .referencePoint ∧ x.element.HasId ∧ p.element.HasId ∧ x.id = a ∧ p.element.id = b
  | settle x, a, b => x.type = .transition ∧ x.Associates a b

theorem flatMap_postorder_tasks (x : Encounter) : x.tasks.flatMap postorder = x.postorder := by
  rw [Encounter.postorder_eq]
  simp [Encounter.tasks, List.flatMap_append, List.flatMap_map, postorder]

end Task

namespace Encounter

variable {x : Encounter} {a b : String}

theorem type_of_associates (h : x.Associates a b) :
    x.type = .transition ∨ x.type = .connectionPointReference := by
  obtain ⟨-, -, h⟩ := h
  unfold type
  cases hx : x.element <;> rw [hx] at h <;> first | exact .inl rfl | exact .inr rfl | exact h.elim

/-- A connection point reference associates its ID with those of its parts. -/
theorem associates_connectionPointReference (h : x.type = .connectionPointReference) :
    x.Associates a b ↔ ∃ p ∈ x.element.parts,
      x.element.HasId ∧ p.element.HasId ∧ x.id = a ∧ p.element.id = b := by
  unfold Associates
  unfold type at h
  cases hx : x.element with
  | connectionPointReference c =>
    have hid : x.id = c.id := by rw [id, hx]; rfl
    have hpoint : (∃ q ∈ c.entry ++ c.exit, q.id = b) ↔
        ∃ f ∈ (Element.connectionPointReference c).children, f.id = b := by
      rw [Element.children_connectionPointReference, ← List.map_append]
      simp only [List.mem_map, exists_exists_and_eq_and]
      rfl
    simp only [hpoint, Element.children, List.mem_map, exists_exists_and_eq_and, hid]
    constructor
    · rintro ⟨ha, hb, rfl, p, hp, rfl⟩
      exact ⟨p, hp, ha, hb, rfl, rfl⟩
    · rintro ⟨p, hp, ha, hb, rfl, rfl⟩
      exact ⟨ha, hb, rfl, p, hp, rfl⟩
  | _ => rw [hx] at h; cases h

/-- What an element associates is associated by its tasks. -/
theorem associates_iff : x.Associates a b ↔ ∃ t ∈ x.tasks, t.Associates a b := by
  constructor
  · intro h
    rcases type_of_associates h with htype | htype
    · exact ⟨.settle x, settle_mem_tasks.2 rfl, htype, h⟩
    · obtain ⟨p, hp, hids⟩ := (associates_connectionPointReference htype).1 h
      have hrole := (Element.role_eq_referencePoint_iff hp).2 htype
      exact ⟨.follow x p, follow_mem_tasks.2 ⟨rfl, hp⟩, hrole, hids⟩
  · rintro ⟨t, ht, hassociates⟩
    cases t with
    | visit y => exact hassociates.elim
    | follow y p =>
      obtain ⟨rfl, hp⟩ := follow_mem_tasks.1 ht
      obtain ⟨hrole, hids⟩ := hassociates
      have htype := (Element.role_eq_referencePoint_iff hp).1 hrole
      exact (associates_connectionPointReference htype).2 ⟨p, hp, hids⟩
    | settle y =>
      obtain rfl := settle_mem_tasks.1 ht
      exact hassociates.2

end Encounter

namespace Survey

variable {s : Survey} {a b : String} {log : List Task}

/-- What a task does to the survey. -/
def perform (s : Survey) : Task → Survey
  | .visit x => s.meet x
  | .follow x p => s.link x p
  | .settle x => s.settle x

theorem references_perform (s : Survey) (t : Task) :
    (s.perform t).references = s.references ++ t.references := by
  cases t with
  | visit x => simp [perform, Task.references]
  | follow x p => exact references_link s x p
  | settle x => exact references_settle

theorem mem_association_perform {t : Task} :
    (a, b) ∈ (s.perform t).association.edges ↔
      (a, b) ∈ s.association.edges ∨ t.Associates a b ∨ t.Associates b a := by
  cases t with
  | visit x => simp [perform, Task.Associates]
  | follow x p =>
    simp only [perform, mem_association_link, Task.Associates, Prod.mk.injEq]
    grind
  | settle x =>
    by_cases htype : ∃ t, x.element = .transition t
    · obtain ⟨t, ht⟩ := htype
      have htype : x.type = .transition := by rw [Encounter.type, ht]; rfl
      simp only [perform, mem_association_settle ht, Task.Associates, htype, true_and,
        Encounter.associates_transition ht, Prod.mk.injEq]
      grind
    · have hnone : x.type ≠ .transition := by
        intro h
        unfold Encounter.type at h
        cases hx : x.element <;> rw [hx] at h <;> first | exact htype ⟨_, hx⟩ | cases h
      have hsame : (s.perform (.settle x)).association = s.association :=
        association_settle fun t ht => htype ⟨t, ht⟩
      simp [hsame, Task.Associates, hnone]

theorem references_foldl_perform (s : Survey) (log : List Task) :
    (log.foldl perform s).references = s.references ++ log.flatMap Task.references := by
  induction log generalizing s with
  | nil => simp
  | cons t log ih =>
    rw [List.foldl_cons, ih, references_perform, List.flatMap_cons, List.append_assoc]

theorem mem_association_foldl_perform :
    (a, b) ∈ (log.foldl perform s).association.edges ↔
      (a, b) ∈ s.association.edges ∨ ∃ t ∈ log, t.Associates a b ∨ t.Associates b a := by
  induction log generalizing s with
  | nil => simp
  | cons t log ih =>
    rw [List.foldl_cons, ih, mem_association_perform]
    simp [or_assoc]

end Survey

namespace Walk

variable {e : Element} {place : Locator} {w : Walk} {x y : Encounter} {rest : List Task}
  {met : List Encounter} {s : Survey} {log : List Task}

/-- The element was met and entered. -/
def Walked (w : Walk) (x : Encounter) : Prop := x ∈ w.met ∧ w.survey.Entered x

/-- An element that is passed by is not walked. -/
theorem Reachable.walked_pass (h : Reachable e place ⟨.visit x :: rest, met, s⟩)
    (hpass : s.enters x = false) :
    Walked ⟨rest, met ++ [x], s.meet x⟩ y ↔ Walked ⟨.visit x :: rest, met, s⟩ y := by
  have hknown : ¬ (x.element.HasId → s.entry? x.id = none) := by
    rw [← Survey.enters_iff, hpass]
    exact Bool.false_ne_true
  have hentries (z : Encounter) : z ∈ (s.meet x).entries ↔ z ∈ s.entries := by
    rw [Survey.mem_entries_meet]
    refine or_iff_left ?_
    rintro ⟨-, -, hnone⟩
    exact hknown fun _ => hnone
  simp only [Walked, Survey.Entered, hentries, List.mem_append, List.mem_singleton]
  refine and_congr_left fun hentered => or_iff_left ?_
  rintro rfl
  have hid : y.element.HasId := by
    by_contra hblank
    exact hknown fun hid => absurd hid hblank
  exact h.not_met (h.entries_subset (hentered hid))

/-- An element that is entered is walked from then on. -/
theorem walked_enter (henter : s.enters x = true) :
    Walked ⟨x.tasks ++ rest, met ++ [x], s.meet x⟩ y ↔
      Walked ⟨.visit x :: rest, met, s⟩ y ∨ y = x := by
  by_cases hyx : y = x
  · rw [hyx]
    exact iff_of_true ⟨by simp, entered_meet henter⟩ (.inr rfl)
  · simp [Walked, Survey.Entered, Survey.mem_entries_meet, hyx]

/-- What the tasks done so far have to do with the walk. -/
structure IsLog (e : Element) (place : Locator) (w : Walk) (log : List Task) : Prop where
  survey : w.survey = log.foldl Survey.perform {}
  /-- Visits apart, the tasks done and to do are those of the elements walked. -/
  due : ∀ t, (∀ x, t ≠ .visit x) → (t ∈ log ++ w.agenda ↔ ∃ x, w.Walked x ∧ t ∈ x.tasks)
  order : (log.filterMap Task.settled? ++ w.agenda.flatMap Task.postorder).Sublist
    (Encounter.ofRoot e place).postorder

/-- Every moment of a walk has its log. -/
theorem Reachable.exists_log (h : Reachable e place w) : ∃ log, IsLog e place w log := by
  induction h with
  | refl =>
    refine ⟨[], rfl, ?_, by simp [start, Task.postorder]⟩
    intro t ht
    refine iff_of_false ?_ (by simp [start, Walked])
    intro htask
    exact ht _ (List.mem_singleton.1 htask)
  | tail hreach hstep ih =>
    obtain ⟨log, hlog⟩ := ih
    cases hstep with
    | @pass x rest met s hpass =>
      refine ⟨log ++ [.visit x], ?_, ?_, ?_⟩
      · simp [← hlog.survey, Survey.perform]
      · intro t ht
        simpa only [List.append_assoc, List.singleton_append, Reachable.walked_pass hreach hpass]
          using hlog.due t ht
      · refine List.Sublist.trans ?_ hlog.order
        simp [List.filterMap_cons, Task.settled?]
    | @enter x rest met s henter =>
      refine ⟨log ++ [.visit x], ?_, ?_, ?_⟩
      · simp [← hlog.survey, Survey.perform]
      · intro t ht
        simp only [walked_enter henter, or_and_right, exists_or, ← hlog.due t ht]
        simp [ht x, or_assoc, or_comm]
      · simpa [List.filterMap_cons, Task.settled?, Task.postorder, Task.flatMap_postorder_tasks]
          using hlog.order
    | @follow x p rest met s =>
      refine ⟨log ++ [.follow x p], ?_, ?_, ?_⟩
      · simp [← hlog.survey, Survey.perform]
      · intro t ht
        simpa [Walked, Survey.Entered, ht (x.part p)] using hlog.due t ht
      · simpa [List.filterMap_cons, Task.settled?, Task.postorder] using hlog.order
    | @settle x rest met s =>
      refine ⟨log ++ [.settle x], ?_, ?_, ?_⟩
      · simp [← hlog.survey, Survey.perform]
      · intro t ht
        simpa [Walked, Survey.Entered] using hlog.due t ht
      · simpa [Task.settled?, Task.postorder] using hlog.order

end Walk

instance (s : Survey) (x : Encounter) : Decidable (s.Entered x) :=
  inferInstanceAs (Decidable (_ → _))

namespace Element

variable {e : Element} {place : Locator} {x : Encounter} {log : List Task} {a b : String}

/-- The survey of an element meets another one and goes on to its parts. -/
def Walks (e : Element) (place : Locator) (x : Encounter) : Prop :=
  x ∈ e.encounters place ∧ (e.survey place).Entered x

instance (e : Element) (place : Locator) (x : Encounter) : Decidable (e.Walks place x) :=
  inferInstanceAs (Decidable (_ ∧ _))

/-- A survey meets the element that it starts at and the parts of all that it walks. -/
theorem mem_encounters :
    x ∈ e.encounters place ↔ x = .ofRoot e place ∨
      ∃ y, e.Walks place y ∧ ∃ p ∈ y.element.parts, x = y.part p := by
  have hreach := Walk.reachable_survey e place
  constructor
  · intro hx
    rcases hreach.ready.2 x hx with hroot | ⟨y, hy, p, hp, hxp, hentered, -⟩
    · exact .inl hroot
    · exact .inr ⟨y, ⟨hy, hentered⟩, p, hp, hxp⟩
  · rintro (rfl | ⟨y, hy, p, hp, rfl⟩)
    · exact hreach.root_met rfl
    · exact hreach.part_met rfl hy.1 hy.2 hp

/-- The elements that the survey goes on from, in the order in which it is done with them. -/
def completed (e : Element) (place : Locator) : List Encounter :=
  (Encounter.ofRoot e place).postorder.filter (e.Walks place ·)

/-- The tasks of a finished survey in order. -/
def HasLog (e : Element) (place : Locator) (log : List Task) : Prop :=
  Walk.IsLog e place ⟨[], e.encounters place, e.survey place⟩ log

theorem exists_hasLog (e : Element) (place : Locator) : ∃ log, e.HasLog place log :=
  (Walk.reachable_survey e place).exists_log

namespace HasLog

/-- A finished survey did the tasks of the elements that it walks. -/
theorem mem_iff (h : e.HasLog place log) {t : Task} (ht : ∀ x, t ≠ .visit x) :
    t ∈ log ↔ ∃ x, e.Walks place x ∧ t ∈ x.tasks := by
  have hdue := h.due t ht
  rwa [List.append_nil] at hdue

theorem follow_mem_iff (h : e.HasLog place log) {p : Part} :
    .follow x p ∈ log ↔ e.Walks place x ∧ p ∈ x.element.parts := by
  rw [h.mem_iff (t := .follow x p) fun _ => nofun]
  simp only [Encounter.follow_mem_tasks]
  constructor
  · rintro ⟨y, hy, rfl, hp⟩
    exact ⟨hy, hp⟩
  · rintro ⟨hx, hp⟩
    exact ⟨x, hx, rfl, hp⟩

theorem settle_mem_iff (h : e.HasLog place log) : .settle x ∈ log ↔ e.Walks place x := by
  rw [h.mem_iff (t := .settle x) fun _ => nofun]
  simp [Encounter.settle_mem_tasks]

/-- The walked elements are completed in postorder. -/
theorem completed (h : e.HasLog place log) : log.filterMap Task.settled? = e.completed place := by
  have horder : (log.filterMap Task.settled?).Sublist (Encounter.ofRoot e place).postorder := by
    simpa using h.order
  have hnodup := (Encounter.ofRoot e place).nodup_postorder
  refine (hnodup.perm_iff_eq_of_sublist horder List.filter_sublist).1 ?_
  refine (List.perm_ext_iff_of_nodup (hnodup.sublist horder) (hnodup.filter _)).2 ?_
  intro x
  have hsettled : x ∈ log.filterMap Task.settled? ↔ .settle x ∈ log := by
    rw [List.mem_filterMap]
    constructor
    · rintro ⟨t, ht, hx⟩
      cases t <;> cases hx
      exact ht
    · exact fun ht => ⟨_, ht, rfl⟩
  rw [hsettled, h.settle_mem_iff, List.mem_filter, decide_eq_true_eq, Encounter.mem_postorder]
  exact (and_iff_right_of_imp fun hx => encounters_subset_tree hx.1).symm

theorem references (h : e.HasLog place log) :
    (e.survey place).references = log.flatMap Task.references := by
  rw [show e.survey place = _ from h.survey, Survey.references_foldl_perform]
  rfl

end HasLog

/-- Two IDs are associated by the elements walked, in one direction or the other. -/
theorem mem_association :
    (a, b) ∈ (e.survey place).association.edges ↔
      ∃ x, e.Walks place x ∧ (x.Associates a b ∨ x.Associates b a) := by
  obtain ⟨log, hlog⟩ := e.exists_hasLog place
  have htasks (a b : String) :
      (∃ t ∈ log, t.Associates a b) ↔ ∃ x, e.Walks place x ∧ x.Associates a b := by
    have hvisit {t : Task} (hab : t.Associates a b) (x : Encounter) : t ≠ .visit x := by
      rintro rfl
      exact hab
    simp only [Encounter.associates_iff]
    constructor
    · rintro ⟨t, ht, hab⟩
      obtain ⟨x, hx, hmem⟩ := (hlog.mem_iff (hvisit hab)).1 ht
      exact ⟨x, hx, t, hmem, hab⟩
    · rintro ⟨x, hx, t, hmem, hab⟩
      exact ⟨t, (hlog.mem_iff (hvisit hab)).2 ⟨x, hx, hmem⟩, hab⟩
  rw [show e.survey place = _ from hlog.survey, Survey.mem_association_foldl_perform]
  simp only [and_or_left, exists_or, htasks]
  exact or_iff_right List.not_mem_nil

end Element

end Statechart
