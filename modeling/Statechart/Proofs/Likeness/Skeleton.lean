import Statechart.Model.Build
import Statechart.Proofs.Agreement.Own
import Statechart.Proofs.Likeness.Survey
import Statechart.Proofs.Renaming.Relocation
import Statechart.Proofs.Survey.Instance

/-! What an integrity check reads of a model: its skeleton. That is the tree of elements with their
IDs, the shapes of states and vertices, the points, the flags of submachine states, the IDs at the
ends of transitions, and which of the machines that states stand for are one machine. Names,
metadata, the other flags and all that is said of behaviour make no difference to it. -/

namespace Statechart

/-- The transitions have one ID, and the same ends of both are set, to vertices of one ID. -/
structure Transition.SameEnds (t t' : Transition) : Prop where
  id : t'.id = t.id
  ends : ∀ side, (t'.atEnd side).map (·.id) = (t.atEnd side).map (·.id)

structure ConnectionPointReference.SamePoints (c c' : ConnectionPointReference) : Prop where
  id : c'.id = c.id
  points : ∀ side, c'.points side = c.points side

mutual

/-- The machines have one skeleton. The numbers of shared machines are left open. -/
inductive StateMachine.SameSkeleton : StateMachine → StateMachine → Prop
  | mk {m : StateMachine} {name : String} {regions : List Region} {isMethod : Bool}
    {metadata : Metadata} {shared : Option Nat}
    (hregions : List.Forall₂ Region.SameSkeleton m.regions regions) :
    StateMachine.SameSkeleton m { m with name, regions, isMethod, metadata, shared }

inductive Region.SameSkeleton : Region → Region → Prop
  | mk {r : Region} {name : String} {states : List State} {transitions : List Transition}
    (hstates : List.Forall₂ State.SameSkeleton r.states states)
    (htransitions : List.Forall₂ Transition.SameEnds r.transitions transitions) :
    Region.SameSkeleton r { r with name, states, transitions }

inductive State.SameSkeleton : State → State → Prop
  | mk {s : State} {isSimple isComposite isOrthogonal : Bool} {regions : List Region}
    {submachine : Option StateMachine} {connections : List ConnectionPointReference}
    {entry exit doActivity : Option Behavior}
    (hregions : List.Forall₂ Region.SameSkeleton s.regions regions)
    (hsubmachine : Option.Rel StateMachine.SameSkeleton s.submachine submachine)
    (hconnections :
      List.Forall₂ ConnectionPointReference.SamePoints s.connections connections) :
    State.SameSkeleton s
      { s with
        isSimple, isComposite, isOrthogonal, regions, submachine, connections, entry, exit,
        doActivity }

end

inductive Element.SameSkeleton : Element → Element → Prop
  | stateMachine {m m' : StateMachine} (h : m.SameSkeleton m') :
    SameSkeleton (.stateMachine m) (.stateMachine m')
  | region {r r' : Region} (h : r.SameSkeleton r') : SameSkeleton (.region r) (.region r')
  | state {s s' : State} (h : s.SameSkeleton s') : SameSkeleton (.state s) (.state s')
  | transition {t t' : Transition} (h : t.SameEnds t') :
    SameSkeleton (.transition t) (.transition t')
  | connectionPointReference {c c' : ConnectionPointReference} (h : c.SamePoints c') :
    SameSkeleton (.connectionPointReference c) (.connectionPointReference c')
  | vertex (v : Vertex) : SameSkeleton (.vertex v) (.vertex v)
  | pseudostate (p : Pseudostate) : SameSkeleton (.pseudostate p) (.pseudostate p)
  | finalState (f : FinalState) : SameSkeleton (.finalState f) (.finalState f)

/-- The places at which machines are held, each with the instance that is held there. -/
def Element.machines (e : Element) : List (Locator × Origin) :=
  ((Encounter.ofRoot e []).tree.filter (·.type = .stateMachine)).map fun x => (x.place, x.origin)

/-- Two places hold one machine in the one model if and only if they do in the other. -/
def Element.SharesAlike (e e' : Element) : Prop :=
  ∀ a ∈ e.machines, ∀ b ∈ e.machines, ∀ a' ∈ e'.machines, ∀ b' ∈ e'.machines,
    a'.1 = a.1 → b'.1 = b.1 → (a'.2 = b'.2 ↔ a.2 = b.2)

instance (e e' : Element) : Decidable (e.SharesAlike e') :=
  inferInstanceAs (Decidable (∀ a ∈ e.machines, ∀ b ∈ e.machines, ∀ a' ∈ e'.machines,
    ∀ b' ∈ e'.machines, _ → _ → (_ ↔ _)))

/-! ### Skeletons as a likeness -/

theorem RegionVertex.sameSkeleton (v : RegionVertex) : v.element.SameSkeleton v.element := by
  cases v with
  | vertex v => exact .vertex v
  | pseudostate p => exact .pseudostate p
  | finalState f => exact .finalState f

theorem State.SameSkeleton.isNone_submachine {s s' : State} (h : s.SameSkeleton s') :
    s'.submachine.isNone = s.submachine.isNone := by
  obtain ⟨-, hsubmachine, -⟩ := h
  dsimp only
  generalize s.submachine = slot at hsubmachine
  cases hsubmachine <;> rfl

theorem Element.SameSkeleton.parts {e e' : Element} (h : e.SameSkeleton e') :
    List.Forall₂ (fun p p' : Part => p'.role = p.role ∧ p'.step = p.step ∧
      p.element.SameSkeleton p'.element) e.parts e'.parts := by
  have points (field : String) (role : Role) (l : List Pseudostate) :=
    Part.forall₂_ofList (List.forall₂_same.2 fun q (_ : q ∈ l) =>
      Element.SameSkeleton.pseudostate q) role field
  cases h with
  | stateMachine h =>
    obtain ⟨hregions⟩ := h
    exact List.rel_append (Part.forall₂_ofList (hregions.imp fun _ _ => .region) _ _)
      (points _ _ _)
  | region h =>
    obtain ⟨hstates, htransitions⟩ := h
    exact List.rel_append (List.rel_append
      (Part.forall₂_ofList (hstates.imp fun _ _ => .state) _ _)
      (Part.forall₂_ofList (List.forall₂_same.2 fun v _ => v.sameSkeleton) _ _))
      (Part.forall₂_ofList (htransitions.imp fun _ _ => .transition) _ _)
  | @state s s' h =>
    obtain ⟨hregions, hsubmachine, hconnections⟩ := h
    refine List.rel_append (List.rel_append
      (Part.forall₂_ofList (hregions.imp fun _ _ => .region) _ _)
      (Part.forall₂_ofList (hconnections.imp fun _ _ => .connectionPointReference) _ _)) ?_
    dsimp only
    generalize s.submachine = slot at hsubmachine
    cases hsubmachine with
    | none => exact .nil
    | some hm => exact .cons ⟨rfl, rfl, .stateMachine hm⟩ .nil
  | @connectionPointReference c c' h =>
    have hentry : c'.entry = c.entry := h.points .entry
    have hexit : c'.exit = c.exit := h.points .exit
    simp only [Element.parts, hentry, hexit]
    exact List.rel_append (points _ _ _) (points _ _ _)
  | vertex | pseudostate | finalState => exact .nil
  | transition => exact .nil

namespace Likeness

/-- Elements of one skeleton. -/
def skeleton : Likeness where
  Rel := Element.SameSkeleton
  id_eq h := by
    cases h with
    | stateMachine h => cases h; rfl
    | region h => cases h; rfl
    | state h => cases h; rfl
    | transition h => exact h.id
    | connectionPointReference h => exact h.id
    | _ => rfl
  type_eq h := by cases h <;> rfl
  parts := Element.SameSkeleton.parts
  vertex h := by cases h; rfl
  pseudostate h := by cases h; rfl
  state h := by
    cases h with
    | state h => exact ⟨_, rfl, by cases h; rfl⟩

theorem keepsSlots_skeleton : skeleton.KeepsSlots where
  transition h := by
    cases h with
    | transition h => exact ⟨_, rfl, h.ends⟩
  state h := by
    cases h with
    | state h => exact ⟨_, rfl, by cases h; rfl, h.isNone_submachine⟩

end Likeness

/-! ### Instances -/

namespace Encounter

variable {e : Element} {z w : Encounter} {p q : Part}

theorem origin_part_eq_iff (hp : p ∈ z.element.parts) (hq : q ∈ w.element.parts)
    (htype : p.element.type ≠ .stateMachine ∨ q.element.type ≠ .stateMachine) :
    (z.part p).origin = (w.part q).origin ↔ z.origin = w.origin ∧ p.step = q.step := by
  have hsteps (h : p.step = q.step) :
      p.element.definition? = none ∧ q.element.definition? = none := by
    have htypes := Element.step_eq_submachine_iff hp
    rw [h, Element.step_eq_submachine_iff hq] at htypes
    have hnot : p.element.type ≠ .stateMachine := by
      rcases htype with htype | htype
      · exact htype
      · exact htypes.not.1 htype
    exact ⟨Element.definition?_eq_none hnot, Element.definition?_eq_none (htypes.not.2 hnot)⟩
  constructor
  · intro h
    rcases htype with htype | htype
    · obtain ⟨horigin, hstep⟩ := origin_part_inj (Element.definition?_eq_none htype) h.symm
      exact ⟨horigin.symm, hstep.symm⟩
    · exact origin_part_inj (Element.definition?_eq_none htype) h
  · rintro ⟨horigin, hstep⟩
    obtain ⟨hpdef, hqdef⟩ := hsteps hstep
    rw [origin_part z hpdef, origin_part w hqdef, horigin, hstep]

theorem origin_ofRoot_ne (place : Locator)
    (htype : e.type ≠ .stateMachine ∨ p.element.type ≠ .stateMachine) :
    (ofRoot e place).origin ≠ (z.part p).origin := by
  by_cases hdef : p.element.definition? = none
  · exact origin_ofRoot_ne_part e place z hdef
  · obtain ⟨n, hn⟩ := Option.ne_none_iff_exists'.1 hdef
    have hroot : e.definition? = none := by
      refine Element.definition?_eq_none (htype.resolve_right fun hne => hne ?_)
      exact Element.type_of_definition? hn
    intro h
    have hdefinition := congrArg Origin.definition h
    simp [ofRoot, Origin.ofRoot, part, Origin.ofPart, hroot, hn] at hdefinition

end Encounter

namespace Likeness

variable {L : Likeness} {e e' : Element}

/-- In the tree of a like model the place of a part is the place of a part. -/
theorem exists_part_of_place {z x' : Encounter} {p : Part}
    (hx' : x' ∈ (Encounter.ofRoot e' []).tree) (hplace : x'.place = (z.part p).place) :
    ∃ z' ∈ (Encounter.ofRoot e' []).tree, ∃ p' ∈ z'.element.parts,
      x' = z'.part p' ∧ z'.place = z.place ∧ p'.step = p.step := by
  rcases Encounter.eq_or_part_of_mem_tree hx' with rfl | ⟨z', hz', p', hp', rfl⟩
  · simp [Encounter.ofRoot, Encounter.part] at hplace
  · obtain ⟨howner, hstep⟩ := List.append_inj' hplace rfl
    exact ⟨z', hz', p', hp', rfl, howner, (List.cons.inj hstep).1⟩

variable {x y x' y' : Encounter}

theorem origin_eq_iff_of_machines (h : L.Rel e e') (hshares : e.SharesAlike e')
    (hx : x ∈ (Encounter.ofRoot e []).tree) (hx' : x' ∈ (Encounter.ofRoot e' []).tree)
    (hy : y ∈ (Encounter.ofRoot e []).tree) (hy' : y' ∈ (Encounter.ofRoot e' []).tree)
    (hplace : x'.place = x.place) (hplace' : y'.place = y.place)
    (htypes : x.type = .stateMachine ∧ y.type = .stateMachine) :
    x'.origin = y'.origin ↔ x.origin = y.origin := by
  have machine {f : Element} {z : Encounter} (hz : z ∈ (Encounter.ofRoot f []).tree)
      (htype : z.type = .stateMachine) : (z.place, z.origin) ∈ f.machines :=
    List.mem_map.2 ⟨z, List.mem_filter.2 ⟨hz, decide_eq_true htype⟩, rfl⟩
  have hxtype := (alike_of_place_eq h hx hx' hplace).type
  have hytype := (alike_of_place_eq h hy hy' hplace').type
  exact hshares _ (machine hx htypes.1) _ (machine hy htypes.2)
    _ (machine hx' (hxtype.trans htypes.1)) _ (machine hy' (hytype.trans htypes.2)) hplace hplace'

theorem origin_ofRoot_eq_iff (h : L.Rel e e') (hshares : e.SharesAlike e')
    (hy : y ∈ (Encounter.ofRoot e []).tree) (hy' : y' ∈ (Encounter.ofRoot e' []).tree)
    (hplace : y'.place = y.place) :
    (Encounter.ofRoot e' []).origin = y'.origin ↔ (Encounter.ofRoot e []).origin = y.origin := by
  have hroot := Encounter.self_mem_tree (.ofRoot e [])
  have hroot' := Encounter.self_mem_tree (.ofRoot e' [])
  rcases Encounter.eq_or_part_of_mem_tree hy with rfl | ⟨z, -, p, -, rfl⟩
  · obtain rfl := Encounter.eq_of_place_eq hy' hroot' hplace
    exact iff_of_true rfl rfl
  · by_cases htypes : e.type = .stateMachine ∧ p.element.type = .stateMachine
    · exact origin_eq_iff_of_machines h hshares hroot hroot' hy hy' rfl hplace htypes
    · have htype := (alike_of_place_eq h hy hy' hplace).type
      obtain ⟨z', -, p', -, rfl, -, -⟩ := exists_part_of_place hy' hplace
      have hnot := not_and_or.1 htypes
      refine iff_of_false (Encounter.origin_ofRoot_ne [] ?_) (Encounter.origin_ofRoot_ne [] hnot)
      rwa [L.type_eq h, show p'.element.type = p.element.type from htype]

/-- If the machines of two models are shared alike then all their elements are. -/
theorem sameInstances_of_sharesAlike (h : L.Rel e e') (hshares : e.SharesAlike e') :
    e.SameInstances e' [] := by
  -- other parts than machines are shared as their owners are
  refine Encounter.tree_induction ?_ ?_
  · intro y hy x' hx' y' hy' hplace hplace'
    obtain rfl := Encounter.eq_of_place_eq hx' (Encounter.self_mem_tree _) hplace
    exact origin_ofRoot_eq_iff h hshares hy hy' hplace'
  · intro z hz ih p hp y hy x' hx' y' hy' hplace hplace'
    have hx := Encounter.part_mem_tree hz hp
    rcases Encounter.eq_or_part_of_mem_tree hy with rfl | ⟨w, hw, q, hq, rfl⟩
    · obtain rfl := Encounter.eq_of_place_eq hy' (Encounter.self_mem_tree _) hplace'
      rw [eq_comm, origin_ofRoot_eq_iff h hshares hx hx' hplace, eq_comm]
    · by_cases htypes : p.element.type = .stateMachine ∧ q.element.type = .stateMachine
      · exact origin_eq_iff_of_machines h hshares hx hx' hy hy' hplace hplace' htypes
      · have hptype := (alike_of_place_eq h hx hx' hplace).type
        have hqtype := (alike_of_place_eq h hy hy' hplace').type
        obtain ⟨z', hz', p', hp', rfl, hzz', hpstep⟩ := exists_part_of_place hx' hplace
        obtain ⟨w', hw', q', hq', rfl, hww', hqstep⟩ := exists_part_of_place hy' hplace'
        have hnot := not_and_or.1 htypes
        have hnot' : p'.element.type ≠ .stateMachine ∨ q'.element.type ≠ .stateMachine := by
          rwa [show p'.element.type = p.element.type from hptype,
            show q'.element.type = q.element.type from hqtype]
        rw [Encounter.origin_part_eq_iff hp hq hnot, Encounter.origin_part_eq_iff hp' hq' hnot',
          hpstep, hqstep, ih w hw z' hz' w' hw' hzz' hww']

end Likeness

namespace Element

/-- Two models with one skeleton that share their machines alike get the same findings, whatever is
advised. Which names, metadata and flags they have, which behaviour and of what kinds and types, is
the same to an integrity check. -/
theorem integrityDefects_of_sameSkeleton {e e' : Element} (h : e.SameSkeleton e')
    (hshares : e.SharesAlike e') {options options' : Options}
    (hlimit : options'.maxCycleDepth = options.maxCycleDepth) (place : Locator) :
    e'.integrityDefects options' place = e.integrityDefects options place := by
  have hsame : e.SameInstances e' [] :=
    Likeness.sameInstances_of_sharesAlike (L := .skeleton) h hshares
  have hroot : e'.integrityDefects options' [] = e.integrityDefects options [] :=
    Likeness.keepsSlots_skeleton.integrityDefects h hsame hlimit
  rw [e'.integrityDefects_below, e.integrityDefects_below, hroot]

end Element

/-- A machine with two states that stand for one machine, and a transition to nowhere. Its skeleton
does not depend on the arguments. -/
def twins (shared : ℕ) (name : String) (flag : Bool) (metadata : Metadata)
    (behavior : Option Behavior) (kind : TransitionKind) : StateMachine :=
  let machine : StateMachine :=
    { id := "n", name, regions := [{ id := "q", name }], isMethod := flag, metadata, shared }
  let twin (id : String) : State :=
    { id, type := .state, isSimple := flag, isComposite := flag, isOrthogonal := flag
      isSubmachineState := true, submachine := machine
      entry := behavior, exit := behavior, doActivity := behavior }
  let toNowhere : Transition :=
    { id := "t", name, kind, effect := behavior
      source := some { id := "a", name, type := .unknown name }
      target := some { id := "c", name, type := .unknown name } }
  { id := "m", name, isMethod := flag, metadata
    regions := [{ id := "r", name, states := [twin "a", twin "b"], transitions := [toNowhere] }] }

theorem twins_sameSkeleton (n n' : ℕ) (name name' : String) (flag flag' : Bool)
    (metadata metadata' : Metadata) (behavior behavior' : Option Behavior)
    (kind kind' : TransitionKind) :
    (Element.stateMachine (twins n name flag metadata behavior kind)).SameSkeleton
      (.stateMachine (twins n' name' flag' metadata' behavior' kind')) := by
  refine .stateMachine (.mk (.cons (.mk (.cons ?_ (.cons ?_ .nil)) (.cons ?_ .nil)) .nil))
  · exact .mk .nil (.some (.mk (.cons (.mk .nil .nil) .nil))) .nil
  · exact .mk .nil (.some (.mk (.cons (.mk .nil .nil) .nil))) .nil
  · exact ⟨rfl, fun side => by cases side <;> rfl⟩

/-- Two such machines, of which the second has a number, names and flags of its own. -/
theorem integrityDefects_twins :
    let e := Element.stateMachine (twins 0 "" false {} none .external)
    let e' := Element.stateMachine (twins 7 "x" true (({} : Metadata).insert "key" (.bool true))
      (some { id := "", specification := "" }) .internal)
    e.SameSkeleton e' ∧ e.SharesAlike e' ∧
      e'.integrityDefects { bestPractices := true } [] = e.integrityDefects {} [] ∧
      e.integrityDefects {} [] =
        [⟨.transition, [.item "Regions" 0, .item "Transitions" 0],
          .unknownTarget "Target" "c"⟩] := by
  intro e e'
  have hskeleton : e.SameSkeleton e' := twins_sameSkeleton ..
  have hmachines : e.machines =
      [([], {}),
        ([.item "Regions" 0, .item "States" 0, .field "Submachine"], { definition := some 0 }),
        ([.item "Regions" 0, .item "States" 1, .field "Submachine"],
          { definition := some 0 })] := by
    cbv
  have hmachines' : e'.machines =
      [([], {}),
        ([.item "Regions" 0, .item "States" 0, .field "Submachine"], { definition := some 7 }),
        ([.item "Regions" 0, .item "States" 1, .field "Submachine"],
          { definition := some 7 })] := by
    cbv
  have hshares : e.SharesAlike e' := by
    unfold Element.SharesAlike
    rw [hmachines, hmachines']
    decide
  have hdefects : e.integrityDefects {} [] =
      [⟨.transition, [.item "Regions" 0, .item "Transitions" 0],
        .unknownTarget "Target" "c"⟩] := by
    cbv
  have hsame : e'.integrityDefects { bestPractices := true } [] = e.integrityDefects {} [] :=
    Element.integrityDefects_of_sameSkeleton hskeleton hshares rfl []
  exact ⟨hskeleton, hshares, hsame, hdefects⟩

end Statechart
