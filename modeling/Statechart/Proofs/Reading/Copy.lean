import Statechart.Proofs.Survey.Sharing
import Statechart.Proofs.Wellformed.Facade

/-! Copies that share nothing. A copy has the values of its original, but each state in it has a
machine of its own to stand for. That is all that can come back when a model is written and read. -/

namespace Statechart

/-- The machine without its number. -/
def StateMachine.unnumbered (m : StateMachine) : StateMachine := { m with shared := none }

def StateMachine.copy (m : StateMachine) : StateMachine :=
  (Id.run (m.mapSubmachinesM fun x => pure x.unnumbered)).unnumbered

def Region.copy (r : Region) : Region := Id.run (r.mapSubmachinesM fun x => pure x.unnumbered)

def State.copy (s : State) : State := Id.run (s.mapSubmachinesM fun x => pure x.unnumbered)

theorem StateMachine.copy_eq (m : StateMachine) :
    m.copy = { m with regions := m.regions.map (·.copy), shared := none } := by
  rw [copy, run_mapSubmachinesM]
  rfl

theorem Region.copy_eq (r : Region) : r.copy = { r with states := r.states.map (·.copy) } :=
  r.run_mapSubmachinesM _

theorem State.copy_eq (s : State) :
    s.copy = { s with
      regions := s.regions.map (·.copy)
      submachine := s.submachine.map (·.copy) } :=
  s.run_mapSubmachinesM _

namespace Element

def copy : Element → Element
  | stateMachine m => stateMachine m.copy
  | region r => region r.copy
  | state s => state s.copy
  | e => e

@[simp] theorem id_copy (e : Element) : e.copy.id = e.id := by
  cases e with
  | stateMachine m => simp [copy, id, m.copy_eq]
  | region r => simp [copy, id, r.copy_eq]
  | state s => simp [copy, id, s.copy_eq]
  | _ => rfl

@[simp] theorem type_copy (e : Element) : e.copy.type = e.type := by cases e <;> rfl

@[simp] theorem definition?_copy (e : Element) : e.copy.definition? = none := by
  cases e with
  | stateMachine m => simp [copy, definition?, m.copy_eq]
  | _ => rfl

@[simp] theorem copy_regionVertex (v : RegionVertex) : v.element.copy = v.element := by
  cases v <;> rfl

end Element

def Part.copy (p : Part) : Part := { p with element := p.element.copy }

namespace Element

variable {e : Element}

/-- The parts of a copy are copies of the parts. -/
theorem parts_copy (e : Element) : e.copy.parts = e.parts.map (·.copy) := by
  have members {α : Type} (role : Role) (field : String) (element : α → Element) (g : α → α)
      (l : List α) (h : ∀ x, element (g x) = (element x).copy) :
      Part.ofList role field element (l.map g) =
        (Part.ofList role field element l).map (·.copy) :=
    Part.ofList_map h
  have plain {α : Type} (role : Role) (field : String) (element : α → Element) (l : List α)
      (h : ∀ x, (element x).copy = element x) :
      Part.ofList role field element l = (Part.ofList role field element l).map (·.copy) := by
    have hmap := members role field element (fun x => x) l fun x => (h x).symm
    rwa [List.map_id'] at hmap
  cases e with
  | stateMachine m =>
    rw [copy, m.copy_eq, parts, parts, List.map_append]
    exact congrArg₂ _ (members _ _ region _ _ fun _ => rfl) (plain _ _ pseudostate _ fun _ => rfl)
  | region r =>
    rw [copy, r.copy_eq, parts, parts, List.map_append, List.map_append]
    exact congrArg₂ _ (congrArg₂ _ (members _ _ state _ _ fun _ => rfl)
      (plain _ _ RegionVertex.element _ copy_regionVertex)) (plain _ _ transition _ fun _ => rfl)
  | state s =>
    rw [copy, s.copy_eq, parts, parts, List.map_append, List.map_append]
    refine congrArg₂ _ (congrArg₂ _ (members _ _ region _ _ fun _ => rfl)
      (plain _ _ connectionPointReference _ fun _ => rfl)) ?_
    cases s.submachine <;> rfl
  | connectionPointReference c =>
    rw [show (connectionPointReference c).copy = connectionPointReference c from rfl, parts,
      List.map_append]
    exact congrArg₂ _ (plain _ _ pseudostate _ fun _ => rfl) (plain _ _ pseudostate _ fun _ => rfl)
  | vertex v => rfl
  | pseudostate p => rfl
  | finalState f => rfl
  | transition t => rfl

/-- Where nothing is shared, a copy is the original. -/
theorem Unshared.copy_eq (h : e.Unshared) : e.copy = e := by
  induction hs : sizeOf e using Nat.strongRecOn generalizing e with
  | ind n ih =>
    have child (f : Element) (hf : f ∈ e.children) : f.copy = f := by
      obtain ⟨p, hp, rfl⟩ := List.mem_map.1 hf
      exact ih _ (hs ▸ sizeOf_of_mem_parts hp) (h.part hp) rfl
    cases e with
    | stateMachine m =>
      simp only [children_stateMachine, List.mem_append, List.mem_map] at child
      have hregions : m.regions.map (·.copy) = m.regions :=
        (List.map_congr_left fun r hr => region.inj (child _ (.inl ⟨r, hr, rfl⟩))).trans
          (List.map_id' _)
      have hnumber : m.shared = none := h [] _ rfl
      rw [copy, m.copy_eq, hregions, ← hnumber]
      cases m; rfl
    | region r =>
      simp only [children_region, List.mem_append, List.mem_map] at child
      have hstates : r.states.map (·.copy) = r.states :=
        (List.map_congr_left fun s hs => state.inj (child _ (.inl (.inl ⟨s, hs, rfl⟩)))).trans
          (List.map_id' _)
      rw [copy, r.copy_eq, hstates]
      cases r; rfl
    | state s =>
      simp only [children_state, List.mem_append, List.mem_map, Option.mem_toList] at child
      have hregions : s.regions.map (·.copy) = s.regions :=
        (List.map_congr_left fun r hr => region.inj (child _ (.inl (.inl ⟨r, hr, rfl⟩)))).trans
          (List.map_id' _)
      have hslot : s.submachine.map (·.copy) = s.submachine := by
        cases hm : s.submachine with
        | none => rfl
        | some m => exact congrArg some (stateMachine.inj (child _ (.inr ⟨m, hm, rfl⟩)))
      rw [copy, s.copy_eq, hregions, hslot]
      cases s; rfl
    | _ => rfl

end Element

end Statechart
