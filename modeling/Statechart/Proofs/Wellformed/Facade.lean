import Statechart.Model.Build
import Statechart.Proofs.Renaming.Rules
import Statechart.Validation

/-! What the rules see of a machine that a state stands for: its ID, and which IDs its connection
points have. The rest of the machine can be anything. Of their context they see its path, the IDs of
the machine and the region, and whether advice is wanted. -/

namespace Statechart

/-- The machines look the same to a state that stands for them. -/
structure StateMachine.SameFacade (m m' : StateMachine) : Prop where
  id : m'.id = m.id
  points : ∀ id, (∃ p ∈ m'.connectionPoints, p.id = id) ↔ ∃ p ∈ m.connectionPoints, p.id = id

mutual

/-- The regions are equal but for the machines that states in them stand for, at any depth, and
these machines look the same. -/
inductive Region.SameOutside : Region → Region → Prop
  | mk {r : Region} {states : List State}
    (hstates : List.Forall₂ State.SameOutside r.states states) :
    Region.SameOutside r { r with states }

inductive State.SameOutside : State → State → Prop
  | mk {s : State} {regions : List Region} {submachine : Option StateMachine}
    (hregions : List.Forall₂ Region.SameOutside s.regions regions)
    (hsubmachine : Option.Rel StateMachine.SameFacade s.submachine submachine) :
    State.SameOutside s { s with regions, submachine }

end

inductive Element.SameOutside : Element → Element → Prop
  | stateMachine {m : StateMachine} {regions : List Region} {shared : Option Nat}
    (hregions : List.Forall₂ Region.SameOutside m.regions regions) :
    SameOutside (.stateMachine m) (.stateMachine { m with regions, shared })
  | region {r r' : Region} (h : r.SameOutside r') : SameOutside (.region r) (.region r')
  | state {s s' : State} (h : s.SameOutside s') : SameOutside (.state s) (.state s')
  | refl (e : Element) : SameOutside e e

inductive Entity.SameOutside : Entity → Entity → Prop
  | element {e e' : Element} (h : e.SameOutside e') : SameOutside (.element e) (.element e')
  | refl (x : Entity) : SameOutside x x

variable {c c' : Context} {r r' : Region} {s s' : State} {m m' : StateMachine}

namespace Breaches

/-- Recast without a base by the renaming that changes nothing, breaches are what they were. -/
theorem isRecast_refl {l l' : Breaches} : l.IsRecast .refl [] l' ↔ l' = l := by
  have hid : Located.recast [] (Breach.rename .refl) = id := by
    funext d
    simp [Located.recast]
  rw [IsRecast, hid, List.map_id]

theorem flatMap_zipIdx_congr {α : Type} {R : α → α → Prop} {F F' : α × ℕ → Breaches}
    {l l' : List α} (hl : List.Forall₂ R l l')
    (h : ∀ x ∈ l, ∀ x', R x x' → ∀ i, F' (x', i) = F (x, i)) (k : ℕ) :
    (l'.zipIdx k).flatMap F' = (l.zipIdx k).flatMap F := by
  induction hl generalizing k with
  | nil => rfl
  | @cons x x' l l' hx hl ih =>
    rw [List.zipIdx_cons, List.zipIdx_cons, List.flatMap_cons, List.flatMap_cons,
      h x (.head _) x' hx k, ih (fun y hy => h y (.tail _ hy)) (k + 1)]

end Breaches

theorem StateMachine.SameFacade.connectionPoint? (h : m.SameFacade m') (id : String) :
    (m'.connectionPoint? id).isNone ↔ (m.connectionPoint? id).isNone := by
  have hpoint (m : StateMachine) :
      (m.connectionPoint? id).isNone ↔ ¬ ∃ p ∈ m.connectionPoints, p.id = id := by
    simp [StateMachine.connectionPoint?]
  rw [hpoint, hpoint, h.points]

namespace State.SameOutside

theorem toVertex (h : s.SameOutside s') : s'.toVertex = s.toVertex := by cases h; rfl

theorem isComposite (h : s.SameOutside s') : s'.isComposite = s.isComposite := by cases h; rfl

end State.SameOutside

/-! ### Regions -/

namespace Region

/-- Whether a state has an ID, and whether the state found for it is composite. -/
theorem isComposite_state? (h : r.SameOutside r') (id : String) :
    (r'.state? id).map (·.isComposite) = (r.state? id).map (·.isComposite) := by
  obtain ⟨hstates⟩ := h
  unfold state?
  generalize r.states = l at hstates
  induction hstates with
  | nil => rfl
  | @cons s s' l l' hs hl ih =>
    simp only [List.find?_cons, hs.toVertex]
    split
    · simp only [Option.map_some, hs.isComposite]
    · exact ih

theorem hasMember_sameOutside (h : r.SameOutside r') (id : String) :
    r'.hasMember id = r.hasMember id := by
  have hstate : (r'.state? id).isSome = (r.state? id).isSome := by
    have hmap := congrArg Option.isSome (isComposite_state? h id)
    rwa [Option.isSome_map, Option.isSome_map] at hmap
  unfold hasMember
  rw [hstate]
  cases h
  rfl

theorem scopeBreaches_sameOutside (h : r.SameOutside r') (c : Context) (t : Transition) :
    t.scopeBreaches c r' = t.scopeBreaches c r := by
  have hlocal (id : String) :
      (r'.state? id).any (!·.isComposite) = (r.state? id).any (!·.isComposite) := by
    have hmap := congrArg (Option.any (!·)) (isComposite_state? h id)
    rwa [Option.any_map, Option.any_map] at hmap
  have hfinal (v : Vertex) : Transition.isFinal r' v = Transition.isFinal r v := by cases h; rfl
  have hid : r'.id = r.id := by cases h; rfl
  unfold Transition.scopeBreaches Transition.endBreaches Transition.sourceBreaches
  simp only [hasMember_sameOutside h, hlocal, hfinal, hid]

/-- The rules for a region, provided that those for its states see no difference. -/
theorem breaches_sameOutside_of_states (h : r.SameOutside r')
    (hstates : ∀ s ∈ r.states, ∀ s', s.SameOutside s' → ∀ c, s'.breaches c = s.breaches c)
    (c : Context) : r'.breaches c = r.breaches c := by
  have hscope := scopeBreaches_sameOutside h
  obtain @⟨_, states, hl⟩ := h
  -- the region is itself a part of the context of its members
  have hin : (c.enterRegion r).IsRecast .refl [] (c.enterRegion { r with states }) :=
    ⟨by simp [Context.enterRegion, Function.comp_def], by simp [Context.enterRegion], rfl, rfl⟩
  have hid := Breaches.isRecast_refl.1 (hin.require .region "ID" (rfl : Text.isBlank r.id = _))
  have hvertices := Breaches.isRecast_refl.1 (r.vertexBreaches_rename hin)
  have hmultiplicity := Breaches.isRecast_refl.1 (r.multiplicityBreaches_rename hin)
  have hinitial := Breaches.isRecast_refl.1 (r.initialBreaches_rename hin)
  have htransitions := Breaches.isRecast_refl.1 (r.transitionBreaches_rename hin)
  rw [r.rename_refl] at hvertices hmultiplicity htransitions hinitial
  have hmembers : stateBreaches (c.enterRegion { r with states }) { r with states } states 0 =
      stateBreaches (c.enterRegion r) r r.states 0 := by
    rw [stateBreaches_eq_flatMap, stateBreaches_eq_flatMap]
    refine Breaches.flatMap_zipIdx_congr hl (fun s hs s' hss i => ?_) 0
    have hlisting := Breaches.isRecast_refl.1 (r.listingBreaches_rename hin s)
    have hstate := Breaches.isRecast_refl.1 (s.breaches_rename (hin.item "States" i))
    rw [r.rename_refl, s.rename_refl] at hlisting
    rw [s.rename_refl] at hstate
    rw [← hlisting, ← hstate, hstates s hs s' hss]
    unfold listingBreaches
    rw [hss.toVertex]
    rfl
  have hedges : { r with states }.transitionBreaches (c.enterRegion { r with states }) =
      r.transitionBreaches (c.enterRegion r) := by
    rw [← htransitions]
    unfold transitionBreaches
    simp only [hscope]
  rw [breaches_eq, breaches_eq, ← hid, ← hvertices, ← hmultiplicity, ← hmembers, ← hedges,
    ← hinitial]
  rfl

end Region

namespace State

theorem submachineBreaches_sameOutside (h : s.SameOutside s') (c : Context) :
    s'.submachineBreaches c = s.submachineBreaches c := by
  obtain @⟨_, regions, submachine, hregions, hsub⟩ := h
  unfold submachineBreaches standInBreaches plainBreaches
  rw [← hregions.length_eq]
  generalize s.submachine = sub at hsub
  cases hsub with
  | none => rfl
  | some hm => simp only [hm.id]

theorem connectionBreaches_sameOutside (h : s.SameOutside s') (c : Context) :
    s'.connectionBreaches c = s.connectionBreaches c := by
  obtain @⟨_, regions, submachine, hregions, hsub⟩ := h
  unfold connectionBreaches undeclaredPoints
  dsimp only
  generalize s.submachine = sub at hsub
  cases hsub with
  | none => rfl
  | some hm =>
    cases s.isSubmachineState with
    | false => rfl
    | true => simp only [hm.id, hm.connectionPoint?]

/-- The rules for a state, provided that those for its regions see no difference. -/
theorem breaches_sameOutside_of_regions (h : s.SameOutside s')
    (hregions : ∀ r ∈ s.regions, ∀ r', r.SameOutside r' → ∀ c, r'.breaches c = r.breaches c)
    (c : Context) : s'.breaches c = s.breaches c := by
  have hsub := submachineBreaches_sameOutside h c
  have hconnections := connectionBreaches_sameOutside h c
  obtain @⟨_, regions, submachine, hl, -⟩ := h
  have hlist : Region.listBreaches c regions 0 = Region.listBreaches c s.regions 0 := by
    rw [Region.listBreaches_eq_flatMap, Region.listBreaches_eq_flatMap]
    exact Breaches.flatMap_zipIdx_congr hl (fun r hr r' hrr i => hregions r hr r' hrr _) 0
  have hcomposition : compositionBreaches c { s with regions, submachine } =
      s.compositionBreaches c := by
    unfold compositionBreaches
    simp only [hl.length_eq]
  rw [breaches_eq, breaches_eq, hsub, hconnections, hlist, hcomposition]
  rfl

end State

mutual

theorem Region.breaches_sameOutside (r : Region) {r' : Region} (h : r.SameOutside r')
    (c : Context) : r'.breaches c = r.breaches c :=
  Region.breaches_sameOutside_of_states h (fun s _ _ hs c => s.breaches_sameOutside hs c) c
termination_by sizeOf r
decreasing_by
  cases r
  have := List.sizeOf_lt_of_mem ‹s ∈ _›
  simp_all
  omega

theorem State.breaches_sameOutside (s : State) {s' : State} (h : s.SameOutside s')
    (c : Context) : s'.breaches c = s.breaches c :=
  State.breaches_sameOutside_of_regions h (fun r _ _ hr c => r.breaches_sameOutside hr c) c
termination_by sizeOf s
decreasing_by
  cases s
  have := List.sizeOf_lt_of_mem ‹r ∈ _›
  simp_all
  omega

end

theorem StateMachine.breaches_sameOutside {m : StateMachine} {regions : List Region}
    {shared : Option ℕ} (hl : List.Forall₂ Region.SameOutside m.regions regions) (c : Context) :
    { m with regions, shared }.breaches c = m.breaches c := by
  have hin : (c.enterMachine m).IsRecast .refl [] (c.enterMachine { m with regions, shared }) :=
    ⟨by simp [Context.enterMachine], rfl, rfl, rfl⟩
  have hid := Breaches.isRecast_refl.1
    (hin.require .stateMachine "ID" (rfl : Text.isBlank m.id = _))
  have hpoints := Breaches.isRecast_refl.1 (m.pointBreaches_rename hin)
  rw [m.rename_refl] at hpoints
  have hlist : Region.listBreaches (c.enterMachine { m with regions, shared }) regions 0 =
      Region.listBreaches (c.enterMachine m) m.regions 0 := by
    rw [Region.listBreaches_eq_flatMap, Region.listBreaches_eq_flatMap]
    refine Breaches.flatMap_zipIdx_congr hl (fun r _ r' hr i => ?_) 0
    have hregion := Breaches.isRecast_refl.1 (r.breaches_rename (hin.item "Regions" i))
    rw [r.rename_refl] at hregion
    rw [← hregion, r.breaches_sameOutside hr]
  unfold breaches
  simp only [hlist, ← hl.length_eq, ← hid, ← hpoints]
  rfl

theorem Element.breaches_sameOutside {e e' : Element} (h : e.SameOutside e') (c : Context) :
    e'.breaches c = e.breaches c := by
  cases h with
  | stateMachine hl => exact StateMachine.breaches_sameOutside hl c
  | region h => exact Region.breaches_sameOutside _ h c
  | state h => exact State.breaches_sameOutside _ h c
  | refl => rfl

theorem Entity.breaches_sameOutside {x x' : Entity} (h : x.SameOutside x') (c : Context) :
    x'.breaches c = x.breaches c := by
  cases h with
  | element h => exact Element.breaches_sameOutside h c
  | refl => rfl

/-! ### Findings -/

theorem Locator.text_append_congr {place place' : Locator} (h : place'.text = place.text)
    (l : Locator) : (place' ++ l).text = (place ++ l).text := by
  unfold text at h ⊢
  rw [List.foldl_append, List.foldl_append, h]

namespace Entity

/-- The findings in a context do not depend on anything but what contexts alike have in common,
and on the path. -/
theorem findings_alike (x : Entity) (h : c.Alike c') (hpath : c'.path = c.path) :
    (x.breaches c').findings = (x.breaches c).findings := by
  rw [x.breaches_at h, x.breaches_at (⟨rfl, rfl, rfl⟩ : c.Alike c)]
  simp only [Breaches.findings, List.map_map]
  apply List.map_congr_left
  intro d _
  simp only [Function.comp_apply, Located.finding, Located.recast,
    Locator.text_append_congr hpath]

/-- The findings of an examination that goes on from others: they come after what was found so
far. -/
def examine (x : Entity) (c : Context) (found : Findings) : Findings :=
  found ++ (x.breaches c).findings

/-- Two values that differ only inside the machines that their states stand for get the same
findings, after any that were there before, in two contexts with one path that agree on the IDs of
the machine and the region and on whether advice is wanted. -/
theorem examine_sameOutside {x x' : Entity} (hx : x.SameOutside x') (hc : c.Alike c')
    (hpath : c'.path = c.path) :
    ∃ added, ∀ found, x.examine c found = found ++ added ∧
      x'.examine c' found = found ++ added := by
  refine ⟨(x.breaches c).findings, fun found => ⟨rfl, ?_⟩⟩
  rw [examine, breaches_sameOutside hx, x.findings_alike hc hpath]

end Entity

/-- A state whose connection point reference names the points `in` and `gate` of a machine. -/
def booth (m : StateMachine) : State where
  id := "s"
  type := .state
  isSubmachineState := true
  submachine := some m
  connections := [{
    id := "c"
    type := .pseudostate
    entry := [.named "in" "" .entryPoint, .named "gate" "" .entryPoint] }]

/-- The machines have no region in common, and one of them lists a point twice. -/
theorem booths_examined :
    let m : StateMachine := { id := "n", connectionPoints := [.named "in" "" .entryPoint] }
    let m' : StateMachine := {
      id := "n"
      regions := [{ id := "" }]
      connectionPoints := [.named "in" "way" .exitPoint, .named "in" "" .entryPoint] }
    let c : Context := { place := [.item "States" 0] }
    let c' : Context := {
      place := [.field "", .field "States[0]"]
      notes := [("author", "")]
      options := { maxCycleDepth := 1 } }
    ∃ finding : Finding,
      finding.message = "entry point 'gate' is not a connection point of submachine 'n'" ∧
      ∀ found, (Entity.element (.state (booth m))).examine c found = found ++ [finding] ∧
        (Entity.element (.state (booth m'))).examine c' found = found ++ [finding] := by
  intro m m' c c'
  have hfacade : m.SameFacade m' := ⟨rfl, by simp [m, m', Pseudostate.named]⟩
  have hsame : (booth m).SameOutside (booth m') := .mk .nil (.some hfacade)
  obtain ⟨added, hadded⟩ :=
    Entity.examine_sameOutside (.element (.state hsame)) (⟨rfl, rfl, rfl⟩ : c.Alike c') (by decide)
  have hfound : (Entity.element (.state (booth m))).examine c [] = added := (hadded []).1
  have hone : ((Entity.element (.state (booth m))).examine c []).map (·.message) =
      ["entry point 'gate' is not a connection point of submachine 'n'"] := by decide +kernel
  rw [hfound] at hone
  obtain ⟨finding, rfl, hmessage⟩ := List.map_eq_singleton_iff.1 hone
  exact ⟨finding, hmessage, hadded⟩

end Statechart
