import Statechart.Proofs.Acceptance.Exact
import Statechart.Proofs.Reorder.Rules

/-! The verdict on a machine in any order. What a step keeps of a machine that holds no other one is
shown layer by layer: what it is made of, the IDs of all this, and that no rule is broken. So a
machine that is accepted is accepted after any number of steps, and steps can be taken back. -/

namespace Statechart

namespace Element

variable {e e' f : Element}

/-! ### Rules -/

theorem census_sublist {α : Type} {g : Element → List α} (hf : f ∈ e.children) :
    (f.census g).Sublist (e.census g) := by
  rw [census_eq g e]
  exact (List.sublist_flatten_of_mem (List.mem_map_of_mem hf)).trans
    (List.sublist_append_right _ _)

theorem distinct_of_census {r : Region} (h : ((region r).census marks).Nodup) :
    r.HasDistinctMembers := by
  rw [census_eq] at h
  exact Region.hasDistinctMembers_of_marks h.of_append_left

theorem Reorder.brief_eq {s s' : State} (h : Reorder (state s) (state s')) :
    (s'.id, s'.isComposite) = (s.id, s.isComposite) := by
  cases h <;> rfl

/-- A step keeps it that no rule is broken, where IDs are distinct. -/
theorem Reorder.breaches_eq_nil (h : Reorder e e') (hids : (e.census marks).Nodup) {c : Context}
    (he : e.breaches c = []) : e'.breaches c = [] := by
  have inside {e f : Element} (hids : (e.census marks).Nodup) (hf : f ∈ e.children) :
      (f.census marks).Nodup := hids.sublist (census_sublist hf)
  induction h generalizing c with
  | @regions m l l' h =>
    have hregions := StateMachine.regions_of_breaches he
    exact StateMachine.breaches_eq_nil_with he h.length_eq.symm
      (fun r hr => hregions r (h.symm.subset hr)) (.refl _)
  | connectionPoints m h =>
    exact StateMachine.breaches_eq_nil_with he rfl (StateMachine.regions_of_breaches he) h
  | @states r l l' h =>
    have hresembles : Region.Resembles { r with states := l } { r with states := l' } :=
      ⟨rfl, .refl _, .refl _, h.map _⟩
    exact hresembles.breaches_eq_nil (distinct_of_census hids) he
      fun s hs => Region.states_of_breaches he s (h.symm.subset hs)
  | @vertices r l l' h =>
    have hresembles : Region.Resembles { r with vertices := l } { r with vertices := l' } :=
      ⟨rfl, h, .refl _, .refl _⟩
    exact hresembles.breaches_eq_nil (distinct_of_census hids) he (Region.states_of_breaches he)
  | @transitions r l l' h =>
    have hresembles : Region.Resembles { r with transitions := l } { r with transitions := l' } :=
      ⟨rfl, .refl _, h, .refl _⟩
    exact hresembles.breaches_eq_nil (distinct_of_census hids) he (Region.states_of_breaches he)
  | subregions s h =>
    have hregions := State.regions_of_breaches he
    exact State.breaches_eq_nil_with he h.length_eq.symm
      fun r hr => hregions r (h.symm.subset hr)
  | @inMachine m l l' r r' _ ih =>
    have hregions := StateMachine.regions_of_breaches he
    have hchild : region r ∈ (stateMachine { m with regions := l ++ r :: l' }).children := by
      simp [children_stateMachine]
    refine StateMachine.breaches_eq_nil_with he (by simp) ?_ (.refl _)
    simp only [List.forall_mem_append, List.forall_mem_cons] at hregions ⊢
    exact ⟨hregions.1, ih (inside hids hchild) hregions.2.1, hregions.2.2⟩
  | @inState s l l' r r' _ ih =>
    have hregions := State.regions_of_breaches he
    have hchild : region r ∈ (state { s with regions := l ++ r :: l' }).children := by
      simp [children_state]
    refine State.breaches_eq_nil_with he (by simp) ?_
    simp only [List.forall_mem_append, List.forall_mem_cons] at hregions ⊢
    exact ⟨hregions.1, ih (inside hids hchild) hregions.2.1, hregions.2.2⟩
  | @inRegion r l l' s s' h ih =>
    have hstates := Region.states_of_breaches he
    have hchild : state s ∈ (region { r with states := l ++ s :: l' }).children := by
      simp [children_region]
    have hresembles : Region.Resembles { r with states := l ++ s :: l' }
        { r with states := l ++ s' :: l' } :=
      ⟨rfl, .refl _, .refl _, by simp [h.brief_eq]⟩
    refine hresembles.breaches_eq_nil (distinct_of_census hids) he ?_
    simp only [List.forall_mem_append, List.forall_mem_cons] at hstates ⊢
    exact ⟨hstates.1, ih (inside hids hchild) hstates.2.1, hstates.2.2⟩

/-! ### What a machine is made of -/

/-- The outlines of the children that belong to the machine around the element. -/
def ownKin (e : Element) : List Element :=
  if e.type = .connectionPointReference then []
  else e.kin.filter (·.type ≠ .connectionPointReference)

theorem ownKin_perm (houtline : e'.outline = e.outline) (h : e.kin.Perm e'.kin) :
    e.ownKin.Perm e'.ownKin := by
  have htype : e'.type = e.type := by rw [← type_outline, houtline, type_outline]
  unfold ownKin
  rw [htype]
  split
  · exact .refl _
  · exact h.filter _

end Element

namespace StateMachine

variable {m m' : StateMachine} {options : Options}

theorem map_outline_spots_perm (m : StateMachine) :
    (m.spots.map (·.element.outline)).Perm
      ((Element.stateMachine m).outline :: (Element.stateMachine m).census Element.ownKin) := by
  have hparts (z : Encounter) :
      ((z.element.parts.map z.part).filter fun x =>
        x.type ≠ .connectionPointReference ∧ x.role ≠ .referencePoint).map (·.element.outline) =
          z.element.ownKin := by
    rw [List.filter_map, List.map_map, Element.ownKin]
    split
    · next htype =>
      rw [List.map_eq_nil_iff, List.filter_eq_nil_iff]
      intro p hp
      simp [Encounter.part, (Element.role_eq_referencePoint_iff hp).2 htype]
    · next htype =>
      rw [Element.kin, Element.children, List.map_map, List.filter_map]
      congr 1
      apply List.filter_congr
      intro p hp
      have hrole := (Element.role_eq_referencePoint_iff hp).not.2 htype
      simp [Encounter.part, Encounter.type, hrole]
  have hcensus : m.tree.flatMap (·.element.ownKin) =
      (Element.stateMachine m).census Element.ownKin :=
    Encounter.flatMap_tree Element.ownKin (.ofRoot (.stateMachine m) [])
  have hperm := ((Encounter.tree_perm (.ofRoot (.stateMachine m) [])).filter fun x =>
    x.type ≠ .connectionPointReference ∧ x.role ≠ .referencePoint).map (·.element.outline)
  rw [List.filter_cons_of_pos rfl, List.filter_flatMap, List.map_cons, List.map_flatMap]
    at hperm
  simp only [hparts] at hperm
  rw [← hcensus]
  exact hperm

end StateMachine

namespace Element.Reorder

variable {m m' : StateMachine} {options : Options}

theorem spots_perm (h : Reorder (.stateMachine m) (.stateMachine m')) :
    (m.spots.map (·.element.outline)).Perm (m'.spots.map (·.element.outline)) := by
  have hcensus := h.census_perm ownKin_perm
  refine m.map_outline_spots_perm.trans (.trans ?_ m'.map_outline_spots_perm.symm)
  rw [h.outline_eq]
  exact hcensus.cons _

theorem length_spots (h : Reorder (.stateMachine m) (.stateMachine m')) :
    m'.spots.length = m.spots.length := by
  simpa using h.spots_perm.length_eq.symm

theorem isSelfContained (h : Reorder (.stateMachine m) (.stateMachine m'))
    (hm : m.IsSelfContained) : m'.IsSelfContained := by
  have houtline (m : StateMachine) : m.spots.all (·.element.holdsNoMachine) =
      (m.spots.map (·.element.outline)).all holdsNoMachine := by
    rw [List.all_map]
    congr 1
    funext x
    cases hx : x.element <;> simp [hx, outline, holdsNoMachine]
  rw [StateMachine.isSelfContained_iff, houtline] at hm ⊢
  rwa [← h.spots_perm.all_eq]

theorem marks_perm (h : Reorder (.stateMachine m) (.stateMachine m')) : m.marks.Perm m'.marks := by
  have hid : m'.id = m.id := congrArg Element.id h.outline_eq
  rw [StateMachine.marks, StateMachine.marks, hid]
  exact (h.census_perm fun _ => Element.marks_perm).cons _

theorem validate_eq_nil (h : Reorder (.stateMachine m) (.stateMachine m'))
    (hself : m.IsSelfContained) (hdepth : m.spots.length ≤ options.maxCycleDepth)
    (hvalid : m.validate options = []) : m'.validate options = [] := by
  unfold StateMachine.validate at hvalid ⊢
  obtain ⟨hrules, hintegrity⟩ := List.append_eq_nil_iff.1 hvalid
  have hm : m.IsTidy := ⟨StateMachine.clean_of_ruleFindings hrules, hself⟩
  have hdistinct := (hm.integrityDefects_eq_nil hdepth).1 (List.map_eq_nil_iff.1 hintegrity)
  have hids : m.marks.Nodup := hm.hasDistinctIds_iff.1 hdistinct
  have hrules' : m'.ruleFindings { options } = [] :=
    List.map_eq_nil_iff.2 (h.breaches_eq_nil hids.of_cons (List.map_eq_nil_iff.1 hrules))
  have hm' : m'.IsTidy := ⟨StateMachine.clean_of_ruleFindings hrules', h.isSelfContained hself⟩
  have hids' : m'.HasDistinctIds := hm'.hasDistinctIds_iff.2 (h.marks_perm.nodup_iff.1 hids)
  have hintegrity' := (hm'.integrityDefects_eq_nil (h.length_spots ▸ hdepth)).2 hids'
  rw [hrules', hintegrity']
  rfl

end Element.Reorder

namespace StateMachine

/-- The second machine is the first one with lists in another order, at any depth. -/
def Rearranges (m m' : StateMachine) : Prop :=
  Relation.ReflTransGen Element.Reorder (.stateMachine m) (.stateMachine m')

/-- Order does not matter: a machine that holds no other machine, examined with a limit that is at
least the number of its elements, is accepted if and only if it is accepted with its regions,
connection points, states, vertices and transitions in another order. -/
theorem validate_rearranged {m m' : StateMachine} {options : Options} (h : m.Rearranges m')
    (hself : m.IsSelfContained) (hdepth : m.spots.length ≤ options.maxCycleDepth) :
    m'.validate options = [] ↔ m.validate options = [] := by
  -- the steps lead from machine to machine
  have run (e : Element) (h : Relation.ReflTransGen Element.Reorder (.stateMachine m) e) :
      ∃ k, e = .stateMachine k ∧ k.IsSelfContained ∧ k.spots.length ≤ options.maxCycleDepth ∧
        (k.validate options = [] ↔ m.validate options = []) := by
    induction h with
    | refl => exact ⟨m, rfl, hself, hdepth, .rfl⟩
    | @tail e e' _ hstep ih =>
      obtain ⟨k, rfl, hself, hdepth, hk⟩ := ih
      obtain ⟨k', rfl⟩ : ∃ k', e' = .stateMachine k' := by
        cases hstep <;> exact ⟨_, rfl⟩
      have hself' := hstep.isSelfContained hself
      have hdepth' := hstep.length_spots ▸ hdepth
      refine ⟨k', rfl, hself', hdepth', .trans ⟨?_, ?_⟩ hk⟩
      · exact hstep.symm.validate_eq_nil hself' hdepth'
      · exact hstep.validate_eq_nil hself hdepth
  obtain ⟨k, hk, -, -, hvalid⟩ := run _ h
  cases hk
  exact hvalid

/-- A composite state around an initial vertex and a final one. -/
def watch (final : String) : State where
  id := "a"
  type := .state
  isComposite := true
  regions := [{
    id := "q"
    vertices := [.pseudostate (.initial "i"), .finalState (.named final "")] }]

/-- The same with its vertices in the other order. -/
def nightWatch (final : String) : State where
  id := "a"
  type := .state
  isComposite := true
  regions := [{
    id := "q"
    vertices := [.finalState (.named final ""), .pseudostate (.initial "i")] }]

def duty (l : List State) : Region where
  id := "r"
  states := l
  vertices := [.vertex { id := "a", type := .state }, .vertex { id := "b", type := .state }]

def roster (l : List State) : StateMachine := { id := "m", regions := [duty l] }

theorem roster_rearranges (final : String) :
    (roster [watch final, .simple "b" ""]).Rearranges
      (roster [.simple "b" "", nightWatch final]) := by
  have hstate : Element.Reorder (.state (watch final)) (.state (nightWatch final)) :=
    .inState (watch final) [] [] (.vertices { id := "q" } (.swap ..))
  have hregion : Element.Reorder (.region (duty [watch final, .simple "b" ""]))
      (.region (duty [nightWatch final, .simple "b" ""])) :=
    .inRegion (duty []) [] [.simple "b" ""] hstate
  have hregion' : Element.Reorder (.region (duty [nightWatch final, .simple "b" ""]))
      (.region (duty [.simple "b" "", nightWatch final])) :=
    .states (duty []) (.swap ..)
  exact .tail (.single (.inMachine (roster []) [] [] hregion))
    (.inMachine (roster []) [] [] hregion')

/-- In another order the machine stays accepted. Where the final vertex takes the ID of the initial
one it stays rejected, but it is not the same vertex that is reported. -/
theorem roster_verdict :
    ((roster [watch "f", .simple "b" ""]).validate {} = [] ∧
      (roster [.simple "b" "", nightWatch "f"]).validate {} = []) ∧
    ((roster [watch "i", .simple "b" ""]).validate {} ≠ [] ∧
      (roster [.simple "b" "", nightWatch "i"]).validate {} ≠ []) ∧
    ((Element.stateMachine (roster [watch "i", .simple "b" ""])).integrityDefects {} []).map
        (·.type) = [.finalState] ∧
      ((Element.stateMachine (roster [.simple "b" "", nightWatch "i"])).integrityDefects {} []).map
        (·.type) = [.pseudostate] := by
  have hvalid : (roster [watch "f", .simple "b" ""]).validate {} = [] := by cbv
  have htypes : ((Element.stateMachine (roster [watch "i", .simple "b" ""])).integrityDefects {}
      []).map (·.type) = [.finalState] := by cbv
  have hinvalid : (roster [watch "i", .simple "b" ""]).validate {} ≠ [] := by
    intro hnil
    rw [List.map_eq_nil_iff.1 (List.append_eq_nil_iff.1 hnil).2] at htypes
    cases htypes
  have verdict (final : String) (hself : (roster [watch final, .simple "b" ""]).IsSelfContained)
      (hlength : (roster [watch final, .simple "b" ""]).spots.length = 9) :
      (roster [.simple "b" "", nightWatch final]).validate {} = [] ↔
        (roster [watch final, .simple "b" ""]).validate {} = [] :=
    validate_rearranged (roster_rearranges final) hself (by rw [hlength]; decide)
  have hself : (roster [watch "f", .simple "b" ""]).IsSelfContained :=
    isSelfContained_iff.2 (by cbv)
  have hself' : (roster [watch "i", .simple "b" ""]).IsSelfContained :=
    isSelfContained_iff.2 (by cbv)
  exact ⟨⟨hvalid, (verdict "f" hself (by cbv)).2 hvalid⟩,
    ⟨hinvalid, (verdict "i" hself' (by cbv)).not.2 hinvalid⟩, htypes, by cbv⟩

end StateMachine

end Statechart
