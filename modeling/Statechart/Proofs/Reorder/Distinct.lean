import Statechart.Proofs.Acceptance.Spots
import Statechart.Proofs.Reorder.Basic

/-! Distinct IDs in any order. An element is marked with its ID, and with a flag where it is the
entry of a state among the vertices of its region. The IDs of a machine are distinct if and only if
no mark occurs twice, and the marks are collected from the elements of the machine and their
children, so a change of order keeps them. -/

namespace Statechart

namespace Element

/-- The ID of a child, and whether it is a vertex that another child has listed. -/
def markAmong (kin : List Element) (f : Element) : String × Bool :=
  (f.id, f.type = .vertex && kin.any (·.isListingPair f))

/-- The marks of the children. -/
def marks (e : Element) : List (String × Bool) := e.kin.map (markAmong e.kin)

theorem marks_perm {e e' : Element} (h : e.kin.Perm e'.kin) : e.marks.Perm e'.marks := by
  have hmark : markAmong e.kin = markAmong e'.kin := by
    funext f
    rw [markAmong, markAmong, h.any_eq]
  rw [marks, marks, hmark]
  exact h.map _

theorem marks_eq_map_parts (e : Element) :
    e.marks = e.parts.map fun p => markAmong e.kin p.element.outline := by
  rw [marks]
  nth_rewrite 2 [kin]
  rw [children, List.map_map, List.map_map]
  rfl

end Element

namespace Region

variable {r : Region}

/-- Whether the vertex is the entry of one of the states. -/
def lists (r : Region) : RegionVertex → Bool
  | .vertex v => r.states.any (·.toVertex = v)
  | _ => false

theorem kin_eq (r : Region) :
    (Element.region r).kin =
      r.states.map (fun s => (Element.state s).outline) ++ r.vertices.map RegionVertex.element
        ++ r.transitions.map Element.transition := by
  have houtline (v : RegionVertex) : v.element.outline = v.element := by cases v <;> rfl
  simp only [Element.kin, Element.children_region, List.map_append, List.map_map,
    Function.comp_def, houtline]
  rfl

theorem marks_eq (r : Region) :
    (Element.region r).marks =
      r.states.map (fun s => (s.id, false)) ++ r.vertices.map (fun v => (v.id, r.lists v))
        ++ r.transitions.map fun t => (t.id, false) := by
  have hlists (v : RegionVertex) :
      Element.markAmong (Element.region r).kin v.element = (v.id, r.lists v) := by
    rw [Element.markAmong, RegionVertex.id_element, kin_eq]
    congr 1
    cases v with
    | vertex v =>
      have hstates : (r.states.map fun s => (Element.state s).outline).any
          (·.isListingPair (.vertex v)) = r.lists (.vertex v) := by
        rw [List.any_map]
        rfl
      have hvertices : (r.vertices.map RegionVertex.element).any
          (·.isListingPair (.vertex v)) = false := by
        rw [List.any_map, List.any_eq_false]
        intro w _
        cases w <;> exact Bool.false_ne_true
      have htransitions : (r.transitions.map Element.transition).any
          (·.isListingPair (.vertex v)) = false := by
        rw [List.any_map, List.any_eq_false]
        intro t _
        exact Bool.false_ne_true
      rw [RegionVertex.element, List.any_append, List.any_append, hstates, hvertices, htransitions]
      simp [Element.type]
    | _ => rfl
  rw [Element.marks]
  nth_rewrite 2 [kin_eq]
  rw [List.map_append, List.map_append, List.map_map, List.map_map, List.map_map]
  congr 2
  exact List.map_congr_left fun v _ => hlists v

/-- Vertices with one ID are one vertex, and so are states. -/
structure HasDistinctMembers (r : Region) : Prop where
  vertices : (r.vertices.map (·.id)).Nodup
  states : (r.states.map (·.id)).Nodup

theorem hasDistinctMembers_of_marks (h : (Element.region r).marks.Nodup) :
    r.HasDistinctMembers := by
  rw [marks_eq, List.nodup_append', List.nodup_append'] at h
  obtain ⟨⟨hstates, hvertices, hdisjoint⟩, -, -⟩ := h
  -- a listed vertex has the ID of its state, which no other vertex has without being listed
  have hlists {v w : RegionVertex} (hw : w ∈ r.vertices) (hid : v.id = w.id)
      (hv : r.lists v = true) : r.lists w = true := by
    cases v with
    | vertex v =>
      obtain ⟨s, hs, hshape⟩ := List.any_eq_true.1 hv
      by_contra hlists
      have hmark : (w.id, r.lists w) = (s.id, false) := by
        rw [Bool.eq_false_iff.2 hlists, ← hid, ← of_decide_eq_true hshape]
        rfl
      exact hdisjoint (List.mem_map_of_mem hs) (hmark ▸ List.mem_map_of_mem hw)
    | _ => cases hv
  constructor
  · refine List.Nodup.map_on ?_ (List.Nodup.of_map _ hvertices)
    intro v hv w hw hid
    have hmark : (v.id, r.lists v) = (w.id, r.lists w) :=
      Prod.ext hid (Bool.eq_iff_iff.2 ⟨hlists hw hid, hlists hv hid.symm⟩)
    exact List.inj_on_of_nodup_map hvertices hv hw hmark
  · have hids : r.states.map (fun s => (s.id, false)) = (r.states.map (·.id)).map (·, false) := by
      rw [List.map_map]
      rfl
    exact List.Nodup.of_map _ (hids ▸ hstates)

end Region

namespace StateMachine

variable {m : StateMachine} {x : Encounter}

/-- Whether what is met in the machine is the entry of a state among the vertices. -/
def IsListed (m : StateMachine) (x : Encounter) : Prop :=
  x.type = .vertex ∧ ∃ y ∈ m.tree, y.IsOwnListing x

instance (m : StateMachine) (x : Encounter) : Decidable (m.IsListed x) :=
  inferInstanceAs (Decidable (_ ∧ ∃ y ∈ m.tree, _))

def mark (m : StateMachine) (x : Encounter) : String × Bool := (x.id, decide (m.IsListed x))

/-- All marks in a machine. -/
def marks (m : StateMachine) : List (String × Bool) :=
  (m.id, false) :: (Element.stateMachine m).census Element.marks

theorem mark_part (hx : x ∈ m.tree) {p : Part} (hp : p ∈ x.element.parts) :
    m.mark (x.part p) = Element.markAmong x.element.kin p.element.outline := by
  have hlisted : m.IsListed (x.part p) ↔
      p.element.type = .vertex ∧
        x.element.kin.any (·.isListingPair p.element.outline) = true := by
    apply and_congr_right
    intro _
    simp only [Element.kin, Element.children, List.any_map, List.any_eq_true, Function.comp_apply,
      Element.isListingPair_outline]
    constructor
    · rintro ⟨y, hy, hpair, hplace⟩
      rcases Encounter.eq_or_part_of_mem_tree hy with rfl | ⟨z, hz, q, hq, rfl⟩
      · exact absurd rfl (Element.type_ne_of_isListingPair hpair).1
      · rw [Encounter.place_part, Encounter.place_part] at hplace
        obtain rfl := Encounter.eq_of_place_eq hz hx hplace
        exact ⟨q, hq, hpair⟩
    · rintro ⟨q, hq, hpair⟩
      exact ⟨x.part q, Encounter.part_mem_tree hx hq, hpair, by
        rw [Encounter.place_part, Encounter.place_part]⟩
  rw [mark, Element.markAmong, Element.id_outline, Element.type_outline]
  congr 1
  rw [Bool.eq_iff_iff, decide_eq_true_iff, Bool.and_eq_true, decide_eq_true_iff]
  exact hlisted

theorem map_mark_tree_perm (m : StateMachine) : (m.tree.map m.mark).Perm m.marks := by
  have hroot : m.mark (.ofRoot (.stateMachine m) []) = (m.id, false) := by
    have : ¬ m.IsListed (.ofRoot (.stateMachine m) []) := by
      rintro ⟨htype, -⟩
      cases htype
    rw [mark, decide_eq_false this]
    rfl
  have hparts : m.tree.flatMap (fun z => (z.element.parts.map z.part).map m.mark) =
      m.tree.flatMap (·.element.marks) := by
    apply List.flatMap_congr
    intro z hz
    rw [Element.marks_eq_map_parts, List.map_map]
    exact List.map_congr_left fun p hp => mark_part hz hp
  have hcensus : m.tree.flatMap (·.element.marks) = (Element.stateMachine m).census Element.marks :=
    Encounter.flatMap_tree Element.marks (.ofRoot (.stateMachine m) [])
  have hperm := (Encounter.tree_perm (.ofRoot (.stateMachine m) [])).map m.mark
  rw [List.map_cons, hroot, List.map_flatMap] at hperm
  rw [marks, ← hcensus, ← hparts]
  exact hperm

/-- In a tidy machine IDs are distinct if and only if no mark occurs twice. -/
theorem IsTidy.hasDistinctIds_iff (hm : m.IsTidy) : m.HasDistinctIds ↔ m.marks.Nodup := by
  have hnodup : m.tree.Nodup := Encounter.nodup_tree _
  rw [← m.map_mark_tree_perm.nodup_iff, List.nodup_map_iff_inj_on hnodup]
  unfold HasDistinctIds
  rw [hm.spots_eq]
  have mark_eq {x y : Encounter} : m.mark x = m.mark y ↔
      x.id = y.id ∧ (m.IsListed x ↔ m.IsListed y) := by
    rw [mark, mark, Prod.mk.injEq, decide_eq_decide]
  constructor
  · intro hids x hx y hy hmark
    obtain ⟨hid, hflag⟩ := mark_eq.1 hmark
    rcases hids x hx y hy hid with hplace | hlisting
    · exact Encounter.eq_of_place_eq hx hy hplace
    · -- the state is not listed, and the vertex is
      rcases hlisting.types with ⟨hstate, hvertex⟩ | ⟨hvertex, hstate⟩
      · have := (hflag.2 ⟨hvertex, x, hx, hlisting⟩).1
        rw [hstate] at this
        cases this
      · have := (hflag.1 ⟨hvertex, y, hy, hlisting.symm⟩).1
        rw [hstate] at this
        cases this
  · intro hinj x hx y hy hid
    -- where one of the two is listed, the other one has the mark of the state that lists it
    have lists {x y : Encounter} (hx : x ∈ m.tree) (hid : x.id = y.id) (hx' : ¬ m.IsListed x)
        (hy' : m.IsListed y) : x.IsOwnListing y := by
      obtain ⟨hvertex, z, hz, hlisting⟩ := hy'
      have hz' : ¬ m.IsListed z := by
        rintro ⟨htype, -⟩
        rcases hlisting.types with ⟨hstate, -⟩ | ⟨-, hstate⟩
        · rw [hstate] at htype
          cases htype
        · rw [hstate] at hvertex
          cases hvertex
      have hzid : z.id = y.id := by
        rcases Element.isListingPair_types hlisting.1 with ⟨s, hs, hv⟩ | ⟨s, hs, hv⟩ <;>
          rw [Encounter.id, Encounter.id, hs, hv] <;> rfl
      rwa [hinj x hx z hz (mark_eq.2 ⟨hid.trans hzid.symm, iff_of_false hx' hz'⟩)]
    by_cases hx' : m.IsListed x <;> by_cases hy' : m.IsListed y
    · exact .inl (congrArg _ (hinj x hx y hy (mark_eq.2 ⟨hid, iff_of_true hx' hy'⟩)))
    · exact .inr (lists hy hid.symm hy' hx').symm
    · exact .inr (lists hx hid hx' hy')
    · exact .inl (congrArg _ (hinj x hx y hy (mark_eq.2 ⟨hid, iff_of_false hx' hy'⟩)))

end StateMachine

end Statechart
