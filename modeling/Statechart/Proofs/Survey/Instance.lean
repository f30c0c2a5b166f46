import Statechart.Proofs.Survey.Kinds

/-! Instances. An origin stands for one instance of an element: all encounters with that origin are
of one element, and unless the element is a shared definition they are one part of one owner. -/

namespace Statechart

namespace Encounter

variable {e : Element} {place : Locator} {x y : Encounter} {p : Part}

theorem element_eq_of_origin_eq (he : e.Coherent) (hx : x ∈ (ofRoot e place).tree)
    (hy : y ∈ (ofRoot e place).tree) (horigin : x.origin = y.origin) : x.element = y.element := by
  have hdx := denotes_of_mem_tree x hx
  have hdy := denotes_of_mem_tree y hy
  exact hdx.unique he (horigin ▸ hdy)

theorem origin_part (x : Encounter) (h : p.element.definition? = none) :
    (x.part p).origin = { x.origin with steps := x.origin.steps ++ [p.step] } := by
  simp [part, Origin.ofPart, h]

theorem origin_part_inj {z : Encounter} {q : Part} (hdef : p.element.definition? = none)
    (h : (z.part q).origin = (x.part p).origin) : z.origin = x.origin ∧ q.step = p.step := by
  rw [origin_part x hdef] at h
  cases hqdef : q.element.definition? with
  | some n =>
    -- no steps lead to a definition, but one leads to the part
    have hsteps := congrArg Origin.steps h
    simp [part, Origin.ofPart, hqdef] at hsteps
  | none =>
    rw [origin_part z hqdef] at h
    obtain ⟨hdefs, hsteps⟩ := Origin.mk.inj h
    obtain ⟨hsteps, hstep⟩ := List.append_inj' hsteps rfl
    refine ⟨?_, (List.cons.inj hstep).1⟩
    cases hz : z.origin
    cases hx : x.origin
    simp_all

theorem origin_ofRoot_ne_part (e : Element) (place : Locator) (x : Encounter)
    (hdef : p.element.definition? = none) : (ofRoot e place).origin ≠ (x.part p).origin := by
  intro h
  have hsteps := congrArg Origin.steps h
  simp [origin_part x hdef, ofRoot, Origin.ofRoot] at hsteps

/-- Another encounter of a part that is no shared definition is the same part of another encounter
of the owner. -/
theorem exists_part_of_origin_eq (he : e.Coherent) (hx : x ∈ (ofRoot e place).tree)
    (hp : p ∈ x.element.parts) (hdef : p.element.definition? = none)
    (hy : y ∈ (ofRoot e place).tree) (horigin : y.origin = (x.part p).origin) :
    ∃ z ∈ (ofRoot e place).tree, z.origin = x.origin ∧ z.element = x.element ∧ y = z.part p := by
  rcases eq_or_part_of_mem_tree hy with rfl | ⟨z, hz, q, hq, rfl⟩
  · exact absurd horigin (origin_ofRoot_ne_part e place x hdef)
  · obtain ⟨hzx, hstep⟩ := origin_part_inj hdef horigin
    have helement := element_eq_of_origin_eq he hz hx hzx
    have hqp := Element.eq_of_step_eq (helement ▸ hq) hp hstep
    exact ⟨z, hz, hzx, helement, by rw [hqp]⟩

/-- An instance that is no shared definition is held in one role. -/
theorem role_eq_of_origin_eq (he : e.Coherent) (hx : x ∈ (ofRoot e place).tree)
    (hy : y ∈ (ofRoot e place).tree) (hdef : y.element.definition? = none)
    (horigin : x.origin = y.origin) : x.role = y.role := by
  have helement := element_eq_of_origin_eq he hx hy horigin
  rcases eq_or_part_of_mem_tree hy with rfl | ⟨z, hz, p, hp, rfl⟩
  · rcases eq_or_part_of_mem_tree hx with rfl | ⟨z, hz, p, hp, rfl⟩
    · rfl
    · rw [← helement] at hdef
      exact absurd horigin.symm (origin_ofRoot_ne_part e place z hdef)
  · obtain ⟨z', -, -, -, rfl⟩ := exists_part_of_origin_eq he hz hp hdef hx horigin
    rfl

end Encounter

end Statechart
