import Mathlib.Data.List.Perm.Subperm
import Statechart.Proofs.Graph.SearchOutcome
import Statechart.Proofs.Integrity.Stage

/-! Where the limit is no lower than the number of recorded elements, no search is broken off: a
path of a search repeats no node, and each of its nodes is the ID of a recorded element. These have
places of their own, so the number of places in the model will do for the limit as well. -/

namespace Statechart

theorem forall_mem_of_isChain {α : Type} {R : α → α → Prop} {P : α → Prop} {l : List α}
    (hlink : ∀ a b, R a b → P b) (hchain : l.IsChain R) (hhead : ∀ a, l.head? = some a → P a) :
    ∀ x ∈ l, P x := by
  induction l with
  | nil => exact fun x hx => by cases hx
  | cons a l ih =>
    intro x hx
    rcases List.mem_cons.1 hx with rfl | hx
    · exact hhead x rfl
    · refine ih hchain.tail ?_ x hx
      intro b hb
      cases l with
      | nil => cases hb
      | cons c l =>
        obtain rfl : c = b := by simpa using hb
        exact hlink a c (List.isChain_cons_cons.1 hchain).1

namespace Walk.Reachable

variable {e : Element} {place : Locator} {w : Walk}

theorem ends_recorded (h : Reachable e place w) (hdone : w.agenda = []) {r : Relation}
    {a b : String} (hedge : (a, b) ∈ w.survey.edges r) :
    a ∈ w.survey.entries.map (·.id) ∧ b ∈ w.survey.entries.map (·.id) := by
  obtain ⟨x, hx, p, hp, -, hid, hab⟩ := h.edges hedge
  obtain ⟨rfl, rfl⟩ := Prod.mk.inj hab
  obtain ⟨y, hy, hyid, -⟩ := h.accounted (h.parts_met hdone hx hp).2 hid
  exact ⟨List.mem_map.2 ⟨x, hx, rfl⟩, List.mem_map.2 ⟨y, hy, hyid⟩⟩

theorem length_entries_le (h : Reachable e place w) :
    w.survey.entries.length ≤ (Encounter.ofRoot e place).tree.length := by
  have hnodup : w.survey.entries.Nodup := List.Nodup.of_map _ h.entries.2
  have hsub : w.survey.entries ⊆ (Encounter.ofRoot e place).tree :=
    fun x hx => h.met_subset (h.entries_subset hx)
  exact (hnodup.subperm hsub).length_le

end Walk.Reachable

namespace Element

variable {e : Element} {place : Locator} {limit : ℕ}

/-- No search is broken off at a limit that is at least the number of recorded elements. -/
theorem not_tooDeep_of_entries (h : (e.survey place).entries.length ≤ limit) {r : Relation}
    {d : Located Defect} (hd : d ∈ (e.survey place).relationDefects limit r) :
    d.cause.isTooDeep = false := by
  obtain ⟨met, hreach⟩ := Walk.survey_reachable e place
  obtain ⟨a, b, hedge, hclash | ⟨path, hpath, -⟩ | ⟨path, -, rfl⟩⟩ := Survey.mem_edgeDefects hd
  · obtain ⟨type, hcause⟩ := Survey.clashDefects_cause hclash
    rw [hcause]
    cases r <;> rfl
  · have hspec := ((e.survey place).graph r).findPath_spec b a limit
    rw [hpath] at hspec
    obtain ⟨hhead, hnodup, hchain, hmiss, hlength⟩ := hspec
    obtain ⟨ha, hb⟩ := hreach.ends_recorded rfl hedge
    have hknown : ∀ id ∈ path, id ∈ (e.survey place).entries.map (·.id) := by
      refine forall_mem_of_isChain ?_ hchain ?_
      · intro c d hcd
        obtain ⟨r', hedge'⟩ := Survey.exists_mem_edges_of_graph hcd
        exact (hreach.ends_recorded rfl hedge').2
      · intro c hc
        rw [hhead] at hc
        exact Option.some.inj hc ▸ hb
    -- the path and the target of the search are IDs, more of them than there are elements
    have hall : a :: path ⊆ (e.survey place).entries.map (·.id) := by
      intro id hid
      rcases List.mem_cons.1 hid with rfl | hid
      · exact ha
      · exact hknown id hid
    have hcount := ((List.nodup_cons.2 ⟨hmiss, hnodup⟩).subperm hall).length_le
    simp only [List.length_cons, List.length_map] at hcount
    omega
  · rw [Survey.defectAt_cause]
    rfl

/-- No search is broken off at a limit that is at least the number of places. -/
theorem not_tooDeep (h : (Encounter.ofRoot e place).tree.length ≤ limit) {r : Relation}
    {d : Located Defect} (hd : d ∈ (e.survey place).relationDefects limit r) :
    d.cause.isTooDeep = false := by
  obtain ⟨met, hreach⟩ := Walk.survey_reachable e place
  exact not_tooDeep_of_entries (hreach.length_entries_le.trans h) hd

end Element

end Statechart
