import Statechart.Proofs.Survey.Order
import Statechart.Proofs.Survey.Walk

/-! What is known of a walk at any moment: where its encounters came from, which elements were
recorded, what became of an encounter whose ID was taken, and which tasks remain. At the end of the
walk no task remains, so every part of a recorded element was linked and met. -/

namespace Statechart

namespace Survey

/-- The walk went on to the parts of the element. -/
def Entered (s : Survey) (x : Encounter) : Prop := x.element.HasId → x ∈ s.entries

/-- The edge from an element to a part is there, if both have an ID. -/
def Linked (s : Survey) (x : Encounter) (p : Part) : Prop :=
  x.element.HasId → p.element.HasId → (x.id, p.element.id) ∈ s.edges p.role.relation

/-- An element was reported as a duplicate with this ID. -/
def Refuses (s : Survey) (id : String) : Prop :=
  ∃ d ∈ s.defects, ∃ type place, d.cause = .duplicateId id type place

/-- Why an encounter needs no entry of its own besides the first one with its ID. -/
def Accounts (s : Survey) (first x : Encounter) : Prop :=
  first = x ∨ first.origin = x.origin ∨ first.isSamePoint x = true ∨ first.isListing x = true ∨
    s.Refuses x.id

end Survey

namespace Walk

structure Grows (v w : Walk) : Prop where
  met : v.met ⊆ w.met
  entries : v.survey.entries ⊆ w.survey.entries
  edges : ∀ r, v.survey.edges r ⊆ w.survey.edges r
  defects : v.survey.defects ⊆ w.survey.defects

/-- Where an encounter came from: it is the start, or a part of an element that was entered. -/
def Arrived (e : Element) (place : Locator) (w : Walk) (x : Encounter) : Prop :=
  x = .ofRoot e place ∨ ∃ y ∈ w.met, ∃ p ∈ y.element.parts,
    x = y.part p ∧ w.survey.Entered y ∧ w.survey.Linked y p

def Ready (e : Element) (place : Locator) (w : Walk) : Task → Prop
  | .visit x => w.Arrived e place x
  | .follow x p => x ∈ w.met ∧ w.survey.Entered x ∧ p ∈ x.element.parts
  | .settle x => x ∈ w.met ∧ w.survey.Entered x

variable {e : Element} {place : Locator} {v w : Walk}

theorem subset_defects_meet (s : Survey) (x : Encounter) : s.defects ⊆ (s.meet x).defects := by
  rcases s.meet_cases x with ⟨-, h⟩ | ⟨-, -, h⟩ | ⟨first, -, -, h⟩ <;> rw [h]
  · exact List.subset_append_left _ _
  · exact List.Subset.refl _
  · rcases s.repeated_cases first x with ⟨-, h⟩ | ⟨-, -, h⟩ | ⟨v, -, -, h⟩ | ⟨-, h⟩ <;> rw [h]
    · exact List.Subset.refl _
    · exact List.Subset.refl _
    · exact List.Subset.refl _
    · simp [Survey.report]

theorem Step.grows (h : Step v w) : Grows v w := by
  have meet (s : Survey) (x : Encounter) (met : List Encounter) (a b : List Task) :
      Grows ⟨a, met, s⟩ ⟨b, met ++ [x], s.meet x⟩ :=
    ⟨List.subset_append_left _ _, fun y hy => Survey.mem_entries_meet.2 (.inl hy),
      fun r => by simp, subset_defects_meet s x⟩
  cases h with
  | pass h => exact meet _ _ _ _ _
  | enter h => exact meet _ _ _ _ _
  | follow =>
    exact ⟨List.Subset.refl _, by simp, fun r d hd => Survey.mem_edges_link.2 (.inl hd), by simp⟩
  | settle => exact ⟨List.Subset.refl _, by simp, fun r => by simp, by simp⟩

theorem Grows.entered (h : Grows v w) {x : Encounter} (hx : v.survey.Entered x) :
    w.survey.Entered x := fun hid => h.entries (hx hid)

theorem Grows.linked (h : Grows v w) {x : Encounter} {p : Part} (hx : v.survey.Linked x p) :
    w.survey.Linked x p := fun hid hp => h.edges _ (hx hid hp)

theorem Grows.refuses (h : Grows v w) {id : String} (hid : v.survey.Refuses id) :
    w.survey.Refuses id := by
  obtain ⟨d, hd, hcause⟩ := hid
  exact ⟨d, h.defects hd, hcause⟩

theorem Grows.accounts (h : Grows v w) {first x : Encounter} (hx : v.survey.Accounts first x) :
    w.survey.Accounts first x := by
  rcases hx with hx | hx | hx | hx | hx
  · exact .inl hx
  · exact .inr (.inl hx)
  · exact .inr (.inr (.inl hx))
  · exact .inr (.inr (.inr (.inl hx)))
  · exact .inr (.inr (.inr (.inr (h.refuses hx))))

theorem Grows.arrived (h : Grows v w) {x : Encounter} (hx : v.Arrived e place x) :
    w.Arrived e place x := by
  rcases hx with rfl | ⟨y, hy, p, hp, rfl, hentered, hlinked⟩
  · exact .inl rfl
  · exact .inr ⟨y, h.met hy, p, hp, rfl, h.entered hentered, h.linked hlinked⟩

theorem Grows.ready (h : Grows v w) {t : Task} (ht : v.Ready e place t) : w.Ready e place t := by
  cases t with
  | visit x => exact h.arrived ht
  | follow x p => exact ⟨h.met ht.1, h.entered ht.2.1, ht.2.2⟩
  | settle x => exact ⟨h.met ht.1, h.entered ht.2⟩

theorem entered_meet {s : Survey} {x : Encounter} (h : s.enters x = true) :
    (s.meet x).Entered x :=
  fun hid => Survey.mem_entries_meet.2 (.inr ⟨rfl, hid, Survey.enters_iff.1 h hid⟩)

theorem linked_link (s : Survey) (x : Encounter) (p : Part) : (s.link x p).Linked x p :=
  fun hx hp => Survey.mem_edges_link.2 (.inr ⟨rfl, hx, hp, rfl⟩)

/-- Each task on the agenda has its reason, and each encounter has one. -/
theorem Reachable.ready (h : Reachable e place w) :
    (∀ t ∈ w.agenda, w.Ready e place t) ∧ ∀ x ∈ w.met, w.Arrived e place x := by
  induction h with
  | refl =>
    refine ⟨?_, fun x hx => by cases hx⟩
    intro t ht
    obtain rfl := List.mem_singleton.1 ht
    exact .inl rfl
  | tail hreach hstep ih =>
    obtain ⟨htasks, hmet⟩ := ih
    have hgrows := hstep.grows
    cases hstep with
    | @pass x rest met s hpass =>
      refine ⟨fun t ht => hgrows.ready (htasks t (.tail _ ht)), ?_⟩
      intro y hy
      rcases List.mem_append.1 hy with hy | hy
      · exact hgrows.arrived (hmet y hy)
      · obtain rfl := List.mem_singleton.1 hy
        exact hgrows.arrived (htasks (.visit _) (.head _))
    | @enter x rest met s henter =>
      have hx : x ∈ met ++ [x] := by simp
      have hentered : (s.meet x).Entered x := entered_meet henter
      constructor
      · intro t ht
        rcases List.mem_append.1 ht with ht | ht
        · rcases List.mem_append.1 ht with ht | ht
          · obtain ⟨p, hp, rfl⟩ := List.mem_map.1 ht
            exact ⟨hx, hentered, hp⟩
          · obtain rfl := List.mem_singleton.1 ht
            exact ⟨hx, hentered⟩
        · exact hgrows.ready (htasks t (.tail _ ht))
      · intro y hy
        rcases List.mem_append.1 hy with hy | hy
        · exact hgrows.arrived (hmet y hy)
        · obtain rfl := List.mem_singleton.1 hy
          exact hgrows.arrived (htasks (.visit _) (.head _))
    | @follow x p rest met s =>
      obtain ⟨hx, hentered, hp⟩ : x ∈ met ∧ s.Entered x ∧ p ∈ x.element.parts :=
        htasks (.follow x p) (.head _)
      refine ⟨?_, fun y hy => hgrows.arrived (hmet y hy)⟩
      intro t ht
      rcases List.mem_cons.1 ht with rfl | ht
      · exact .inr ⟨x, hx, p, hp, rfl, hgrows.entered hentered, linked_link s x p⟩
      · exact hgrows.ready (htasks t (.tail _ ht))
    | settle =>
      exact ⟨fun t ht => hgrows.ready (htasks t (.tail _ ht)),
        fun y hy => hgrows.arrived (hmet y hy)⟩

theorem Reachable.entries (h : Reachable e place w) :
    (∀ x ∈ w.survey.entries, x.element.HasId) ∧ (w.survey.entries.map (·.id)).Nodup := by
  refine h.survey_induction (P := fun s => (∀ x ∈ s.entries, x.element.HasId) ∧
    (s.entries.map (·.id)).Nodup) ⟨by simp, .nil⟩ ?_ (by simp) (by simp)
  intro x rest met s _ ⟨hids, hne⟩
  rcases s.meet_cases x with ⟨-, h⟩ | ⟨hid, hnew, h⟩ | ⟨first, -, -, h⟩ <;> rw [h]
  · exact ⟨hids, hne⟩
  · constructor
    · intro y hy
      rcases List.mem_append.1 hy with hy | hy
      · exact hids y hy
      · rwa [List.mem_singleton.1 hy]
    · rw [List.map_append, List.nodup_append']
      refine ⟨hne, List.nodup_singleton _, ?_⟩
      intro id hmem hx
      obtain ⟨y, hy, rfl⟩ := List.mem_map.1 hmem
      exact Survey.entry?_eq_none.1 hnew y hy (List.mem_singleton.1 hx)
  · rw [(s.repeated_frame first x).1]
    exact ⟨hids, hne⟩

theorem Reachable.eq_of_id_eq (h : Reachable e place w) {x y : Encounter}
    (hx : x ∈ w.survey.entries) (hy : y ∈ w.survey.entries) (hid : x.id = y.id) : x = y :=
  List.inj_on_of_nodup_map h.entries.2 hx hy hid

theorem Reachable.entry?_eq_some (h : Reachable e place w) {x : Encounter}
    (hx : x ∈ w.survey.entries) : w.survey.entry? x.id = some x := by
  obtain ⟨y, hy⟩ := Option.isSome_iff_exists.1 (Survey.entry?_isSome.2 ⟨x, hx, rfl⟩)
  obtain ⟨hmem, hid⟩ := Survey.entry?_eq_some hy
  rw [hy, h.eq_of_id_eq hmem hx hid]

theorem Reachable.entries_subset (h : Reachable e place w) : w.survey.entries ⊆ w.met := by
  induction h with
  | refl => exact List.nil_subset _
  | tail hreach hstep ih =>
    have meet {s : Survey} {x : Encounter} {met : List Encounter} (hs : s.entries ⊆ met) :
        (s.meet x).entries ⊆ met ++ [x] := by
      intro y hy
      rcases Survey.mem_entries_meet.1 hy with hy | ⟨rfl, -⟩
      · exact List.mem_append_left _ (hs hy)
      · simp
    cases hstep with
    | pass h => exact meet ih
    | enter h => exact meet ih
    | follow => simpa using ih
    | settle => simpa using ih

theorem Reachable.edges (h : Reachable e place w) {r : Relation} {d : String × String}
    (hd : d ∈ w.survey.edges r) :
    ∃ x ∈ w.survey.entries, ∃ p ∈ x.element.parts,
      p.role.relation = r ∧ p.element.HasId ∧ d = (x.id, p.element.id) := by
  revert hd
  refine h.survey_induction (P := fun s => d ∈ s.edges r → ∃ x ∈ s.entries,
    ∃ p ∈ x.element.parts, p.role.relation = r ∧ p.element.HasId ∧ d = (x.id, p.element.id))
    ?_ ?_ ?_ (by simp)
  · intro hd; cases r <;> cases hd
  · intro x rest met s _ ih hd
    obtain ⟨y, hy, hp⟩ := ih (by simpa using hd)
    exact ⟨y, Survey.mem_entries_meet.2 (.inl hy), hp⟩
  · intro x p rest met s hreach ih hd
    rw [Survey.entries_link]
    rcases Survey.mem_edges_link.1 hd with hd | ⟨hr, hx, hp, rfl⟩
    · exact ih hd
    · obtain ⟨-, hentered, hpart⟩ := hreach.ready.1 (.follow x p) (.head _)
      exact ⟨x, hentered hx, p, hpart, hr.symm, hp, rfl⟩

/-- A part of an element that was entered is yet to be followed, or was linked and is met or about
to be. -/
theorem Reachable.covered (h : Reachable e place w) {x : Encounter} (hx : x ∈ w.met)
    (hentered : w.survey.Entered x) {p : Part} (hp : p ∈ x.element.parts) :
    .follow x p ∈ w.agenda ∨
      w.survey.Linked x p ∧ (x.part p ∈ w.met ∨ .visit (x.part p) ∈ w.agenda) := by
  induction h with
  | refl => cases hx
  | tail hreach hstep ih =>
    have hgrows := hstep.grows
    cases hstep with
    | @pass y rest met s hpass =>
      have hold : x.element.HasId → x ∈ s.entries := by
        intro hid
        rcases Survey.mem_entries_meet.1 (hentered hid) with hx | ⟨rfl, hid, hnew⟩
        · exact hx
        · rw [Survey.enters_iff.2 fun _ => hnew] at hpass
          cases hpass
      have hmet : x ∈ met := by
        rcases List.mem_append.1 hx with hx | hx
        · exact hx
        · obtain rfl := List.mem_singleton.1 hx
          -- an element that is passed over has an ID, so it was entered when it was met before
          have hid : x.element.HasId := by
            by_contra hblank
            rw [Survey.enters_iff.2 fun hid => absurd hid hblank] at hpass
            cases hpass
          exact Reachable.entries_subset hreach (hold hid)
      rcases ih hmet hold with hmem | ⟨hlinked, hmem | hmem⟩
      · exact .inl (by simpa using hmem)
      · exact .inr ⟨hgrows.linked hlinked, .inl (hgrows.met hmem)⟩
      · refine .inr ⟨hgrows.linked hlinked, ?_⟩
        rcases List.mem_cons.1 hmem with heq | hmem
        · cases heq; exact .inl (by simp)
        · exact .inr hmem
    | @enter y rest met s henter =>
      by_cases hxy : x = y
      · subst hxy
        exact .inl (List.mem_append_left _ (List.mem_append_left _ (List.mem_map_of_mem hp)))
      · have hmet : x ∈ met := by simpa [hxy] using hx
        have hold : x.element.HasId → x ∈ s.entries := by
          intro hid
          rcases Survey.mem_entries_meet.1 (hentered hid) with hx | ⟨heq, -⟩
          · exact hx
          · exact absurd heq hxy
        rcases ih hmet hold with hmem | ⟨hlinked, hmem | hmem⟩
        · exact .inl (List.mem_append_right _ (by simpa using hmem))
        · exact .inr ⟨hgrows.linked hlinked, .inl (hgrows.met hmem)⟩
        · refine .inr ⟨hgrows.linked hlinked, ?_⟩
          rcases List.mem_cons.1 hmem with heq | hmem
          · cases heq; exact .inl (by simp)
          · exact .inr (List.mem_append_right _ hmem)
    | @follow y q rest met s =>
      rcases ih hx (by simpa [Survey.Entered] using hentered) with hmem | ⟨hlinked, hmem | hmem⟩
      · rcases List.mem_cons.1 hmem with heq | hmem
        · cases heq
          exact .inr ⟨linked_link s x p, .inr (.head _)⟩
        · exact .inl (.tail _ hmem)
      · exact .inr ⟨hgrows.linked hlinked, .inl hmem⟩
      · exact .inr ⟨hgrows.linked hlinked, .inr (List.mem_cons_of_mem _ (by simpa using hmem))⟩
    | @settle y rest met s =>
      rcases ih hx (by simpa [Survey.Entered] using hentered) with hmem | ⟨hlinked, hmem | hmem⟩
      · exact .inl (by simpa using hmem)
      · exact .inr ⟨hgrows.linked hlinked, .inl hmem⟩
      · exact .inr ⟨hgrows.linked hlinked, .inr (by simpa using hmem)⟩

theorem Reachable.part_met (h : Reachable e place w) (hdone : w.agenda = []) {x : Encounter}
    (hx : x ∈ w.met) (hentered : w.survey.Entered x) {p : Part} (hp : p ∈ x.element.parts) :
    x.part p ∈ w.met := by
  have hcovered := h.covered hx hentered hp
  rw [hdone] at hcovered
  simpa using (hcovered.resolve_left (List.not_mem_nil)).2

/-- When nothing is left to do, every part of a recorded element was linked and met. -/
theorem Reachable.parts_met (h : Reachable e place w) (hdone : w.agenda = []) {x : Encounter}
    (hx : x ∈ w.survey.entries) {p : Part} (hp : p ∈ x.element.parts) :
    w.survey.Linked x p ∧ x.part p ∈ w.met := by
  have := h.covered (h.entries_subset hx) (fun _ => hx) hp
  rw [hdone] at this
  simpa using this

theorem Run.met_subset (h : Run v w) : v.met ⊆ w.met := by
  induction h with
  | refl => exact List.Subset.refl _
  | tail _ hstep ih => exact List.Subset.trans ih hstep.grows.met

theorem Reachable.root_met (h : Reachable e place w) (hdone : w.agenda = []) :
    .ofRoot e place ∈ w.met := by
  rcases Relation.ReflTransGen.cases_head h with rfl | ⟨v, hstep, hrun⟩
  · cases hdone
  · apply Run.met_subset hrun
    cases hstep <;> simp

/-- An encounter whose owner is known is a part of the entry for that owner. -/
theorem Reachable.part_of_owner (h : Reachable e place w) {x y : Encounter}
    (hx : w.Arrived e place x) (hy : y ∈ w.survey.entries) (howner : x.owner = some y.id) :
    ∃ p ∈ y.element.parts, x = y.part p := by
  rcases hx with rfl | ⟨z, -, p, hp, rfl, hentered, -⟩
  · cases howner
  · obtain ⟨hid, hzid⟩ := Encounter.knownId?_eq_some.1 howner
    obtain rfl := h.eq_of_id_eq (hentered hid) hy hzid
    exact ⟨p, hp, rfl⟩

/-- The encounters and what the agenda comes to are in the order of the whole tree. -/
theorem Reachable.sublist (h : Reachable e place w) :
    (w.met ++ w.agenda.flatMap Task.tree).Sublist (Encounter.ofRoot e place).tree := by
  induction h with
  | refl => simp [start, Task.tree]
  | tail hreach hstep ih =>
    -- a step leaves out what lies below an element passed over, and keeps the order of the rest
    refine List.Sublist.trans ?_ ih
    cases hstep with
    | @pass x rest met s hpass =>
      rw [List.flatMap_cons, Task.tree, Encounter.tree_eq, List.append_assoc]
      refine (List.Sublist.refl met).append ?_
      exact (List.Sublist.refl [x]).append (List.sublist_append_right _ _)
    | @enter x rest met s henter =>
      rw [List.flatMap_cons, Task.tree, Encounter.tree_eq, List.flatMap_append,
        Encounter.flatMap_tasks]
      simp
    | follow => simp [Task.tree]
    | settle => simp [Task.tree]

theorem Reachable.met_subset (h : Reachable e place w) :
    w.met ⊆ (Encounter.ofRoot e place).tree :=
  fun _ hx => h.sublist.subset (List.mem_append_left _ hx)

/-- What is visited next comes later in the tree than all that was met. -/
theorem Reachable.precedes {x y : Encounter} {rest : List Task} {met : List Encounter} {s : Survey}
    (h : Reachable e place ⟨.visit x :: rest, met, s⟩) (hy : y ∈ met) :
    [y, x].Sublist (Encounter.ofRoot e place).tree := by
  refine List.Sublist.trans ?_ h.sublist
  rw [List.flatMap_cons, Task.tree, Encounter.tree_eq, List.cons_append]
  have hx : [x].Sublist (x :: (x.element.parts.flatMap (fun p => (x.part p).tree) ++
      rest.flatMap Task.tree)) := List.singleton_sublist.2 (.head _)
  exact (List.singleton_sublist.2 hy).append hx

theorem Reachable.not_met {x : Encounter} {rest : List Task} {met : List Encounter} {s : Survey}
    (h : Reachable e place ⟨.visit x :: rest, met, s⟩) : x ∉ met := fun hx =>
  List.nodup_iff_sublist.1 (Encounter.nodup_tree _) x (h.precedes hx)

theorem Reachable.next_mem {x : Encounter} {rest : List Task} {met : List Encounter} {s : Survey}
    (h : Reachable e place ⟨.visit x :: rest, met, s⟩) :
    x ∈ (Encounter.ofRoot e place).tree := by
  apply h.sublist.subset
  rw [List.flatMap_cons, Task.tree, Encounter.tree_eq]
  simp

theorem refuses_report (s : Survey) (x : Encounter) (id : String) (type : EntityType)
    (place : Locator) : (s.report x (.duplicateId id type place)).Refuses id :=
  ⟨_, List.mem_append_right _ (.head _), type, place, rfl⟩

/-- The shape of each refused state belongs to an ID that was reported as a duplicate. -/
theorem Reachable.refused (h : Reachable e place w) :
    ∀ o ∈ w.survey.refused, w.survey.Refuses o.2.id := by
  refine h.survey_induction (P := fun s => ∀ o ∈ s.refused, s.Refuses o.2.id) (by simp) ?_
    (by simp [Survey.Refuses]) (by simp [Survey.Refuses])
  intro x rest met s _ ih o ho
  have hkeep {id} (h : s.Refuses id) : (s.meet x).Refuses id := by
    obtain ⟨d, hd, hcause⟩ := h
    exact ⟨d, subset_defects_meet s x hd, hcause⟩
  rcases s.meet_cases x with ⟨-, h⟩ | ⟨-, -, h⟩ | ⟨first, -, -, h⟩
  · rw [h] at ho; exact hkeep (ih o ho)
  · rw [h] at ho; exact hkeep (ih o ho)
  · rcases s.repeated_cases first x with ⟨-, h'⟩ | ⟨-, -, h'⟩ | ⟨v, -, -, h'⟩ | ⟨-, h'⟩ <;>
      rw [h, h'] at ho
    · exact hkeep (ih o ho)
    · exact hkeep (ih o ho)
    · exact hkeep (ih o (List.mem_of_mem_erase ho))
    · rcases Survey.mem_refused_refuse.1 ho with ho | ⟨state, hstate, rfl⟩
      · exact hkeep (ih o ho)
      · have hid : x.id = state.id := congrArg Element.id hstate
        rw [h, h', ← hid]
        exact refuses_report _ x _ _ _

theorem accounts_meet {s : Survey} {x : Encounter} (hid : x.element.HasId)
    (hrefused : ∀ o ∈ s.refused, s.Refuses o.2.id) :
    ∃ first ∈ (s.meet x).entries, first.id = x.id ∧ (s.meet x).Accounts first x := by
  rcases s.meet_cases x with ⟨hblank, -⟩ | ⟨-, hnew, -⟩ | ⟨first, -, hfirst, h⟩
  · exact absurd hid hblank
  · exact ⟨x, Survey.mem_entries_meet.2 (.inr ⟨rfl, hid, hnew⟩), rfl, .inl rfl⟩
  · obtain ⟨hmem, hfid⟩ := Survey.entry?_eq_some hfirst
    refine ⟨first, Survey.mem_entries_meet.2 (.inl hmem), hfid, ?_⟩
    rcases s.repeated_cases first x with ⟨hsame, -⟩ | ⟨hlisting, -, -⟩ | ⟨v, hv, hmem, -⟩ | ⟨-, h'⟩
    · rcases hsame with hsame | hsame
      · exact .inr (.inl hsame)
      · exact .inr (.inr (.inl hsame))
    · exact .inr (.inr (.inr (.inl hlisting)))
    · -- the state with this shape was refused under the ID of the vertex
      have hvid : x.id = v.id := congrArg Element.id hv
      obtain ⟨d, hd, hcause⟩ := hrefused _ hmem
      exact .inr (.inr (.inr (.inr ⟨d, subset_defects_meet s x hd, hvid ▸ hcause⟩)))
    · rw [h, h']
      exact .inr (.inr (.inr (.inr (refuses_report _ x _ _ _))))

/-- Every encounter with an ID is accounted for by the first one with that ID. -/
theorem Reachable.accounted (h : Reachable e place w) {x : Encounter} (hx : x ∈ w.met)
    (hid : x.element.HasId) :
    ∃ first ∈ w.survey.entries, first.id = x.id ∧ w.survey.Accounts first x := by
  induction h with
  | refl => cases hx
  | tail hreach hstep ih =>
    have hgrows := hstep.grows
    have hkeep {v w : Walk} (hgrows : Grows v w) (hx : ∃ first ∈ v.survey.entries,
        first.id = x.id ∧ v.survey.Accounts first x) :
        ∃ first ∈ w.survey.entries, first.id = x.id ∧ w.survey.Accounts first x := by
      obtain ⟨first, hfirst, hfid, haccounts⟩ := hx
      exact ⟨first, hgrows.entries hfirst, hfid, hgrows.accounts haccounts⟩
    cases hstep with
    | @pass y rest met s hpass =>
      rcases List.mem_append.1 hx with hx | hx
      · exact hkeep hgrows (ih hx)
      · obtain rfl := List.mem_singleton.1 hx
        exact accounts_meet hid (Reachable.refused hreach)
    | @enter y rest met s henter =>
      rcases List.mem_append.1 hx with hx | hx
      · exact hkeep hgrows (ih hx)
      · obtain rfl := List.mem_singleton.1 hx
        exact accounts_meet hid (Reachable.refused hreach)
    | follow => exact hkeep hgrows (ih hx)
    | settle => exact hkeep hgrows (ih hx)

/-- A reference is one from an element to a part, or one that the element has by itself. -/
theorem Reachable.references (h : Reachable e place w) :
    ∀ r ∈ w.survey.references, ∃ x ∈ w.met, r ∈ x.ownReferences ∨
      ∃ p ∈ x.element.parts, r = ⟨x.type, p.step.text, some p.element.id, x.place⟩ := by
  induction h with
  | refl => exact nofun
  | tail hreach hstep ih =>
    intro r hr
    have hkeep {r : Reference} {met : List Encounter} (y : Encounter)
        (h : ∃ x ∈ met, r ∈ x.ownReferences ∨
          ∃ p ∈ x.element.parts, r = ⟨x.type, p.step.text, some p.element.id, x.place⟩) :
        ∃ x ∈ met ++ [y], r ∈ x.ownReferences ∨
          ∃ p ∈ x.element.parts, r = ⟨x.type, p.step.text, some p.element.id, x.place⟩ := by
      obtain ⟨x, hx, h⟩ := h
      exact ⟨x, List.mem_append_left _ hx, h⟩
    cases hstep with
    | pass => exact hkeep _ (ih r (by simpa using hr))
    | enter => exact hkeep _ (ih r (by simpa using hr))
    | @follow x p rest met s =>
      obtain ⟨hx, -, hp⟩ := (Reachable.ready hreach).1 (.follow x p) (.head _)
      rcases Survey.mem_references_link.1 hr with hr | ⟨-, -, rfl⟩
      · exact ih r hr
      · exact ⟨x, hx, .inr ⟨p, hp, rfl⟩⟩
    | @settle x rest met s =>
      obtain ⟨hx, -⟩ := (Reachable.ready hreach).1 (.settle x) (.head _)
      rw [Survey.references_settle] at hr
      rcases List.mem_append.1 hr with hr | hr
      · exact ih r hr
      · exact ⟨x, hx, .inl hr⟩

/-- The entry for an ID is the first encounter with that ID. -/
theorem Reachable.first_precedes (h : Reachable e place w) {x first : Encounter} (hx : x ∈ w.met)
    (hfirst : first ∈ w.survey.entries) (hid : first.id = x.id) :
    first = x ∨ [first, x].Sublist (Encounter.ofRoot e place).tree := by
  induction h with
  | refl => cases hx
  | tail hreach hstep ih =>
    have meet {y : Encounter} {rest : List Task} {met : List Encounter} {s : Survey}
        (hreach : Reachable e place ⟨.visit y :: rest, met, s⟩)
        (ih : x ∈ met → first ∈ s.entries →
          first = x ∨ [first, x].Sublist (Encounter.ofRoot e place).tree)
        (hx : x ∈ met ++ [y]) (hfirst : first ∈ (s.meet y).entries) :
        first = x ∨ [first, x].Sublist (Encounter.ofRoot e place).tree := by
      rcases Survey.mem_entries_meet.1 hfirst with hold | ⟨rfl, hfid, hnew⟩ <;>
        rcases List.mem_append.1 hx with hmet | hlast
      · exact ih hmet hold
      · obtain rfl := List.mem_singleton.1 hlast
        exact .inr (hreach.precedes (hreach.entries_subset hold))
      · -- the earlier encounter has left an entry with this ID
        obtain ⟨z, hz, hzid, -⟩ := hreach.accounted hmet ((Encounter.hasId_congr hid).1 hfid)
        exact absurd (hzid.trans hid.symm) (Survey.entry?_eq_none.1 hnew z hz)
      · exact .inl (List.mem_singleton.1 hlast).symm
    cases hstep with
    | pass h => exact meet hreach ih hx hfirst
    | enter h => exact meet hreach ih hx hfirst
    | follow => exact ih hx (by simpa using hfirst)
    | settle => exact ih hx (by simpa using hfirst)

end Walk

end Statechart
