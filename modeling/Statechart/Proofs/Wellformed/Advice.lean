import Statechart.Proofs.Agreement.Own
import Statechart.Proofs.Wellformed.Clean
import Statechart.Validation

/-! Advice. When it is asked for, each region of a machine may add findings of its own, in the midst
of all others; nothing else changes. -/

namespace Statechart

/-- The last list consists of the other two, each of them in its order. -/
inductive Weave {α : Type} : List α → List α → List α → Prop where
  | nil : Weave [] [] []
  | left {x : α} {l a w : List α} (h : Weave l a w) : Weave (x :: l) a (x :: w)
  | right {x : α} {l a w : List α} (h : Weave l a w) : Weave l (x :: a) (x :: w)

namespace Weave

variable {α β : Type} {l l' a a' w w' : List α}

theorem refl : (l : List α) → Weave l [] l
  | [] => .nil
  | _ :: l => .left (refl l)

theorem only : (a : List α) → Weave [] a a
  | [] => .nil
  | _ :: a => .right (only a)

theorem prepend (h : Weave l a w) : (m : List α) → Weave (m ++ l) a (m ++ w)
  | [] => h
  | _ :: m => .left (h.prepend m)

theorem append (h : Weave l a w) (h' : Weave l' a' w') :
    Weave (l ++ l') (a ++ a') (w ++ w') := by
  induction h with
  | nil => exact h'
  | left _ ih => exact .left ih
  | right _ ih => exact .right ih

theorem push (h : Weave l a w) (m : List α) : Weave (l ++ m) a (w ++ m) := by
  simpa using h.append (refl m)

theorem flatMap {f g k : β → List α} {m : List β} (h : ∀ x ∈ m, Weave (f x) (g x) (k x)) :
    Weave (m.flatMap f) (m.flatMap g) (m.flatMap k) := by
  induction m with
  | nil => exact .nil
  | cons x m ih =>
    simp only [List.flatMap_cons]
    exact (h x (.head _)).append (ih fun y hy => h y (.tail _ hy))

theorem map (f : α → β) (h : Weave l a w) : Weave (l.map f) (a.map f) (w.map f) := by
  induction h with
  | nil => exact .nil
  | left _ ih => exact .left ih
  | right _ ih => exact .right ih

theorem sublist (h : Weave l a w) : l.Sublist w := by
  induction h with
  | nil => exact .slnil
  | left _ ih => exact ih.cons_cons _
  | right _ ih => exact ih.cons _

theorem perm (h : Weave l a w) : w.Perm (l ++ a) := by
  induction h with
  | nil => exact .nil
  | left _ ih => exact ih.cons _
  | right _ ih => exact (ih.cons _).trans List.perm_middle.symm

end Weave

/-! ### The regions of a machine itself -/

/-- The regions met from an encounter on, with their places, but for those below a machine that a
state stands for. -/
def Encounter.ownRegions (x : Encounter) : List (Locator × Region) :=
  (x.tree.filter (·.place.IsOwn)).filterMap fun y =>
    match y.element with
    | .region r => some (y.place, r)
    | _ => none

def StateMachine.ownRegions (m : StateMachine) : List (Locator × Region) :=
  (Encounter.ofRoot (.stateMachine m) []).ownRegions

theorem Part.flatMap_ofList {α γ : Type} (role : Role) (field : String) (element : α → Element)
    (l : List α) (f : Part → List γ) :
    (ofList role field element l).flatMap f =
      l.zipIdx.flatMap fun a => f ⟨role, .item field a.2, element a.1⟩ := by
  rw [ofList, List.flatMap_map]

namespace Encounter

variable {x : Encounter}

theorem ownRegions_of_not_own (h : ¬ x.place.IsOwn) : x.ownRegions = [] := by
  rw [ownRegions, filter_own_tree_eq_nil h, List.filterMap_nil]

/-- The regions of an element are those of its parts, after itself if it is one. -/
theorem ownRegions_eq (h : x.place.IsOwn) :
    x.ownRegions =
      (match x.element with
        | .region r => [(x.place, r)]
        | _ => []) ++ x.element.parts.flatMap fun p => (x.part p).ownRegions := by
  rw [ownRegions, tree_eq, List.filter_cons_of_pos (p := fun y : Encounter => decide y.place.IsOwn)
    (decide_eq_true h), List.filterMap_cons, List.filter_flatMap, List.filterMap_flatMap]
  cases x.element <;> rfl

theorem ownRegions_eq_parts (h : x.place.IsOwn) (htype : x.type ≠ .region) :
    x.ownRegions = x.element.parts.flatMap fun p => (x.part p).ownRegions := by
  rw [ownRegions_eq h]
  unfold type at htype
  cases hx : x.element <;> rw [hx] at htype <;> first | rfl | exact absurd rfl htype

/-- Only machines, regions and states have regions below them. -/
theorem ownRegions_eq_nil (h : x.type ∉ [EntityType.stateMachine, .region, .state]) :
    x.ownRegions = [] := by
  have htypes : ∀ y ∈ x.tree, y.type ∉ [EntityType.stateMachine, .region, .state] := by
    refine tree_induction h ?_
    intro y _ hy p hp
    cases helement : y.element with
    | connectionPointReference c =>
      have hpoint : ∃ q, p.element = .pseudostate q := by
        rw [helement] at hp
        rcases Element.mem_parts_connectionPointReference.1 hp with hp | hp
        all_goals exact (Part.exists_of_mem_ofList hp).imp fun _ h => h.2
      obtain ⟨q, hq⟩ := hpoint
      simp [type, part, hq, Element.type]
    | stateMachine | region | state =>
      rw [type, helement] at hy
      exact absurd hy (by simp [Element.type])
    | _ => rw [helement] at hp; cases hp
  rw [ownRegions, List.filterMap_eq_nil_iff]
  intro y hy
  have htype := htypes y (List.mem_of_mem_filter hy)
  cases helement : y.element with
  | region r =>
    rw [type, helement] at htype
    exact absurd htype (by simp [Element.type])
  | _ => rfl

/-- Members without regions add none. -/
theorem flatMap_ownRegions_ofList_eq_nil {α : Type} (x : Encounter) (role : Role) (field : String)
    (element : α → Element) (l : List α)
    (h : ∀ a, (element a).type ∉ [EntityType.stateMachine, .region, .state]) :
    ((Part.ofList role field element l).flatMap fun p => (x.part p).ownRegions) = [] := by
  rw [List.flatMap_eq_nil_iff]
  intro p hp
  obtain ⟨i, hi, rfl⟩ := Part.mem_ofList.1 hp
  exact ownRegions_eq_nil (h _)

theorem ownRegions_stateMachine {m : StateMachine} (h : x.place.IsOwn)
    (hx : x.element = .stateMachine m) :
    x.ownRegions =
      m.regions.zipIdx.flatMap fun r =>
        (x.part ⟨.member, .item "Regions" r.2, .region r.1⟩).ownRegions := by
  rw [ownRegions_eq_parts h (by simp [type, hx, Element.type]), hx, Element.parts,
    List.flatMap_append, Part.flatMap_ofList,
    flatMap_ownRegions_ofList_eq_nil x _ _ Element.pseudostate _ (by simp [Element.type]),
    List.append_nil]

theorem ownRegions_region {r : Region} (h : x.place.IsOwn) (hx : x.element = .region r) :
    x.ownRegions =
      (x.place, r) :: r.states.zipIdx.flatMap fun s =>
        (x.part ⟨.member, .item "States" s.2, .state s.1⟩).ownRegions := by
  have hvertices (v : RegionVertex) :
      v.element.type ∉ [EntityType.stateMachine, .region, .state] := by
    cases v <;> simp [RegionVertex.element, Element.type]
  rw [ownRegions_eq h, hx, Element.parts, List.flatMap_append, List.flatMap_append,
    Part.flatMap_ofList,
    flatMap_ownRegions_ofList_eq_nil x _ _ RegionVertex.element _ hvertices,
    flatMap_ownRegions_ofList_eq_nil x _ _ Element.transition _ (by simp [Element.type]),
    List.append_nil, List.append_nil]
  rfl

theorem ownRegions_state {s : State} (h : x.place.IsOwn) (hx : x.element = .state s) :
    x.ownRegions =
      s.regions.zipIdx.flatMap fun r =>
        (x.part ⟨.member, .item "Regions" r.2, .region r.1⟩).ownRegions := by
  have hsubmachine : ((s.submachine.toList.map fun m =>
      (⟨.submachine, .field "Submachine", .stateMachine m⟩ : Part)).flatMap fun p =>
        (x.part p).ownRegions) = [] := by
    rw [List.flatMap_eq_nil_iff]
    intro p hp
    obtain ⟨m, -, rfl⟩ := List.mem_map.1 hp
    exact ownRegions_of_not_own fun hown => (Locator.isOwn_snoc.1 hown).2 rfl
  rw [ownRegions_eq_parts h (by simp [type, hx, Element.type]), hx, Element.parts,
    List.flatMap_append, List.flatMap_append, hsubmachine, Part.flatMap_ofList,
    flatMap_ownRegions_ofList_eq_nil x _ _ Element.connectionPointReference _
      (by simp [Element.type]), List.append_nil, List.append_nil]

end Encounter

/-! ### Advice on regions -/

/-- The kinds that are seldom wanted twice and that more than one vertex has. -/
def Region.advisedKinds (r : Region) : List PseudostateKind :=
  [PseudostateKind.deepHistory, .terminate].filter fun kind =>
    1 < r.vertices.countP (·.isOfKind kind)

/-- The advice on a region that stands at a place. -/
def Region.advice (r : Region) (place : Locator) : Breaches :=
  r.advisedKinds.map fun kind =>
    ⟨.region, place, .severalAdvised r.id kind (r.pseudostateIndices kind)⟩

/-- The surroundings with advice. -/
def Context.advised (c : Context) : Context :=
  { c with options := { c.options with bestPractices := true } }

namespace Region

theorem findings_advice (r : Region) (place : Locator) :
    (r.advice place).map (·.finding) = r.advisedKinds.map fun kind =>
      { kind := .multiplicity
        type := .region
        field := "Vertices"
        message := (Breach.severalAdvised r.id kind (r.pseudostateIndices kind)).message .region
        path := place.text } := by
  rw [advice, List.map_map]
  rfl

/-- Advice comes after all else that is said of multiplicities. -/
theorem multiplicityBreaches_advised (r : Region) {c : Context}
    (hc : c.options.bestPractices = false) :
    r.multiplicityBreaches c.advised = r.multiplicityBreaches c ++ r.advice c.place := by
  have hadvice (kinds : List PseudostateKind) :
      (kinds.flatMap fun kind =>
        c.breachIf (1 < (r.pseudostateIndices kind).length) .region
          (.severalAdvised r.id kind (r.pseudostateIndices kind))) =
        (kinds.filter fun kind => 1 < r.vertices.countP (·.isOfKind kind)).map fun kind =>
          ⟨.region, c.place, .severalAdvised r.id kind (r.pseudostateIndices kind)⟩ := by
    induction kinds with
    | nil => rfl
    | cons kind kinds ih =>
      rw [List.flatMap_cons, ih, Context.breachIf, length_pseudostateIndices]
      by_cases h : 1 < r.vertices.countP (·.isOfKind kind) <;> simp [h]
  rw [advice, advisedKinds, ← hadvice]
  simp only [multiplicityBreaches, hc, Bool.false_eq_true, if_false, List.append_nil]
  rfl

end Region

/-- The second list is the first with the advice on the regions met from an encounter on. -/
def Encounter.Advises (x : Encounter) (l l' : Breaches) : Prop :=
  Weave l (x.ownRegions.flatMap fun y => y.2.advice y.1) l'

/-- The regions of the machine that a region belongs to take advice wherever the region stands. -/
def Region.TakesAdvice (r : Region) : Prop :=
  ∀ (x : Encounter) (c : Context), x.element = .region r → c.place = x.place → x.place.IsOwn →
    c.options.bestPractices = false → x.Advises (r.breaches c) (r.breaches c.advised)

def State.TakesAdvice (s : State) : Prop :=
  ∀ (x : Encounter) (c : Context), x.element = .state s → c.place = x.place → x.place.IsOwn →
    c.options.bestPractices = false → x.Advises (s.breaches c) (s.breaches c.advised)

/-- The members of a list with a rule for each of them. -/
theorem Encounter.advises_members {α : Type} {x : Encounter} {l : List α} {part : α × ℕ → Part}
    {f f' : α × ℕ → Breaches} (h : ∀ a ∈ l.zipIdx, (x.part (part a)).Advises (f a) (f' a)) :
    Weave (l.zipIdx.flatMap f)
      ((l.zipIdx.flatMap fun a => (x.part (part a)).ownRegions).flatMap fun y => y.2.advice y.1)
      (l.zipIdx.flatMap f') := by
  rw [List.flatMap_assoc]
  exact .flatMap h

/-- Advice on the regions of a list. -/
theorem Region.listBreaches_advised {x : Encounter} {c : Context} {regions : List Region}
    (hregions : ∀ r ∈ regions, r.TakesAdvice) (hplace : c.place = x.place) (hown : x.place.IsOwn)
    (hc : c.options.bestPractices = false) :
    Weave (Region.listBreaches c regions 0)
      ((regions.zipIdx.flatMap fun r =>
        (x.part ⟨.member, .item "Regions" r.2, .region r.1⟩).ownRegions).flatMap fun y =>
          y.2.advice y.1)
      (Region.listBreaches c.advised regions 0) := by
  rw [listBreaches_eq_flatMap, listBreaches_eq_flatMap]
  refine Encounter.advises_members fun r hr => ?_
  refine hregions r.1 (List.fst_mem_of_mem_zipIdx hr) _ (c.item "Regions" r.2) rfl ?_ ?_ hc
  · rw [Encounter.part, ← hplace]
    rfl
  · exact Locator.isOwn_snoc.2 ⟨hown, by simp [Segment.item, Segment.field]⟩

/-- The advice on a region is part of what is said of its vertices, before its states. No rule but
that for multiplicities reads the option, so all others are the same by definition. -/
theorem Region.takesAdvice_of_states {r : Region} (hstates : ∀ s ∈ r.states, s.TakesAdvice) :
    r.TakesAdvice := by
  intro x c hx hplace hown hc
  have hmultiplicity : Weave (r.multiplicityBreaches (c.enterRegion r)) (r.advice x.place)
      (r.multiplicityBreaches (c.enterRegion r).advised) := by
    have hadvice : (c.enterRegion r).place = x.place := hplace
    rw [r.multiplicityBreaches_advised (c := c.enterRegion r) hc, hadvice]
    simpa using (Weave.only (r.advice x.place)).prepend (r.multiplicityBreaches (c.enterRegion r))
  have hmembers : Weave (r.stateBreaches (c.enterRegion r) r.states 0)
      ((r.states.zipIdx.flatMap fun s =>
        (x.part ⟨.member, .item "States" s.2, .state s.1⟩).ownRegions).flatMap fun y =>
          y.2.advice y.1)
      (r.stateBreaches (c.enterRegion r).advised r.states 0) := by
    rw [stateBreaches_eq_flatMap, stateBreaches_eq_flatMap]
    refine Encounter.advises_members fun s hs => Weave.prepend ?_ (r.listingBreaches _ s.1)
    refine hstates s.1 (List.fst_mem_of_mem_zipIdx hs) _ ((c.enterRegion r).item "States" s.2) rfl
      ?_ ?_ hc
    · rw [Encounter.part, ← hplace]
      rfl
    · exact Locator.isOwn_snoc.2 ⟨hown, by simp [Segment.item, Segment.field]⟩
  unfold Encounter.Advises
  rw [Encounter.ownRegions_region hown hx, breaches_eq, breaches_eq, List.flatMap_cons]
  exact (((hmultiplicity.prepend _).append hmembers).push _).push _

theorem State.takesAdvice_of_regions {s : State} (hregions : ∀ r ∈ s.regions, r.TakesAdvice) :
    s.TakesAdvice := by
  intro x c hx hplace hown hc
  have hlist := Region.listBreaches_advised hregions hplace hown hc
  unfold Encounter.Advises
  rw [Encounter.ownRegions_state hown hx, breaches_eq, breaches_eq]
  exact ((hlist.prepend _).push _).push _

mutual

theorem Region.takesAdvice (r : Region) : r.TakesAdvice :=
  Region.takesAdvice_of_states fun s _ => s.takesAdvice
termination_by sizeOf r
decreasing_by
  cases r
  have := List.sizeOf_lt_of_mem ‹s ∈ _›
  simp_all
  omega

theorem State.takesAdvice (s : State) : s.TakesAdvice :=
  State.takesAdvice_of_regions fun r _ => r.takesAdvice
termination_by sizeOf s
decreasing_by
  cases s
  have := List.sizeOf_lt_of_mem ‹r ∈ _›
  simp_all
  omega

end

/-! ### The whole machine -/

namespace StateMachine

/-- With advice each region of the machine itself may add to what the rules find. -/
theorem breaches_advised (m : StateMachine) {c : Context} (hplace : c.place = [])
    (hc : c.options.bestPractices = false) :
    Weave (m.breaches c) (m.ownRegions.flatMap fun y => y.2.advice y.1) (m.breaches c.advised) := by
  have hown : (Encounter.ofRoot (.stateMachine m) []).place.IsOwn := List.not_mem_nil
  have hlist := Region.listBreaches_advised (x := .ofRoot (.stateMachine m) [])
    (c := c.enterMachine m) (fun r (_ : r ∈ m.regions) => r.takesAdvice) hplace hown hc
  rw [ownRegions, Encounter.ownRegions_stateMachine hown rfl]
  exact hlist.prepend _

/-- Asking for advice only adds to the findings. What was found without it is found in the same
order, and what is added is one finding for each region of the machine itself and each of the kinds
that are seldom wanted twice and that more than one vertex of the region has. -/
theorem validate_bestPractices (m : StateMachine) (depth : ℕ) :
    let plain := m.validate { maxCycleDepth := depth }
    let advised := m.validate { maxCycleDepth := depth, bestPractices := true }
    plain.Sublist advised ∧
      advised.Perm (plain ++ m.ownRegions.flatMap fun (place, r) => r.advisedKinds.map fun kind =>
        { kind := .multiplicity
          type := .region
          field := "Vertices"
          message := (Breach.severalAdvised r.id kind (r.pseudostateIndices kind)).message .region
          path := place.text }) := by
  intro plain advised
  let c : Context := { options := { maxCycleDepth := depth } }
  let defects := (Element.stateMachine m).integrityDefects { maxCycleDepth := depth } []
  have hrules : Weave (m.breaches c).findings
      (Breaches.findings (m.ownRegions.flatMap fun y => y.2.advice y.1))
      (m.breaches c.advised).findings :=
    (m.breaches_advised (c := c) rfl rfl).map Located.finding
  -- the integrity check reads the depth only
  have hall : Weave plain (Breaches.findings (m.ownRegions.flatMap fun y => y.2.advice y.1))
      advised :=
    hrules.push (Defects.findings defects)
  refine ⟨hall.sublist, ?_⟩
  have hperm := hall.perm
  rw [Breaches.findings, List.map_flatMap] at hperm
  simpa only [Region.findings_advice] using hperm

end StateMachine

end Statechart
