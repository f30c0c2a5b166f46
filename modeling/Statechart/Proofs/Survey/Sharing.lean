import Statechart.Entity
import Statechart.Proofs.Survey.Tree

/-! Numbers that linking gives out are coherent. The definitions are numbered in order, a definition
uses those before it, and a placeholder is replaced by the definition that it names. So wherever a
number occurs below a linked element, it is on the definition with that number. -/

namespace Statechart

section

variable (f : StateMachine → Id StateMachine)

theorem Region.mapSubmachinesListM_eq_map (l : List Region) :
    Id.run (Region.mapSubmachinesListM f l) = l.map fun r => Id.run (r.mapSubmachinesM f) := by
  induction l with
  | nil => simp [mapSubmachinesListM]
  | cons r l ih => simp [mapSubmachinesListM, ← ih]

theorem State.mapSubmachinesListM_eq_map (l : List State) :
    Id.run (State.mapSubmachinesListM f l) = l.map fun s => Id.run (s.mapSubmachinesM f) := by
  induction l with
  | nil => simp [mapSubmachinesListM]
  | cons s l ih => simp [mapSubmachinesListM, ← ih]

theorem StateMachine.run_mapSubmachinesM (m : StateMachine) :
    Id.run (m.mapSubmachinesM f) =
      { m with regions := m.regions.map fun r => Id.run (r.mapSubmachinesM f) } := by
  cases m
  rw [← Region.mapSubmachinesListM_eq_map]
  rfl

theorem Region.run_mapSubmachinesM (r : Region) :
    Id.run (r.mapSubmachinesM f) =
      { r with states := r.states.map fun s => Id.run (s.mapSubmachinesM f) } := by
  cases r
  rw [← State.mapSubmachinesListM_eq_map]
  rfl

theorem State.run_mapSubmachinesM (s : State) :
    Id.run (s.mapSubmachinesM f) =
      { s with
        regions := s.regions.map fun r => Id.run (r.mapSubmachinesM f)
        submachine := s.submachine.map fun x => Id.run (f (Id.run (x.mapSubmachinesM f))) } := by
  cases s with
  | mk _ _ _ _ _ _ submachine =>
    rw [← Region.mapSubmachinesListM_eq_map]
    cases submachine <;> rfl

end

namespace Element

/-- No machine at or below the element has a number. -/
def Unshared (e : Element) : Prop := ∀ way f, e.Leads way f → f.definition? = none

/-- Each number at or below the element is on the definition that has this number. -/
def Draws (definitions : List StateMachine) (e : Element) : Prop :=
  ∀ way f n, e.Leads way f → f.definition? = some n →
    ∃ m, definitions[n]? = some m ∧ f = .stateMachine m

variable {definitions : List StateMachine} {e : Element} {p : Part}

theorem Unshared.part (h : e.Unshared) (hp : p ∈ e.parts) : p.element.Unshared :=
  fun way f hway => h (p :: way) f ⟨hp, hway⟩

/-- What holds of the elements in the tree holds wherever a way leads. -/
theorem forall_leads_of_tree {P : Element → Prop}
    (h : ∀ x ∈ (Encounter.ofRoot e []).tree, P x.element) : ∀ way f, e.Leads way f → P f := by
  intro way f hway
  have hend : ((Encounter.ofRoot e []).along way).element = f := Encounter.element_along hway
  exact hend ▸ h _ (Encounter.mem_tree.2 ⟨way, hend.symm ▸ hway, rfl⟩)

theorem unshared_of_tree
    (h : (Encounter.ofRoot e []).tree.all (·.element.definition?.isNone) = true) : e.Unshared :=
  forall_leads_of_tree fun x hx => by simpa using List.all_eq_true.1 h x hx

theorem Unshared.coherent (h : e.Unshared) : e.Coherent := by
  intro way way' f g n hf _ hfn
  rw [h way f hf] at hfn
  cases hfn

theorem Draws.coherent (h : e.Draws definitions) : e.Coherent := by
  intro way way' f g n hf hg hfn hgn
  obtain ⟨m, hm, rfl⟩ := h way f n hf hfn
  obtain ⟨m', hm', rfl⟩ := h way' g n hg hgn
  rw [Option.some.inj (hm.symm.trans hm')]

theorem Draws.mono (h : e.Draws definitions) (later : List StateMachine) :
    e.Draws (definitions ++ later) := by
  intro way f n hway hn
  obtain ⟨m, hm, rfl⟩ := h way f n hway hn
  obtain ⟨hlt, -⟩ := List.getElem?_eq_some_iff.1 hm
  exact ⟨m, by rw [List.getElem?_append_left hlt, hm], rfl⟩

theorem draws_of_parts (hown : ∀ n, e.definition? = some n →
    ∃ m, definitions[n]? = some m ∧ e = .stateMachine m)
    (hparts : ∀ p ∈ e.parts, p.element.Draws definitions) : e.Draws definitions := by
  intro way f n hway hn
  cases way with
  | nil =>
    obtain rfl : e = f := hway
    exact hown n hn
  | cons p way => exact hparts p hway.1 way f n hway.2 hn

/-- The machine that stands in the place of another one once that is linked. -/
def settled (definitions : List StateMachine) (x : StateMachine) : StateMachine :=
  Sharing.resolve definitions (Sharing.link definitions x)

theorem link_stateMachine (m : StateMachine) :
    (stateMachine m).link definitions = .stateMachine { m with
      regions := m.regions.map fun r => Id.run (r.mapSubmachinesM
        fun y => pure (Sharing.resolve definitions y)) } :=
  congrArg stateMachine (StateMachine.run_mapSubmachinesM _ m)

theorem link_region (r : Region) :
    (region r).link definitions = .region { r with
      states := r.states.map fun s => Id.run (s.mapSubmachinesM
        fun y => pure (Sharing.resolve definitions y)) } :=
  congrArg region (Region.run_mapSubmachinesM _ r)

theorem link_state (s : State) :
    (state s).link definitions = .state { s with
      regions := s.regions.map fun r => Id.run (r.mapSubmachinesM
        fun y => pure (Sharing.resolve definitions y))
      submachine := s.submachine.map (settled definitions) } :=
  congrArg state (State.run_mapSubmachinesM _ s)

theorem definition?_link : (e.link definitions).definition? = e.definition? := by
  cases e with
  | stateMachine m => rw [link_stateMachine]; rfl
  | _ => rfl

section

variable {α : Type} {role : Role} {field : String} {element : α → Element} {l : List α}

theorem exists_of_mem_ofList_map {g : α → α}
    (hg : ∀ x, element (g x) = (element x).link definitions)
    (h : p ∈ Part.ofList role field element (l.map g)) :
    ∃ q ∈ Part.ofList role field element l, p.element = q.element.link definitions := by
  obtain ⟨i, hi, rfl⟩ := Part.mem_ofList.1 h
  rw [List.length_map] at hi
  refine ⟨_, Part.mem_ofList.2 ⟨i, hi, rfl⟩, ?_⟩
  simp only [List.getElem_map]
  exact hg _

theorem exists_of_mem_ofList (hg : ∀ x, (element x).link definitions = element x)
    (h : p ∈ Part.ofList role field element l) :
    ∃ q ∈ Part.ofList role field element l, p.element = q.element.link definitions := by
  obtain ⟨i, hi, rfl⟩ := Part.mem_ofList.1 h
  exact ⟨_, h, (hg _).symm⟩

end

/-- The parts of a linked element are linked, and a machine among them is a definition where it was
a placeholder for one. -/
theorem mem_parts_link (h : p ∈ (e.link definitions).parts) :
    ∃ q ∈ e.parts, p.element = q.element.link definitions ∨
      ∃ x, q.element = .stateMachine x ∧ p.element = .stateMachine (settled definitions x) := by
  have plain {l : List Part} (hl : ∀ q ∈ l, q ∈ e.parts)
      (h : ∃ q ∈ l, p.element = q.element.link definitions) :
      ∃ q ∈ e.parts, p.element = q.element.link definitions ∨
        ∃ x, q.element = .stateMachine x ∧ p.element = .stateMachine (settled definitions x) := by
    obtain ⟨q, hq, hpq⟩ := h
    exact ⟨q, hl q hq, .inl hpq⟩
  cases e with
  | stateMachine m =>
    rw [link_stateMachine] at h
    rcases mem_parts_stateMachine.1 h with h | h
    · exact plain (fun q hq => mem_parts_stateMachine.2 (.inl hq))
        (exists_of_mem_ofList_map (fun _ => rfl) h)
    · exact plain (fun q hq => mem_parts_stateMachine.2 (.inr hq))
        (exists_of_mem_ofList (fun _ => rfl) h)
  | region r =>
    rw [link_region] at h
    rcases mem_parts_region.1 h with h | h | h
    · exact plain (fun q hq => mem_parts_region.2 (.inl hq))
        (exists_of_mem_ofList_map (fun _ => rfl) h)
    · exact plain (fun q hq => mem_parts_region.2 (.inr (.inl hq)))
        (exists_of_mem_ofList (fun v => by cases v <;> rfl) h)
    · exact plain (fun q hq => mem_parts_region.2 (.inr (.inr hq)))
        (exists_of_mem_ofList (fun _ => rfl) h)
  | state s =>
    rw [link_state] at h
    rcases mem_parts_state.1 h with h | h | ⟨y, hy, rfl⟩
    · exact plain (fun q hq => mem_parts_state.2 (.inl hq))
        (exists_of_mem_ofList_map (fun _ => rfl) h)
    · exact plain (fun q hq => mem_parts_state.2 (.inr (.inl hq)))
        (exists_of_mem_ofList (fun _ => rfl) h)
    · obtain ⟨x, hx, rfl⟩ := Option.map_eq_some_iff.1 hy
      exact ⟨_, mem_parts_state.2 (.inr (.inr ⟨x, hx, rfl⟩)), .inr ⟨x, rfl, rfl⟩⟩
  | connectionPointReference c =>
    rcases mem_parts_connectionPointReference.1 h with h | h
    · exact plain (fun q hq => mem_parts_connectionPointReference.2 (.inl hq))
        (exists_of_mem_ofList (fun _ => rfl) h)
    · exact plain (fun q hq => mem_parts_connectionPointReference.2 (.inr hq))
        (exists_of_mem_ofList (fun _ => rfl) h)
  | vertex v => cases h
  | pseudostate v => cases h
  | finalState f => cases h
  | transition t => cases h

/-- Linking puts numbers below an element only together with their definitions. -/
theorem draws_link (hdefinitions : ∀ m ∈ definitions, (stateMachine m).Draws definitions)
    (h : e.Unshared) : (e.link definitions).Draws definitions := by
  induction hs : sizeOf e using Nat.strongRecOn generalizing e with
  | ind n ih =>
    apply draws_of_parts
    · intro n hn
      rw [definition?_link, h [] e rfl] at hn
      cases hn
    · intro p hp
      obtain ⟨q, hq, hpq⟩ := mem_parts_link hp
      have hlinked := ih _ (hs ▸ sizeOf_of_mem_parts hq) (h.part hq) rfl
      rcases hpq with hpq | ⟨x, hx, hpq⟩
      · rwa [hpq]
      · rw [hpq, settled, Sharing.resolve]
        cases hfound : (Sharing.placeholder? (Sharing.link definitions x).id).bind
            (definitions[·]?) with
        | none =>
          rw [hx] at hlinked
          exact hlinked
        | some m =>
          obtain ⟨i, -, hi⟩ := Option.bind_eq_some_iff.1 hfound
          exact hdefinitions m (List.mem_of_getElem? hi)

end Element

namespace Sharing

/-- Each definition is made of machines without numbers and of definitions before it. -/
theorem draws_define {machines : List StateMachine}
    (h : ∀ m ∈ machines, (Element.stateMachine m).Unshared) :
    ∀ m ∈ define machines, (Element.stateMachine m).Draws (define machines) := by
  have step (defined : List StateMachine)
      (hdefined : ∀ m ∈ defined, (Element.stateMachine m).Draws defined) :
      ∀ m ∈ machines.foldl (fun defined x =>
          defined ++ [{ link defined x with shared := some defined.length }]) defined,
        (Element.stateMachine m).Draws (machines.foldl (fun defined x =>
          defined ++ [{ link defined x with shared := some defined.length }]) defined) := by
    induction machines generalizing defined with
    | nil => exact hdefined
    | cons x machines ih =>
      apply ih (fun m hm => h m (.tail _ hm))
      intro m hm
      rcases List.mem_append.1 hm with hm | hm
      · exact (hdefined m hm).mono _
      · obtain rfl := List.mem_singleton.1 hm
        apply Element.draws_of_parts
        · intro n hn
          obtain rfl : defined.length = n := Option.some.inj hn
          exact ⟨_, by simp, rfl⟩
        · intro p hp way f n hway hn
          have hlinked := Element.draws_link hdefined (h x (.head _))
          exact hlinked.mono _ (p :: way) f n ⟨hp, hway⟩ hn
  exact step [] nofun

end Sharing

/-- Models written with placeholders and linked are coherent. -/
theorem Element.coherent_link {machines : List StateMachine} {e : Element}
    (hmachines : ∀ m ∈ machines, (Element.stateMachine m).Unshared) (he : e.Unshared) :
    (e.link (Sharing.define machines)).Coherent :=
  (draws_link (Sharing.draws_define hmachines) he).coherent

end Statechart
