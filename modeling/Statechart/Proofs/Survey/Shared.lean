import Statechart.Proofs.Survey.Listing

/-! Shared machines. Each place of a model holds an element, and it may be the machine that other
places hold as well. A walk that comes to one instance twice comes to such a machine, provided that
every machine held at several places has an ID: what has an ID is walked once. -/

namespace Statechart

namespace Element

/-- The element at a place. -/
def at? (e : Element) : Locator → Option Element
  | [] => some e
  | step :: rest => (e.parts.find? (·.step = step)).bind fun p => p.element.at? rest

/-- The number of the shared machine at a place. -/
def sharedAt? (e : Element) (place : Locator) : Option ℕ := (e.at? place).bind definition?

/-- No shared machine is held at more than one place. -/
def HoldsOnce (e : Element) : Prop :=
  ∀ place place' n, e.sharedAt? place = some n → e.sharedAt? place' = some n → place = place'

/-- A machine that is held at more than one place has an ID. -/
def NamesShared (e : Element) : Prop :=
  ∀ place place' f n, e.at? place = some f → f.definition? = some n →
    e.sharedAt? place' = some n → place ≠ place' → f.HasId

variable {e f : Element} {place : Locator} {way : List Part}

theorem Leads.at? (h : e.Leads way f) : e.at? (way.map (·.step)) = some f := by
  induction way generalizing e with
  | nil => exact congrArg some h
  | cons p way ih =>
    obtain ⟨hp, hway⟩ := h
    have hfind : e.parts.find? (·.step = p.step) = some p := by
      obtain ⟨q, hq⟩ := Option.isSome_iff_exists.1
        (List.find?_isSome (p := (·.step = p.step)).2 ⟨p, hp, by simp⟩)
      have hstep : q.step = p.step := by simpa using List.find?_some hq
      rw [hq, eq_of_step_eq (List.mem_of_find?_eq_some hq) hp hstep]
    rw [List.map_cons, Element.at?, hfind]
    exact ih hway

theorem exists_leads_of_at? (h : e.at? place = some f) :
    ∃ way, e.Leads way f ∧ place = way.map (·.step) := by
  induction place generalizing e with
  | nil => exact ⟨[], Option.some.inj h, rfl⟩
  | cons step rest ih =>
    obtain ⟨p, hp, hrest⟩ := Option.bind_eq_some_iff.1 h
    obtain ⟨way, hway, rfl⟩ := ih hrest
    have hstep : p.step = step := by simpa using List.find?_some hp
    exact ⟨p :: way, ⟨List.mem_of_find?_eq_some hp, hway⟩, by rw [List.map_cons, hstep]⟩

theorem HoldsOnce.coherent (h : e.HoldsOnce) : e.Coherent := by
  intro way way' f g n hf hg hfn hgn
  have hplace := h (way.map (·.step)) (way'.map (·.step)) n
    (by rw [sharedAt?, hf.at?]; exact hfn) (by rw [sharedAt?, hg.at?]; exact hgn)
  exact (hf.unique hg hplace).2

theorem HoldsOnce.namesShared (h : e.HoldsOnce) : e.NamesShared := by
  intro place place' f n hf hn hn' hne
  exact absurd (h place place' n (by rw [sharedAt?, hf]; exact hn) hn') hne

end Element

namespace Encounter

variable {e : Element} {x y : Encounter} {n : ℕ}

/-- What is met stands at its place. -/
theorem at?_place (hx : x ∈ (ofRoot e []).tree) : e.at? x.place = some x.element := by
  obtain ⟨way, hway, rfl⟩ := mem_tree.1 hx
  rw [place_along]
  exact hway.at?

theorem sharedAt?_place (hx : x ∈ (ofRoot e []).tree) :
    e.sharedAt? x.place = x.element.definition? := by
  rw [Element.sharedAt?, at?_place hx]
  rfl

/-- Shared machines with one number are one instance. -/
theorem origin_of_definition? (hx : x ∈ (ofRoot e []).tree) (h : x.element.definition? = some n) :
    x.origin = { definition := some n } := by
  rcases eq_or_part_of_mem_tree hx with rfl | ⟨z, -, p, -, rfl⟩
  · exact congrArg (Origin.mk · []) h
  · rw [element_part] at h
    simp [part, Origin.ofPart, h]

/-- Both are shared machines, with one number. -/
def sharesWith (x y : Encounter) : Bool :=
  x.element.definition?.any fun n => y.element.definition? = some n

theorem sharesWith_iff :
    x.sharesWith y = true ↔
      ∃ n, x.element.definition? = some n ∧ y.element.definition? = some n := by
  simp [sharesWith, Option.any_eq_true]

end Encounter

namespace Element

variable {e : Element}

theorem exists_of_at? {place : Locator} {f : Element} (h : e.at? place = some f) :
    ∃ x ∈ (Encounter.ofRoot e []).tree, x.place = place ∧ x.element = f := by
  obtain ⟨way, hway, rfl⟩ := exists_leads_of_at? h
  have hend : ((Encounter.ofRoot e []).along way).element = f := Encounter.element_along hway
  refine ⟨(Encounter.ofRoot e []).along way, ?_, Encounter.place_along _ way, hend⟩
  exact Encounter.mem_tree.2 ⟨way, hend.symm ▸ hway, rfl⟩

theorem holdsOnce_of_tree
    (h : (((Encounter.ofRoot e []).tree.filter (·.element.definition?.isSome)).map
      (·.element.definition?)).Nodup) : e.HoldsOnce := by
  intro place place' n hplace hplace'
  obtain ⟨f, hf, hfn⟩ := Option.bind_eq_some_iff.1 hplace
  obtain ⟨g, hg, hgn⟩ := Option.bind_eq_some_iff.1 hplace'
  obtain ⟨x, hx, rfl, rfl⟩ := exists_of_at? hf
  obtain ⟨y, hy, rfl, rfl⟩ := exists_of_at? hg
  have hxy := List.inj_on_of_nodup_map h (List.mem_filter.2 ⟨hx, by rw [hfn]; rfl⟩)
    (List.mem_filter.2 ⟨hy, by rw [hgn]; rfl⟩) (hfn.trans hgn.symm)
  rw [hxy]

theorem namesShared_of_tree
    (h : (Encounter.ofRoot e []).tree.all (fun x => decide x.element.HasId) = true) :
    e.NamesShared := by
  intro place place' f n hf _ _ _
  obtain ⟨x, hx, -, rfl⟩ := exists_of_at? hf
  exact of_decide_eq_true (List.all_eq_true.1 h x hx)

end Element

namespace Walk

variable {e : Element} {w : Walk} {x y : Encounter}

theorem Reachable.arrived_mem (h : Reachable e [] w) (hx : w.Arrived e [] x) :
    x ∈ (Encounter.ofRoot e []).tree := by
  rcases hx with rfl | ⟨z, hz, p, hp, rfl, -⟩
  · exact Encounter.self_mem_tree _
  · exact Encounter.part_mem_tree (h.met_subset hz) hp

/-- What a walk comes to twice is a shared machine. -/
theorem Reachable.shared_of_origin_eq (h : Reachable e [] w) (he : e.Coherent)
    (hnames : e.NamesShared) (hx : w.Arrived e [] x) (hy : w.Arrived e [] y)
    (horigin : x.origin = y.origin) (hne : x ≠ y) : x.element.definition?.isSome := by
  induction hn : x.place.length using Nat.strongRecOn generalizing x y with
  | ind n ih =>
    by_contra hnone
    have hxdef : x.element.definition? = none := by simpa using hnone
    have helement := Encounter.element_eq_of_origin_eq he (h.arrived_mem hx) (h.arrived_mem hy)
      horigin
    have hydef : y.element.definition? = none := helement ▸ hxdef
    rcases hx with rfl | ⟨z, hz, p, hp, rfl, hentered, -⟩ <;>
      rcases hy with rfl | ⟨z', hz', q, hq, rfl, hentered', -⟩
    · exact hne rfl
    · exact Encounter.origin_ofRoot_ne_part e [] z' hydef horigin
    · exact Encounter.origin_ofRoot_ne_part e [] z hxdef horigin.symm
    · obtain ⟨howners, hstep⟩ := Encounter.origin_part_inj hydef horigin
      have hzmem := h.met_subset hz
      have hzmem' := h.met_subset hz'
      have hzz := Encounter.element_eq_of_origin_eq he hzmem hzmem' howners
      have hzne : z ≠ z' := by
        rintro rfl
        exact hne (by rw [Element.eq_of_step_eq hp hq hstep])
      -- the owners are met twice as well, so they are a shared machine and have an ID
      have hshared := ih _ (hn ▸ by simp [Encounter.part]) (h.ready.2 z hz) (h.ready.2 z' hz')
        howners hzne rfl
      obtain ⟨k, hk⟩ := Option.isSome_iff_exists.1 hshared
      have hid : z.element.HasId := by
        refine hnames z.place z'.place z.element k (Encounter.at?_place hzmem) hk ?_ ?_
        · rw [Encounter.sharedAt?_place hzmem', ← hzz, hk]
        · exact fun hplace => hzne (Encounter.eq_of_place_eq hzmem hzmem' hplace)
      exact hzne (h.eq_of_id_eq (hentered hid) (hentered' (hzz ▸ hid)) (congrArg Element.id hzz))

theorem Reachable.origin_eq_iff_sharesWith (h : Reachable e [] w) (he : e.Coherent)
    (hnames : e.NamesShared) (hx : w.Arrived e [] x) (hy : w.Arrived e [] y) (hne : x ≠ y) :
    x.origin = y.origin ↔ x.sharesWith y = true := by
  have hxmem := h.arrived_mem hx
  have hymem := h.arrived_mem hy
  rw [Encounter.sharesWith_iff]
  constructor
  · intro horigin
    have helement := Encounter.element_eq_of_origin_eq he hxmem hymem horigin
    obtain ⟨n, hn⟩ :=
      Option.isSome_iff_exists.1 (h.shared_of_origin_eq he hnames hx hy horigin hne)
    exact ⟨n, hn, helement ▸ hn⟩
  · rintro ⟨n, hn, hn'⟩
    rw [Encounter.origin_of_definition? hxmem hn, Encounter.origin_of_definition? hymem hn']

end Walk

end Statechart
