import Statechart.Model.Reader

/-! Reading fields by their names. What a reader gets from a record depends on the values alone and
not on the record they stand in. So to read what was written is to look names up in the list that
was written, and everything that is read was read from some value. -/

namespace Statechart

namespace Json

variable {α β : Type}

/-- Reads the value of a slot. -/
def readSlot (read : Json → Option α) : Json → Option (Option α)
  | null => some none
  | x => (read x).map some

/-- Reads the value of a list field. -/
def readList (read : Json → Option α) : Json → Option (List α)
  | arr items => items.mapM read
  | _ => none

theorem readSlot_ofOption {read : Json → Option β} {write : α → Json} {g : α → β} {slot : Option α}
    (h : ∀ x, slot = some x → read (write x) = some (g x)) (hwrite : ∀ x, write x ≠ null) :
    readSlot read (ofOption write slot) = some (slot.map g) := by
  cases slot with
  | none => rfl
  | some x =>
    rw [ofOption, readSlot.eq_2 _ _ (hwrite x), h x rfl]
    rfl

theorem readList_map {read : Json → Option β} {write : α → Json} {g : α → β} {l : List α}
    (h : ∀ x ∈ l, read (write x) = some (g x)) :
    readList read (arr (l.map write)) = some (l.map g) := by
  change (l.map write).mapM read = some (l.map g)
  induction l with
  | nil => rfl
  | cons x l ih =>
    rw [List.map_cons, List.mapM_cons, h x (.head _), ih fun y hy => h y (.tail _ hy)]
    rfl

theorem readSlot_ofOption_self {read : Json → Option α} {write : α → Json} {slot : Option α}
    (h : ∀ x, slot = some x → read (write x) = some x) (hwrite : ∀ x, write x ≠ null) :
    readSlot read (ofOption write slot) = some slot := by
  rw [readSlot_ofOption (g := fun x => x) h hwrite, Option.map_id']

theorem readList_map_self {read : Json → Option α} {write : α → Json} {l : List α}
    (h : ∀ x ∈ l, read (write x) = some x) : readList read (arr (l.map write)) = some l := by
  rw [readList_map (g := fun x => x) h, List.map_id']

theorem exists_of_mapM {read : α → Option β} {items : List α} {l : List β}
    (h : items.mapM read = some l) {x : β} (hx : x ∈ l) : ∃ y ∈ items, read y = some x := by
  induction items generalizing l with
  | nil =>
    cases h
    cases hx
  | cons y items ih =>
    rw [List.mapM_cons] at h
    obtain ⟨z, hz, h⟩ := Option.bind_eq_some_iff.1 h
    obtain ⟨k, hk, h⟩ := Option.bind_eq_some_iff.1 h
    cases h
    rcases List.mem_cons.1 hx with rfl | hx
    · exact ⟨y, .head _, hz⟩
    · obtain ⟨y', hy', hread⟩ := ih hk hx
      exact ⟨y', .tail _ hy', hread⟩

end Json

namespace Json.Record

variable {j : Json} {α : Type} {fields : j.Record} {key : String} {read : Json → Option α}

/-- The named values of a record without their proofs. -/
def values (fields : j.Record) : List (String × Json) := fields.map fun x => (x.1, x.2.1)

theorem lookup_values (fields : j.Record) (key : String) :
    fields.values.lookup key = (fields.lookup key).map (·.1) := by
  induction fields with
  | nil => rfl
  | cons x rest ih =>
    obtain ⟨k, v⟩ := x
    simp only [values, List.map_cons, List.lookup_cons]
    split
    · rfl
    · exact ih

/-- An object is read as its fields in their order, whatever the names for an array are. -/
theorem record?_obj {l : List (String × Json)} (h : j = obj l) :
    ∃ fields : j.Record, (∀ names, j.record? names = some fields) ∧ fields.values = l := by
  subst h
  refine ⟨_, fun _ => rfl, ?_⟩
  rw [values, List.map_map]
  exact (List.map_congr_left fun _ _ => rfl).trans (List.attach_map_subtype_val l)

theorem required_eq (fields : j.Record) (key : String) (read : Json → Option α) :
    fields.required key (fun x => read x.1) = (fields.values.lookup key).bind read := by
  rw [lookup_values, required, Option.bind_map]
  rfl

theorem required_tag (fields : j.Record) (key : String) (ofText : String → α) :
    fields.required key (fun x => x.1.str?.map ofText) =
      (fields.values.lookup key).bind fun x => x.str?.map ofText :=
  required_eq fields key fun x => x.str?.map ofText

theorem optional_eq (fields : j.Record) (key : String) (default : α) (read : Json → Option α) :
    fields.optional key default (fun x => read x.1) =
      ((fields.values.lookup key).map read).getD (some default) := by
  rw [lookup_values, optional]
  cases fields.lookup key <;> rfl

theorem optional_tag (fields : j.Record) (key : String) (default : α) (ofText : String → α) :
    fields.optional key default (fun x => x.1.str?.map ofText) =
      ((fields.values.lookup key).map fun x => x.str?.map ofText).getD (some default) :=
  optional_eq fields key default fun x => x.str?.map ofText

theorem slot_eq (fields : j.Record) (key : String) (read : Json → Option α) :
    fields.slot key (fun x => read x.1) =
      ((fields.values.lookup key).map (readSlot read)).getD (some none) := by
  rw [lookup_values, slot, optional]
  cases fields.lookup key with
  | none => rfl
  | some x =>
    obtain ⟨x, hx⟩ := x
    cases x <;> rfl

theorem list_eq (fields : j.Record) (key : String) (read : Json → Option α) :
    fields.list key (fun x => read x.1) =
      ((fields.values.lookup key).map (readList read)).getD (some []) := by
  rw [lookup_values, list, optional]
  cases fields.lookup key with
  | none => rfl
  | some x =>
    obtain ⟨x, hx⟩ := x
    cases x with
    | arr items =>
      have hitems := List.mapM_map (m := Option) (f := fun x : { x // x ∈ items } => x.1)
        (g := read) (l := items.attach)
      rw [List.attach_map_subtype_val] at hitems
      exact (List.mapM_map ..).trans hitems.symm
    | _ => rfl

theorem exists_of_required_tag {ofText : String → α} {a : α}
    (h : fields.required key (fun x => x.1.str?.map ofText) = some a) : ∃ raw, ofText raw = a := by
  rw [required_tag] at h
  obtain ⟨x, -, hx⟩ := Option.bind_eq_some_iff.1 h
  obtain ⟨raw, -, hraw⟩ := Option.map_eq_some_iff.1 hx
  exact ⟨raw, hraw⟩

theorem exists_of_optional_tag {ofText : String → α} {a default : α}
    (h : fields.optional key default (fun x => x.1.str?.map ofText) = some a) :
    a = default ∨ ∃ raw, ofText raw = a := by
  rw [optional_tag] at h
  cases hx : fields.values.lookup key with
  | none =>
    rw [hx] at h
    exact .inl (Option.some.inj h).symm
  | some x =>
    rw [hx] at h
    obtain ⟨raw, -, hraw⟩ := Option.map_eq_some_iff.1 h
    exact .inr ⟨raw, hraw⟩

theorem exists_of_slot {a : α}
    (h : fields.slot key (fun x => read x.1) = some (some a)) : ∃ x, read x = some a := by
  rw [slot_eq] at h
  cases hx : fields.values.lookup key with
  | none =>
    rw [hx] at h
    cases h
  | some x =>
    rw [hx] at h
    unfold readSlot at h
    simp only [Option.map_some, Option.getD_some] at h
    split at h
    · cases h
    · obtain ⟨b, hb, hab⟩ := Option.map_eq_some_iff.1 h
      cases hab
      exact ⟨x, hb⟩

theorem exists_of_list {l : List α} (h : fields.list key (fun x => read x.1) = some l) {a : α}
    (ha : a ∈ l) : ∃ x, read x = some a := by
  rw [list_eq] at h
  cases hx : fields.values.lookup key with
  | none =>
    rw [hx] at h
    cases h
    cases ha
  | some x =>
    rw [hx] at h
    cases x with
    | arr items =>
      obtain ⟨x, -, hread⟩ := exists_of_mapM h ha
      exact ⟨x, hread⟩
    | _ => cases h

end Json.Record

end Statechart
