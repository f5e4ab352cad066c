import SchemaTypes.Model.Reader
import SchemaTypes.Proofs.Lineage

/-!
# Names of elements

A model document may state an element twice.  The reader puts the elements of a definition into
a table, and there the last statement wins.  So no definition of a model that was read names an
element twice (`Model.ofText_namesElementsOnce`), whatever the document says.

The type of models does not say so: it only sees to it that no definition is named twice.
-/

namespace SchemaTypes

/-- No definition of the model names an element twice. -/
def Model.NamesElementsOnce (m : Model) : Prop :=
  ∀ entry ∈ m.definitions, (Table.names entry.2.ownElements).Nodup

namespace Model

instance (m : Model) : Decidable m.NamesElementsOnce :=
  inferInstanceAs (Decidable (∀ entry ∈ m.definitions, (Table.names entry.2.ownElements).Nodup))

theorem NamesElementsOnce.ownElements {m : Model} {name : String} {d : Definition}
    (h : m.NamesElementsOnce) (hd : m.find? name = some d) :
    (Table.names d.ownElements).Nodup :=
  h (name, d) (find?_eq_some_iff.mp hd)

namespace Reader

open Json (Document)

variable {α : Type} {room : Nat} {doc : Document}

theorem optional_eq_some {read : Document → Option α} {found : Option Document} {a : α}
    (h : optional read found = some (some a)) : ∃ d, read d = some a := by
  cases found with
  | none => cases h
  | some d =>
    cases d with
    | null => cases h
    | _ => exact ⟨_, by simpa [optional] using h⟩

/-! ## Definitions -/

theorem tableOf_names_nodup {t : Table Definition} (h : definition?.tableOf room doc = some t) :
    (Table.names t).Nodup := by
  cases room with
  | zero => simp [definition?.tableOf] at h
  | succ room =>
    cases doc with
    | object members =>
      rw [definition?.tableOf] at h
      obtain ⟨pairs, -, rfl⟩ := Option.map_eq_some_iff.mp h
      exact Table.names_nodup_ofPairs pairs
    | _ => simp [definition?.tableOf] at h

theorem definition?_names_nodup {d : Definition} (h : definition? room doc = some d) :
    (Table.names d.ownElements).Nodup := by
  cases room with
  | zero => simp [definition?] at h
  | succ room =>
    cases doc with
    | object members =>
      rw [definition?] at h
      obtain ⟨parts, -, h⟩ := Option.bind_eq_some_iff.mp h
      obtain ⟨kind, -, h⟩ := Option.bind_eq_some_iff.mp h
      obtain ⟨type, -, h⟩ := Option.bind_eq_some_iff.mp h
      obtain ⟨elements, helements, h⟩ := Option.bind_eq_some_iff.mp h
      -- The parts that follow do not matter.
      iterate 14 obtain ⟨_, -, h⟩ := Option.bind_eq_some_iff.mp h
      cases h
      cases elements with
      | none => exact List.nodup_nil
      | some t =>
        obtain ⟨_, ht⟩ := optional_eq_some helements
        exact tableOf_names_nodup ht
    | _ => simp [definition?] at h

/-! ## Tables -/

theorem entries?_eq_some {read : Document → Option α} {members : Table Document} {t : Table α}
    (h : entries? read members = some t) : ∀ entry ∈ t, ∃ d, read d = some entry.2 := by
  induction members generalizing t with
  | nil =>
    cases h
    exact List.forall_mem_nil _
  | cons member rest ih =>
    obtain ⟨name, d⟩ := member
    rw [entries?] at h
    split at h
    · next a others ha hothers =>
      cases h
      exact List.forall_mem_cons.mpr ⟨⟨d, ha⟩, ih hothers⟩
    · cases h

theorem pairs?_eq_some {read : Nat → Document → Option α} {pairs : List (String × α)}
    (h : pairs? read room doc = some pairs) :
    ∀ entry ∈ pairs, ∃ room d, read room d = some entry.2 := by
  cases room with
  | zero => simp [pairs?] at h
  | succ room =>
    cases doc with
    | object members =>
      rw [pairs?] at h
      obtain ⟨members, -, hentries⟩ := Option.bind_eq_some_iff.mp h
      exact fun entry hentry => ⟨room, entries?_eq_some hentries entry hentry⟩
    | _ => simp [pairs?] at h

/-! ## Models -/

theorem ofPairs_namesElementsOnce {pairs : List (String × Definition)}
    (h : pairs? definition? room doc = some pairs) : (Model.ofPairs pairs).NamesElementsOnce := by
  intro entry hentry
  rcases Table.mem_putAll hentry with hentry | hentry
  · cases hentry
  · obtain ⟨_, _, hread⟩ := pairs?_eq_some h entry hentry
    exact definition?_names_nodup hread

theorem empty_namesElementsOnce : ({} : Model).NamesElementsOnce := List.forall_mem_nil _

theorem model?_namesElementsOnce {m : Model} (h : model? room doc = some m) :
    m.NamesElementsOnce := by
  simp only [model?] at h
  split at h
  · obtain ⟨parts, -, h⟩ := Option.bind_eq_some_iff.mp h
    split at h
    · cases h
      exact empty_namesElementsOnce
    · obtain ⟨pairs, hpairs, rfl⟩ := Option.map_eq_some_iff.mp h
      exact ofPairs_namesElementsOnce hpairs
  · cases h
    exact empty_namesElementsOnce
  · obtain ⟨pairs, hpairs, rfl⟩ := Option.map_eq_some_iff.mp h
    exact ofPairs_namesElementsOnce hpairs
  · cases h

end Reader

/-- A model that a document states names no element twice. -/
theorem ofDocument_namesElementsOnce {doc : Json.Document} {m : Model}
    (h : Model.ofDocument doc = .ok m) : m.NamesElementsOnce := by
  rw [Model.ofDocument] at h
  split at h
  · next hread =>
    cases h
    exact Reader.model?_namesElementsOnce hread
  · cases h

/-- A model that a text states names no element twice. -/
theorem ofText_namesElementsOnce {text : String} {m : Model} (h : Model.ofText text = .ok m) :
    m.NamesElementsOnce := by
  rw [Model.ofText] at h
  split at h
  · next hread =>
    cases h
    obtain ⟨doc, -, hmodel⟩ := Option.bind_eq_some_iff.mp hread
    exact Reader.model?_namesElementsOnce hmodel
  · cases h

end Model

end SchemaTypes
