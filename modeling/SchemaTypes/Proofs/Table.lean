import SchemaTypes.Model.Basic
import Mathlib.Data.List.Nodup

/-!
# Look-ups in tables

A look-up finds an entry of the table (`Table.mem_of_get?`), and where no name
stands twice it finds every entry (`Table.get?_of_mem`).  If only one entry gives
something, this is all that such a table gives (`Table.flatMap_eq`).  A model names
nothing twice, so a definition is found under a name exactly if it stands there
(`Model.find?_eq_some_iff`).  The elements of a definition are put together by
`Table.putAll`, so they name nothing twice either.
-/

namespace SchemaTypes

namespace Table

variable {α : Type}

theorem mem_of_get? {t : Table α} {name : String} {a : α} (h : t.get? name = some a) :
    (name, a) ∈ t := by
  induction t with
  | nil => cases h
  | cons entry rest ih =>
    obtain ⟨n, b⟩ := entry
    by_cases hn : n = name
    · subst hn
      simp only [get?, if_true, Option.some.injEq] at h
      subst h
      exact List.mem_cons_self
    · simp only [get?, if_neg hn] at h
      exact List.mem_cons_of_mem _ (ih h)

theorem mem_names_of_mem {t : Table α} {name : String} {a : α} (h : (name, a) ∈ t) :
    name ∈ names t :=
  List.mem_map.mpr ⟨(name, a), h, rfl⟩

theorem get?_of_mem {t : Table α} {name : String} {a : α} (hd : (names t).Nodup)
    (h : (name, a) ∈ t) : t.get? name = some a := by
  induction t with
  | nil => cases h
  | cons entry rest ih =>
    obtain ⟨n, b⟩ := entry
    rw [names_cons, List.nodup_cons] at hd
    rcases List.mem_cons.mp h with heq | hrest
    · cases heq
      simp [get?]
    · have hne : n ≠ name := by
        intro heq
        subst heq
        exact hd.1 (mem_names_of_mem hrest)
      rw [get?, if_neg hne]
      exact ih hd.2 hrest

/-- Where only one entry of a table gives something, this is all that is given. -/
theorem flatMap_eq {β : Type} {t : Table α} {name : String} {a : α}
    {give : String × α → List β} (hnodup : (names t).Nodup) (hmem : (name, a) ∈ t)
    (hothers : ∀ entry ∈ t, entry.1 ≠ name → give entry = []) : t.flatMap give = give (name, a) := by
  obtain ⟨before, after, rfl⟩ := List.append_of_mem hmem
  simp only [names, List.map_append, List.map_cons] at hnodup
  obtain ⟨-, hafter, hdisjoint⟩ := List.nodup_append.mp hnodup
  have hfront : before.flatMap give = [] := List.flatMap_eq_nil_iff.mpr fun entry hentry =>
    hothers entry (List.mem_append_left _ hentry)
      (hdisjoint _ (List.mem_map_of_mem hentry) _ List.mem_cons_self)
  have hback : after.flatMap give = [] := List.flatMap_eq_nil_iff.mpr fun entry hentry =>
    hothers entry (by simp [hentry]) fun heq =>
      (List.nodup_cons.mp hafter).1 (heq ▸ List.mem_map_of_mem hentry)
  rw [List.flatMap_append, List.flatMap_cons, hfront, hback, List.nil_append, List.append_nil]

end Table

namespace Model

theorem find?_eq_some_iff {m : Model} {name : String} {d : Definition} :
    m.find? name = some d ↔ (name, d) ∈ m.definitions :=
  ⟨Table.mem_of_get?, Table.get?_of_mem m.distinct⟩

theorem defines_of_find? {m : Model} {name : String} {d : Definition} (h : m.find? name = some d) :
    m.defines name = true := by
  rw [defines, h]
  rfl

/-- A name has one definition. -/
theorem eq_of_find? {m : Model} {name : String} {d d' : Definition} (h : m.find? name = some d)
    (h' : m.find? name = some d') : d = d' :=
  Option.some.inj (h.symm.trans h')

theorem mem_names_of_find? {m : Model} {name : String} {d : Definition}
    (h : m.find? name = some d) : name ∈ Table.names m.definitions :=
  Table.mem_names_of_mem (find?_eq_some_iff.mp h)

theorem names_allElements_nodup (m : Model) (d : Definition) :
    (Table.names (m.allElements d)).Nodup := by
  have fold : ∀ (ds : List Definition) (found : Table Definition), (Table.names found).Nodup →
      (Table.names (ds.foldl (fun found d => found.putAll d.ownElements) found)).Nodup := by
    intro ds
    induction ds with
    | nil => intro found h; exact h
    | cons d rest ih => intro found h; exact ih _ (Table.names_nodup_putAll h d.ownElements)
  exact fold (m.lineage d) [] List.nodup_nil

end Model

end SchemaTypes
