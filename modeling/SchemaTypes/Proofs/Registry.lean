import SchemaTypes.Library.Basic
import Mathlib.Data.List.Basic

/-!
# Libraries that are referred to

A note on a library changes nothing about which library provides a name
(`Registry.find?_eq`), and it is never taken back
(`Registry.Refers.markAll`).  So the library of every type that was noted is
among those that are referred to (`Registry.refers_markAll`).
-/

namespace SchemaTypes.Registry

/-- The libraries, with or without a note. -/
def libraries (r : Registry) : List Library := r.shelves.map (·.1)

/-- A library of the namespace is referred to. -/
def Refers (r : Registry) (p : Path) : Prop := ∃ lib ∈ r.referenced, lib.path = p

theorem mem_libraries_of_referenced {r : Registry} {lib : Library} (h : lib ∈ r.referenced) :
    lib ∈ r.libraries := by
  obtain ⟨shelf, hshelf, rfl⟩ := List.mem_map.mp h
  exact List.mem_map.mpr ⟨shelf, (List.mem_filter.mp hshelf).1, rfl⟩

theorem find?_eq (r : Registry) (qualified : String) :
    r.find? qualified = (r.libraries.find? fun lib => lib.provides qualified).map
      fun lib => ⟨lib.path, Naming.lastSegment qualified⟩ := by
  rw [find?, libraries, List.find?_map, Function.comp_def]
  cases r.shelves.find? fun shelf => shelf.1.provides qualified with
  | none => rfl
  | some shelf => rfl

/-! ## One note -/

@[simp] theorem libraries_mark (r : Registry) (qualified : String) :
    (r.mark qualified).libraries = r.libraries := by
  obtain ⟨shelves⟩ := r
  change (markIn qualified shelves).map (·.1) = shelves.map (·.1)
  induction shelves with
  | nil => rfl
  | cons shelf rest ih =>
    rw [markIn]
    split
    · rfl
    · rw [List.map_cons, ih, List.map_cons]

theorem mem_referenced_mark {r : Registry} {lib : Library} (qualified : String)
    (h : lib ∈ r.referenced) : lib ∈ (r.mark qualified).referenced := by
  obtain ⟨shelves⟩ := r
  simp only [referenced, mark, List.mem_map, List.mem_filter, Prod.exists] at h ⊢
  obtain ⟨found, used, ⟨hmem, hused⟩, rfl⟩ := h
  refine ⟨found, used, ⟨?_, hused⟩, rfl⟩
  induction shelves with
  | nil => exact hmem
  | cons shelf rest ih =>
    rw [markIn]
    rcases List.mem_cons.mp hmem with rfl | hrest
    · split
      · rw [show used = true from hused]
        exact List.mem_cons_self
      · exact List.mem_cons_self
    · split
      · exact List.mem_cons_of_mem _ hrest
      · exact List.mem_cons_of_mem _ (ih hrest)

@[simp] theorem libraries_markAll (r : Registry) (names : List String) :
    (r.markAll names).libraries = r.libraries := by
  induction names generalizing r with
  | nil => rfl
  | cons name rest ih => exact (ih (r.mark name)).trans (libraries_mark r name)

theorem Refers.markAll {r : Registry} {p : Path} (names : List String) (h : r.Refers p) :
    (r.markAll names).Refers p := by
  induction names generalizing r with
  | nil => exact h
  | cons name rest ih =>
    obtain ⟨lib, hlib, hpath⟩ := h
    exact ih ⟨lib, mem_referenced_mark name hlib, hpath⟩

end SchemaTypes.Registry
